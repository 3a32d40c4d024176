import Dlmalloc.Machine.Extensions
import Dlmalloc.Properties.Assertions

/-!
# Extending the heap

`end_of_heap_malloc` and `realloc_chunk_after_extend_heap` add the extension to a word that holds
flag bits beside the size, and pass the same amount to `mem_sbrk`. For every `EXTENSION_SIZE` from 8
to 2000 this keeps the flags and the end of the heap right in every run if and only if
`EXTENSION_SIZE` is a multiple of 8 (`extension_sound_iff`). If it is not, the first extension
leaves the break where no chunk can end (`unaligned_extension`).
-/

namespace Dlmalloc

open Heap

/-! ### The flag bits -/

section Flags

variable {α β : Type} {s : State} {ext r d c size : ℕ} {ptr : Addr}

/-- A statement without assertions stops only after it. -/
theorem not_stops_lift_bind {ε : Type} {y : M α} {f : α → ExceptT ε M β}
    (hf : ∀ a t, ¬ Stops (f a) t) : ¬ Stops (liftM y >>= f) s := by
  rw [stops_bind]
  rintro (h | ⟨a, t, -, h⟩)
  · exact not_stops_lift h
  · exact hf a t h

theorem flag_eq_of_mod {a b f : ℕ} (h : a % 4 = b % 4) (hf : f < 4) : a &&& f = b &&& f := by
  have hmod : ∀ x : ℕ, x &&& f = (x % 4) &&& f := fun x => by
    have h1 : (x &&& f) % 2 ^ 2 = (x % 2 ^ 2) &&& (f % 2 ^ 2) := Nat.and_mod_two_pow
    have h2 : x &&& f ≤ f := Nat.and_le_right
    rw [Nat.mod_eq_of_lt (by omega), Nat.mod_eq_of_lt (a := f) (by omega)] at h1
    exact h1
  rw [hmod a, hmod b, h]

/-- Adding a multiple of 8 to a header keeps its flag bits. -/
theorem not_stops_addToHeader (hd : 8 ∣ d) (hfree : s.isCurrentInuse c = 0) :
    ¬ Stops (Watched.addToHeader c d) s := by
  have hword : (s.store .currentSize c (add64 (s.load .currentSize c) d)).load .currentSize c =
      add64 (s.load .currentSize c) d := by
    rw [State.load_store_same]
    exact Nat.mod_eq_of_lt (Nat.mod_lt _ (by decide))
  have hmod : add64 (s.load .currentSize c) d % 4 = s.load .currentSize c % 4 := by
    unfold add64
    omega
  unfold Watched.addToHeader
  rw [stops_lift_bind (load_apply s .currentSize c State.isPtr_load_currentSize),
    stops_lift_bind (store_apply s ..)]
  rintro ⟨e, t, h⟩
  rw [run_assertOr, if_pos] at h
  · cases h
  · rw [State.isCurrentInuse, State.isPreviousInuse, hword]
    exact ⟨(flag_eq_of_mod hmod (by decide)).trans hfree, flag_eq_of_mod hmod (by decide)⟩

theorem add64_dvd {a b : ℕ} (ha : 8 ∣ a) (hb : 8 ∣ b) : 8 ∣ add64 a b := by
  unfold add64
  omega

theorem sub64_dvd {a b : ℕ} (ha : 8 ∣ a) (hb : 8 ∣ b) : 8 ∣ sub64 a b := by
  unfold sub64
  omega

theorem chunkSize_dvd : 8 ∣ s.chunkSize c := by
  rw [State.chunkSize, safeSize_eq State.isPtr_load_currentSize]
  exact Nat.dvd_mul_left 8 _

/-- `mem_sbrk` moves the break and nothing else. -/
theorem memSbrk_frame {x : ℤ} {p : Addr} {t : State} (h : memSbrk x s = some (p, t)) :
    ∃ b, t = { s with memBrk := b } := by
  simp only [memSbrk, M.bind_apply, look_apply, change_apply, Option.bind_some] at h
  split_ifs at h
  · cases h
    exact ⟨_, rfl⟩
  · cases h
    exact ⟨_, rfl⟩

/-- An extension by a multiple of 8 of an end chunk that is not in use. -/
theorem not_stops_extension {x : ℤ} {k : Watched α} (hd : 8 ∣ d) (hfree : s.isCurrentInuse c = 0)
    {fail : α} (hk : ∀ t, ¬ Stops k t) : ¬ Stops (do
      if (← memSbrk x) = SBRK_FAILED then
        return fail
      Watched.addToHeader c d
      k : Watched α) s := by
  rw [stops_bind]
  rintro (h | ⟨p, t, hrun, h⟩)
  · exact not_stops_lift h
  obtain ⟨b, rfl⟩ := memSbrk_frame (Erases.lift hrun)
  split_ifs at h
  · exact not_stops_pure h
  · rw [stops_bind] at h
    rcases h with h | ⟨_, t, -, h⟩
    · exact not_stops_addToHeader (s := { s with memBrk := b }) hd hfree h
    · exact hk t h

theorem not_stops_endOfHeapMalloc (hx : 8 ∣ ext) (hr : 8 ∣ r)
    (hfree : s.isCurrentInuse (s.bin END_OF_HEAP_BIN) = 0) :
    ¬ Stops (Watched.endOfHeapMalloc ext r) s := by
  have htail : ∀ t : State, ¬ Stops (do
      setBin END_OF_HEAP_BIN (← splitChunk (s.bin END_OF_HEAP_BIN) r)
      return s.bin END_OF_HEAP_BIN : Watched Addr) t := fun t =>
    not_stops_lift_bind fun _ _ => not_stops_lift_bind fun _ _ => not_stops_pure
  unfold Watched.endOfHeapMalloc
  rw [stops_lift_bind (bin_apply s _)]
  refine (stops_lift_bind (look_apply s _)).not.mpr ?_
  split_ifs
  · rw [stops_lift_bind (chunkSize_apply s _)]
    exact not_stops_extension (add64_dvd (sub64_dvd hr chunkSize_dvd) hx) hfree htail
  · exact htail s

theorem not_stops_reallocChunkAfterExtendHeap (hx : 8 ∣ ext) (hr : 8 ∣ r)
    (hfree : s.isCurrentInuse (s.nextHeapChunk (userPointerToChunk ptr)) = 0) :
    ¬ Stops (Watched.reallocChunkAfterExtendHeap ext ptr r) s := by
  have htail : ∀ (n : ℕ) (t : State), ¬ Stops (do
      setBin END_OF_HEAP_BIN NULL
      store .currentSize (userPointerToChunk ptr)
        (n ||| (← isPreviousInuse (userPointerToChunk ptr)) ||| CURRENT_CHUNK_INUSE)
      let splittedChunk ← splitMallocdChunk (userPointerToChunk ptr) r
      setPreviousInuse splittedChunk
      setBin END_OF_HEAP_BIN splittedChunk
      return chunkToUserPointer (userPointerToChunk ptr) : Watched Addr) t := fun n t =>
    not_stops_lift_bind fun _ _ => not_stops_lift_bind fun _ _ => not_stops_lift_bind fun _ _ =>
      not_stops_lift_bind fun _ _ => not_stops_lift_bind fun _ _ => not_stops_lift_bind fun _ _ =>
        not_stops_pure
  unfold Watched.reallocChunkAfterExtendHeap
  rw [stops_lift_bind (nextHeapChunk_apply s _)]
  refine (stops_lift_bind (look_apply s _)).not.mpr ?_
  split_ifs
  · refine not_stops_extension ?_ hfree (htail _)
    refine sub64_dvd (add64_dvd (add64_dvd hr (by decide)) hx) ?_
    exact add64_dvd (add64_dvd chunkSize_dvd chunkSize_dvd) (by decide)
  · exact htail _ s

end Flags

/-! ### The calls -/

section Calls

variable {full : Prop} {ext r size N : ℕ} {h : Heap} {s : State} {c : Chunk} {y y' : System}
  {σ : Session} {p : Addr}

theorem Models.end_free {X : Multiset Slot} (hm : Models s h) (hs : Shape ext X h) :
    s.isCurrentInuse (s.bin END_OF_HEAP_BIN) = 0 := by
  obtain ⟨pre, t, hL, ht, htop, -⟩ := hs.exists_top
  have htm : t ∈ h.chunks := by simp [hL]
  rw [hm.top, htop]
  exact (hm.toRep.isCurrentInuse_eq_zero hs htm).mpr (by simp [ht])

/-- The heap ends where the end chunk does. -/
theorem Models.endsAtBrk {X : Multiset Slot} (hm : Models s h) (hs : Shape ext X h) :
    s.EndsAtBrk := by
  obtain ⟨pre, t, hL, -, htop, hbrk⟩ := hs.exists_top
  have htm : t ∈ h.chunks := by simp [hL]
  have hbelow := (hs.fits htm).below
  have hnext : s.nextHeapChunk (s.bin END_OF_HEAP_BIN) = t.next := by
    rw [hm.top, htop]
    exact hm.toRep.nextHeapChunk hs htm
  have hadd : add64 t.next 8 = t.next + 8 := add64_of_lt (by omega)
  rw [State.EndsAtBrk, hnext, hadd, hm.toRep.memBrk]
  exact hbrk

/-- The end of the heap is tried if nothing was found in the bins, in the same state. -/
theorem not_stops_supply {α : Type} {k : Addr → Watched α} (hm : Models s h)
    (hi : Inv full ext h) (hx : 8 ∣ ext) (hq : Request r) (hk : ∀ p t, ¬ Stops (k p) t) :
    ¬ Stops (do
      let result ← if isLargeSize r then largeMalloc r else smallMalloc r
      if result = NULL then
        let result ← Watched.endOfHeapMalloc ext r
        k result
      else
        k result : Watched α) s := by
  have hend : ∀ (x : M Addr) (o : Option (ℕ × Heap)), Returns x s (Served (InUse h.chunks) s o) →
      ¬ Stops (liftM x >>= fun p => if p = NULL then Watched.endOfHeapMalloc ext r >>= k else k p :
        Watched α) s := by
    intro x o hserved
    rw [stops_bind]
    rintro (hstop | ⟨p, t, hrun, hstop⟩)
    · exact not_stops_lift hstop
    have hp := hserved.elim (Erases.lift hrun)
    -- served from the bins, or the end of the heap is asked
    cases o with
    | some out =>
      have hp0 : p ≠ NULL := by
        rw [hp.1]
        exact hp.2.1
      rw [if_neg hp0] at hstop
      exact hk p t hstop
    | none =>
      obtain ⟨rfl, rfl⟩ := hp
      rw [if_pos rfl, stops_bind] at hstop
      rcases hstop with hstop | ⟨p, t, -, hstop⟩
      · exact not_stops_endOfHeapMalloc hx hq.aligned (hm.end_free hi.shape) hstop
      · exact hk p t hstop
  by_cases hl : isLargeSize r
  · rw [if_pos hl]
    exact hend _ _ (largeMalloc_spec hm hi hq hl)
  · rw [if_neg hl]
    exact hend _ _ (smallMalloc_spec hm hi hq hl)

theorem not_stops_myMalloc (hm : Models s h) (hi : Inv full ext h) (hx : 8 ∣ ext) :
    ¬ Stops (Watched.myMalloc ext size) s := by
  unfold Watched.myMalloc
  by_cases h0 : size = 0
  · rw [if_pos h0]
    exact not_stops_pure
  · rw [if_neg h0]
    refine not_stops_supply hm hi hx (request_requestSize size) fun p t => ?_
    beta_reduce
    split_ifs
    · exact not_stops_lift_bind fun _ _ => not_stops_lift_bind fun _ _ =>
        not_stops_lift_bind fun _ _ => not_stops_pure
    · exact not_stops_pure

theorem not_stops_defaultRealloc {ptr : Addr} (hm : Models s h) (hi : Inv full ext h)
    (hx : 8 ∣ ext) : ¬ Stops (Watched.defaultRealloc ext ptr size) s := by
  unfold Watched.defaultRealloc
  rw [stops_lift_bind (chunkSize_apply s _)]
  split_ifs with hsame
  · exact not_stops_pure
  all_goals
    rw [stops_bind]
    rintro (hstop | ⟨p, t, -, hstop⟩)
    · exact not_stops_myMalloc hm hi hx hstop
    · split_ifs at hstop
      · exact not_stops_pure hstop
      · exact not_stops_lift_bind (fun _ _ => not_stops_lift_bind fun _ _ => not_stops_pure) hstop

/-- A way to grow that gives up leaves the state to the next one. -/
theorem not_stops_try {v : Bool} {x : Watched Addr} {z : M Addr} {k : Addr → Watched Addr}
    (he : Erases x z) (hx : v = true → ¬ Stops x s)
    (hz : v = true → ∀ t, z s = some (NULL, t) → t = s) (hk : ¬ Stops (k NULL) s) :
    ¬ Stops (if v then x >>= fun p => if p ≠ NULL then pure p else k p
      else if NULL ≠ NULL then pure NULL else k NULL) s := by
  cases v with
  | false => exact hk
  | true =>
    rw [if_pos rfl, stops_bind]
    rintro (hstop | ⟨p, t, hrun, hstop⟩)
    · exact hx rfl hstop
    by_cases hp : p ≠ NULL
    · rw [if_pos hp] at hstop
      exact not_stops_pure hstop
    · obtain rfl : p = NULL := not_not.mp hp
      obtain rfl := hz rfl t (he hrun)
      rw [if_neg hp] at hstop
      exact hk hstop

theorem Attempt.unchanged {x : M Addr} {short : Prop} {t : State} (hx : Attempt x s short)
    (hrun : x s = some (NULL, t)) : t = s := by
  by_cases hshort : short
  · exact (Prod.mk.inj (Option.some.inj ((hx.gives_up hshort).symm.trans hrun))).2.symm
  · exact absurd rfl (hx.succeeds hshort _ _ hrun)

theorem not_stops_growth {d : Chunk} {pre post : List Chunk} (hm : Models s h)
    (hi : Inv full ext h) (hx : Extension ext) (hq : Request r) (hbound : r + 32 + ext < 2 ^ 31)
    (hL : h.chunks = pre ++ c :: d :: post) (hc : c.status = .inuse) :
    ¬ Stops ((Watched.growth ext).reallocChunkIsLarger (chunkToUserPointer c.addr) r) s := by
  have hs := hi.shape
  have hcm : c ∈ h.chunks := Shape.mem_chunks hL
  have hdm : d ∈ h.chunks := by simp [hL]
  obtain ⟨hptr, hup⟩ := hs.ptr hcm
  rw [← hup] at hptr
  have hp0 : chunkToUserPointer c.addr ≠ NULL := by
    rw [hup]
    exact Nat.succ_ne_zero _
  have hcan := hm.canCombineNext hs hL
  have hprev := hm.canCombinePrevious hs hcm
  have hnext := hm.nextHeapChunk hs hL
  have hend := hm.isEndOfHeap hs hdm
  have hread : s.nextHeapChunk c.addr = d.addr :=
    (Prod.mk.inj (Option.some.inj ((nextHeapChunk_apply s c.addr).symm.trans hnext))).1
  -- the chunk before, where the tag says that it is free
  have hbefore : c.pinuse = false → IsPtr (s.load .previousSize c.addr) ∧
      chunkToUserPointer (s.previousHeapChunk c.addr) ≠ NULL := fun hp => by
    obtain ⟨pre', p, rfl, hfree⟩ := exists_of_lastFree ((hi.tags_around hL).2.1 hp)
    have hL1 : h.chunks = pre' ++ p :: c :: d :: post := by rw [hL, List.append_assoc]; rfl
    refine ⟨hm.isPtr_footer hs hL1 hfree, ?_⟩
    rw [(hm.toRep.footer_eq hs hL1 hfree).2, (hs.ptr (Shape.mem_chunks hL1)).2]
    exact Nat.succ_ne_zero _
  unfold Growth.reallocChunkIsLarger
  simp only [hptr, Watched.growth]
  refine (stops_lift_bind hcan).not.mpr ?_
  refine not_stops_try (k := fun p => _) .lift (fun _ => not_stops_lift)
    (fun _ t => (reallocChunkAndAfter_attempt hp0 hptr).unchanged) ?_
  refine (stops_lift_bind hprev).not.mpr ((stops_lift_bind hcan).not.mpr ?_)
  refine not_stops_try (k := fun p => _) .lift (fun _ => not_stops_lift) (fun hv t => ?_) ?_
  · have hv' : c.pinuse = false ∧ d.status ≠ .inuse := by simpa using hv
    obtain ⟨hfooter, hp⟩ := hbefore hv'.1
    exact (reallocChunkBeforeAndAfter_attempt hfooter hp hptr).unchanged
  refine (stops_lift_bind hprev).not.mpr ((stops_lift_bind hnext).not.mpr
    ((stops_lift_bind hend).not.mpr ?_))
  refine not_stops_try (k := fun p => _) .lift (fun _ => not_stops_lift) (fun hv t => ?_) ?_
  · have hv' : c.pinuse = false ∧ d.status ≠ .top := by simpa using hv
    obtain ⟨hfooter, hp⟩ := hbefore hv'.1
    exact (reallocChunkAndBefore_attempt hfooter hp hptr).unchanged
  refine (stops_lift_bind hcan).not.mpr ((stops_lift_bind hnext).not.mpr
    ((stops_lift_bind hend).not.mpr ?_))
  refine not_stops_try (k := fun p => _) Watched.reallocChunkAfterExtendHeap_erases (fun hv => ?_)
    (fun hv t hrun => ?_) ?_
  · have hd : d.status ≠ .inuse ∧ d.status = .top := by simpa using hv
    refine not_stops_reallocChunkAfterExtendHeap hx.aligned hq.aligned ?_
    rw [hptr, hread]
    exact (hm.toRep.isCurrentInuse_eq_zero hs hdm).mpr hd.1
  · have hd : d.status ≠ .inuse ∧ d.status = .top := by simpa using hv
    have hpost : post = [] := by
      have h1 := hs.topLast
      rw [hL, ← List.singleton_append, ← List.append_assoc] at h1
      exact h1.post_eq_nil hd.2
    rw [hup] at hrun
    have hp := (reallocChunkAfterExtendHeap_spec hm hi hx hq hbound (hpost ▸ hL) hc hd.2).elim hrun
    cases ho : growTop ext c r h with
    | none =>
      rw [ho] at hp
      exact hp.2
    | some out =>
      rw [ho] at hp
      exact absurd hp.1.symm (Nat.succ_ne_zero _)
  · exact not_stops_defaultRealloc hm hi hx.aligned

/-- With an aligned `EXTENSION_SIZE` no call on live blocks changes the flag bits of the end chunk
when it extends the heap. -/
theorem Tracks.keepsFlags (ht : Tracks full ext y σ) (hx : Extension ext)
    (hN : N + 39 + ext < 2 ^ 31) {c : Call} (hc : c.Valid N y.live) : c.KeepsFlags ext y := by
  have hm := ht.follows.models
  have hi := ht.good.inv
  cases c with
  | malloc size => exact not_stops_myMalloc hm hi hx.aligned
  | free i => trivial
  | realloc i size =>
    intro b hb
    obtain ⟨c, hcm, hst, hptr, -⟩ := ht.good.chunk (ht.follows.live ▸ hb)
    obtain ⟨pre, post, hL⟩ := List.append_of_mem hcm
    obtain ⟨d, post', rfl, -⟩ := hi.shape.exists_next hL (by simp [hst])
    rw [hptr, ← (hi.shape.ptr hcm).2]
    intro hstop
    exact not_stops_growth hm hi hx (request_requestSize size) (requestSize_bound hx hN hc.2) hL hst
      (Growth.stops_myRealloc.mp hstop).2

end Calls

/-! ### An extension that is not aligned -/

section Unaligned

variable {ext r c : ℕ} {s : State}

theorem nextHeapChunk_dvd (hc : 8 ∣ c) : 8 ∣ s.nextHeapChunk c :=
  add64_dvd (add64_dvd hc chunkSize_dvd) (by decide)

theorem splitChunk_end (hc : 8 ∣ c) :
    Returns (splitChunk c r) s fun a t => 8 ∣ a ∧ t.memBrk = s.memBrk := by
  unfold splitChunk
  refine .bind_of_eq (chunkSize_apply s c) ?_
  refine .bind_of_eq (isPreviousInuse_apply s c) ?_
  refine .bind_of_eq (store_apply s ..) ?_
  refine .bind_of_eq (nextHeapChunk_apply _ c) ?_
  refine .bind_of_eq (store_apply _ ..) ?_
  refine .bind_of_eq (store_apply _ ..) ?_
  refine .bind_of_eq (isEndOfHeap_apply _ _) ?_
  have hnext := nextHeapChunk_dvd (s := s.store .currentSize c (r ||| s.isPreviousInuse c)) hc
  split_ifs
  · exact .pure ⟨hnext, rfl⟩
  · refine .bind_of_eq (nextHeapChunk_apply _ _) ?_
    refine .bind_of_eq (store_apply _ ..) ?_
    exact .pure ⟨hnext, rfl⟩

theorem endOfHeapMalloc_extends (hx : ext ≤ 2000) (hend : s.bin END_OF_HEAP_BIN = 16)
    (hsize : s.chunkSize 16 = 39184) (hbrk : s.memBrk = 39216)
    (hmax : s.memMaxAddr = 16 + MAX_HEAP) : Returns (endOfHeapMalloc ext 39200) s fun p t =>
      p = 16 ∧ 8 ∣ t.bin END_OF_HEAP_BIN ∧ t.memBrk = 39232 + ext := by
  -- the increment the code computes, and the room for it
  have hgrow : add64 (sub64 39200 39184) ext = 16 + ext := by
    simp only [add64, sub64]
    omega
  have hroom : 39216 + (16 + ext) ≤ 16 + MAX_HEAP := by
    simp only [MAX_HEAP]
    omega
  have hrun : memSbrk (toInt (16 + ext)) s =
      some ((39216 : ℕ), { s with memBrk := (39216 + (16 + ext) : ℕ) }) := by
    rw [memSbrk_run (by omega) (by rw [hbrk]; decide), hbrk, hmax, if_pos hroom]
  unfold endOfHeapMalloc
  refine .bind_of_eq (bin_apply s _) ?_
  rw [hend]
  refine .bind_of_eq (look_apply s _) ?_
  rw [hsize, if_pos (by decide)]
  refine .bind_of_eq (chunkSize_apply s _) ?_
  rw [hsize, hgrow]
  -- the heap grows, and the chunk is split at the request
  refine .bind_of_eq hrun ?_
  rw [if_neg (by decide)]
  refine .bind_of_eq (load_apply _ _ _ State.isPtr_load_currentSize) ?_
  refine .bind_of_eq (store_apply _ ..) ?_
  refine (splitChunk_end (by decide)).bind_of fun a t hpost => ?_
  refine .bind_of_eq (setBin_apply t _ _ endOfHeapBin_lt) (.pure ⟨rfl, ?_, ?_⟩)
  · rw [State.bin_setBin_same (by decide)]
    exact hpost.1
  · rw [State.setBin_memBrk, hpost.2]
    show 39216 + (16 + ext) = 39232 + ext
    omega

/-- The first large block does not fit, and the heap is extended by a few bytes and
`EXTENSION_SIZE`. -/
theorem myMalloc_extends (hx : ext ≤ 2000) :
    Returns (myMalloc ext 39200) (System.blank 16).state fun p t =>
      p = 32 ∧ 8 ∣ t.bin END_OF_HEAP_BIN ∧ t.memBrk = 39232 + ext := by
  obtain ⟨-, ht⟩ := tracks_blank EXTENSION_SIZE (b := 16) (by decide) (by decide)
  have hm := ht.follows.models
  have hi := ht.good.inv
  have hs := hi.shape
  have hreq : requestSize 39200 = 39200 := by decide
  have hq : Request 39200 := hreq ▸ request_requestSize 39200
  have hL : (Session.initial 16).heap.chunks = [⟨16, 39184, .top, true⟩] := by decide +kernel
  have hmem : (⟨16, 39184, .top, true⟩ : Chunk) ∈ (Session.initial 16).heap.chunks := by simp [hL]
  generalize (System.blank 16).state = s at *
  have hend : s.bin END_OF_HEAP_BIN = 16 := by
    obtain ⟨pre, t, hLt, -, htop, -⟩ := hs.exists_top
    rw [hm.top]
    decide +kernel
  have hsize : s.chunkSize 16 = 39184 := by
    have h1 := hm.toRep.chunkSize hs hmem
    exact h1
  have hbrk : s.memBrk = 39216 := by
    rw [hm.toRep.memBrk]
    decide +kernel
  have hmax : s.memMaxAddr = 16 + MAX_HEAP := by
    rw [hm.toRep.memMaxAddr]
    decide +kernel
  -- nothing in the bins
  have hnone : Heap.largeMalloc 39200 (Session.initial 16).heap = none := by decide +kernel
  have hlarge := largeMalloc_spec hm hi hq (by decide)
  rw [hnone] at hlarge
  unfold myMalloc
  rw [if_neg (by decide), hreq, if_pos (by decide)]
  refine hlarge.bind_of fun p t hp => ?_
  obtain ⟨rfl, rfl⟩ := hp
  beta_reduce
  rw [if_pos rfl]
  refine (endOfHeapMalloc_extends hx hend hsize hbrk hmax).bind_of fun p u hp => ?_
  obtain ⟨rfl, hlast, hu⟩ := hp
  beta_reduce
  rw [if_pos (by decide)]
  refine .bind_of_eq (setCurrentInuse_apply u _) ?_
  refine .bind_of_eq (nextHeapChunk_apply _ _) ?_
  refine .bind_of_eq (setPreviousInuse_apply _ _) ?_
  exact .pure ⟨by decide, hlast, hu⟩

end Unaligned

/-! ### Which extension sizes are sound -/

section Soundness

variable {ext : ℕ}

/-- In every run, no extension changes the flag bits of the end chunk, and after a call that moves
the break the heap ends eight bytes below it. -/
def ExtendsSoundly (ext : ℕ) : Prop :=
  ∀ (y : System) (c : Call) (p : Addr) (y' : System), Reachable ext (Sized (2 ^ 31 - 4096)) y →
    c.Valid (2 ^ 31 - 4096) y.live → c.run ext y = some (p, y') →
    c.KeepsFlags ext y ∧ (y'.state.memBrk ≠ y.state.memBrk → y'.state.EndsAtBrk)

theorem extendsSoundly_of_dvd (hx : Extension ext) : ExtendsSoundly ext := by
  intro y c p y' hy hc hrun
  have hmost := hx.most
  have hN : 2 ^ 31 - 4096 + 39 + ext < 2 ^ 31 := by omega
  obtain ⟨σ, ht⟩ := hy.tracks hx hN (fun _ _ h => h) False.elim
  obtain ⟨y₁, hrun₁, ht₁, -⟩ := ht.call hx hN hc
  obtain ⟨-, rfl⟩ := Prod.mk.inj (Option.some.inj (hrun₁.symm.trans hrun))
  exact ⟨ht.keepsFlags hx hN hc, fun _ => ht₁.follows.models.endsAtBrk ht₁.good.inv.shape⟩

/-- If `EXTENSION_SIZE` is not a multiple of 8, then `my_malloc(39200)`, right after `my_init`,
moves the break to where no chunk ends. -/
theorem unaligned_extension (hx : ext ≤ 2000) (h8 : ¬ 8 ∣ ext) : ∃ y',
    (Call.malloc 39200).run ext (.blank 16) = some ((32 : ℕ), y') ∧
    y'.state.memBrk ≠ (System.blank 16).state.memBrk ∧ ¬ y'.state.EndsAtBrk := by
  obtain ⟨-, ht⟩ := tracks_blank EXTENSION_SIZE (b := 16) (by decide) (by decide)
  obtain ⟨p, t, hrun, rfl, hend, hbrk⟩ := myMalloc_extends hx
  refine ⟨⟨t, (System.blank 16).live ++ [⟨(32 : ℕ), 39200⟩]⟩, ?_, ?_, fun hsound => h8 ?_⟩
  · rw [Call.run, hrun]
    rfl
  · have h1 : (System.blank 16).state.memBrk = (39216 : ℕ) := by
      rw [ht.follows.models.memBrk]
      decide +kernel
    rw [hbrk, h1]
    exact fun h : 39232 + ext = 39216 => by omega
  · -- a chunk ends at a multiple of 8
    have h1 : 8 ∣ 39232 + ext := by
      rw [← hbrk, ← hsound]
      exact add64_dvd (nextHeapChunk_dvd hend) (by decide)
    omega

/-- **Extending the heap is sound** exactly for the multiples of 8. -/
theorem extension_sound_iff (hlo : 8 ≤ ext) (hhi : ext ≤ 2000) : ExtendsSoundly ext ↔ 8 ∣ ext := by
  constructor
  · intro hsound
    by_contra h8
    obtain ⟨y', hrun, hne, hend⟩ := unaligned_extension hhi h8
    exact hend ((hsound _ _ _ y' (reachable_blank (b := 16) (by decide) (by decide))
      (by decide) hrun).2 hne)
  · intro h8
    exact extendsSoundly_of_dvd ⟨h8, hlo, hhi⟩

theorem extension_sound_iff_default : ExtendsSoundly EXTENSION_SIZE ↔ 8 ∣ EXTENSION_SIZE :=
  extension_sound_iff (by decide) (by decide)

theorem not_always_extends_soundly : ¬ ∀ ext, 8 ≤ ext → ext ≤ 2000 → ExtendsSoundly ext := by
  intro hsound
  obtain ⟨y', hrun, hne, hend⟩ := unaligned_extension (show 12 ≤ 2000 by decide) (by decide)
  exact hend ((hsound 12 (by decide) (by decide) _ _ _ y'
    (reachable_blank (b := 16) (by decide) (by decide)) (by decide) hrun).2 hne)

end Soundness

end Dlmalloc
