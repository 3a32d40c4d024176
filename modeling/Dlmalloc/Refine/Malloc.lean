import Dlmalloc.Refine.Brk

/-!
# Allocation in memory

Each source of memory that `my_malloc` tries does what its counterpart on the row does, or returns
`NULL` and changes nothing (`Served`). `myMalloc_spec` puts them together.
-/

namespace Dlmalloc

open Heap

/-- The outcome of a function that allocates, called in the state `s` that holds the heap `h`: what
the row has, in memory, or `NULL` in the same state. -/
def Served (U : Set Slot) (s : State) (o : Option (ℕ × Heap)) (p : Addr) (s' : State) : Prop :=
  match o with
  | none => p = NULL ∧ s' = s
  | some (a, h') => p = a ∧ a ≠ NULL ∧ Models s' h' ∧ Keeps U s s'

/-- The outcome of a call that returns a pointer to the payload of a chunk. -/
def Answered (U : Set Slot) (s : State) (o : Option (ℕ × Heap)) (p : Addr) (s' : State) : Prop :=
  match o with
  | none => p = NULL ∧ s' = s
  | some (a, h') => p = a + 16 ∧ Models s' h' ∧ Keeps U s s'

section Malloc

variable {full : Prop} {ext r : ℕ} {X : Multiset Slot} {h : Heap} {s s' : State} {c d : Chunk}
  {e : Slot} {pre post : List Chunk}

theorem canSplitChunk_apply (c r : ℕ) (s : State) : canSplitChunk c r s =
    some (decide (add64 r SMALLEST_CHUNK ≤ s.chunkSize c), s) := rfl

/-- The end of the heap is not touched by edits before it. -/
theorem Heap.top_congr {A B Q : List Chunk} {h' : Heap} (hL : h.chunks = A ++ Q)
    (hL' : h'.chunks = B ++ Q) (hne : Q ≠ []) : h'.top = h.top := by
  cases hp : Q.getLast? with
  | none => exact absurd (List.getLast?_eq_none_iff.mp hp) hne
  | some t => simp [Heap.top, hL, hL', List.getLast?_append, hp]

/-- Splitting a free chunk off for a request, with the rest as the new victim. -/
theorem splitVictim_spec (hm : Models s h) (hs : Shape ext (e ::ₘ X) h) (hq : Request r)
    (hfit : r + SMALLEST_CHUNK ≤ e.2) :
    Returns (do setBin VICTIM_BIN (← splitChunk e.1 r) : M Unit) s fun _ s' =>
      Models s' { h with
        chunks := carve e.1 r h.chunks
        bins := { h.bins with victim := some (e.1 + r + 8, e.2 - r - 8) } } ∧
      Keeps (InUse h.chunks) s s' := by
  obtain ⟨pre, c, post, hL, rfl, hst⟩ := hs.mem_free (.inl (Multiset.mem_cons_self _ _))
  have hfit' : r + 32 ≤ c.size := hfit
  have hcm : c ∈ h.chunks := Shape.mem_chunks hL
  obtain ⟨pre', t, hL', ht, htop, -⟩ := hs.exists_top
  have htm : t ∈ h.chunks := by simp [hL']
  -- the remainder is not the end of the heap, so its flags say free
  have hne : s.bin END_OF_HEAP_BIN ≠ c.addr + r + 8 := by
    have hta : t.addr ≠ c.addr + r + 8 := by
      rcases hs.tiles.apart htm hcm with rfl | h' | h'
      · omega
      all_goals
        simp only [Chunk.next] at h'
        omega
    rw [hm.top, htop]
    exact hta
  obtain ⟨d, post', rfl, -⟩ := hs.exists_next hL (by simp [hst])
  refine (splitChunk_spec hm.toRep hs hL (by simp [hst]) ?_ hq.aligned hq.least (by omega)
    hne).bind_of fun a s' hpost => ?_
  · simp [freeSlots_cons, hst]
  · obtain ⟨ha, hr, hf⟩ := hpost
    -- the carving lies before the end of the heap
    have htop' : Heap.top { h with chunks := carve c.addr r h.chunks } = h.top :=
      Heap.top_congr (A := pre ++ [c]) (Q := d :: post')
        (B := pre ++ [⟨c.addr, r, .free, c.pinuse⟩, remainder c r]) (by simpa using hL)
        (by simpa using hs.carve_chunks (r := r) hL) (by simp)
    refine .intro (setBin_apply s' _ _ victimBin_lt)
      ⟨⟨ha ▸ hr.setVictim (v := some (c.addr + r + 8, _)), ?_⟩,
        hf.keeps.trans (keeps_setBin _ _ _ _)⟩
    rw [State.bin_setBin_of_ne (by decide), hf.top, hm.top]
    exact (congrArg Prod.fst htop').symm

/-! ### The victim -/

/-- Whether a chunk can be split for a request. -/
theorem Heap.Shape.canSplit (hs : Shape ext X h) (hr : Rep s h) (hc : c ∈ h.chunks)
    (hsmall : r < 2 ^ 32) :
    canSplitChunk c.addr r s = some (decide (r + SMALLEST_CHUNK ≤ c.size), s) := by
  have h1 : add64 r SMALLEST_CHUNK = r + SMALLEST_CHUNK := by
    simp only [add64, SMALLEST_CHUNK, SMALLEST_MALLOC]
    omega
  rw [canSplitChunk_apply, h1, (hs.fits hc).chunkSize (hr.headers c hc).word]

theorem victimMalloc_spec (hm : Models s h) (hi : Inv full ext h) (hq : Request r)
    (hsmall : r < 2 ^ 32) : Returns (victimMalloc r) s
      (Served (InUse h.chunks) s (Heap.victimMalloc r h)) := by
  have hs := hi.shape
  have hv := hm.victim
  unfold Dlmalloc.victimMalloc
  refine Returns.bind_of_eq (bin_apply s VICTIM_BIN) ?_
  cases hvic : h.bins.victim with
  | none =>
    rw [hvic] at hv
    rw [if_neg (by simp [hv])]
    exact .pure (by simp [Served, Heap.victimMalloc, hvic])
  | some v =>
    rw [hvic, pointer_some] at hv
    rw [Bins.victimSlot_of_some hvic, ← Multiset.cons_zero] at hs
    obtain ⟨pre, c, post, hL, rfl, hst⟩ := hs.mem_free (.inl (Multiset.mem_cons_self _ _))
    have hcm : c ∈ h.chunks := Shape.mem_chunks hL
    have hc0 : c.addr ≠ NULL := by
      have h1 := (hs.bounds hcm).1
      have h2 := hs.first_pos
      simp only [NULL]
      omega
    have hsz := (hs.fits hcm).chunkSize (hm.headers c hcm).word
    have hv' : s.bin VICTIM_BIN = c.addr := hv
    rw [hv', if_pos hc0]
    refine Returns.bind_of_eq (hs.canSplit hm.toRep hcm hsmall) ?_
    -- large enough to split
    by_cases hfit : r + SMALLEST_CHUNK ≤ c.size
    · rw [if_pos (by simpa using hfit)]
      refine (splitVictim_spec hm hs hq hfit).bind_bind_of fun _ s' hpost => ?_
      obtain ⟨hm', hk⟩ := hpost
      refine .pure ?_
      simp only [Served, Heap.victimMalloc, hvic, Chunk.slot, if_pos hfit]
      exact ⟨trivial, hc0, hm', hk⟩
    · rw [if_neg (by simpa using hfit)]
      refine Returns.bind_of_eq (chunkSize_apply s c.addr) ?_
      rw [hsz]
      -- handed out whole, or left as it is
      by_cases hle : r ≤ c.size
      · rw [if_pos hle]
        refine Returns.bind_of_eq (setBin_apply s _ _ victimBin_lt) (.pure ?_)
        simp only [Served, Heap.victimMalloc, hvic, Chunk.slot, if_neg hfit, if_pos hle]
        refine ⟨trivial, hc0, ⟨hm.toRep.setVictim (v := none), ?_⟩, keeps_setBin _ _ _ _⟩
        rw [State.bin_setBin_of_ne (by decide), hm.top]
        rfl
      · rw [if_neg hle]
        exact .pure (by simp [Served, Heap.victimMalloc, hvic, Chunk.slot, hfit, hle])

/-! ### Chunks from the bins -/

/-- A chunk is taken out of its bin, between calls. -/
theorem Models.unbin (hm : Models s h) (hi : Inv full ext h) (he : e ∈ h.bins.binned) :
    Returns (removeChunk e.1) s fun _ s' => Models s' { h with bins := h.bins.unbin e } ∧
      Keeps (InUse h.chunks) s s' :=
  (hm.toRep.removeChunk_spec hi.shape he).mono fun _ _ h' =>
    ⟨⟨h'.1, h'.2.top.trans hm.top⟩, h'.2.keeps⟩

theorem Heap.Shape.pos_of_free (hs : Shape ext X h) (he : e ∈ X ∨ e ∈ h.bins.binned) :
    e.1 ≠ NULL := by
  obtain ⟨pre, c, post, hL, rfl, -⟩ := hs.mem_free he
  have h1 := (hs.bounds (Shape.mem_chunks hL)).1
  have h2 := hs.first_pos
  simp only [NULL, Chunk.slot]
  omega

theorem Heap.Shape.isPtr_of_free (hs : Shape ext X h) (he : e ∈ X ∨ e ∈ h.bins.binned) :
    IsPtr e.1 := by
  obtain ⟨pre, c, post, hL, rfl, -⟩ := hs.mem_free he
  have h1 := (hs.fits (Shape.mem_chunks hL)).below
  simp only [IsPtr, Chunk.slot, Chunk.next] at h1 ⊢
  omega

theorem Heap.Shape.chunkSize_of_free (hs : Shape ext X h) (hr : Rep s h)
    (he : e ∈ X ∨ e ∈ h.bins.binned) : s.chunkSize e.1 = e.2 := by
  obtain ⟨pre, c, post, hL, rfl, -⟩ := hs.mem_free he
  have hc := Shape.mem_chunks hL
  exact (hs.fits hc).chunkSize (hr.headers c hc).word

/-- The end of `small_malloc` and `large_malloc`. -/
theorem splitOffVictim_spec (hm : Models s h) (hs : Shape ext (e ::ₘ h.bins.victimSlot) h)
    (hq : Request r) (hsmall : r < 2 ^ 32) : Returns (splitOffVictim e.1 r) s fun _ s' =>
      Models s' (Heap.splitOffVictim e r h) ∧ Keeps (InUse h.chunks) s s' := by
  obtain ⟨pre, c, post, hL, rfl, hst⟩ := hs.mem_free (.inl (Multiset.mem_cons_self _ _))
  have hcm : c ∈ h.chunks := Shape.mem_chunks hL
  unfold Dlmalloc.splitOffVictim Heap.splitOffVictim
  refine Returns.bind_of_eq (hs.canSplit hm.toRep hcm hsmall) ?_
  by_cases hfit : r + SMALLEST_CHUNK ≤ c.size
  · have hfit' : r + SMALLEST_CHUNK ≤ c.slot.2 := hfit
    rw [if_pos (by simpa using hfit), if_pos hfit']
    refine Returns.bind_of_eq (bin_apply s VICTIM_BIN) ?_
    have hret : Shape ext {c.slot} { h with bins := h.bins.retire } := by
      refine Shape.retire ?_
      rw [add_comm, Multiset.singleton_add]
      exact hs
    -- the old victim goes into its bin
    have hretire : ∀ k : M Unit, ∀ Q : Unit → State → Prop, (∀ s',
        Models s' { h with bins := h.bins.retire } → Keeps (InUse h.chunks) s s' →
          Returns k s' Q) →
        Returns (do
          if s.bin VICTIM_BIN ≠ NULL then
            let _ ← insertChunk (← bin VICTIM_BIN)
          k : M Unit) s Q := fun k Q hk => by
      cases hvic : h.bins.victim with
      | none =>
        rw [if_neg (by simp [hm.victim, hvic])]
        refine hk s ?_ (.refl _ _)
        simpa [Bins.retire, hvic] using hm
      | some v =>
        rw [Bins.victimSlot_of_some hvic, ← Multiset.singleton_add, add_comm,
          Multiset.singleton_add] at hs
        have hv0 : v.1 ≠ NULL := hs.pos_of_free (.inl (Multiset.mem_cons_self _ _))
        have hbv : s.bin VICTIM_BIN = v.1 := by rw [hm.victim, hvic, pointer_some]
        rw [hbv, if_pos hv0]
        refine Returns.bind_of_eq (bin_apply s VICTIM_BIN) ?_
        rw [hbv]
        refine (hm.toRep.insertChunk_spec hs).bind_of fun _ s' hpost => ?_
        obtain ⟨h1, h2⟩ := hpost
        refine hk s' ⟨?_, h2.top.trans hm.top⟩ h2.keeps
        simpa [Bins.retire, hvic] using h1
    refine hretire _ _ fun s' hm' hk => ?_
    refine (splitVictim_spec hm' hret hq hfit').mono fun _ s'' hpost => ?_
    obtain ⟨h1, h2⟩ := hpost
    exact ⟨h1, hk.trans h2⟩
  · rw [if_neg (by simpa using hfit), if_neg (by simpa [Chunk.slot] using hfit)]
    exact .pure ⟨hm, .refl _ _⟩

theorem removeChunk_of_large {p : ℕ} (hl : isLargeSize (s.chunkSize p)) :
    removeLargeChunk p s = removeChunk p s := by
  simp [removeChunk, hl]

theorem removeChunk_of_small {p : ℕ} (hl : ¬ isLargeSize (s.chunkSize p)) :
    removeSmallChunk p s = removeChunk p s := by
  simp [removeChunk, hl]

theorem removeChunk_of_huge {p : ℕ} (hh : isHugeSize (s.chunkSize p)) :
    removeHugeChunk p s = removeChunk p s := by
  rw [← removeChunk_of_large (isLargeSize_of_isHugeSize hh)]
  simp [removeLargeChunk, hh]

/-- A large chunk found by a search is taken out of its bin and split. -/
theorem takeBinned_spec (hm : Models s h) (hi : Inv full ext h) (hq : Request r)
    (hsmall : r < 2 ^ 32) (he : e ∈ h.bins.binned) (hl : isLargeSize e.2) :
    Returns (do
      let _ ← removeLargeChunk e.1
      splitOffVictim e.1 r
      return e.1 : M Addr) s (Served (InUse h.chunks) s (some (takeBinned r h e))) := by
  have hs := hi.shape
  have hrem := hm.unbin hi he
  -- the chunk is large by its header, so `remove_chunk` goes to the trees
  have hsize : isLargeSize (s.chunkSize e.1) := by
    rw [hs.chunkSize_of_free hm.toRep (.inr he)]
    exact hl
  obtain ⟨a, s', hrun, hm', hk⟩ := hrem
  refine Returns.bind_of_eq ((removeChunk_of_large hsize).trans hrun) ?_
  have hs' : Shape ext (e ::ₘ (h.bins.unbin e).victimSlot) { h with bins := h.bins.unbin e } := by
    rw [Bins.victimSlot_unbin]
    exact hs.unbin he
  refine (splitOffVictim_spec hm' hs' hq hsmall).bind_of fun _ s'' hpost => ?_
  obtain ⟨h1, h2⟩ := hpost
  refine .pure ?_
  exact ⟨rfl, hs.pos_of_free (.inr he), h1, hk.trans h2⟩

theorem smallMalloc_spec (hm : Models s h) (hi : Inv full ext h) (hq : Request r)
    (hl : ¬ isLargeSize r) :
    Returns (smallMalloc r) s (Served (InUse h.chunks) s (Heap.smallMalloc r h)) := by
  have hs := hi.shape
  have hr249 : r ≤ 249 := not_lt.mp hl
  have hsmall : r < 2 ^ 32 := by omega
  obtain ⟨h3, h32⟩ := smallRequestIndex_bounds hl hq.least
  have hn2 : smallRequestIndex r ≠ HUGE_BIN := by
    unfold HUGE_BIN
    omega
  have h8 : 8 * smallRequestIndex r = r := by
    have := hq.aligned
    rw [smallRequestIndex_eq hl]
    omega
  have hrep := hm.bin (smallRequestIndex r) (by omega) (by unfold NUM_OF_BINS; omega)
  rw [BinRep.small hn2 h32] at hrep
  unfold Dlmalloc.smallMalloc
  refine Returns.bind_of_eq (bin_apply s _) ?_
  rw [hrep.1]
  cases hbin : h.bins.small (smallRequestIndex r) with
  | cons a l =>
    have he : (a, r) ∈ h.bins.binned := by
      have h1 := Bins.mem_binned_small (B := h.bins) h3 h32 (a := a) (by simp [hbin])
      rwa [h8] at h1
    have ha0 : a ≠ NULL := hs.pos_of_free (e := (a, r)) (.inr he)
    have hsize : ¬ isLargeSize (s.chunkSize a) := by
      rw [hs.chunkSize_of_free (e := (a, r)) hm.toRep (.inr he)]
      exact hl
    obtain ⟨x, s', hrun, hm', hk⟩ := hm.unbin hi he
    rw [List.headD_cons, if_pos ha0]
    refine Returns.bind_of_eq ((removeChunk_of_small hsize).trans hrun) (.pure ?_)
    simp only [Served, Heap.smallMalloc, hbin]
    exact ⟨trivial, ha0, hm', hk⟩
  | nil =>
    rw [List.headD_nil, if_neg (by simp)]
    refine (victimMalloc_spec hm hi hq hsmall).bind_of fun p s' hserved => ?_
    cases hvic : Heap.victimMalloc r h with
    | some out =>
      rw [hvic] at hserved
      obtain ⟨rfl, hp0, hm', hk⟩ := hserved
      rw [if_pos hp0]
      refine .pure ?_
      simp only [Heap.smallMalloc, hbin, hvic, Option.some_or]
      exact ⟨rfl, hp0, hm', hk⟩
    | none =>
      rw [hvic] at hserved
      obtain ⟨rfl, rfl⟩ := hserved
      rw [if_neg (by simp)]
      -- the other small bins are not searched
      have hscan : scanSmallBins r (smallRequestIndex r) 32 (smallRequestIndex r + 1) s' =
          some (NULL, s') := by
        simp [scanSmallBins, SMALL_BIN_SEARCH_MAX]
      refine Returns.bind_of_eq hscan ?_
      rw [if_neg (by simp)]
      refine Returns.bind_of_eq (scanLargeBins_run (hm.toRep.holds hs).treeBins (by omega)) ?_
      simp only [Heap.smallMalloc, hbin, hvic, Option.none_or]
      cases hbest : h.bins.scanLarge 63 LARGE_BIN_SEARCH_MAX 31 with
      | none =>
        rw [pointer_none, if_neg (by simp)]
        exact .pure ⟨rfl, rfl⟩
      | some e =>
        obtain ⟨m, hm31, hm64, hslot, he⟩ := Bins.scanLarge_mem (by omega) hbest
        obtain ⟨hle, -⟩ := hs.sorted.large_of_slots (by omega) hm64 hslot
        rw [pointer_some, if_pos (hs.pos_of_free (.inr he))]
        exact takeBinned_spec hm hi hq hsmall he hle

theorem hugeMalloc_spec (hm : Models s h) (hi : Inv full ext h) (hh : isHugeSize r) :
    Returns (hugeMalloc r) s (Served (InUse h.chunks) s (Heap.hugeMalloc r h)) := by
  have hs := hi.shape
  have hrep := hm.bin HUGE_BIN (by decide) (by decide)
  rw [BinRep.huge] at hrep
  unfold Dlmalloc.hugeMalloc Heap.hugeMalloc
  refine Returns.bind_of_eq (bin_apply s _) ?_
  rw [hrep.1]
  have hB := hm.toRep.holds hs
  cases hlist : h.bins.huge with
  | nil =>
    rw [List.map_nil, List.headD_nil, if_pos rfl]
    exact .pure ⟨rfl, rfl⟩
  | cons f l =>
    have hslots : h.bins.slots HUGE_BIN = f :: l := Bins.slots_huge.trans hlist
    have hbinned : ∀ g ∈ f :: l, g ∈ h.bins.binned := fun g hg =>
      Bins.mem_binned.mpr ⟨HUGE_BIN, by decide, hslots ▸ hg⟩
    have hnd := hB.nodup_addrs (n := HUGE_BIN) (by decide)
    have hlen := hB.length_slots (n := HUGE_BIN) (by decide)
    rw [hslots] at hnd hlen
    rw [hlist] at hrep
    have hring : List.IsChain (fun x y => s.load .next x = y) ((f :: l).map Prod.fst ++ [f.1]) := by
      have h1 := hrep.2
      simp only [List.map_cons] at h1
      exact List.IsChain.imp (fun x y hxy => hxy.1) h1
    -- the loop goes once round the ring
    have hrun : hugeMallocLoop r f.1 MAX_HEAP f.1 (pointer none) (2 ^ 64 - 1) s =
        some (pointer (Bins.hugeBest r none (2 ^ 64 - 1) (f :: l)), s) := hugeMallocLoop_run
      (fun g hg => hs.chunkSize_of_free hm.toRep (.inr (hbinned g hg))) hring
      (fun g hg heq => (List.nodup_cons.mp hnd).1 (heq ▸ List.mem_map_of_mem hg))
      (hs.isPtr_of_free (.inr (hbinned f List.mem_cons_self)))
      (fun g hg => hs.isPtr_of_free (.inr (hbinned g (List.mem_cons_of_mem _ hg))))
      (by simp only [List.length_cons] at hlen; omega)
    rw [pointer_none] at hrun
    rw [List.map_cons, List.headD_cons, if_neg (hs.pos_of_free (.inr (hbinned f (by simp))))]
    refine Returns.bind_of_eq hrun ?_
    cases hbest : Bins.hugeBest r none (2 ^ 64 - 1) (f :: l) with
    | none =>
      rw [pointer_none, if_neg (by simp)]
      exact .pure ⟨rfl, rfl⟩
    | some e =>
      rcases Bins.hugeBest_mem hbest with h' | ⟨hel, hre⟩
      · cases h'
      have he := hbinned e hel
      have he0 := hs.pos_of_free (.inr he)
      -- the best chunk is huge, so `remove_chunk` unlinks it from the ring
      have hsize : isHugeSize (s.chunkSize e.1) := by
        rw [hs.chunkSize_of_free hm.toRep (.inr he)]
        exact lt_of_lt_of_le hh hre
      obtain ⟨x, s', hrem, hm', hk⟩ := hm.unbin hi he
      rw [pointer_some, if_pos he0]
      refine Returns.bind_of_eq ((removeChunk_of_huge hsize).trans hrem) (.pure ?_)
      exact ⟨rfl, he0, hm', hk⟩

theorem largeMalloc_spec (hm : Models s h) (hi : Inv full ext h) (hq : Request r)
    (hl : isLargeSize r) :
    Returns (largeMalloc r) s (Served (InUse h.chunks) s (Heap.largeMalloc r h)) := by
  have hs := hi.shape
  unfold Dlmalloc.largeMalloc Heap.largeMalloc
  -- a huge request goes to its own bin only
  by_cases hh : isHugeSize r
  · rw [if_pos hh, if_pos hh]
    exact hugeMalloc_spec hm hi hh
  rw [if_neg hh, if_neg hh]
  have hsmall : r < 2 ^ 32 := (not_lt.mp hh).trans_lt (by decide)
  -- the victim first, then the best chunk of the trees
  refine (victimMalloc_spec hm hi hq hsmall).bind_of fun p s' hserved => ?_
  cases hvic : Heap.victimMalloc r h with
  | some out =>
    rw [hvic] at hserved
    obtain ⟨rfl, hp0, hm', hk⟩ := hserved
    rw [if_pos hp0]
    exact .pure ⟨rfl, hp0, hm', hk⟩
  | none =>
    rw [hvic] at hserved
    obtain ⟨rfl, rfl⟩ := hserved
    rw [if_neg (by simp)]
    refine Returns.bind_of_eq (findBestChunk_run (hm.toRep.holds hs).treeBins hl hh hq.aligned) ?_
    rw [Option.none_or]
    cases hbest : h.bins.findBest r with
    | none =>
      rw [pointer_none, if_pos rfl]
      exact .pure ⟨rfl, rfl⟩
    | some e =>
      obtain ⟨he, hle⟩ := Bins.findBest_mem hs.sorted hl hq.aligned hh hbest
      rw [pointer_some, if_neg (hs.pos_of_free (.inr he))]
      exact takeBinned_spec hm hi hq hsmall he (lt_of_lt_of_le hl hle)

/-! ### The end of the heap -/

/-- A request is split off the end of the heap. -/
theorem splitTop_spec (hr : Rep s h) (hs : Shape ext X h) (hL : h.chunks = pre ++ [c])
    (hc : c.status = .top) (hend : s.bin END_OF_HEAP_BIN = c.addr) (hq : Request r)
    (hfit : r + 8 ≤ c.size) :
    Returns (do setBin END_OF_HEAP_BIN (← splitChunk c.addr r) : M Unit) s fun _ s' =>
      Models s' { h with chunks := carve c.addr r h.chunks } ∧ Keeps (InUse h.chunks) s s' := by
  have hne : s.bin END_OF_HEAP_BIN ≠ c.addr + r + 8 := by
    have h1 : c.addr ≠ c.addr + r + 8 := by omega
    rw [hend]
    exact h1
  refine (splitChunk_spec hr hs hL (by simp [hc])
    (by simp [freeSlots_cons, hc]) hq.aligned hq.least hfit hne).bind_of
      fun a s' hpost => ?_
  obtain ⟨ha, hr', hf⟩ := hpost
  refine .intro (setBin_apply s' _ _ endOfHeapBin_lt)
    ⟨⟨hr'.setTop, ?_⟩, hf.keeps.trans (keeps_setBin _ _ _ _)⟩
  rw [State.bin_setBin_same (by decide), ha]
  simp [Heap.top, hs.carve_chunks hL, remainder, Chunk.slot]

theorem endOfHeapMalloc_spec (hm : Models s h) (hi : Inv full ext h) (hx : Extension ext)
    (hq : Request r) (hbound : r + 32 + ext < 2 ^ 31) :
    Returns (endOfHeapMalloc ext r) s (Served (InUse h.chunks) s (Heap.endMalloc ext r h)) := by
  have hs := hi.shape
  obtain ⟨pre, t, hL, ht, htop, hbrk⟩ := hs.exists_top
  have htm : t ∈ h.chunks := Shape.mem_chunks hL
  have hend : s.bin END_OF_HEAP_BIN = t.addr := by
    rw [hm.top, htop]
    rfl
  have ht0 : t.addr ≠ NULL := by
    have h1 := (hs.bounds htm).1
    have h2 := hs.first_pos
    simp only [NULL]
    omega
  have hsz : s.chunkSize t.addr = t.size := (hs.fits htm).chunkSize (hm.headers t htm).word
  -- nothing wraps below
  have hx8 := hx.least
  have hspan := hs.arena.span
  have hle := hs.arena.brk_le
  have hbrk31 : h.brk + 2 ^ 31 ≤ 2 ^ 64 := by omega
  have hbrk64 : h.brk < 2 ^ 64 := by omega
  have htlt : t.size + 2 ^ 31 < 2 ^ 64 := by
    have h1 := hbrk
    simp only [Chunk.next] at h1
    omega
  unfold Dlmalloc.endOfHeapMalloc Heap.endMalloc
  refine Returns.bind_of_eq (bin_apply s _) ?_
  rw [hend]
  refine Returns.bind_of_eq (hs.canSplit hm.toRep htm (by omega)) ?_
  simp only [htop, Chunk.slot]
  by_cases hfit : r + SMALLEST_CHUNK ≤ t.size
  · -- the end chunk is large enough
    have hfit' : r + 32 ≤ t.size := hfit
    rw [if_pos hfit, if_neg (by simpa using hfit)]
    refine (splitTop_spec hm.toRep hs hL ht hend hq (by omega)).bind_bind_of
      fun _ s' hpost => ?_
    obtain ⟨h1, h2⟩ := hpost
    refine .pure ?_
    exact ⟨rfl, ht0, h1, h2⟩
  · have hfit' : t.size < r + 32 := not_le.mp hfit
    rw [if_neg hfit, if_pos (by simpa using hfit)]
    refine Returns.bind_of_eq (chunkSize_apply s _) ?_
    rw [hsz]
    by_cases hneg : t.size ≤ r + ext
    · -- the heap has to grow first, and it may not have the room
      have hgrow : add64 (sub64 r t.size) ext = r + ext - t.size := by
        simp only [add64, sub64]
        omega
      have hd : r + ext - t.size < 2 ^ 31 := by omega
      have hd8 : 8 ∣ r + ext - t.size :=
        Nat.dvd_sub (Nat.dvd_add hq.aligned hx.aligned) (hs.fits htm).aligned
      rw [hgrow]
      refine hm.toRep.extend_run hs hL ht hd8 hd (fun hroom s₁ hr₁ hf₁ => ?_) fun hroom => ?_
      · rw [if_pos ⟨hneg, hroom⟩]
        obtain ⟨hs', pre', t', -, -, hL', hchunks⟩ := hs.extend hd8 hroom
        obtain ⟨rfl, h2⟩ := List.append_inj' (hL.symm.trans hL') rfl
        obtain rfl : t = t' := by simpa using h2
        have hsize : r + 8 ≤ t.size + (r + ext - t.size) := by omega
        refine (splitTop_spec (c := { t with size := t.size + (r + ext - t.size) }) hr₁ hs'
          hchunks ht (hf₁.top.trans hend) hq hsize).bind_bind_of fun _ s' hpost => ?_
        obtain ⟨h1, h2⟩ := hpost
        refine .pure ?_
        refine ⟨rfl, ht0, h1, hf₁.keeps.trans (h2.mono fun e he => ?_)⟩
        show e ∈ (h.extend _).used
        rw [hs.used_extend hd8 hroom]
        exact he
      · rw [if_neg fun h' => hroom h'.2]
        exact .pure ⟨rfl, rfl⟩
    · -- with an `EXTENSION_SIZE` below `SMALLEST_CHUNK` the increment may be negative: refused
      have hgrow : add64 (sub64 r t.size) ext = 2 ^ 64 - (t.size - (r + ext)) := by
        simp only [add64, sub64]
        omega
      have hneg' : toInt (2 ^ 64 - (t.size - (r + ext))) = -(t.size - (r + ext) : ℕ) :=
        toInt_neg (by omega) (by omega)
      rw [if_neg fun h' => hneg h'.1, hgrow, hneg']
      refine Returns.bind_of_eq (memSbrk_neg (by omega) (by omega) (hm.memBrk ▸ hbrk64)) ?_
      rw [if_pos rfl]
      exact .pure ⟨rfl, rfl⟩

/-! ### The whole call -/

/-- A chunk is found in the bins, or else at the end of the heap; `k` is what is done with it. -/
theorem supply_spec {α : Type} {k : Addr → M α} {Q : α → State → Prop} (hm : Models s h)
    (hi : Inv full ext h) (hx : Extension ext) (hq : Request r) (hbound : r + 32 + ext < 2 ^ 31)
    (hk : ∀ p s', Served (InUse h.chunks) s (Heap.supply ext r h) p s' → Returns (k p) s' Q) :
    Returns (do
      let result ← if isLargeSize r then largeMalloc r else smallMalloc r
      if result = NULL then
        let result ← endOfHeapMalloc ext r
        k result
      else
        k result) s Q := by
  unfold Heap.supply at hk
  obtain ⟨o, ho⟩ : ∃ o, o = if isLargeSize r then Heap.largeMalloc r h else Heap.smallMalloc r h :=
    ⟨_, rfl⟩
  -- the end of the heap is tried after the bins
  have hend : ∀ p s', Served (InUse h.chunks) s o p s' →
      Returns (if p = NULL then endOfHeapMalloc ext r >>= k else k p) s' Q := fun p s' hserved => by
    rw [← ho] at hk
    cases o with
    | some out =>
      have hp : p ≠ NULL := by
        rw [hserved.1]
        exact hserved.2.1
      rw [if_neg hp]
      exact hk p s' hserved
    | none =>
      obtain ⟨rfl, rfl⟩ := hserved
      rw [if_pos rfl]
      exact (endOfHeapMalloc_spec hm hi hx hq hbound).bind_of hk
  by_cases hl : isLargeSize r
  · rw [if_pos hl] at ho ⊢
    exact (largeMalloc_spec hm hi hq hl).bind_of fun p s' hserved =>
      hend p s' (ho ▸ hserved)
  · rw [if_neg hl] at ho ⊢
    exact (smallMalloc_spec hm hi hq hl).bind_of fun p s' hserved => hend p s' (ho ▸ hserved)

/-- The chunk found is marked as in use, and the chunk after it says so. -/
theorem occupy_spec {h' : Heap} {n : ℕ} {rest : List Chunk} (hm : Models s h')
    (hf : Found ext r h h' pre c n post rest) :
    Returns (do
      setCurrentInuse c.addr
      setPreviousInuse (← nextHeapChunk c.addr) : M Unit) s fun _ s' =>
        Models s' (h'.occupy c.addr) ∧ Keeps (InUse h'.chunks) s s' := by
  have hs := hf.shape
  have hL := hf.after
  obtain ⟨d, rest', rfl, hd⟩ := hf.exists_next
  obtain ⟨-, hs₁⟩ := hf.marked
  obtain ⟨o, ho⟩ : ∃ o : Chunk, o = ⟨c.addr, n, .free, c.pinuse⟩ := ⟨_, rfl⟩
  obtain ⟨b, hb⟩ : ∃ b : Chunk, b = ⟨c.addr, n, .inuse, c.pinuse⟩ := ⟨_, rfl⟩
  rw [← ho] at hL
  rw [← hb] at hs₁
  have hom : o ∈ h'.chunks := Shape.mem_chunks hL
  have hfit := hs.fits hom
  have hfit_b : Fits b := by rw [hb]; rw [ho] at hfit; exact ⟨hfit.aligned, hfit.below⟩
  have hword : s.load .currentSize c.addr ||| CURRENT_CHUNK_INUSE = b.word := by
    have h1 := (hm.headers o hom).word
    rw [ho] at h1
    rw [h1, ← ho, Chunk.word_or_current hfit.aligned, ho, hb]
  -- the header of the chunk
  set s₁ := s.store .currentSize c.addr b.word with hs₁'
  have hoa : o.addr = c.addr := by rw [ho]
  have hr₁ : Rep s₁ { h' with chunks := pre ++ b :: d :: rest' } := by
    rw [hs₁', ← hoa]
    refine hm.toRep.fuse_inuse hs
      (show h'.chunks = pre ++ o :: [] ++ d :: rest' by simpa using hL) ?_ ⟨rfl, rfl⟩ (.refl _ _ _)
      (by rw [hb, ho]) (by rw [hb]) hfit_b.word_lt
    simp [freeSlots_cons, ho, Chunk.slot]
  have hw : Within (c.addr + 8) (c.addr + 16) s s₁ := by
    refine (Within.refl _ _ s).store ?_ ?_ <;> simp only [Field.offset, Field.width] <;> omega
  have hk₁ : Keeps (InUse h'.chunks) s s₁ := hw.keeps fun e he => by
    have hfree : o.slot ∈ Free h'.chunks :=
      mem_freeSlots.mpr ⟨o, hom, by rw [ho], rfl⟩
    have := hs.apart e he o.slot hfree
    simp only [ho, Chunk.slot] at this
    omega
  have hbm : b ∈ pre ++ b :: d :: rest' := by simp
  have hnext : s₁.nextHeapChunk c.addr = d.addr := by
    have h1 := hfit_b.nextHeapChunk (hr₁.headers b hbm).word
    rw [hd]
    rw [hb] at h1
    exact h1
  refine Returns.bind_of_eq (setCurrentInuse_apply s _) ?_
  rw [hword, ← hs₁']
  refine Returns.bind_of_eq (nextHeapChunk_apply s₁ _) ?_
  rw [hnext]
  -- the bit in the header after it
  have hL₁ : pre ++ b :: d :: rest' = (pre ++ [b]) ++ d :: rest' := by simp
  have hocc : Dlmalloc.tag d.addr true (pre ++ b :: d :: rest') = (h'.occupy c.addr).chunks := by
    rw [(hf.occupy_eq hd).1, hL₁, tag_mid (hL₁ ▸ hs₁.tiles), hb, List.append_assoc]
    rfl
  refine (hr₁.setPreviousInuse_spec hs₁ hL₁).mono fun _ s' hpost => ?_
  obtain ⟨hr', hf'⟩ := hpost
  refine ⟨⟨?_, ?_⟩, hk₁.trans ?_⟩
  · rw [(hf.occupy_eq hd).1]
    simp only [hocc, (hf.occupy_eq hd).1] at hr'
    exact hr'
  · have htop : (h'.occupy c.addr).top.1 = h'.top.1 := by
      rw [(hf.occupy_eq hd).1]
      rcases List.eq_nil_or_concat rest' with rfl | ⟨l, x, rfl⟩ <;>
        simp [Heap.top, hL, List.getLast?_append, Chunk.slot, List.getLast?_cons]
    rw [hf'.top, htop, ← hm.top]
    exact hw.bin _
  · refine hf'.keeps.mono fun e he => ?_
    have he' : e ∈ usedSlots h'.chunks := he
    show e ∈ usedSlots (pre ++ b :: d :: rest')
    rw [hL, usedSlots_append, usedSlots_cons, if_neg (by simp [ho])] at he'
    rw [usedSlots_append, usedSlots_cons, if_pos (by rw [hb])]
    simp only [Multiset.mem_add, zero_add] at he' ⊢
    exact he'.imp id .inr

theorem myMalloc_spec (size : ℕ) (hm : Models s h) (hi : Inv full ext h) (hx : Extension ext)
    (hbound : requestSize size + 32 + ext < 2 ^ 31) : Returns (myMalloc ext size) s
      (Answered (InUse h.chunks) s
        (if size = 0 then none else h.malloc ext (requestSize size))) := by
  have hq := request_requestSize size
  unfold myMalloc
  by_cases h0 : size = 0
  · rw [if_pos h0, if_pos h0]
    exact .pure ⟨rfl, rfl⟩
  rw [if_neg h0, if_neg h0]
  -- the bins, the victim, the end of the heap
  refine supply_spec hm hi hx hq hbound fun p s' hserved => ?_
  cases hsup : Heap.supply ext (requestSize size) h with
  | none =>
    rw [hsup] at hserved
    obtain ⟨rfl, rfl⟩ := hserved
    beta_reduce
    rw [if_neg (by simp)]
    exact .pure (by simp [Answered, Heap.malloc, hsup])
  | some out =>
    obtain ⟨a, h'⟩ := out
    rw [hsup] at hserved
    obtain ⟨rfl, hp0, hm', hk⟩ := hserved
    obtain ⟨pre, c, n, post, rest, rfl, hf⟩ := found_of_supply hi hx hq hsup
    beta_reduce
    rw [if_pos hp0]
    refine (occupy_spec hm' hf).bind_bind_of fun _ s'' hpost => .pure ?_
    obtain ⟨hm'', hk'⟩ := hpost
    have hc : (⟨c.addr, n, .free, c.pinuse⟩ : Chunk) ∈ h'.chunks := by simp [hf.after]
    have hbelow := (hf.shape.fits hc).below
    -- `chunk_to_user_pointer` does not wrap
    have hptr : chunkToUserPointer c.addr = c.addr + 16 := by
      refine add64_of_lt ?_
      simp only [Chunk.next] at hbelow
      omega
    simp only [Answered, Heap.malloc, hsup, Option.map_some]
    refine ⟨hptr, hm'', hk.trans (hk'.mono fun e he => ?_)⟩
    show e ∈ h'.used
    rw [hf.used_eq]
    exact he

end Malloc

end Dlmalloc
