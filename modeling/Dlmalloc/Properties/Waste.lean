import Dlmalloc.Abstract.Fit
import Dlmalloc.Properties.Chunks

/-!
# No oversized hand-outs

A chunk handed out is large enough and could not have been split, whichever source it comes from and
whether it is allocated or reallocated, but for one source: `huge_malloc` hands a chunk of the huge
list out whole. `no_oversized_iff` says for every call whether that makes a difference
(`Call.Wastes`).
-/

namespace Dlmalloc

open Heap

/-- The chunk of the block `p` is large enough for the request `r`, and cannot be split for it. -/
def FitsSnugly (r : ℕ) (p : Addr) (s : State) : Prop :=
  r ≤ s.chunkSize (userPointerToChunk p) ∧
    s.chunkSize (userPointerToChunk p) < r + SMALLEST_CHUNK

/-- The request `r` is huge, and the least chunk of the huge list that is large enough for it can be
split. -/
def HugeWaste (r : ℕ) (s : State) : Prop :=
  isHugeSize r ∧ ∃ L, s.binMembers HUGE_BIN = some L ∧ (∃ a ∈ L, r ≤ s.chunkSize a) ∧
    ∀ a ∈ L, r ≤ s.chunkSize a → r + SMALLEST_CHUNK ≤ s.chunkSize a

/-- There is room for `r` bytes in the chunk `c` and its free neighbours, or at the end of the
heap. -/
def StaysInPlace (extensionSize r : ℕ) (c : Addr) (s : State) : Prop :=
  let next := s.nextHeapChunk c
  let prev := s.previousHeapChunk c
  r ≤ s.chunkSize c ∨
  (s.isCurrentInuse next = 0 ∧ next ≠ s.bin END_OF_HEAP_BIN ∧
    r ≤ s.chunkSize c + s.chunkSize next + 8) ∨
  (s.isPreviousInuse c = 0 ∧ s.isCurrentInuse next = 0 ∧ next ≠ s.bin END_OF_HEAP_BIN ∧
    r ≤ s.chunkSize c + s.chunkSize prev + s.chunkSize next + 16) ∨
  (s.isPreviousInuse c = 0 ∧ next ≠ s.bin END_OF_HEAP_BIN ∧
    r ≤ s.chunkSize prev + s.chunkSize c + 8) ∨
  (next = s.bin END_OF_HEAP_BIN ∧ (r + SMALLEST_CHUNK ≤ s.chunkSize c + s.chunkSize next + 8 ∨
    s.memBrk + (r + SMALLEST_CHUNK + extensionSize - (s.chunkSize c + s.chunkSize next + 8)) ≤
      s.memMaxAddr))

/-- The call is served from the huge list, and wastes memory: it allocates, or has to move a block.
-/
def Call.Wastes (extensionSize : ℕ) (y : System) : Call → Prop
  | .malloc size => HugeWaste (requestSize size) y.state
  | .realloc i size => (∃ b ∈ y.live[i]?,
      ¬ StaysInPlace extensionSize (requestSize size) (userPointerToChunk b.ptr) y.state) ∧
      HugeWaste (requestSize size) y.state
  | .free _ => False

section Waste

variable {full : Prop} {ext r a : ℕ} {h h' : Heap} {s s' : State} {c d : Chunk}
  {pre post : List Chunk}

theorem Models.hugeWaste_iff (hm : Models s h) (hi : Inv full ext h) :
    HugeWaste r s ↔ Wasteful r h := by
  have hs := hi.shape
  have hmem := hm.binMembers_eq hs (n := HUGE_BIN) (by decide) (by decide)
  rw [Bins.slots_huge] at hmem
  -- what the walk lists is what the bin holds, with the sizes of the headers
  have hkeyed : ∀ e ∈ h.bins.huge, s.chunkSize e.1 = e.2 := fun e he => by
    have hbin : e ∈ h.bins.binned :=
      Bins.mem_binned.mpr ⟨HUGE_BIN, by decide, by rwa [Bins.slots_huge]⟩
    obtain ⟨pre, c, post, hL, rfl, -⟩ := hs.mem_free (.inr hbin)
    exact hm.toRep.chunkSize hs (Shape.mem_chunks hL)
  unfold HugeWaste Wasteful
  refine and_congr_right fun _ => ?_
  constructor
  · rintro ⟨L, hL, ⟨a, ha, hra⟩, hall⟩
    obtain rfl := Option.some.inj (hmem.symm.trans hL)
    obtain ⟨e, he, rfl⟩ := List.mem_map.mp ha
    refine ⟨⟨e, he, hkeyed e he ▸ hra⟩, fun f hf hrf => ?_⟩
    rw [← hkeyed f hf] at hrf ⊢
    exact hall f.1 (List.mem_map_of_mem hf) hrf
  · rintro ⟨⟨e, he, hre⟩, hall⟩
    refine ⟨_, hmem, ⟨e.1, List.mem_map_of_mem he, (hkeyed e he).symm ▸ hre⟩, fun a ha hra => ?_⟩
    obtain ⟨f, hf, rfl⟩ := List.mem_map.mp ha
    rw [hkeyed f hf] at hra ⊢
    exact hall f hf hra

/-- The state knows whether a block can stay. -/
theorem Models.staysInPlace_iff (hm : Models s h) (hi : Inv full ext h)
    (hL : h.chunks = pre ++ c :: post) (hc : c.status = .inuse) :
    StaysInPlace ext r c.addr s ↔ InPlace ext c r h := by
  have hs := hi.shape
  have hr := hm.toRep
  obtain ⟨d, post, rfl, -⟩ := hs.exists_next hL (by simp [hc])
  obtain ⟨hat, hda⟩ := hs.chunkAt_next hL
  have hcm : c ∈ h.chunks := by simp [hL]
  have hdm : d ∈ h.chunks := by simp [hL]
  have hnext : s.nextHeapChunk c.addr = d.addr := (hr.nextHeapChunk hs hcm).trans hda.symm
  have hend : d.addr = s.bin END_OF_HEAP_BIN ↔ d.status = .top := by
    rw [hm.top]
    exact hs.addr_eq_top_iff hdm
  have hfree := hr.isCurrentInuse_eq_zero hs hdm
  have hprev := hr.isPreviousInuse_eq_zero hs hcm
  have hstat : d.status ≠ .inuse ∧ d.status ≠ .top ↔ d.status = .free := by
    cases d.status <;> simp
  unfold StaysInPlace InPlace
  simp only [hnext, hr.chunkSize hs hcm, hr.chunkSize hs hdm, hfree, hprev, ne_eq, hend,
    hm.memBrk, hm.memMaxAddr]
  -- the four ways to grow, in the order of the code
  refine or_congr_right (or_congr ?_ (or_congr ?_ (or_congr ?_ ?_)))
  · rw [← and_assoc, hstat]
    exact (growAfter_ne_none hs hL).symm
  · cases hp : c.pinuse with
    | true => simp [(grow_none_of_pinuse hp).1]
    | false =>
      obtain ⟨pre', p, rfl, hpf⟩ := exists_of_lastFree ((hi.tags_around hL).2.1 hp)
      have hL1 : h.chunks = pre' ++ p :: c :: d :: post := by simp [hL]
      rw [(hr.footer_eq hs hL1 hpf).2, hr.chunkSize hs (Shape.mem_chunks hL1)]
      have h1 := growAround_ne_none (r := r) hs hL1 hp
      rw [← hstat, and_assoc] at h1
      simpa using h1.symm
  · cases hp : c.pinuse with
    | true => simp [(grow_none_of_pinuse hp).2]
    | false =>
      obtain ⟨pre', p, rfl, hpf⟩ := exists_of_lastFree ((hi.tags_around hL).2.1 hp)
      have hL1 : h.chunks = pre' ++ p :: c :: d :: post := by simp [hL]
      rw [(hr.footer_eq hs hL1 hpf).2, hr.chunkSize hs (Shape.mem_chunks hL1)]
      simpa using (growBefore_ne_none (r := r) hs hL1 hp).symm
  · exact (growTop_ne_none hs hL).symm

/-- The chunk of a block handed out, seen in memory. -/
theorem Models.fitsSnugly_iff (hm : Models s h) (hi : Inv full ext h) {n : ℕ}
    (ha : (a, n) ∈ h.used) (hrn : r ≤ n) : FitsSnugly r (a + 16) s ↔ Snug r h a := by
  have hs := hi.shape
  rw [hs.snug_iff (mem_slots_of_used ha)]
  obtain ⟨c, hc, -, hslot⟩ := mem_usedSlots.mp ha
  obtain ⟨rfl, rfl⟩ := Prod.mk.inj hslot
  have hptr : userPointerToChunk (c.addr + 16) = c.addr := (hs.ptr hc).1
  rw [FitsSnugly, hptr, hm.toRep.chunkSize hs hc]
  exact and_iff_right hrn

end Waste

section Calls

variable {y y' : System} {c : Call} {p : Addr} {r size i : ℕ}

/-- An allocation fits unless it wastes. -/
theorem malloc_fits_iff {full : Prop} {ext : ℕ} {h : Heap} {s : State} (hm : Models s h)
    (hi : Inv full ext h) (hx : Extension ext) (hbound : requestSize size + 32 + ext < 2 ^ 31) :
    (∀ p s', myMalloc ext size s = some (p, s') → p ≠ NULL →
      FitsSnugly (requestSize size) p s') ↔ ¬ HugeWaste (requestSize size) s := by
  have hq := request_requestSize size
  obtain ⟨q, t, hrun, hans⟩ := myMalloc_spec size hm hi hx hbound
  rw [hm.hugeWaste_iff hi]
  cases ho : if size = 0 then none else h.malloc ext (requestSize size) with
  -- nothing was returned, and a wasteful chunk would have served
  | none =>
    rw [ho] at hans
    obtain ⟨rfl, rfl⟩ := hans
    refine iff_of_true (fun p s' hp hp0 => ?_) fun hw => ?_
    · obtain ⟨rfl, -⟩ := Prod.mk.inj (Option.some.inj (hrun.symm.trans hp))
      exact absurd rfl hp0
    · by_cases h0 : size = 0
      · subst h0
        exact absurd hw.1 (by decide)
      · rw [if_neg h0] at ho
        exact malloc_ne_none_of_wasteful hi hw ho
  -- the block returned is the chunk found
  | some o =>
    obtain ⟨a, h'⟩ := o
    rw [ho] at hans
    obtain ⟨rfl, hm', -⟩ := hans
    have hmal : h.malloc ext (requestSize size) = some (a, h') := by
      split_ifs at ho
      exact ho
    obtain ⟨hi', -, n, hn, hused⟩ := malloc_spec hi hx hq hmal
    have hmem : (a, n) ∈ h'.used := hused ▸ Multiset.mem_cons_self _ _
    rw [← snug_malloc_iff hi hx hq hmal, ← hm'.fitsSnugly_iff hi' hmem hn]
    refine ⟨fun hall => hall _ _ hrun (Nat.succ_ne_zero _), fun hfit p s' hp _ => ?_⟩
    obtain ⟨rfl, rfl⟩ := Prod.mk.inj (Option.some.inj (hrun.symm.trans hp))
    exact hfit

/-- A reallocation fits unless it has to move the block and wastes. -/
theorem realloc_fits_iff {full : Prop} {ext : ℕ} {h : Heap} {s : State} {c : Chunk}
    (hm : Models s h) (hi : Inv full ext h) (hx : Extension ext)
    (hbound : requestSize size + 32 + ext < 2 ^ 31) (hc : c ∈ h.chunks)
    (hst : c.status = .inuse) :
    (∀ p s', myRealloc ext (c.addr + 16) size s = some (p, s') → p ≠ NULL →
      FitsSnugly (requestSize size) p s') ↔
      ¬ (¬ StaysInPlace ext (requestSize size) c.addr s ∧ HugeWaste (requestSize size) s) := by
  have hq := request_requestSize size
  obtain ⟨q, t, hrun, hans⟩ := myRealloc_spec size hm hi hx hbound hc hst
  obtain ⟨pre, post, hL⟩ := List.append_of_mem hc
  rw [hm.hugeWaste_iff hi, hm.staysInPlace_iff hi hL hst]
  cases ho : h.realloc ext c.addr (requestSize size) with
  -- nothing was returned, and a wasteful chunk would have served
  | none =>
    rw [ho] at hans
    obtain ⟨rfl, rfl⟩ := hans
    refine iff_of_true (fun p s' hp hp0 => ?_) fun hw => ?_
    · obtain ⟨rfl, -⟩ := Prod.mk.inj (Option.some.inj (hrun.symm.trans hp))
      exact absurd rfl hp0
    · exact realloc_ne_none_of_wasteful hi hc hw.1 hw.2 ho
  -- the block returned is the chunk grown or found
  | some o =>
    obtain ⟨a, h'⟩ := o
    rw [ho] at hans
    obtain ⟨rfl, hm', -⟩ := hans
    obtain ⟨hi', -, n, U, hn, -, hused⟩ := realloc_spec hi hx hq hc hst ho
    have hmem : (a, n) ∈ h'.used := hused ▸ Multiset.mem_cons_self _ _
    rw [not_and_or, not_not, ← snug_realloc_iff hi hx hq hc hst ho,
      ← hm'.fitsSnugly_iff hi' hmem hn]
    refine ⟨fun hall => hall _ _ hrun (Nat.succ_ne_zero _), fun hfit p s' hp _ => ?_⟩
    obtain ⟨rfl, rfl⟩ := Prod.mk.inj (Option.some.inj (hrun.symm.trans hp))
    exact hfit

/-- A block that a call hands out is in a chunk that is large enough for the request and too small
to be split for it, if and only if the call does not waste memory of the huge list. -/
theorem no_oversized_iff (hy : Reachable EXTENSION_SIZE (Sized LARGEST_SIZE) y)
    (hc : c.Valid LARGEST_SIZE y.live) :
    (∀ size, c.asks = some size → ∀ p y', c.run EXTENSION_SIZE y = some (p, y') → p ≠ NULL →
      FitsSnugly (requestSize size) p y'.state) ↔ ¬ c.Wastes EXTENSION_SIZE y := by
  obtain ⟨σ, ht⟩ := hy.tracks_default
  have hm := ht.follows.models
  have hi := ht.good.inv
  have hx := extension_default
  cases c with
  | free i => exact iff_of_true (fun size hsize => by cases hsize) fun h => h
  -- the call is a run of `my_malloc`
  | malloc size =>
    have hbound := requestSize_bound (N := LARGEST_SIZE) hx (by decide) hc
    rw [show (Call.malloc size).Wastes EXTENSION_SIZE y ↔ HugeWaste (requestSize size) y.state
      from Iff.rfl, ← malloc_fits_iff hm hi hx hbound]
    constructor
    · intro hall p s' hp hp0
      exact hall size rfl p ⟨s', if p = NULL then y.live else y.live ++ [⟨p, size⟩]⟩
        (by rw [Call.run, hp]; rfl) hp0
    · intro hall n hn p y' hp hp0
      obtain rfl := Option.some.inj hn
      obtain ⟨⟨q, s'⟩, hq, he⟩ := Option.map_eq_some_iff.mp hp
      obtain ⟨rfl, rfl⟩ := Prod.mk.inj he
      exact hall q s' hq hp0
  -- the call is a run of `my_realloc` on the chunk of the block
  | realloc i size =>
    have hbound := requestSize_bound (N := LARGEST_SIZE) hx (by decide) hc.2
    obtain ⟨b, hb⟩ : ∃ b, y.live[i]? = some b := ⟨_, List.getElem?_eq_getElem hc.1⟩
    obtain ⟨d, hd, hst, hptr, -⟩ := ht.good.chunk (ht.follows.live ▸ hb)
    have hchunk : userPointerToChunk b.ptr = d.addr := by
      rw [hptr]
      exact (hi.shape.ptr hd).1
    have hwastes : (Call.realloc i size).Wastes EXTENSION_SIZE y ↔
        ¬ StaysInPlace EXTENSION_SIZE (requestSize size) d.addr y.state ∧
          HugeWaste (requestSize size) y.state := by
      simp [Call.Wastes, hb, hchunk]
    rw [hwastes, ← realloc_fits_iff hm hi hx hbound hd hst, ← hptr]
    constructor
    · intro hall p s' hp hp0
      exact hall size rfl p ⟨s', if p = NULL then y.live else y.live.set i ⟨p, size⟩⟩
        (by rw [Call.run, hb, Option.bind_some, hp]; rfl) hp0
    · intro hall n hn p y' hp hp0
      obtain rfl := Option.some.inj hn
      obtain ⟨b', hb', hmap⟩ := Option.bind_eq_some_iff.mp hp
      obtain rfl := Option.some.inj (hb.symm.trans hb')
      obtain ⟨⟨q, s'⟩, hq, he⟩ := Option.map_eq_some_iff.mp hmap
      obtain ⟨rfl, rfl⟩ := Prod.mk.inj he
      exact hall q s' hq hp0

/-- With a huge chunk of 17000000 bytes in the huge list, a huge request that is smaller wastes
memory, and a request for one of the chunks of a large bin does not. -/
theorem no_oversized_iff_stocked : ∃ y, Reachable EXTENSION_SIZE (Sized LARGEST_SIZE) y ∧
    y.state.binMembers HUGE_BIN = some [16] ∧
    y.state.binMembers 38 = some [17000056, 17003096] ∧
    (Call.malloc 16777216).Wastes EXTENSION_SIZE y ∧
    ¬ (∀ size, (Call.malloc 16777216).asks = some size → ∀ p y',
      (Call.malloc 16777216).run EXTENSION_SIZE y = some (p, y') → p ≠ NULL →
        FitsSnugly (requestSize size) p y'.state) ∧
    ∀ size, (Call.malloc 2600).asks = some size → ∀ p y',
      (Call.malloc 2600).run EXTENSION_SIZE y = some (p, y') → p ≠ NULL →
        FitsSnugly (requestSize size) p y'.state := by
  obtain ⟨y, hreach, hy⟩ := exists_stocked
  have hm := hy.follows.models
  have hi := hy.good.inv
  have hwastes : (Call.malloc 16777216).Wastes EXTENSION_SIZE y := (hm.hugeWaste_iff hi).mpr (by
    unfold Wasteful
    decide +kernel)
  have hsnug : ¬ (Call.malloc 2600).Wastes EXTENSION_SIZE y := (hm.hugeWaste_iff hi).not.mpr (by
    unfold Wasteful
    decide +kernel)
  refine ⟨y, hreach, (hm.members_eq hi (by decide)).trans ?_,
    (hm.members_eq hi (by decide)).trans ?_, hwastes, ?_, ?_⟩
  · decide +kernel
  · decide +kernel
  · exact (no_oversized_iff hreach (c := .malloc 16777216)
      (show 16777216 ≤ LARGEST_SIZE by decide)).not.mpr
      (not_not.mpr hwastes)
  · exact (no_oversized_iff hreach (c := .malloc 2600)
      (show 2600 ≤ LARGEST_SIZE by decide)).mpr hsnug

/-- A huge chunk that was freed is handed out again for a request that is 1000 bytes smaller. -/
theorem not_always_fits : ∃ y, Run EXTENSION_SIZE (Sized LARGEST_SIZE) (.blank 16)
    [.call (.malloc 16778216), .call (.malloc 24), .call (.free 0), .call (.malloc 16777216)]
    [32, 16778256, NULL, 32] y ∧ ¬ FitsSnugly (requestSize 16777216) 32 y.state := by
  obtain ⟨-, ht⟩ := tracks_blank EXTENSION_SIZE (b := 16) (by decide) (by decide)
  obtain ⟨y, hrun, hy⟩ := ht.exists_run (Sized LARGEST_SIZE) (N := LARGEST_SIZE)
    [.malloc 16778216, .malloc 24, .free 0, .malloc 16777216] extension_default (by decide)
    (by decide +kernel) fun _ _ _ h => h
  have hps : (Session.run EXTENSION_SIZE [.malloc 16778216, .malloc 24, .free 0, .malloc 16777216]
      (Session.initial 16)).1 = [32, 16778256, NULL, 32] := by decide +kernel
  have hL : (16, 16778216) ∈ ((Session.run EXTENSION_SIZE
      [.malloc 16778216, .malloc 24, .free 0, .malloc 16777216]
      (Session.initial 16)).2.heap.chunks.map Chunk.slot) := by decide +kernel
  rw [hps] at hrun
  refine ⟨y, hrun, fun hfits => ?_⟩
  obtain ⟨c, hc, hslot⟩ := List.mem_map.mp hL
  obtain ⟨ha, hn⟩ := Prod.mk.inj hslot
  have hs := hy.good.inv.shape
  have hptr : userPointerToChunk 32 = c.addr := by
    rw [ha]
    decide
  have hsize := hy.follows.models.toRep.chunkSize hs hc
  have hlt := hfits.2
  rw [hptr, hsize, hn] at hlt
  exact absurd hlt (by decide)

end Calls

end Dlmalloc
