import Dlmalloc.Abstract.Realloc

/-!
# How well a block fits

A chunk handed out is `Snug` if it could not have been split for the request. Every source of chunks
splits what can be split, but one: the huge list hands out the least chunk that is large enough,
whole (`Wasteful`). So `malloc` is snug unless it is wasteful (`snug_malloc_iff`), and `realloc` is,
unless the block has to move and the allocation it moves to is wasteful (`snug_realloc_iff`).
-/

namespace Dlmalloc

namespace Heap

/-- The chunk at `a` cannot be split for the request `r`. -/
def Snug (r : ℕ) (h : Heap) (a : ℕ) : Prop :=
  ∃ n, (a, n) ∈ h.chunks.map Chunk.slot ∧ n < r + SMALLEST_CHUNK

/-- There are chunks in the huge list for the request `r`, and the least of them can be split. -/
def Wasteful (r : ℕ) (h : Heap) : Prop :=
  isHugeSize r ∧ (∃ e ∈ h.bins.huge, r ≤ e.2) ∧
    ∀ e ∈ h.bins.huge, r ≤ e.2 → r + SMALLEST_CHUNK ≤ e.2

/-- The block in `c` can be given `r` bytes where it is, or over its neighbours. -/
def InPlace (ext : ℕ) (c : Chunk) (r : ℕ) (h : Heap) : Prop :=
  r ≤ c.size ∨ h.growAfter c r ≠ none ∨ h.growAround c r ≠ none ∨ h.growBefore c r ≠ none ∨
    h.growTop ext c r ≠ none

section Search

variable {r bound : ℕ} {best : Option Slot} {l : List Slot} {e f : Slot}

/-- The walk round the huge list settles on a chunk no larger than the candidate it started with,
and no larger than any other that is large enough and within the bound. -/
theorem hugeBest_least (hb : ∀ b, best = some b → b.2 = bound)
    (he : Bins.hugeBest r best bound l = some e) :
    (∀ b, best = some b → e.2 ≤ b.2) ∧ ∀ f ∈ l, r ≤ f.2 → f.2 < bound → e.2 ≤ f.2 := by
  induction l generalizing best bound with
  | nil =>
    rw [Bins.hugeBest] at he
    exact ⟨fun b hbest => (Option.some.inj (hbest.symm.trans he)) ▸ le_rfl, by simp⟩
  | cons g l ih =>
    unfold Bins.hugeBest at he
    split_ifs at he with h1 h2
    · -- a chunk of the size asked for ends the walk
      obtain rfl := Option.some.inj he
      exact ⟨fun b hbest => (hb b hbest).symm ▸ h1.2.le, fun f _ hf _ => h2 ▸ hf⟩
    · obtain ⟨hbest, hrest⟩ := ih (fun b hg => by rw [← Option.some.inj hg]) he
      have hg := hbest g rfl
      refine ⟨fun b h => (hb b h).symm ▸ hg.trans h1.2.le, fun f hf hrf hfb => ?_⟩
      rcases List.mem_cons.mp hf with rfl | hf
      · exact hg
      · by_cases hfg : f.2 < g.2
        · exact hrest f hf hrf hfg
        · exact hg.trans (not_lt.mp hfg)
    · obtain ⟨hbest, hrest⟩ := ih hb he
      refine ⟨hbest, fun f hf hrf hfb => ?_⟩
      rcases List.mem_cons.mp hf with rfl | hf
      · exact absurd ⟨hrf, hfb⟩ h1
      · exact hrest f hf hrf hfb

/-- A candidate is never given up. -/
theorem hugeBest_ne_none (hb : best ≠ none) : Bins.hugeBest r best bound l ≠ none := by
  induction l generalizing best bound with
  | nil => exact hb
  | cons g l ih =>
    unfold Bins.hugeBest
    split_ifs
    · simp
    · exact ih (by simp)
    · exact ih hb

theorem hugeBest_eq_none (he : Bins.hugeBest r best bound l = none) :
    ∀ f ∈ l, r ≤ f.2 → ¬ f.2 < bound := by
  induction l generalizing best bound with
  | nil => simp
  | cons g l ih =>
    intro f hf hrf hfb
    unfold Bins.hugeBest at he
    split_ifs at he with h1 h2
    · exact hugeBest_ne_none (by simp) he
    · rcases List.mem_cons.mp hf with rfl | hf
      · exact h1 ⟨hrf, hfb⟩
      · exact ih he f hf hrf hfb

end Search

section Snug

variable {full : Prop} {ext r a n : ℕ} {X : Multiset Slot} {h h' : Heap} {c d : Chunk} {e : Slot}
  {τ : Status} {pre post : List Chunk}

theorem snug_congr (hL : h'.chunks.map Chunk.slot = h.chunks.map Chunk.slot) :
    Snug r h' a ↔ Snug r h a := by
  rw [Snug, hL, Snug]

/-- The size of the chunk decides. -/
theorem Shape.snug_iff (hs : Shape ext X h) (he : (a, n) ∈ h.chunks.map Chunk.slot) :
    Snug r h a ↔ n < r + SMALLEST_CHUNK := by
  refine ⟨fun hsnug => ?_, fun hlt => ⟨n, he, hlt⟩⟩
  obtain ⟨m, hm, hlt⟩ := hsnug
  obtain ⟨c, hc, hcs⟩ := List.mem_map.mp he
  obtain ⟨d, hd, hds⟩ := List.mem_map.mp hm
  have heq := hs.tiles.eq_of_addr_eq hd hc
    ((congrArg Prod.fst hds).trans (congrArg Prod.fst hcs).symm)
  have hnm : n = m := by
    rw [heq, hcs] at hds
    exact congrArg Prod.snd hds
  rwa [hnm]

theorem mem_slots_of_used (he : e ∈ h.used) : e ∈ h.chunks.map Chunk.slot := by
  obtain ⟨c, hc, -, rfl⟩ := mem_usedSlots.mp he
  exact List.mem_map_of_mem hc

/-- A chunk split for the request is snug. -/
theorem snug_carve (he : ∃ c ∈ h.chunks, c.addr = a) {B : Bins} :
    Snug r { h with chunks := carve a r h.chunks, bins := B } a := by
  obtain ⟨c, hc, hca⟩ := he
  refine ⟨r, List.mem_map.mpr ⟨⟨c.addr, r, .free, c.pinuse⟩, ?_, by rw [← hca]; rfl⟩,
    Nat.lt_add_of_pos_right (by decide)⟩
  refine List.mem_flatMap.mpr ⟨c, hc, ?_⟩
  rw [if_pos hca]
  exact List.mem_cons_self

theorem snug_trim (he : ∃ c ∈ h.chunks, c.addr = a) {h' : Heap}
    (hL : h'.chunks = trim a r τ h.chunks) : Snug r h' a := by
  obtain ⟨c, hc, hca⟩ := he
  refine ⟨r, List.mem_map.mpr ⟨⟨c.addr, r, c.status, c.pinuse⟩, ?_, by rw [← hca]; rfl⟩,
    Nat.lt_add_of_pos_right (by decide)⟩
  rw [hL]
  refine List.mem_flatMap.mpr ⟨c, hc, ?_⟩
  rw [if_pos hca]
  exact List.mem_cons_self

/-! ### Allocation -/

theorem snug_victimMalloc (hi : Inv full ext h) (hm : victimMalloc r h = some (a, h')) :
    Snug r h' a := by
  unfold victimMalloc at hm
  cases hv : h.bins.victim with
  | none => simp [hv] at hm
  | some v =>
    obtain ⟨pre, c, post, hL, rfl, -⟩ := hi.shape.mem_free (.inl (Bins.mem_victimSlot.mpr hv))
    have hmem : ∃ x ∈ h.chunks, x.addr = c.slot.1 := ⟨c, Shape.mem_chunks hL, rfl⟩
    simp only [hv] at hm
    split_ifs at hm with hfit hle
    · obtain ⟨rfl, rfl⟩ := Prod.mk.inj (Option.some.inj hm)
      exact snug_carve hmem
    · obtain ⟨rfl, rfl⟩ := Prod.mk.inj (Option.some.inj hm)
      exact ⟨c.size, List.mem_map_of_mem (Shape.mem_chunks hL), not_le.mp hfit⟩

theorem snug_takeBinned (hi : Inv full ext h) (he : e ∈ h.bins.binned)
    (hm : takeBinned r h e = (a, h')) : Snug r h' a := by
  obtain ⟨pre, c, post, hL, rfl, -⟩ := hi.shape.mem_free (.inr he)
  have hmem : ∃ x ∈ h.chunks, x.addr = c.slot.1 := ⟨c, Shape.mem_chunks hL, rfl⟩
  unfold takeBinned splitOffVictim at hm
  split_ifs at hm with hfit
  · obtain ⟨rfl, rfl⟩ := Prod.mk.inj hm
    exact snug_carve hmem
  · obtain ⟨rfl, rfl⟩ := Prod.mk.inj hm
    exact ⟨c.size, List.mem_map_of_mem (Shape.mem_chunks hL), not_le.mp hfit⟩

theorem snug_smallMalloc (hi : Inv full ext h) (hr : Request r) (hl : ¬ isLargeSize r)
    (hm : smallMalloc r h = some (a, h')) : Snug r h' a := by
  unfold smallMalloc at hm
  split at hm
  · -- a chunk of exactly the size
    next b l hb =>
    obtain ⟨rfl, rfl⟩ := Prod.mk.inj (Option.some.inj hm)
    obtain ⟨h3, h32⟩ := smallRequestIndex_bounds hl hr.least
    have h8 : 8 * smallRequestIndex r = r := by
      have := hr.aligned
      rw [smallRequestIndex_eq hl]
      omega
    have hmem : (b, r) ∈ h.bins.binned := by
      have := Bins.mem_binned_small (B := h.bins) (a := b) h3 h32 (by simp [hb])
      rwa [h8] at this
    obtain ⟨pre, c, post, hL, hc, -⟩ := hi.shape.mem_free (.inr hmem)
    have hslot : (b, r) ∈ h.chunks.map Chunk.slot := hc ▸ List.mem_map_of_mem (Shape.mem_chunks hL)
    exact ⟨r, hslot, Nat.lt_add_of_pos_right (by decide)⟩
  · rw [Option.or_eq_some_iff] at hm
    rcases hm with hm | ⟨-, hm⟩
    · exact snug_victimMalloc hi hm
    · obtain ⟨e, he, htake⟩ := Option.map_eq_some_iff.mp hm
      obtain ⟨m, -, -, -, hmem⟩ := Bins.scanLarge_mem le_rfl he
      exact snug_takeBinned hi hmem htake

theorem snug_largeMalloc (hi : Inv full ext h) (hr : Request r) (hl : isLargeSize r)
    (hh : ¬ isHugeSize r) (hm : largeMalloc r h = some (a, h')) : Snug r h' a := by
  rw [largeMalloc, if_neg hh, Option.or_eq_some_iff] at hm
  rcases hm with hm | ⟨-, hm⟩
  · exact snug_victimMalloc hi hm
  · obtain ⟨e, he, htake⟩ := Option.map_eq_some_iff.mp hm
    obtain ⟨hmem, -⟩ := Bins.findBest_mem hi.shape.sorted hl hr.aligned hh he
    exact snug_takeBinned hi hmem htake

theorem snug_endMalloc (hi : Inv full ext h) (hx : Extension ext) (hr : Request r)
    (hm : endMalloc ext r h = some (a, h')) : Snug r h' a := by
  obtain ⟨pre, t, hL, ht, htop, hnext⟩ := hi.shape.exists_top
  have htm : t ∈ h.chunks := by simp [hL]
  have htsz := hi.shape.sizes t htm
  unfold endMalloc at hm
  simp only [htop, Chunk.slot] at hm
  split_ifs at hm with hfit hgrow
  · obtain ⟨rfl, rfl⟩ := Prod.mk.inj (Option.some.inj hm)
    exact snug_carve ⟨t, htm, rfl⟩
  · obtain ⟨rfl, rfl⟩ := Prod.mk.inj (Option.some.inj hm)
    have h8 : 8 ∣ r + ext - t.size :=
      Nat.dvd_sub (Nat.dvd_add hr.aligned hx.aligned) htsz.aligned
    obtain ⟨-, pre', t', -, htop', -, hchunks⟩ := hi.shape.extend h8 hgrow.2
    have haddr : t'.addr = t.addr := congrArg Prod.fst (htop'.symm.trans htop)
    refine snug_carve ⟨{ t' with size := t'.size + (r + ext - t.size) }, ?_, haddr⟩
    rw [hchunks]
    exact List.mem_append_right _ (List.mem_singleton.mpr rfl)

/-- A chunk of the huge list is handed out whole, the least one that is large enough. -/
theorem snug_hugeMalloc_iff (hi : Inv full ext h) (hh : isHugeSize r)
    (hm : hugeMalloc r h = some (a, h')) : Snug r h' a ↔ ¬ Wasteful r h := by
  obtain ⟨e, he, htake⟩ := Option.map_eq_some_iff.mp hm
  obtain ⟨rfl, rfl⟩ := Prod.mk.inj htake
  obtain ⟨hmem, hle⟩ := (Bins.hugeBest_mem he).resolve_left (by simp)
  have hbin : ∀ f ∈ h.bins.huge, f ∈ h.bins.binned := fun f hf =>
    Bins.mem_binned.mpr ⟨HUGE_BIN, by decide, by rwa [Bins.slots_huge]⟩
  have hbound : ∀ f ∈ h.bins.huge, f.2 < 2 ^ 64 - 1 := fun f hf => by
    obtain ⟨pre, c, post, hL, rfl, -⟩ := hi.shape.mem_free (.inr (hbin f hf))
    have h1 := (hi.shape.bounds (Shape.mem_chunks hL)).2
    have h2 := hi.shape.arena.brk_le
    have h3 := hi.shape.arena.span
    have h4 : c.addr + c.size + 8 = c.next := rfl
    simp only [Chunk.slot]
    omega
  -- the loop hands out the least chunk that holds the request
  have hleast : ∀ f ∈ h.bins.huge, r ≤ f.2 → e.2 ≤ f.2 := fun f hf hrf =>
    (hugeBest_least (by simp) he).2 f hf hrf (hbound f hf)
  obtain ⟨pre, c, post, hL, rfl, -⟩ := hi.shape.mem_free (.inr (hbin e hmem))
  have hslot : (c.slot.1, c.slot.2) ∈ h.chunks.map Chunk.slot :=
    List.mem_map_of_mem (Shape.mem_chunks hL)
  have hsize : Snug r h c.slot.1 ↔ c.slot.2 < r + SMALLEST_CHUNK := hi.shape.snug_iff hslot
  refine (snug_congr (h := h) rfl).trans (hsize.trans ?_)
  rw [← not_le]
  refine not_congr ⟨?_, ?_⟩
  · exact fun hw => ⟨hh, ⟨_, hmem, hle⟩, fun f hf hrf => hw.trans (hleast f hf hrf)⟩
  · exact fun hw => hw.2.2 _ hmem hle

theorem not_wasteful_of_none (hi : Inv full ext h) (hm : largeMalloc r h = none) :
    ¬ Wasteful r h := by
  rintro ⟨hh, ⟨e, he, hle⟩, -⟩
  rw [largeMalloc, if_pos hh] at hm
  have hbin : e ∈ h.bins.binned :=
    Bins.mem_binned.mpr ⟨HUGE_BIN, by decide, by rwa [Bins.slots_huge]⟩
  obtain ⟨pre, c, post, hL, rfl, -⟩ := hi.shape.mem_free (.inr hbin)
  refine hugeBest_eq_none (Option.map_eq_none_iff.mp hm) _ he hle ?_
  have h1 := (hi.shape.bounds (Shape.mem_chunks hL)).2
  have h2 := hi.shape.arena.brk_le
  have h3 := hi.shape.arena.span
  have h4 : c.addr + c.size + 8 = c.next := rfl
  simp only [Chunk.slot]
  omega

theorem snug_supply_iff (hi : Inv full ext h) (hx : Extension ext) (hr : Request r)
    (hm : supply ext r h = some (a, h')) : Snug r h' a ↔ ¬ Wasteful r h := by
  rw [supply, Option.or_eq_some_iff] at hm
  rcases hm with hm | ⟨hnone, hm⟩
  · split_ifs at hm with hl
    · by_cases hh : isHugeSize r
      · rw [largeMalloc, if_pos hh] at hm
        exact snug_hugeMalloc_iff hi hh hm
      · exact iff_of_true (snug_largeMalloc hi hr hl hh hm) fun hw => hh hw.1
    · exact iff_of_true (snug_smallMalloc hi hr hl hm) fun hw => hl (isLargeSize_of_isHugeSize hw.1)
  · refine iff_of_true (snug_endMalloc hi hx hr hm) fun hw => ?_
    rw [if_pos (isLargeSize_of_isHugeSize hw.1)] at hnone
    exact not_wasteful_of_none hi hnone hw

/-- **Allocation** is snug unless it is wasteful. -/
theorem snug_malloc_iff (hi : Inv full ext h) (hx : Extension ext) (hr : Request r)
    (hm : malloc ext r h = some (a, h')) : Snug r h' a ↔ ¬ Wasteful r h := by
  obtain ⟨⟨b, h1⟩, hsup, hocc⟩ := Option.map_eq_some_iff.mp hm
  obtain ⟨rfl, rfl⟩ := Prod.mk.inj hocc
  rw [← snug_supply_iff hi hx hr hsup]
  refine snug_congr ?_
  dsimp only [occupy]
  split
  · rfl
  · exact map_slot_tag.trans map_slot_mark

/-! ### Reallocation -/

theorem snug_resize (he : (a, n) ∈ h.chunks.map Chunk.slot) : Snug r (resize a n r h) a := by
  unfold resize
  split_ifs with hfit
  · obtain ⟨c, hc, hca⟩ := List.mem_map.mp he
    refine (snug_congr (h := { h with chunks := trim a r .free h.chunks }) map_slot_tag).mpr ?_
    exact snug_trim ⟨c, hc, congrArg Prod.fst hca⟩ rfl
  · refine (snug_congr (h := h) map_slot_tag).mpr ?_
    exact ⟨n, he, not_le.mp hfit⟩

theorem snug_growAfter (hi : Inv full ext h) (hL : h.chunks = pre ++ c :: post)
    (hc : c.status = .inuse) (hm : growAfter c r h = some (a, h')) : Snug r h' a := by
  obtain ⟨d, post', rfl, -⟩ := hi.shape.exists_next hL (by simp [hc])
  obtain ⟨hat, -⟩ := hi.shape.chunkAt_next hL
  unfold growAfter at hm
  simp only [hat] at hm
  split_ifs at hm with hfree
  obtain ⟨rfl, rfl⟩ := Prod.mk.inj (Option.some.inj hm)
  refine snug_resize ?_
  rw [hi.shape.fuse_chunks hL]
  simp [fused, Chunk.slot]

theorem snug_growAround (hi : Inv full ext h) (hL : h.chunks = pre ++ c :: post)
    (hc : c.status = .inuse) (hm : growAround c r h = some (a, h')) : Snug r h' a := by
  obtain ⟨d, post', rfl, -⟩ := hi.shape.exists_next hL (by simp [hc])
  obtain ⟨hat, -⟩ := hi.shape.chunkAt_next hL
  cases hp : c.pinuse with
  | true => simp [growAround, hp] at hm
  | false =>
    obtain ⟨pre', p, rfl, hfree⟩ := exists_of_lastFree ((hi.tags_around hL).2.1 hp)
    have hL1 : h.chunks = pre' ++ p :: c :: d :: post' := by
      rw [hL, List.append_assoc]
      rfl
    simp only [growAround, hp, hi.shape.chunkBefore hL1, hat, Bool.false_eq_true, if_false] at hm
    split_ifs at hm with hcond
    obtain ⟨rfl, rfl⟩ := Prod.mk.inj (Option.some.inj hm)
    have hL2 : h.chunks = (pre' ++ [p] ++ [c]) ++ d :: post' := by simp [hL1]
    obtain ⟨e, post, rfl, -⟩ := hi.shape.exists_next hL2 (by simp [hcond.1])
    obtain ⟨-, hmerged⟩ := hi.merged_around hL1 hfree hc hcond.1
    refine snug_resize ?_
    rw [hmerged.chunks, List.map_append, List.map_cons, ← size_around]
    simp [fused, Chunk.slot]

theorem snug_growBefore (hi : Inv full ext h) (hL : h.chunks = pre ++ c :: post)
    (hc : c.status = .inuse) (hm : growBefore c r h = some (a, h')) : Snug r h' a := by
  obtain ⟨d, post', rfl, -⟩ := hi.shape.exists_next hL (by simp [hc])
  obtain ⟨hat, -⟩ := hi.shape.chunkAt_next hL
  cases hp : c.pinuse with
  | true => simp [growBefore, hp] at hm
  | false =>
    obtain ⟨pre', p, rfl, hfree⟩ := exists_of_lastFree ((hi.tags_around hL).2.1 hp)
    have hL1 : h.chunks = pre' ++ p :: c :: d :: post' := by
      rw [hL, List.append_assoc]
      rfl
    simp only [growBefore, hp, hi.shape.chunkBefore hL1, hat, Bool.false_eq_true, if_false] at hm
    split_ifs at hm with hcond
    obtain ⟨rfl, rfl⟩ := Prod.mk.inj (Option.some.inj hm)
    refine snug_resize ?_
    rw [hi.shape.fuse_chunks hL1]
    simp [fused, Chunk.slot]

theorem exists_mem_fuse {L : List Chunk} (h : ∃ c ∈ L, c.addr = a) :
    ∃ c ∈ fuse a τ L, c.addr = a := by
  induction L using fuse.induct a with
  | case1 c d L hc =>
    rw [fuse, if_pos hc]
    exact ⟨_, List.mem_cons_self, hc⟩
  | case2 c d L hc ih =>
    obtain ⟨x, hx, hxa⟩ := h
    rw [fuse, if_neg hc]
    rcases List.mem_cons.mp hx with rfl | hx
    · exact absurd hxa hc
    · obtain ⟨y, hy, hya⟩ := ih ⟨x, hx, hxa⟩
      exact ⟨y, List.mem_cons_of_mem _ hy, hya⟩
  | case3 L hL =>
    rw [fuse.eq_def]
    split
    · next c d L => exact absurd rfl (hL c d L)
    · exact h

theorem exists_mem_grow {L : List Chunk} {b m : ℕ} (h : ∃ c ∈ L, c.addr = a) :
    ∃ c ∈ grow b m L, c.addr = a := by
  obtain ⟨c, hc, hca⟩ := h
  by_cases hb : c.addr = b
  · refine ⟨{ c with size := c.size + m }, List.mem_flatMap.mpr ⟨c, hc, ?_⟩, hca⟩
    rw [if_pos hb]
    exact List.mem_singleton.mpr rfl
  · refine ⟨c, List.mem_flatMap.mpr ⟨c, hc, ?_⟩, hca⟩
    rw [if_neg hb]
    exact List.mem_singleton.mpr rfl

theorem snug_growTop (hc : c ∈ h.chunks) (hm : growTop ext c r h = some (a, h')) :
    Snug r h' a := by
  unfold growTop at hm
  split_ifs at hm with hcond
  obtain ⟨rfl, rfl⟩ := Prod.mk.inj (Option.some.inj hm)
  refine snug_trim (h := { h.extend (h.shortage ext c r) with
    chunks := fuse c.addr .inuse (h.extend (h.shortage ext c r)).chunks }) ?_ rfl
  exact exists_mem_fuse (exists_mem_grow ⟨c, hc, rfl⟩)

theorem snug_moveOut_iff (hi : Inv full ext h) (hx : Extension ext) (hr : Request r)
    (hL : h.chunks = pre ++ c :: post) (hc : c.status = .inuse)
    (hm : moveOut ext c r h = some (a, h')) : Snug r h' a ↔ ¬ Wasteful r h := by
  obtain ⟨⟨b, h1⟩, hmal, hfree⟩ := Option.map_eq_some_iff.mp hm
  obtain ⟨rfl, rfl⟩ := Prod.mk.inj hfree
  obtain ⟨hi1, -, n, -, hused⟩ := malloc_spec hi hx hr hmal
  -- the old block is freed, and the new one stays what it is
  have hmid := used_mid hL hc
  have hmem : c.slot ∈ h1.used := by
    rw [hused, hmid]
    simp
  obtain ⟨c', hc', hst, hslot⟩ := mem_usedSlots.mp hmem
  obtain ⟨hi2, -, hused'⟩ := free_spec hi1 hc' hst
  rw [show c'.addr = c.addr from congrArg Prod.fst hslot] at hi2 hused'
  have hkept : (b, n) ∈ (h1.free c.addr).used := by
    rw [hslot, hused, hmid, Multiset.cons_swap] at hused'
    rw [← (Multiset.cons_inj_right _).mp hused']
    exact Multiset.mem_cons_self _ _
  have hnew : (b, n) ∈ h1.used := by
    rw [hused]
    exact Multiset.mem_cons_self _ _
  calc Snug r (h1.free c.addr) b ↔ n < r + SMALLEST_CHUNK :=
      hi2.shape.snug_iff (mem_slots_of_used hkept)
    _ ↔ Snug r h1 b := (hi1.shape.snug_iff (mem_slots_of_used hnew)).symm
    _ ↔ ¬ Wasteful r h := snug_malloc_iff hi hx hr hmal

theorem snug_shrink (hi : Inv full ext h) (hr : Request r) (hL : h.chunks = pre ++ c :: post)
    (hc : c.status = .inuse) : Snug r (h.shrink c r) c.addr := by
  unfold shrink
  split_ifs with hfit
  · obtain ⟨d, post', rfl, -⟩ := hi.shape.exists_next hL (by simp [hc])
    have hl := hi.loosened_trim hr hL hc hfit
    obtain ⟨-, hused, -⟩ := hl.settle_spec
    refine ⟨r, mem_slots_of_used ?_, Nat.lt_add_of_pos_right (by decide)⟩
    refine hused ▸ ?_
    rw [Heap.used, hl.chunks]
    simp [usedSlots_append, usedSlots_cons, hc, Chunk.slot]
  · exact ⟨c.size, List.mem_map_of_mem (Shape.mem_chunks hL), not_le.mp hfit⟩

/-- **Reallocation** is snug unless the block moves to a wasteful allocation. -/
theorem snug_realloc_iff (hi : Inv full ext h) (hx : Extension ext) (hr : Request r)
    (hc : c ∈ h.chunks) (hst : c.status = .inuse) (hm : realloc ext c.addr r h = some (a, h')) :
    Snug r h' a ↔ InPlace ext c r h ∨ ¬ Wasteful r h := by
  obtain ⟨pre, post, hL⟩ := List.append_of_mem hc
  rw [realloc, hi.shape.chunkAt hc] at hm
  simp only at hm
  unfold InPlace
  split_ifs at hm with hle
  · obtain ⟨rfl, rfl⟩ := Prod.mk.inj (Option.some.inj hm)
    exact iff_of_true (snug_shrink hi hr hL hst) (.inl (.inl hle))
  simp only [Option.or_eq_some_iff] at hm
  rcases hm with hm | ⟨h1, hm | ⟨h2, hm | ⟨h3, hm | ⟨h4, hm⟩⟩⟩⟩
  · exact iff_of_true (snug_growAfter hi hL hst hm) (.inl (.inr (.inl (by simp [hm]))))
  · exact iff_of_true (snug_growAround hi hL hst hm) (.inl (.inr (.inr (.inl (by simp [hm])))))
  · exact iff_of_true (snug_growBefore hi hL hst hm)
      (.inl (.inr (.inr (.inr (.inl (by simp [hm]))))))
  · exact iff_of_true (snug_growTop hc hm) (.inl (.inr (.inr (.inr (.inr (by simp [hm]))))))
  · rw [snug_moveOut_iff hi hx hr hL hst hm]
    simp [hle, h1, h2, h3, h4]

/-! ### Staying in place -/

theorem growAfter_ne_none (hs : Shape ext X h) (hL : h.chunks = pre ++ c :: d :: post) :
    growAfter c r h ≠ none ↔ d.status = .free ∧ r ≤ c.size + d.size + 8 := by
  simp only [growAfter, (hs.chunkAt_next hL).1]
  split_ifs with hcond <;> simp [hcond]

theorem growAround_ne_none {p : Chunk} (hs : Shape ext X h)
    (hL : h.chunks = pre ++ p :: c :: d :: post) (hp : c.pinuse = false) :
    growAround c r h ≠ none ↔ d.status = .free ∧ r ≤ c.size + p.size + d.size + 16 := by
  have hL' : h.chunks = (pre ++ [p]) ++ c :: d :: post := by simp [hL]
  simp only [growAround, hp, hs.chunkBefore hL, (hs.chunkAt_next hL').1, Bool.false_eq_true,
    if_false]
  split_ifs with hcond <;> simp [hcond]

theorem growBefore_ne_none {p : Chunk} (hs : Shape ext X h)
    (hL : h.chunks = pre ++ p :: c :: d :: post) (hp : c.pinuse = false) :
    growBefore c r h ≠ none ↔ d.status ≠ .top ∧ r ≤ p.size + c.size + 8 := by
  have hL' : h.chunks = (pre ++ [p]) ++ c :: d :: post := by simp [hL]
  simp only [growBefore, hp, hs.chunkBefore hL, (hs.chunkAt_next hL').1, Bool.false_eq_true,
    if_false]
  split_ifs with hcond <;> simp [hcond]

theorem grow_none_of_pinuse (hp : c.pinuse = true) :
    growAround c r h = none ∧ growBefore c r h = none := by
  simp [growAround, growBefore, hp]

/-- A chunk is the end of the heap if it begins where that does. -/
theorem Shape.addr_eq_top_iff (hs : Shape ext X h) (hd : d ∈ h.chunks) :
    d.addr = h.top.1 ↔ d.status = .top := by
  obtain ⟨pre, t, hL, ht, htop, -⟩ := hs.exists_top
  constructor
  · intro ha
    rw [htop] at ha
    obtain rfl := hs.tiles.eq_of_addr_eq hd (by simp [hL]) ha
    exact ht
  · intro hst
    exact (congrArg Prod.fst (hs.top_eq hd hst).1).symm

theorem Shape.shortage_le_iff (hs : Shape ext X h) (hd : d ∈ h.chunks) (ht : d.status = .top) :
    h.brk + h.shortage ext c r ≤ h.limit ↔ r + SMALLEST_CHUNK ≤ c.size + d.size + 8 ∨
      h.brk + (r + SMALLEST_CHUNK + ext - (c.size + d.size + 8)) ≤ h.limit := by
  have htop : h.top.2 = d.size := congrArg Prod.snd (hs.top_eq hd ht).1
  rw [shortage, htop]
  split_ifs with hlt
  · simp [not_le.mpr hlt]
  · simp [not_lt.mp hlt, hs.arena.brk_le]

theorem growTop_ne_none (hs : Shape ext X h) (hL : h.chunks = pre ++ c :: d :: post) :
    growTop ext c r h ≠ none ↔ d.status = .top ∧
      (r + SMALLEST_CHUNK ≤ c.size + d.size + 8 ∨
        h.brk + (r + SMALLEST_CHUNK + ext - (c.size + d.size + 8)) ≤ h.limit) := by
  have hdm : d ∈ h.chunks := by simp [hL]
  have hend : c.next = h.top.1 ↔ d.status = .top :=
    (hs.chunkAt_next hL).2 ▸ hs.addr_eq_top_iff hdm
  have hcond : c.next = h.top.1 ∧ h.brk + h.shortage ext c r ≤ h.limit ↔ d.status = .top ∧
      (r + SMALLEST_CHUNK ≤ c.size + d.size + 8 ∨
        h.brk + (r + SMALLEST_CHUNK + ext - (c.size + d.size + 8)) ≤ h.limit) := by
    rw [hend]
    exact and_congr_right fun ht => hs.shortage_le_iff hdm ht
  rw [← hcond, growTop]
  split_ifs with h1
  · exact iff_of_true (by simp) h1
  · exact iff_of_false (by simp) h1

/-! ### A wasteful allocation succeeds -/

theorem malloc_ne_none_of_wasteful (hi : Inv full ext h) (hw : Wasteful r h) :
    malloc ext r h ≠ none := by
  intro hnone
  have hsup := Option.map_eq_none_iff.mp hnone
  rw [supply, Option.or_eq_none_iff, if_pos (isLargeSize_of_isHugeSize hw.1)] at hsup
  exact not_wasteful_of_none hi hsup.1 hw

theorem realloc_ne_none_of_wasteful (hi : Inv full ext h) (hc : c ∈ h.chunks)
    (hn : ¬ InPlace ext c r h) (hw : Wasteful r h) : realloc ext c.addr r h ≠ none := by
  have hle : ¬ r ≤ c.size := fun hle => hn (.inl hle)
  rw [realloc, hi.shape.chunkAt hc]
  simp only [if_neg hle]
  intro hnone
  simp only [Option.or_eq_none_iff] at hnone
  exact malloc_ne_none_of_wasteful hi hw (Option.map_eq_none_iff.mp hnone.2.2.2.2)

end Snug

end Heap

end Dlmalloc
