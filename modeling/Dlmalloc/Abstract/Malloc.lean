import Dlmalloc.Abstract.Invariant

/-!
# Allocation on the row of chunks

Every source of `Heap.supply` finds a free chunk large enough, takes it out of the bins and perhaps
splits it (`Found`). From this one description follow the invariant after `Heap.malloc` and what the
call does to the chunks in use.
-/

namespace Dlmalloc

open DigitTree

/-! ### Choosing a chunk -/

namespace Bins

variable {B : Bins} {e : Slot} {n last left r : ℕ}

theorem mem_binned_of_tree (he : e ∈ (B.tree n).entries) (hn : 32 ≤ n) :
    n < NUM_OF_BINS ∧ e ∈ B.slots n ∧ e ∈ B.binned := by
  unfold tree at he
  split_ifs at he with h
  · rw [slots_large hn]
    exact ⟨h, he, mem_binned.mpr ⟨n, h, by rwa [slots_large hn]⟩⟩
  · simp [entries] at he

/-- The scan settles on a chunk of a bin above `n`. -/
theorem scanLarge_mem (hn : 31 ≤ n) (he : B.scanLarge last left n = some e) :
    ∃ m, n < m ∧ m < NUM_OF_BINS ∧ e ∈ B.slots m ∧ e ∈ B.binned := by
  induction left generalizing n with
  | zero => simp [scanLarge] at he
  | succ left ih =>
    unfold scanLarge at he
    split_ifs at he with hlast
    split at he
    · obtain ⟨m, hm, h⟩ := ih (by omega) he
      exact ⟨m, by omega, h⟩
    · next k a rest l t ht =>
      have hmem : e ∈ (B.tree (n + 1)).entries := by
        rw [ht, ← Option.some.inj he]
        rcases leftmost_mem (a, k) (.node k a rest l t) with h | h
        · rw [h]
          simp [entries]
        · exact h
      obtain ⟨h1, h2, h3⟩ := mem_binned_of_tree hmem (by omega)
      exact ⟨n + 1, by omega, h1, h2, h3⟩

theorem findBest_mem (hs : B.Sorted) (hr : isLargeSize r) (hr8 : 8 ∣ r) (hh : ¬ isHugeSize r)
    (he : B.findBest r = some e) : e ∈ B.binned ∧ r ≤ e.2 := by
  obtain ⟨hlo, hhi⟩ := largeRequestIndex_bounds hr hh hr8
  rw [findBest, Option.or_eq_some_iff] at he
  rcases he with he | ⟨-, he⟩
  · have htree : B.tree (largeRequestIndex r) = B.large (largeRequestIndex r) := if_pos hhi
    have hroute := hs.routed _ hlo hhi
    rw [← htree] at hroute
    obtain ⟨hmem, hle⟩ := bestFit_mem hroute (prefix_largeRequestIndex hr hr8) (by omega) he
    exact ⟨(mem_binned_of_tree hmem hlo).2.2, hle⟩
  · obtain ⟨m, hm, hm64, hslot, hmem⟩ := scanLarge_mem (by omega) he
    obtain ⟨hl, -, h8, hidx⟩ := hs.large_of_slots (by omega) hm64 hslot
    have hlt := lt_of_largeRequestIndex_lt (le_of_isLargeSize hr hr8) (le_of_isLargeSize hl h8)
    exact ⟨hmem, (hlt (by omega)).le⟩

theorem hugeBest_mem {best : Option Slot} {bound : ℕ} {l : List Slot}
    (he : hugeBest r best bound l = some e) : best = some e ∨ e ∈ l ∧ r ≤ e.2 := by
  induction l generalizing best bound with
  | nil => exact .inl he
  | cons f l ih =>
    unfold hugeBest at he
    split_ifs at he with h1 h2
    · obtain rfl := Option.some.inj he
      exact .inr ⟨List.mem_cons_self, h1.1⟩
    · rcases ih he with h | ⟨h, hle⟩
      · obtain rfl := Option.some.inj h
        exact .inr ⟨List.mem_cons_self, h1.1⟩
      · exact .inr ⟨List.mem_cons_of_mem _ h, hle⟩
    · rcases ih he with h | ⟨h, hle⟩
      · exact .inl h
      · exact .inr ⟨List.mem_cons_of_mem _ h, hle⟩

theorem mem_binned_small {a i : ℕ} (hi : 3 ≤ i) (h32 : i < 32) (ha : a ∈ B.small i) :
    (a, 8 * i) ∈ B.binned := by
  have h64 : i < NUM_OF_BINS := by
    unfold NUM_OF_BINS
    omega
  refine mem_binned.mpr ⟨i, h64, ?_⟩
  rw [slots_small (by unfold HUGE_BIN; omega) h32]
  exact List.mem_map_of_mem ha

end Bins

namespace Heap

/-! ### Splitting -/

section Carve

variable {ext r : ℕ} {X Y : Multiset Slot} {h : Heap} {c : Chunk} {e : Slot}
  {pre post : List Chunk}

/-- The second piece of a split chunk. -/
def remainder (c : Chunk) (r : ℕ) : Chunk :=
  ⟨c.addr + r + 8, c.size - r - 8, c.status, false⟩

theorem Shape.carve_chunks (hs : Shape ext X h) (hL : h.chunks = pre ++ c :: post) :
    carve c.addr r h.chunks =
      pre ++ ⟨c.addr, r, .free, c.pinuse⟩ :: remainder c r :: post := by
  rw [hL]
  exact carve_mid (hs.tiles_of hL)

/-- Split a loose chunk, or the end of the heap. -/
theorem Shape.carve (hs : Shape ext X h) (hr : Request r) (hL : h.chunks = pre ++ c :: post)
    (hX : X = freeSlots [c] + Y) (hfit : r + 8 ≤ c.size) (hrest : (remainder c r).SizeOk ext) :
    Shape ext ((c.addr, r) ::ₘ (freeSlots [remainder c r] + Y))
      { h with chunks := carve c.addr r h.chunks } := by
  rw [hs.carve_chunks hL]
  have hedit := hs.edit (C := [c]) (D := [⟨c.addr, r, .free, c.pinuse⟩, remainder c r])
    (P := pre) (Q := post) (Y := Y) (Z := (c.addr, r) ::ₘ (freeSlots [remainder c r] + Y))
    (by simpa using hL) hX ?_ ?_ ?_ ?_
  · simpa using hedit
  · simp only [freeSlots_cons, freeSlots_nil, Chunk.slot, if_true]
    rw [← Multiset.singleton_add]
    abel
  · -- the two parts tile the chunk
    intro lo hi ht
    simp only [Tiles, Chunk.next, remainder] at ht ⊢
    exact ⟨ht.1, trivial, by omega⟩
  · refine ⟨_, _, _, _, rfl, rfl, fun ht => ?_⟩
    simp only [List.cons_append, List.nil_append] at ht ⊢
    rw [topLast_cons]
    refine .inr ⟨by simp, ?_⟩
    rw [topLast_cons] at ht ⊢
    exact ht
  · intro hc x hx
    have hc' := hc c (by simp)
    simp only [List.mem_cons, List.not_mem_nil, or_false] at hx
    rcases hx with rfl | rfl
    · exact ⟨hr.aligned, fun _ => hr.least, by simp⟩
    · exact hrest

/-- What is left of a free chunk that can be split is a good chunk. -/
theorem remainder_sizeOk (hr : Request r) (hc : c.SizeOk ext)
    (hfit : r + SMALLEST_CHUNK ≤ c.size) : (remainder c r).SizeOk ext := by
  have h8 := hr.aligned
  have hc8 := hc.aligned
  have hfit' : r + 32 ≤ c.size := hfit
  refine ⟨?_, fun _ => ?_, fun _ => ?_⟩ <;> simp only [remainder] <;> omega

end Carve

/-! ### What is found -/

/-- For a request `r` the chunk `c` of `h` was found, between `pre` and `post`. In `h'` it is free,
loose and `n` bytes long, and `rest` comes after it: what came after it before, or, if it was split,
its second piece too. -/
structure Found (ext r : ℕ) (h h' : Heap) (pre : List Chunk) (c : Chunk) (n : ℕ)
    (post rest : List Chunk) : Prop where
  before : h.chunks = pre ++ c :: post
  after : h'.chunks = pre ++ ⟨c.addr, n, .free, c.pinuse⟩ :: rest
  start : h'.start = h.start
  least : r ≤ n
  shape : Shape ext ((c.addr, n) ::ₘ h'.bins.victimSlot) h'
  kind : c.status = .free ∧ n = c.size ∧ rest = post ∨
    c.status ≠ .inuse ∧ n = r ∧ ∃ m, rest = ⟨c.addr + r + 8, m, c.status, false⟩ :: post

section Found

variable {full : Prop} {ext r a : ℕ} {h h' : Heap} {e : Slot}

/-- A chunk taken whole out of its bin. -/
theorem found_whole (hs : Shape ext (e ::ₘ h.bins.victimSlot) h) (hr : r ≤ e.2) :
    ∃ pre c post, c.addr = e.1 ∧ Found ext r h h pre c e.2 post post := by
  obtain ⟨pre, c, post, hL, rfl, hst⟩ := hs.mem_free (.inl (Multiset.mem_cons_self _ _))
  refine ⟨pre, c, post, rfl, hL, ?_, rfl, hr, hs, .inl ⟨hst, rfl, rfl⟩⟩
  rw [hL, ← hst]
  rfl

/-- A free chunk split for the request, its second piece being the new victim. -/
theorem found_split {Y : Multiset Slot} {B : Bins} (hs : Shape ext (e ::ₘ Y) { h with bins := B })
    (hY : Y = 0) (hr : Request r) (hfit : r + SMALLEST_CHUNK ≤ e.2) :
    ∃ pre c post rest, c.addr = e.1 ∧ Found ext r h
      { h with
        chunks := carve e.1 r h.chunks
        bins := { B with victim := some (e.1 + r + 8, e.2 - r - 8) } } pre c r post rest := by
  obtain ⟨pre, c, post, hL, rfl, hst⟩ := hs.mem_free (.inl (Multiset.mem_cons_self _ _))
  have hfit' : r + 32 ≤ c.size := hfit
  have hsz := remainder_sizeOk hr (hs.sizes c (Shape.mem_chunks hL)) hfit
  have hcut := hs.carve (Y := Y) hr hL (by simp [freeSlots_cons, hst]) (by omega) hsz
  refine ⟨pre, c, post, remainder c r :: post, rfl, hL, hs.carve_chunks hL, rfl, le_rfl, ?_,
    .inr ⟨by simp [hst], rfl, _, rfl⟩⟩
  have hvictim : (freeSlots [remainder c r] + Y : Multiset Slot) =
      {(c.addr + r + 8, c.size - r - 8)} := by
    rw [hY]
    simp [freeSlots_cons, remainder, hst, Chunk.slot]
  rw [hvictim] at hcut
  exact hcut.of_victim

theorem found_of_victim (hi : Inv full ext h) (hr : Request r)
    (hm : victimMalloc r h = some (a, h')) :
    ∃ pre c n post rest, c.addr = a ∧ Found ext r h h' pre c n post rest := by
  have hs := hi.shape
  unfold victimMalloc at hm
  cases hv : h.bins.victim with
  | none => simp [hv] at hm
  | some v =>
    rw [Bins.victimSlot_of_some hv] at hs
    simp only [hv] at hm
    split_ifs at hm with hfit hle
    · obtain ⟨rfl, rfl⟩ := Prod.mk.inj (Option.some.inj hm)
      obtain ⟨pre, c, post, rest, hc, hf⟩ := found_split (Y := 0) (B := h.bins) hs rfl hr hfit
      exact ⟨pre, c, r, post, rest, hc, hf⟩
    · obtain ⟨rfl, rfl⟩ := Prod.mk.inj (Option.some.inj hm)
      obtain ⟨pre, c, post, hc, hf⟩ :=
        found_whole (h := { h with bins := { h.bins with victim := none } }) hs.of_victim hle
      exact ⟨pre, c, v.2, post, post, hc, hf.before, hf.after, rfl, hle, hf.shape, hf.kind⟩

theorem found_of_takeBinned (hi : Inv full ext h) (hr : Request r) (he : e ∈ h.bins.binned)
    (hle : r ≤ e.2) (hm : takeBinned r h e = (a, h')) :
    ∃ pre c n post rest, c.addr = a ∧ Found ext r h h' pre c n post rest := by
  have hs := hi.shape.unbin he
  unfold takeBinned splitOffVictim at hm
  split_ifs at hm with hfit
  · obtain ⟨rfl, rfl⟩ := Prod.mk.inj hm
    have hret : Shape ext {e} { h with bins := (h.bins.unbin e).retire } := by
      refine Shape.retire (h := { h with bins := h.bins.unbin e }) ?_
      rw [Bins.victimSlot_unbin, add_comm, Multiset.singleton_add]
      exact hs
    obtain ⟨pre, c, post, rest, hc, hf⟩ := found_split (Y := 0) hret rfl hr hfit
    exact ⟨pre, c, r, post, rest, hc, hf⟩
  · obtain ⟨rfl, rfl⟩ := Prod.mk.inj hm
    obtain ⟨pre, c, post, hc, hf⟩ :=
      found_whole (h := { h with bins := h.bins.unbin e }) (by simpa using hs) hle
    exact ⟨pre, c, e.2, post, post, hc, hf.before, hf.after, rfl, hle, hf.shape, hf.kind⟩

theorem found_of_small (hi : Inv full ext h) (hr : Request r) (hl : ¬ isLargeSize r)
    (hm : smallMalloc r h = some (a, h')) :
    ∃ pre c n post rest, c.addr = a ∧ Found ext r h h' pre c n post rest := by
  unfold smallMalloc at hm
  split at hm
  · next b l hb =>
    -- the first chunk of the own bin is taken whole
    obtain ⟨rfl, rfl⟩ := Prod.mk.inj (Option.some.inj hm)
    obtain ⟨h3, h32⟩ := smallRequestIndex_bounds hl hr.least
    have h8 : 8 * smallRequestIndex r = r := by
      have := hr.aligned
      rw [smallRequestIndex_eq hl]
      omega
    have hmem : (b, r) ∈ h.bins.binned := by
      have := Bins.mem_binned_small (B := h.bins) (a := b) h3 h32 (by simp [hb])
      rwa [h8] at this
    obtain ⟨pre, c, post, hc, hf⟩ :=
      found_whole (r := r) (h := { h with bins := h.bins.unbin (b, r) })
      (by simpa using hi.shape.unbin hmem) le_rfl
    exact ⟨pre, c, r, post, post, hc, hf.before, hf.after, rfl, le_rfl, hf.shape, hf.kind⟩
  · -- the victim, or a chunk of a tree, which is large enough for any small request
    rw [Option.or_eq_some_iff] at hm
    rcases hm with hm | ⟨-, hm⟩
    · exact found_of_victim hi hr hm
    · obtain ⟨e, he, htake⟩ := Option.map_eq_some_iff.mp hm
      obtain ⟨m, hm, hm64, hslot, hmem⟩ := Bins.scanLarge_mem le_rfl he
      obtain ⟨hle, -, -⟩ := hi.shape.sorted.large_of_slots (by omega) hm64 hslot
      exact found_of_takeBinned hi hr hmem ((not_lt.mp hl).trans hle.le) htake

theorem found_of_large (hi : Inv full ext h) (hr : Request r) (hl : isLargeSize r)
    (hm : largeMalloc r h = some (a, h')) :
    ∃ pre c n post rest, c.addr = a ∧ Found ext r h h' pre c n post rest := by
  unfold largeMalloc at hm
  split_ifs at hm with hh
  · obtain ⟨e, he, htake⟩ := Option.map_eq_some_iff.mp hm
    obtain ⟨rfl, rfl⟩ := Prod.mk.inj htake
    rcases Bins.hugeBest_mem he with h0 | ⟨hmem, hle⟩
    · cases h0
    · have hb : e ∈ h.bins.binned :=
        Bins.mem_binned.mpr ⟨HUGE_BIN, by decide, by rwa [Bins.slots_huge]⟩
      obtain ⟨pre, c, post, hc, hf⟩ :=
        found_whole (h := { h with bins := h.bins.unbin e }) (by simpa using hi.shape.unbin hb) hle
      exact ⟨pre, c, e.2, post, post, hc, hf.before, hf.after, rfl, hle, hf.shape, hf.kind⟩
  · rw [Option.or_eq_some_iff] at hm
    rcases hm with hm | ⟨-, hm⟩
    · exact found_of_victim hi hr hm
    · obtain ⟨e, he, htake⟩ := Option.map_eq_some_iff.mp hm
      obtain ⟨hmem, hle⟩ := Bins.findBest_mem hi.shape.sorted hl hr.aligned hh he
      exact found_of_takeBinned hi hr hmem hle htake

/-- The end of the heap grows by what `brk` is moved. -/
theorem Shape.extend {X : Multiset Slot} {d : ℕ} (hs : Shape ext X h) (hd : 8 ∣ d)
    (hbrk : h.brk + d ≤ h.limit) : Shape ext X (h.extend d) ∧ ∃ pre t, t.status = .top ∧
      h.top = t.slot ∧ h.chunks = pre ++ [t] ∧
      (h.extend d).chunks = pre ++ [{ t with size := t.size + d }] := by
  obtain ⟨pre, t, hL, ht, htop, hnext⟩ := hs.exists_top
  have hchunks : (h.extend d).chunks = pre ++ [{ t with size := t.size + d }] := by
    simp only [Heap.extend, htop, Chunk.slot]
    rw [hL]
    exact grow_mid (hs.tiles_of hL)
  refine ⟨⟨⟨hs.arena.start_pos, hs.arena.first_aligned, hs.arena.start_le, hs.arena.first_lt, hbrk,
    hs.arena.limit_eq, hs.arena.span⟩, ?_, ?_, ?_, hs.sorted, ?_⟩, pre, t, ht, htop, hL, hchunks⟩
  · -- the row now reaches up to the new break
    rw [hchunks, tiles_mid]
    refine ⟨(tiles_mid.mp (hs.tiles_of hL)).1, ?_⟩
    simp only [Tiles, Chunk.next, Heap.extend] at hnext ⊢
    omega
  · have h' := hs.topLast
    rw [hL, topLast_append] at h'
    rw [hchunks]
    exact topLast_concat h'.1 ht
  · -- only the last chunk has another size, and it grew
    intro x hx
    have h' := hs.sizes
    rw [hL] at h'
    rw [hchunks] at hx
    simp only [List.mem_append, List.mem_singleton] at h' hx
    rcases hx with hx | rfl
    · exact h' x (.inl hx)
    · have htsz := h' t (.inr rfl)
      exact ⟨(Nat.dvd_add_iff_right htsz.aligned).mp hd, fun h0 => absurd ht h0,
        fun _ => (htsz.topLeast ht).trans (Nat.le_add_right _ _)⟩
  · have h' := hs.account
    rw [hL] at h'
    rw [hchunks]
    simpa [freeSlots_append, freeSlots_cons, ht, Heap.extend] using h'

theorem Shape.used_extend {X : Multiset Slot} {d : ℕ} (hs : Shape ext X h) (hd : 8 ∣ d)
    (hbrk : h.brk + d ≤ h.limit) : (h.extend d).used = h.used := by
  obtain ⟨-, pre, t, ht, -, hL, hchunks⟩ := hs.extend hd hbrk
  rw [used, used, hchunks, hL, usedSlots_append, usedSlots_append]
  simp [usedSlots_cons, ht]

/-- A request served from the end of the heap. -/
theorem found_top {pre : List Chunk} {t : Chunk} (hs : Shape ext h.bins.victimSlot h)
    (hr : Request r) (hL : h.chunks = pre ++ [t]) (ht : t.status = .top)
    (hfit : r + 8 ≤ t.size) (hrest : (remainder t r).SizeOk ext) :
    Found ext r h { h with chunks := carve t.addr r h.chunks } pre t r []
      [remainder t r] where
  before := hL
  after := hs.carve_chunks hL
  start := rfl
  least := le_rfl
  shape := by
    have := hs.carve (Y := h.bins.victimSlot) hr hL (by simp [freeSlots_cons, ht]) hfit hrest
    simpa [freeSlots_cons, remainder, ht] using this
  kind := .inr ⟨by simp [ht], rfl, _, rfl⟩

theorem found_of_end (hi : Inv full ext h) (hx : Extension ext) (hr : Request r)
    (hm : endMalloc ext r h = some (a, h')) :
    ∃ pre c n post rest, c.addr = a ∧ Found ext r h h' pre c n post rest := by
  have hs := hi.shape
  unfold endMalloc at hm
  obtain ⟨pre, t, hL, ht, htop, hnext⟩ := hs.exists_top
  have htsz := hs.sizes t (Shape.mem_chunks hL)
  simp only [htop, Chunk.slot] at hm
  -- the end of the heap holds the request and a chunk more, or it is extended first
  split_ifs at hm with hfit hgrow
  · obtain ⟨rfl, rfl⟩ := Prod.mk.inj (Option.some.inj hm)
    have hfit' : r + 32 ≤ t.size := hfit
    exact ⟨pre, t, r, [], _, rfl,
      found_top hs hr hL ht (by omega) (remainder_sizeOk hr htsz hfit)⟩
  · obtain ⟨rfl, rfl⟩ := Prod.mk.inj (Option.some.inj hm)
    have h8 : 8 ∣ r + ext - t.size :=
      (Nat.dvd_sub (Nat.dvd_add hr.aligned hx.aligned) htsz.aligned)
    obtain ⟨hs', pre', t', ht', htop', hL', hchunks⟩ := hs.extend h8 hgrow.2
    obtain ⟨rfl, h2⟩ := List.append_inj' (hL.symm.trans hL') rfl
    obtain rfl : t = t' := by simpa using h2
    have hle := hx.least
    have hsize : t.size + (r + ext - t.size) = r + ext := by omega
    have hrest : (remainder { t with size := t.size + (r + ext - t.size) } r).SizeOk ext := by
      refine ⟨?_, fun h0 => absurd ht h0, fun _ => ?_⟩ <;> simp only [remainder, hsize]
      · have := hx.aligned
        omega
      · omega
    have hf := found_top (h := h.extend (r + ext - t.size)) hs' hr hchunks ht
      (by simp only [hsize]; omega) hrest
    exact ⟨pre, t, r, [], _, rfl, hL, hf.after, rfl, le_rfl, hf.shape,
      .inr ⟨by simp [ht], rfl, _, rfl⟩⟩

theorem found_of_supply (hi : Inv full ext h) (hx : Extension ext) (hr : Request r)
    (hm : supply ext r h = some (a, h')) :
    ∃ pre c n post rest, c.addr = a ∧ Found ext r h h' pre c n post rest := by
  rw [supply, Option.or_eq_some_iff] at hm
  rcases hm with hm | ⟨-, hm⟩
  · split_ifs at hm with hl
    · exact found_of_large hi hr hl hm
    · exact found_of_small hi hr hl hm
  · exact found_of_end hi hx hr hm

/-! ### Handing it out -/

/-- The chunk after the one found. -/
theorem Found.exists_next {pre post rest : List Chunk} {c : Chunk} {n : ℕ}
    (hf : Found ext r h h' pre c n post rest) :
    ∃ d rest', rest = d :: rest' ∧ d.addr = c.addr + n + 8 :=
  hf.shape.exists_next hf.after (by simp)

/-- The chunk found, marked as in use. -/
theorem Found.marked {pre post rest : List Chunk} {c : Chunk} {n : ℕ}
    (hf : Found ext r h h' pre c n post rest) :
    mark c.addr .inuse h'.chunks = pre ++ ⟨c.addr, n, .inuse, c.pinuse⟩ :: rest ∧
      Shape ext h'.bins.victimSlot
        { h' with chunks := pre ++ ⟨c.addr, n, .inuse, c.pinuse⟩ :: rest } := by
  refine ⟨?_, ?_⟩
  · rw [hf.after]
    exact mark_mid (hf.shape.tiles_of hf.after)
  · have hedit := hf.shape.edit (C := [⟨c.addr, n, .free, c.pinuse⟩])
      (D := [⟨c.addr, n, .inuse, c.pinuse⟩]) (Z := h'.bins.victimSlot)
      (Y := h'.bins.victimSlot) (P := pre) (Q := rest)
      (by simpa using hf.after) (by simp [freeSlots_cons, Chunk.slot]) (by simp [freeSlots_cons])
      (fun lo hi ht => ht) ⟨_, _, _, _, rfl, rfl, fun ht => ?_⟩ fun hsz x hx => ?_
    · simpa using hedit
    · simp only [List.singleton_append, topLast_cons] at ht ⊢
      simpa using ht
    · obtain rfl := List.mem_singleton.mp hx
      have hx := hsz _ (List.mem_singleton.mpr rfl)
      exact ⟨hx.aligned, fun _ => hx.least (by simp), by simp⟩

/-- Handing out the chunk found: it is in use, and the next chunk's bit says so. -/
theorem Found.occupy_eq {pre post rest : List Chunk} {c d : Chunk} {n : ℕ}
    (hf : Found ext r h h' pre c n post (d :: rest)) (hd : d.addr = c.addr + n + 8) :
    h'.occupy c.addr = { h' with
      chunks := pre ++ ⟨c.addr, n, .inuse, c.pinuse⟩ :: { d with pinuse := true } :: rest } ∧
      Shape ext h'.bins.victimSlot (h'.occupy c.addr) := by
  have hat : chunkAt h'.chunks c.addr = some ⟨c.addr, n, .free, c.pinuse⟩ := by
    rw [hf.after]
    exact chunkAt_mid (hf.shape.tiles_of hf.after)
  obtain ⟨hmark, hs1⟩ := hf.marked
  have hsplit : pre ++ ⟨c.addr, n, .inuse, c.pinuse⟩ :: d :: rest =
      (pre ++ [⟨c.addr, n, .inuse, c.pinuse⟩]) ++ d :: rest := by simp
  rw [hsplit] at hmark hs1
  have heq : h'.occupy c.addr = { h' with
      chunks := pre ++ ⟨c.addr, n, .inuse, c.pinuse⟩ :: { d with pinuse := true } :: rest } := by
    simp only [occupy, hat, Chunk.next, hmark, ← hd]
    rw [tag_mid (hs1.tiles_of rfl), List.append_assoc]
    rfl
  refine ⟨heq, ?_⟩
  rw [heq]
  simpa using hs1.tag (b := true) rfl

/-- The tags after the chunk found was handed out. -/
theorem Found.tags {pre post rest : List Chunk} {c d : Chunk} {n : ℕ}
    (hf : Found ext r h h' pre c n post (d :: rest)) (ht : Tags full false h.chunks) :
    Tags full false
      (pre ++ ⟨c.addr, n, .inuse, c.pinuse⟩ :: { d with pinuse := true } :: rest) := by
  rw [hf.before, tags_mid] at ht
  obtain ⟨hpre, ⟨h1, h2⟩, hpost⟩ := ht
  rw [tags_mid]
  refine ⟨hpre, ⟨h1, fun hfull hb => ⟨(h2 hfull hb).1, rfl⟩⟩, by simp, by simp, ?_⟩
  rcases hf.kind with ⟨-, -, rfl⟩ | ⟨-, -, m, hrest⟩
  · exact hpost.2.2
  · obtain ⟨rfl, rfl⟩ := List.cons.inj hrest
    exact hpost

/-- Finding a chunk leaves the chunks in use alone. -/
theorem Found.used_eq {pre post rest : List Chunk} {c : Chunk} {n : ℕ}
    (hf : Found ext r h h' pre c n post rest) : h'.used = h.used := by
  rw [Heap.used, Heap.used, hf.before, hf.after, usedSlots_append, usedSlots_append, usedSlots_cons,
    usedSlots_cons]
  rcases hf.kind with ⟨hst, -, rfl⟩ | ⟨hst, -, m, rfl⟩
  · simp [hst]
  · simp [usedSlots_cons, hst]

theorem Found.used {pre post rest : List Chunk} {c d : Chunk} {n : ℕ}
    (hf : Found ext r h h' pre c n post (d :: rest)) :
    usedSlots (pre ++ ⟨c.addr, n, .inuse, c.pinuse⟩ :: { d with pinuse := true } :: rest) =
      (c.addr, n) ::ₘ h.used := by
  rw [← hf.used_eq, Heap.used, hf.after, ← Multiset.singleton_add]
  simp only [usedSlots_append, usedSlots_cons, Chunk.slot, reduceCtorEq, if_true, if_false]
  abel

/-- **Allocation** keeps the invariant and adds one chunk in use, large enough. -/
theorem malloc_spec (hi : Inv full ext h) (hx : Extension ext) (hr : Request r)
    (hm : malloc ext r h = some (a, h')) :
    Inv full ext h' ∧ h'.start = h.start ∧ ∃ n, r ≤ n ∧ h'.used = (a, n) ::ₘ h.used := by
  obtain ⟨⟨b, h1⟩, hsup, hocc⟩ := Option.map_eq_some_iff.mp hm
  obtain ⟨rfl, rfl⟩ := Prod.mk.inj hocc
  obtain ⟨pre, c, n, post, rest, rfl, hf⟩ := found_of_supply hi hx hr hsup
  obtain ⟨d, rest', rfl, hd⟩ := hf.exists_next
  obtain ⟨heq, hshape⟩ := hf.occupy_eq hd
  rw [heq] at hshape ⊢
  exact ⟨⟨hshape, hf.tags hi.tags⟩, hf.start, n, hf.least, hf.used⟩

end Found

end Heap

end Dlmalloc
