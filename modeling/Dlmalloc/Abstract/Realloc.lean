import Dlmalloc.Abstract.Free
import Dlmalloc.Abstract.Malloc

/-!
# Reallocation on the row of chunks

A block shrinks in place, grows in one of four ways over its neighbours, or moves. The three ways
over free neighbours merge the chunks into one in use (`Merged`) and cut off what is not needed
(`Heap.resize`).

Every way keeps the tags as they were, full or not, with one exception: a shrinking reallocation
that cuts off a chunk before a chunk in use (`BareSplit`) does not clear that chunk's
`PREVIOUS_INUSE` bit.
-/

namespace Dlmalloc

namespace Heap

/-- Shrinking `c` to `r` bytes cuts off a chunk, and the next chunk is in use. -/
def BareSplit (c : Chunk) (r : ℕ) (h : Heap) : Prop :=
  r + SMALLEST_CHUNK ≤ c.size ∧ ∃ d, chunkAt h.chunks c.next = some d ∧ d.status = .inuse

/-- `h'` is `h` with the block in the chunk `c` now in a chunk at `b` of at least `r` bytes. -/
def Replaced (r : ℕ) (h h' : Heap) (c : Chunk) (b : ℕ) : Prop :=
  h'.start = h.start ∧ ∃ n U, r ≤ n ∧ h.used = c.slot ::ₘ U ∧ h'.used = (b, n) ::ₘ U

/-! ### Merging and cutting -/

/-- The chunk `b` is in use between `pre` and `d :: post`, a free chunk after it having been merged
into it: only the tag of `d` may be wrong. -/
structure Merged (full : Prop) (ext : ℕ) (h : Heap) (pre : List Chunk) (b d : Chunk)
    (post : List Chunk) : Prop where
  chunks : h.chunks = pre ++ b :: d :: post
  inuse : b.status = .inuse
  shape : Shape ext h.bins.victimSlot h
  tagsBefore : Tags full false pre
  tag : b.pinuse = false → lastFree false pre = true
  apart : full → lastFree false pre = true → b.pinuse = false
  nextInuse : full → d.status = .inuse
  tagsAfter : Tags full (decide (d.status = .free)) post

section Trim

variable {full : Prop} {ext r : ℕ} {X : Multiset Slot} {h : Heap} {b c d : Chunk}
  {pre post : List Chunk}

/-- The piece cut off a chunk in use. -/
def offcut (c : Chunk) (r : ℕ) : Chunk := ⟨c.addr + r + 8, c.size - r - 8, .free, true⟩

theorem Shape.trim_chunks {τ : Status} (hs : Shape ext X h) (hL : h.chunks = pre ++ c :: post) :
    trim c.addr r τ h.chunks = pre ++ ⟨c.addr, r, c.status, c.pinuse⟩ ::
      ⟨c.addr + r + 8, c.size - r - 8, τ, true⟩ :: post := by
  rw [hL]
  exact trim_mid (hs.tiles_of hL)

/-- Cutting a chunk in use in two leaves the second piece free and loose. -/
theorem Shape.trim (hs : Shape ext X h) (hr : Request r) (hL : h.chunks = pre ++ c :: post)
    (hc : c.status = .inuse) (hfit : r + SMALLEST_CHUNK ≤ c.size) :
    Shape ext ((offcut c r).slot ::ₘ X) { h with chunks := trim c.addr r .free h.chunks } := by
  have hfit' : r + 32 ≤ c.size := hfit
  rw [hs.trim_chunks hL]
  have hedit := hs.edit (C := [c]) (D := [⟨c.addr, r, c.status, c.pinuse⟩, offcut c r])
    (P := pre) (Q := post) (Y := X) (Z := (offcut c r).slot ::ₘ X)
    (by simpa using hL) (by simp [freeSlots_cons, hc])
    (by simp [freeSlots_cons, hc, offcut]) ?_ ⟨_, _, _, _, rfl, rfl, fun ht => ?_⟩
    fun hsz x hx => ?_
  · simpa [offcut] using hedit
  · intro lo hi ht
    simp only [Tiles, Chunk.next, offcut] at ht ⊢
    exact ⟨ht.1, trivial, by omega⟩
  · simp only [List.cons_append, List.nil_append, topLast_cons] at ht ⊢
    simpa [hc, offcut] using ht
  · have hc' := hsz c (by simp)
    have h8 := hr.aligned
    have hc8 := hc'.aligned
    simp only [List.mem_cons, List.not_mem_nil, or_false] at hx
    rcases hx with rfl | rfl
    · exact ⟨hr.aligned, fun _ => hr.least, by simp [hc]⟩
    · refine ⟨?_, fun _ => ?_, by simp [offcut]⟩ <;> simp only [offcut] <;> omega

/-- **Cutting down** a merged chunk restores the invariant. -/
theorem Merged.resize_spec (hm : Merged full ext h pre b d post) (hr : Request r)
    (hle : r ≤ b.size) : Inv full ext (resize b.addr b.size r h) ∧
      (resize b.addr b.size r h).start = h.start ∧
      ∃ n, r ≤ n ∧ (resize b.addr b.size r h).used =
        (b.addr, n) ::ₘ (usedSlots pre + usedSlots (d :: post)) := by
  have hs := hm.shape
  have hd : d.addr = b.addr + b.size + 8 := (tiles_mid.mp (hs.tiles_of hm.chunks)).2.1
  have hused : ∀ n p p',
      usedSlots (pre ++ ⟨b.addr, n, .inuse, p⟩ :: { d with pinuse := p' } :: post) =
      (b.addr, n) ::ₘ (usedSlots pre + usedSlots (d :: post)) := fun n p p' => by
    rw [usedSlots_append, usedSlots_cons, usedSlots_cons, usedSlots_cons,
      ← Multiset.singleton_add]
    simp only [Chunk.slot, if_true]
    abel
  unfold resize
  split_ifs with hfit
  · -- room for a chunk behind the request: the offcut is freed
    have hs1 := hs.trim hr hm.chunks hm.inuse hfit
    have hL1 := hs.trim_chunks (r := r) (τ := .free) hm.chunks
    have hL1' : trim b.addr r .free h.chunks =
        (pre ++ [⟨b.addr, r, b.status, b.pinuse⟩, offcut b r]) ++ d :: post := by
      rw [hL1]
      simp [offcut]
    have htag : Dlmalloc.tag (b.addr + b.size + 8) false (trim b.addr r .free h.chunks) =
        pre ++ ⟨b.addr, r, b.status, b.pinuse⟩ :: offcut b r ::
          { d with pinuse := false } :: post := by
      rw [hL1', ← hd, tag_mid (hs1.tiles_of hL1')]
      simp
    have hs2 := (hs1.tag (b := false) hL1').insert
    refine ⟨⟨?_, ?_⟩, rfl, r, le_rfl, ?_⟩
    · rw [htag]
      simpa [offcut, Chunk.slot] using hs2
    · rw [htag, tags_mid]
      refine ⟨hm.tagsBefore, ⟨hm.tag, fun hfull hb => ⟨hm.apart hfull hb, hm.inuse⟩⟩,
        by simp [offcut], by simp [hm.inuse], by simp [offcut],
        fun hfull _ => ⟨rfl, hm.nextInuse hfull⟩, hm.tagsAfter⟩
    · rw [Heap.used, htag, ← hused r b.pinuse false]
      simp [usedSlots_append, usedSlots_cons, hm.inuse, offcut]
  · -- the merged chunk is kept whole
    have htl : Tiles h.first ((pre ++ [b]) ++ d :: post) (h.brk - 8) := by
      rw [List.append_assoc]
      exact hs.tiles_of hm.chunks
    have hL1 : h.chunks = (pre ++ [b]) ++ d :: post := by
      rw [hm.chunks, List.append_assoc]
      rfl
    have htag : Dlmalloc.tag (b.addr + b.size + 8) true h.chunks =
        pre ++ b :: { d with pinuse := true } :: post := by
      rw [hL1, ← hd, tag_mid htl, List.append_assoc]
      rfl
    refine ⟨⟨?_, ?_⟩, rfl, b.size, hle, ?_⟩
    · rw [htag]
      simpa using hs.tag (b := true) hL1
    · rw [htag, tags_mid]
      exact ⟨hm.tagsBefore, ⟨hm.tag, fun hfull hb => ⟨hm.apart hfull hb, hm.inuse⟩⟩,
        by simp, by simp [hm.inuse], hm.tagsAfter⟩
    · rw [Heap.used, htag, ← hused b.size b.pinuse true, ← hm.inuse]

end Trim

/-! ### The ways to grow -/

section Grow

variable {full : Prop} {ext r a : ℕ} {h h' : Heap} {c d e p : Chunk} {pre post : List Chunk}

theorem used_mid (hL : h.chunks = pre ++ c :: post) (hc : c.status = .inuse) :
    h.used = c.slot ::ₘ (usedSlots pre + usedSlots post) := by
  rw [Heap.used, hL, usedSlots_append, usedSlots_cons, if_pos hc, ← Multiset.singleton_add]
  abel

theorem Shape.chunkAt_next {X : Multiset Slot} (hs : Shape ext X h)
    (hL : h.chunks = pre ++ c :: d :: post) :
    Dlmalloc.chunkAt h.chunks c.next = some d ∧ d.addr = c.next := by
  have hd : d.addr = c.next := (tiles_mid.mp (hs.tiles_of hL)).2.1
  refine ⟨?_, hd⟩
  rw [← hd]
  exact hs.chunkAt (by simp [hL])

/-- A free chunk leaves the bins and is merged into the chunk `c` in use before it. -/
theorem Shape.merge_next (hs : Shape ext h.bins.victimSlot h)
    (hL : h.chunks = pre ++ c :: d :: post) (hc : c.status = .inuse) (hd : d.status = .free) :
    d.slot ∈ h.bins.held ∧ Shape ext (h.bins.remove d.slot).victimSlot { h with
      chunks := Dlmalloc.fuse c.addr .inuse h.chunks, bins := h.bins.remove d.slot } := by
  rw [← add_zero h.bins.victimSlot] at hs
  have hs' := hs
  rw [add_comm] at hs'
  have hheld := hs'.held_of_free (d := d) (by simp [hL]) hd (by simp)
  refine ⟨hheld, ?_⟩
  have hf := (hs.remove hheld).fuse (τ := .inuse) (Y := (h.bins.remove d.slot).victimSlot)
    hL ?_ (by simp [hc]) (by simp [hd])
  · simpa [freeSlots_cons, fused] using hf
  · simp [freeSlots_cons, hc, hd]

/-- A free chunk leaves the bins and the chunk `c` in use after it is merged into it. -/
theorem Shape.merge_previous (hs : Shape ext h.bins.victimSlot h)
    (hL : h.chunks = pre ++ p :: c :: post) (hc : c.status = .inuse) (hp : p.status = .free) :
    p.slot ∈ h.bins.held ∧ Shape ext (h.bins.remove p.slot).victimSlot { h with
      chunks := Dlmalloc.fuse p.addr .inuse h.chunks, bins := h.bins.remove p.slot } := by
  rw [← add_zero h.bins.victimSlot] at hs
  have hs' := hs
  rw [add_comm] at hs'
  have hheld := hs'.held_of_free (d := p) (by simp [hL]) hp (by simp)
  refine ⟨hheld, ?_⟩
  have hf := (hs.remove hheld).fuse (τ := .inuse) (Y := (h.bins.remove p.slot).victimSlot)
    hL ?_ (by simp [hp]) (by simp [hc])
  · simpa [freeSlots_cons, fused] using hf
  · simp [freeSlots_cons, hc, hp]

/-- Around a chunk in use: its tags, and those of its neighbours. -/
theorem Inv.tags_around (hi : Inv full ext h) (hL : h.chunks = pre ++ c :: d :: post) :
    Tags full false pre ∧ (c.pinuse = false → lastFree false pre = true) ∧
      (full → lastFree false pre = true → c.pinuse = false) ∧
      Tags full (decide (d.status = .free)) post := by
  have ht := hi.tags
  rw [hL, tags_mid] at ht
  exact ⟨ht.1, ht.2.1.1, fun hf hb => (ht.2.1.2 hf hb).1, ht.2.2.2.2⟩

/-- The chunk `c` in use and the free chunk after it, merged. -/
theorem Inv.merged_after (hi : Inv full ext h) (hL : h.chunks = pre ++ c :: d :: e :: post)
    (hc : c.status = .inuse) (hd : d.status = .free) : Merged full ext { h with
      chunks := Dlmalloc.fuse c.addr .inuse h.chunks, bins := h.bins.remove d.slot }
      pre (fused c d .inuse) e post := by
  obtain ⟨hpre, htag, hapart, hpost⟩ := hi.tags_around hL
  obtain ⟨-, hs⟩ := hi.shape.merge_next hL hc hd
  exact ⟨hi.shape.fuse_chunks hL, rfl, hs, hpre, htag, hapart,
    fun hf => (hpost.2.1 hf (by simp [hd])).2, hpost.2.2⟩

/-- The chunk `c` in use and the free chunk before it, merged, where the chunk after is in use. -/
theorem Inv.merged_before (hi : Inv full ext h) (hL : h.chunks = pre ++ p :: c :: d :: post)
    (hp : p.status = .free) (hc : c.status = .inuse) (hd : full → d.status = .inuse) :
    Merged full ext { h with
      chunks := Dlmalloc.fuse p.addr .inuse h.chunks, bins := h.bins.remove p.slot }
      pre (fused p c .inuse) d post := by
  have hL' : h.chunks = (pre ++ [p]) ++ c :: d :: post := by simp [hL]
  obtain ⟨hpre, -, -, hpost⟩ := hi.tags_around hL'
  obtain ⟨-, hs⟩ := hi.shape.merge_previous hL hc hp
  rw [tags_append] at hpre
  exact ⟨hi.shape.fuse_chunks hL, rfl, hs, hpre.1, hpre.2.1, fun hf hb => (hpre.2.2.1 hf hb).1,
    hd, hpost⟩

/-- The chunk `c` in use and the free chunks on both sides, merged. -/
theorem Inv.merged_around (hi : Inv full ext h) (hL : h.chunks = pre ++ p :: c :: d :: e :: post)
    (hp : p.status = .free) (hc : c.status = .inuse) (hd : d.status = .free) :
    p.slot ∈ (h.bins.remove d.slot).held ∧ Merged full ext { h with
      chunks := Dlmalloc.fuse p.addr .inuse (Dlmalloc.fuse c.addr .inuse h.chunks)
      bins := (h.bins.remove d.slot).remove p.slot }
      pre (fused p (fused c d .inuse) .inuse) e post := by
  have hL' : h.chunks = (pre ++ [p]) ++ c :: d :: e :: post := by simp [hL]
  obtain ⟨hpre, -, -, hpost⟩ := hi.tags_around hL'
  -- first `c` and the chunk after it, then the chunk before them
  obtain ⟨-, hs1⟩ := hi.shape.merge_next hL' hc hd
  have hfuse1 :
      Dlmalloc.fuse c.addr .inuse h.chunks = pre ++ p :: fused c d .inuse :: e :: post := by
    rw [hi.shape.fuse_chunks hL', List.append_assoc]
    rfl
  obtain ⟨hheld, hs2⟩ := Shape.merge_previous (h := { h with
    chunks := Dlmalloc.fuse c.addr .inuse h.chunks
    bins := h.bins.remove d.slot }) hs1 hfuse1 rfl hp
  rw [tags_append] at hpre
  exact ⟨hheld, hs1.fuse_chunks hfuse1, rfl, hs2, hpre.1, hpre.2.1,
    fun hf hb => (hpre.2.2.1 hf hb).1, fun hf => (hpost.2.1 hf (by simp [hd])).2, hpost.2.2⟩

theorem growAfter_spec (hi : Inv full ext h) (hr : Request r)
    (hL : h.chunks = pre ++ c :: post) (hc : c.status = .inuse)
    (hm : growAfter c r h = some (a, h')) : Inv full ext h' ∧ Replaced r h h' c a := by
  obtain ⟨d, post', rfl, -⟩ := hi.shape.exists_next hL (by simp [hc])
  obtain ⟨hat, hd⟩ := hi.shape.chunkAt_next hL
  unfold growAfter at hm
  simp only [hat] at hm
  split_ifs at hm with hfree
  obtain ⟨rfl, rfl⟩ := Prod.mk.inj (Option.some.inj hm)
  have hL1 : h.chunks = (pre ++ [c]) ++ d :: post' := by rw [hL, List.append_assoc]; rfl
  obtain ⟨e, post, rfl, -⟩ := hi.shape.exists_next hL1 (by simp [hfree.1])
  obtain ⟨hinv, hstart, n, hn, hused⟩ :=
    (hi.merged_after hL hc hfree.1).resize_spec hr hfree.2
  refine ⟨hinv, hstart, n, _, hn, used_mid hL hc, ?_⟩
  rw [usedSlots_cons, if_neg (by simp [hfree.1]), zero_add]
  exact hused

/-- A free chunk after `c` would have made the larger merge possible too. -/
theorem next_inuse_of_growAround (hs : Shape ext h.bins.victimSlot h)
    (hL : h.chunks = pre ++ p :: c :: d :: post) (hp : c.pinuse = false)
    (haround : growAround c r h = none) (hd : d.status ≠ .top) (hle : r ≤ p.size + c.size + 8) :
    d.status = .inuse := by
  have hL' : h.chunks = (pre ++ [p]) ++ c :: d :: post := by simp [hL]
  simp only [growAround, hp, hs.chunkBefore hL, (hs.chunkAt_next hL').1, Bool.false_eq_true,
    if_false] at haround
  split_ifs at haround with hcond
  cases hst : d.status with
  | inuse => rfl
  | free => exact absurd ⟨hst, by omega⟩ hcond
  | top => exact absurd hst hd

theorem growBefore_spec (hi : Inv full ext h) (hr : Request r)
    (hL : h.chunks = pre ++ c :: post) (hc : c.status = .inuse)
    (haround : growAround c r h = none) (hm : growBefore c r h = some (a, h')) :
    Inv full ext h' ∧ Replaced r h h' c a := by
  obtain ⟨d, post', rfl, -⟩ := hi.shape.exists_next hL (by simp [hc])
  obtain ⟨hat, hd⟩ := hi.shape.chunkAt_next hL
  cases hp : c.pinuse with
  | true => simp [growBefore, hp] at hm
  | false =>
    obtain ⟨pre', p, rfl, hfree⟩ := exists_of_lastFree ((hi.tags_around hL).2.1 hp)
    have hL1 : h.chunks = pre' ++ p :: c :: d :: post' := by
      rw [hL, List.append_assoc]
      rfl
    have hbefore := hi.shape.chunkBefore hL1
    simp only [growBefore, hp, hbefore, hat, Bool.false_eq_true, if_false] at hm
    split_ifs at hm with hcond
    obtain ⟨rfl, rfl⟩ := Prod.mk.inj (Option.some.inj hm)
    -- growing over both failed, so the chunk behind is in use
    have hinuse := next_inuse_of_growAround hi.shape hL1 hp haround hcond.1 hcond.2
    obtain ⟨hinv, hstart, n, hn, hused⟩ :=
      (hi.merged_before hL1 hfree hc fun _ => hinuse).resize_spec hr hcond.2
    refine ⟨hinv, hstart, n, _, hn, used_mid hL hc, ?_⟩
    rw [usedSlots_append, usedSlots_cons (c := p), if_neg (by simp [hfree]), zero_add,
      usedSlots_nil, add_zero]
    exact hused

/-- The size of the three chunks of `merged_around`, as `growAround` writes it. -/
theorem size_around : (fused p (fused c d .inuse) .inuse).size = c.size + p.size + d.size + 16 := by
  simp only [fused]
  omega

theorem growAround_spec (hi : Inv full ext h) (hr : Request r)
    (hL : h.chunks = pre ++ c :: post) (hc : c.status = .inuse)
    (hm : growAround c r h = some (a, h')) : Inv full ext h' ∧ Replaced r h h' c a := by
  obtain ⟨d, post', rfl, -⟩ := hi.shape.exists_next hL (by simp [hc])
  obtain ⟨hat, hd⟩ := hi.shape.chunkAt_next hL
  cases hp : c.pinuse with
  | true => simp [growAround, hp] at hm
  | false =>
    -- both neighbours are free, and the three chunks are merged and cut down
    obtain ⟨pre', p, rfl, hfree⟩ := exists_of_lastFree ((hi.tags_around hL).2.1 hp)
    have hL1 : h.chunks = pre' ++ p :: c :: d :: post' := by
      rw [hL, List.append_assoc]
      rfl
    have hbefore := hi.shape.chunkBefore hL1
    simp only [growAround, hp, hbefore, hat, Bool.false_eq_true, if_false] at hm
    split_ifs at hm with hcond
    obtain ⟨rfl, rfl⟩ := Prod.mk.inj (Option.some.inj hm)
    have hL2 : h.chunks = (pre' ++ [p] ++ [c]) ++ d :: post' := by
      rw [hL, List.append_assoc _ [c]]
      rfl
    obtain ⟨e, post, rfl, -⟩ := hi.shape.exists_next hL2 (by simp [hcond.1])
    obtain ⟨-, hmerged⟩ := hi.merged_around hL1 hfree hc hcond.1
    obtain ⟨hinv, hstart, n, hn, hused⟩ := hmerged.resize_spec hr (size_around ▸ hcond.2)
    rw [size_around] at hinv hstart hused
    refine ⟨hinv, hstart, n, _, hn, used_mid hL hc, ?_⟩
    rw [usedSlots_append, usedSlots_cons (c := p), if_neg (by simp [hfree]), zero_add,
      usedSlots_nil, add_zero, usedSlots_cons (c := d), if_neg (by simp [hcond.1]), zero_add]
    exact hused

/-- The chunk before the end of the heap, with the end of the heap cut anew. -/
theorem Shape.retop {X : Multiset Slot} (hs : Shape ext X h) (hr : Request r)
    (hL : h.chunks = pre ++ [c, d]) (hc : c.status = .inuse) (hd : d.status = .top)
    (hfit : r + SMALLEST_CHUNK ≤ c.size + d.size + 8) :
    Dlmalloc.trim c.addr r .top (Dlmalloc.fuse c.addr .inuse h.chunks) =
        pre ++ [⟨c.addr, r, .inuse, c.pinuse⟩,
          ⟨c.addr + r + 8, c.size + d.size + 8 - r - 8, .top, true⟩] ∧
      Shape ext X { h with
        chunks := Dlmalloc.trim c.addr r .top (Dlmalloc.fuse c.addr .inuse h.chunks) } := by
  have hfit' : r + 32 ≤ c.size + d.size + 8 := hfit
  have htl := hs.tiles_of hL
  -- fuse the two, and cut the result at the request
  have hfuse : Dlmalloc.fuse c.addr .inuse h.chunks = pre ++ [fused c d .inuse] :=
    hs.fuse_chunks hL
  have htl' : Tiles h.first (pre ++ [fused c d .inuse]) (h.brk - 8) := by
    rw [tiles_mid] at htl ⊢
    refine ⟨htl.1, ?_⟩
    have := htl.2
    simp only [Tiles, Chunk.next, fused] at this ⊢
    omega
  have htrim : Dlmalloc.trim c.addr r .top (Dlmalloc.fuse c.addr .inuse h.chunks) =
      pre ++ [⟨c.addr, r, .inuse, c.pinuse⟩,
        ⟨c.addr + r + 8, c.size + d.size + 8 - r - 8, .top, true⟩] := by
    rw [hfuse]
    exact trim_mid (c := fused c d .inuse) htl'
  refine ⟨htrim, ?_⟩
  rw [htrim]
  -- as one edit: the row ends in two chunks before and after it
  have hedit := hs.edit (C := [c, d]) (P := pre) (Q := []) (Y := X) (Z := X)
    (D := [⟨c.addr, r, .inuse, c.pinuse⟩,
        ⟨c.addr + r + 8, c.size + d.size + 8 - r - 8, .top, true⟩])
    (by simpa using hL) (by simp [freeSlots_cons, hc, hd]) (by simp [freeSlots_cons])
    ?_ ⟨_, _, _, _, rfl, rfl, fun _ => by simp [TopLast]⟩ fun hsz x hx => ?_
  · simpa using hedit
  · intro lo hi ht
    simp only [Tiles, Chunk.next] at ht ⊢
    exact ⟨ht.1, trivial, by omega⟩
  · have h1 := (hsz c (by simp)).aligned
    have h2 := (hsz d (by simp)).aligned
    have h8 := hr.aligned
    simp only [List.mem_cons, List.not_mem_nil, or_false] at hx
    rcases hx with rfl | rfl
    · exact ⟨hr.aligned, fun _ => hr.least, by simp⟩
    · refine ⟨?_, by simp, fun _ => ?_⟩ <;> simp only <;> omega

theorem growTop_spec (hi : Inv full ext h) (hx : Extension ext) (hr : Request r)
    (hL : h.chunks = pre ++ c :: post) (hc : c.status = .inuse)
    (hm : growTop ext c r h = some (a, h')) : Inv full ext h' ∧ Replaced r h h' c a := by
  have hs := hi.shape
  obtain ⟨d, post', rfl, hd⟩ := hs.exists_next hL (by simp [hc])
  obtain ⟨hpre, htag, hapart, hpost⟩ := hi.tags_around hL
  unfold growTop at hm
  split_ifs at hm with hcond
  obtain ⟨hnext, hbrk⟩ := hcond
  obtain ⟨rfl, rfl⟩ := Prod.mk.inj (Option.some.inj hm)
  -- the chunk after `c` is the end of the heap
  obtain ⟨pre', t, hLt, ht, htop, -⟩ := hs.exists_top
  have hdt : d = t := hs.tiles.eq_of_addr_eq (by simp [hL]) (by simp [hLt])
    (by rw [hd, hnext, htop]; rfl)
  subst hdt
  have hpost' : post' = [] := by
    have h' := hs.topLast
    rw [hL, ← List.singleton_append, ← List.append_assoc] at h'
    exact h'.post_eq_nil ht
  subst hpost'
  have hg8 : 8 ∣ h.shortage ext c r ∧
      r + SMALLEST_CHUNK ≤ c.size + (d.size + h.shortage ext c r) + 8 := by
    have hc8 := (hs.sizes c (by simp [hL])).aligned
    have hd8 := (hs.sizes d (by simp [hL])).aligned
    have hr8 := hr.aligned
    have hx8 := hx.aligned
    have h32 : SMALLEST_CHUNK = 32 := rfl
    simp only [shortage, htop, Chunk.slot]
    split_ifs <;> omega
  obtain ⟨hs1, pre1, t1, ht1, htop1, hL1, hchunks⟩ := hs.extend hg8.1 hbrk
  obtain ⟨rfl, h2⟩ := List.append_inj' (hLt.symm.trans hL1) rfl
  obtain rfl : d = t1 := by simpa using h2
  have hsplit : pre' = pre ++ [c] := by
    have h3 : (pre ++ [c]) ++ [d] = pre' ++ [d] := by
      rw [← hLt, hL, List.append_assoc]
      rfl
    exact (List.append_cancel_right h3).symm
  rw [hsplit, List.append_assoc] at hchunks
  obtain ⟨htrim, hs2⟩ := hs1.retop hr hchunks hc ht hg8.2
  refine ⟨⟨hs2, ?_⟩, rfl, r, _, le_rfl, used_mid hL hc, ?_⟩
  · rw [htrim, tags_mid]
    exact ⟨hpre, ⟨htag, fun hf hb => ⟨hapart hf hb, rfl⟩⟩, by simp, by simp, trivial⟩
  · rw [Heap.used, htrim, ← Multiset.singleton_add]
    simp [usedSlots_append, usedSlots_cons, Chunk.slot, ht, add_comm]

theorem moveOut_spec (hi : Inv full ext h) (hx : Extension ext) (hr : Request r)
    (hL : h.chunks = pre ++ c :: post) (hc : c.status = .inuse)
    (hm : moveOut ext c r h = some (a, h')) : Inv full ext h' ∧ Replaced r h h' c a := by
  obtain ⟨⟨b, h1⟩, hmal, hfree⟩ := Option.map_eq_some_iff.mp hm
  obtain ⟨rfl, rfl⟩ := Prod.mk.inj hfree
  obtain ⟨hi1, hstart, n, hn, hused⟩ := malloc_spec hi hx hr hmal
  have hmid := used_mid hL hc
  have hmem : c.slot ∈ h1.used := by
    rw [hused, hmid]
    simp
  obtain ⟨c', hc', hst, hslot⟩ := mem_usedSlots.mp hmem
  have haddr : c'.addr = c.addr := congrArg Prod.fst hslot
  obtain ⟨hi2, hstart', hused'⟩ := free_spec hi1 hc' hst
  rw [haddr] at hi2 hstart' hused'
  refine ⟨hi2, hstart'.trans hstart, n, _, hn, hmid, ?_⟩
  rw [hslot, hused, hmid, Multiset.cons_swap] at hused'
  exact ((Multiset.cons_inj_right _).mp hused').symm

end Grow

/-! ### Shrinking -/

section Shrink

variable {full : Prop} {ext r a : ℕ} {h h' : Heap} {c d : Chunk} {pre post : List Chunk}

/-- The piece cut off by a shrinking reallocation. -/
theorem Inv.loosened_trim (hi : Inv full ext h) (hr : Request r)
    (hL : h.chunks = pre ++ c :: d :: post) (hc : c.status = .inuse)
    (hfit : r + SMALLEST_CHUNK ≤ c.size) : Loosened (full ∧ ¬ BareSplit c r h) ext
      { h with chunks := Dlmalloc.trim c.addr r .free h.chunks }
      (pre ++ [⟨c.addr, r, c.status, c.pinuse⟩]) (offcut c r) d post := by
  have hs := hi.shape
  obtain ⟨hat, hd⟩ := hs.chunkAt_next hL
  obtain ⟨hpre, htag, hapart, hpost⟩ := hi.tags_around hL
  have hL1 : Dlmalloc.trim c.addr r .free h.chunks =
      (pre ++ [⟨c.addr, r, c.status, c.pinuse⟩]) ++ offcut c r :: d :: post := by
    rw [hs.trim_chunks hL]
    simp [offcut]
  have hw : full ∧ ¬ BareSplit c r h → full := And.left
  refine ⟨hL1, rfl, hs.trim hr hL hc hfit, ?_, by simp [offcut], ?_, ?_, hpost.weaken hw⟩
  · rw [tags_mid]
    exact ⟨hpre.weaken hw, ⟨htag, fun hf hb => ⟨hapart hf.1 hb, hc⟩⟩, trivial⟩
  · simp [lastFree_concat, hc]
  · exact fun hf hst => absurd ⟨hfit, d, hat, hst⟩ hf.2

theorem shrink_spec (hi : Inv full ext h) (hr : Request r) (hL : h.chunks = pre ++ c :: post)
    (hc : c.status = .inuse) (hle : r ≤ c.size) :
    Inv (full ∧ ¬ BareSplit c r h) ext (h.shrink c r) ∧ Replaced r h (h.shrink c r) c c.addr := by
  have hs := hi.shape
  unfold shrink
  split_ifs with hfit
  · obtain ⟨d, post', rfl, -⟩ := hs.exists_next hL (by simp [hc])
    have hl := hi.loosened_trim hr hL hc hfit
    obtain ⟨hinv, hused, hstart⟩ := hl.settle_spec
    refine ⟨hinv, hstart, r, _, le_rfl, used_mid hL hc, hused.trans ?_⟩
    rw [Heap.used, hl.chunks]
    simp only [usedSlots_append, usedSlots_cons, hc, if_true, Chunk.slot, offcut,
      ← Multiset.singleton_add, usedSlots_nil]
    simp only [reduceCtorEq, if_false]
    abel
  · exact ⟨⟨hs, hi.tags.weaken And.left⟩, rfl, c.size, _, hle, used_mid hL hc, used_mid hL hc⟩

/-- **Reallocation** keeps the invariant, but for the tag left set by a bare split, and replaces one
chunk in use. -/
theorem realloc_spec (hi : Inv full ext h) (hx : Extension ext) (hr : Request r)
    (hc : c ∈ h.chunks) (hst : c.status = .inuse) (hm : realloc ext c.addr r h = some (a, h')) :
    Inv (full ∧ ¬ BareSplit c r h) ext h' ∧ Replaced r h h' c a := by
  obtain ⟨pre, post, hL⟩ := List.append_of_mem hc
  have hweaken : Inv full ext h' ∧ Replaced r h h' c a →
      Inv (full ∧ ¬ BareSplit c r h) ext h' ∧ Replaced r h h' c a :=
    fun hspec => ⟨⟨hspec.1.shape, hspec.1.tags.weaken And.left⟩, hspec.2⟩
  rw [realloc, hi.shape.chunkAt hc] at hm
  simp only at hm
  split_ifs at hm with hle
  · obtain ⟨rfl, rfl⟩ := Prod.mk.inj (Option.some.inj hm)
    exact shrink_spec hi hr hL hst hle
  · refine hweaken ?_
    simp only [Option.or_eq_some_iff] at hm
    rcases hm with hm | ⟨-, hm | ⟨haround, hm | ⟨-, hm | ⟨-, hm⟩⟩⟩⟩
    · exact growAfter_spec hi hr hL hst hm
    · exact growAround_spec hi hr hL hst hm
    · exact growBefore_spec hi hr hL hst haround hm
    · exact growTop_spec hi hx hr hL hst hm
    · exact moveOut_spec hi hx hr hL hst hm

end Shrink

end Heap

end Dlmalloc
