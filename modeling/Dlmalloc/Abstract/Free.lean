import Dlmalloc.Abstract.Invariant

/-!
# Deallocation on the row of chunks

`Heap.free` marks a chunk free, merges it with the chunk before it, and settles the outcome: merged
with the chunk after it, in a bin or at the end of the heap. In between one free chunk is loose
(`Loosened`). A shrinking reallocation loosens a chunk too, and settles it by the same code.
-/

namespace Dlmalloc

namespace Heap

/-- Two chunks merged. -/
def fused (c d : Chunk) (τ : Status) : Chunk := ⟨c.addr, c.size + d.size + 8, τ, c.pinuse⟩

section Fuse

variable {ext : ℕ} {X Y : Multiset Slot} {h : Heap} {c d f : Chunk} {τ : Status}
  {pre post : List Chunk}

theorem Shape.fuse_chunks (hs : Shape ext X h) (hL : h.chunks = pre ++ c :: d :: post) :
    fuse c.addr τ h.chunks = pre ++ fused c d τ :: post := by
  rw [hL]
  exact fuse_mid (hs.tiles_of hL)

/-- Merge two chunks, the free ones among them being loose. -/
theorem Shape.fuse (hs : Shape ext X h) (hL : h.chunks = pre ++ c :: d :: post)
    (hX : X = freeSlots [c, d] + Y) (hc : c.status ≠ .top) (hst : τ = .top ↔ d.status = .top) :
    Shape ext (freeSlots [fused c d τ] + Y) { h with chunks := fuse c.addr τ h.chunks } := by
  rw [hs.fuse_chunks hL]
  have hedit := hs.edit (C := [c, d]) (D := [fused c d τ]) (P := pre) (Q := post)
    (Y := Y) (by simpa using hL) hX rfl ?_ ⟨_, _, _, _, rfl, rfl, fun ht => ?_⟩ fun hsz x hx => ?_
  · simpa using hedit
  · -- the merged chunk covers the two and the header between them
    intro lo hi ht
    simp only [Tiles, Chunk.next, fused] at ht ⊢
    omega
  · simp only [List.cons_append, List.nil_append, topLast_cons] at ht ⊢
    have h1 := (ht.resolve_left fun h0 => hc h0.1).2
    simpa [fused, hst] using h1
  · obtain rfl := List.mem_singleton.mp hx
    have h1 := hsz c (by simp)
    have h2 := hsz d (by simp)
    have hc24 := h1.least hc
    refine ⟨?_, fun _ => ?_, fun ht => ?_⟩
    · have := h1.aligned
      have := h2.aligned
      simp only [fused]
      omega
    · simp only [fused]
      omega
    · have := h2.topLeast (hst.mp ht)
      simp only [fused]
      omega

/-- A free chunk other than the loose one is held by the bins. -/
theorem Shape.held_of_free (hs : Shape ext (Y + h.bins.victimSlot) h) (hd : d ∈ h.chunks)
    (hfree : d.status = .free) (hne : d.slot ∉ Y) : d.slot ∈ h.bins.held := by
  have hmem : d.slot ∈ freeSlots h.chunks := mem_freeSlots.mpr ⟨d, hd, hfree, rfl⟩
  rw [← hs.account, add_assoc, Multiset.mem_add] at hmem
  exact hmem.resolve_left hne

end Fuse

/-- The chunk `f` is free and loose, between `pre` and `d :: post`, and the tags are right but
perhaps for the merges still due. -/
structure Loosened (full : Prop) (ext : ℕ) (h : Heap) (pre : List Chunk) (f d : Chunk)
    (post : List Chunk) : Prop where
  chunks : h.chunks = pre ++ f :: d :: post
  free : f.status = .free
  shape : Shape ext (f.slot ::ₘ h.bins.victimSlot) h
  tagsBefore : Tags full false pre
  tag : f.pinuse = false → lastFree false pre = true
  apart : full → lastFree false pre = false
  tagNext : full → d.status = .inuse → d.pinuse = false
  tagsAfter : Tags full (decide (d.status = .free)) post

section Settle

variable {full : Prop} {ext : ℕ} {h : Heap} {f d : Chunk} {pre post : List Chunk}

theorem Loosened.next_addr (hl : Loosened full ext h pre f d post) : d.addr = f.next := by
  have ht := hl.shape.tiles_of hl.chunks
  exact (tiles_mid.mp ht).2.1

theorem Loosened.next_mem (hl : Loosened full ext h pre f d post) : d ∈ h.chunks := by
  simp [hl.chunks]

theorem Loosened.chunkAt_next (hl : Loosened full ext h pre f d post) :
    chunkAt h.chunks (f.slot.1 + f.slot.2 + 8) = some d := by
  have h1 := hl.shape.chunkAt hl.next_mem
  rw [hl.next_addr] at h1
  exact h1

/-- The loose chunk merges with a free chunk after it. -/
theorem Loosened.merge_next (hl : Loosened full ext h pre f d post) (hd : d.status = .free) :
    d.slot ∈ h.bins.held ∧ Shape ext ((fused f d .free).slot ::ₘ (h.bins.remove d.slot).victimSlot)
      { h with chunks := Dlmalloc.fuse f.addr .free h.chunks, bins := h.bins.remove d.slot } := by
  have hs := hl.shape
  rw [← Multiset.singleton_add] at hs
  have hne : d.slot ∉ ({f.slot} : Multiset Slot) := by
    rw [Multiset.mem_singleton]
    intro he
    have h1 : d.addr = f.addr := congrArg Prod.fst he
    have h2 := hl.next_addr
    simp only [Chunk.next] at h2
    omega
  have hheld := hs.held_of_free hl.next_mem hd hne
  refine ⟨hheld, ?_⟩
  rw [add_comm] at hs
  have hf := (hs.remove hheld).fuse (τ := .free) (Y := (h.bins.remove d.slot).victimSlot)
    hl.chunks ?_ (by simp [hl.free]) (by simp [hd])
  · simpa [freeSlots_cons, fused] using hf
  · simp only [freeSlots_cons, freeSlots_nil, hl.free, hd, if_true, ← Multiset.singleton_add]
    abel

/-- **Settling** the loose chunk restores the invariant. -/
theorem Loosened.settle_spec (hl : Loosened full ext h pre f d post) :
    Inv full ext (settle f.slot h) ∧ (settle f.slot h).used = h.used ∧
      (settle f.slot h).start = h.start := by
  have hs := hl.shape
  have hused : h.used = usedSlots pre + usedSlots (d :: post) := by
    rw [Heap.used, hl.chunks, usedSlots_append, usedSlots_cons]
    simp [hl.free]
  rw [Heap.settle, hl.chunkAt_next]
  cases hd : d.status with
  -- nothing to merge with: the loose chunk goes to its bin as it is
  | inuse =>
    simp only [hd]
    refine ⟨⟨by simpa using hs.insert, ?_⟩, rfl, trivial⟩
    rw [hl.chunks, tags_mid]
    refine ⟨hl.tagsBefore, ⟨hl.tag, fun hfull hb => ?_⟩, by simp [hl.free],
      fun hfull _ => ⟨hl.tagNext hfull hd, hd⟩, hl.tagsAfter⟩
    rw [hl.apart hfull] at hb
    cases hb
  -- merged with the free chunk behind it, which leaves its bin
  | free =>
    simp only [hd]
    obtain ⟨-, hm⟩ := hl.merge_next hd
    refine ⟨⟨by simpa [fused, Chunk.slot] using hm.insert, ?_⟩, ?_, trivial⟩
    · simp only [Chunk.slot, hs.fuse_chunks hl.chunks, tags_mid]
      refine ⟨hl.tagsBefore, ⟨hl.tag, fun hfull hb => ?_⟩, by simpa [fused, hd] using hl.tagsAfter⟩
      rw [hl.apart hfull] at hb
      cases hb
    · rw [hused]
      simp only [Heap.used, Chunk.slot, hs.fuse_chunks hl.chunks]
      simp [usedSlots_append, usedSlots_cons, fused, hd]
  -- merged with the end of the heap, which no bin holds
  | top =>
    simp only [hd]
    have hpost : post = [] := by
      have ht := hs.topLast
      rw [hl.chunks, ← List.singleton_append, ← List.append_assoc] at ht
      exact ht.post_eq_nil hd
    have hm := hs.fuse (τ := .top) (Y := h.bins.victimSlot) hl.chunks
      (by simp [freeSlots_cons, hl.free, hd]) (by simp [hl.free]) (by simp [hd])
    refine ⟨⟨by simpa [freeSlots_cons, fused, Chunk.slot] using hm, ?_⟩, ?_, trivial⟩
    · simp only [Chunk.slot, hs.fuse_chunks hl.chunks, tags_mid]
      refine ⟨hl.tagsBefore, ⟨hl.tag, fun hfull hb => ?_⟩, by simp [hpost, Tags]⟩
      rw [hl.apart hfull] at hb
      cases hb
    · rw [hused]
      simp only [Heap.used, Chunk.slot, hs.fuse_chunks hl.chunks]
      simp [usedSlots_append, usedSlots_cons, fused, hd]

end Settle

section Free

variable {full : Prop} {ext : ℕ} {h : Heap} {c d : Chunk} {pre post : List Chunk}

/-- The row after a chunk in use was marked free. -/
theorem release_eq (hs : Shape ext h.bins.victimSlot h) (hL : h.chunks = pre ++ c :: d :: post)
    (hc : c.status = .inuse) :
    h.release c = { h with
      chunks := pre ++ { c with status := .free } :: { d with pinuse := false } :: post } ∧
      Shape ext (c.slot ::ₘ h.bins.victimSlot) (h.release c) := by
  have htl := hs.tiles_of hL
  have hd : d.addr = c.next := (tiles_mid.mp htl).2.1
  have hmark : mark c.addr .free h.chunks =
      (pre ++ [{ c with status := .free }]) ++ d :: post := by
    rw [hL, List.append_assoc]
    exact mark_mid htl
  -- first the status: the chunk becomes loose
  have hs1 : Shape ext (c.slot ::ₘ h.bins.victimSlot)
      { h with chunks := (pre ++ [{ c with status := .free }]) ++ d :: post } := by
    refine hs.edit (C := [c]) (Y := h.bins.victimSlot) (by simpa using hL)
      (by simp [freeSlots_cons, hc]) (by simp [freeSlots_cons, Chunk.slot])
      (fun lo hi ht => ht) ⟨_, _, _, _, rfl, rfl, fun ht => ?_⟩ fun hsz x hx => ?_
    · simp only [List.singleton_append, topLast_cons] at ht ⊢
      simpa [hc] using ht
    · obtain rfl := List.mem_singleton.mp hx
      have hx := hsz c (by simp)
      exact ⟨hx.aligned, fun _ => hx.least (by simp [hc]), by simp⟩
  -- then the bit behind it
  have heq : h.release c = { h with
      chunks := pre ++ { c with status := .free } :: { d with pinuse := false } :: post } := by
    rw [release, hmark, ← hd, tag_mid (hs1.tiles_of rfl), List.append_assoc]
    rfl
  refine ⟨heq, ?_⟩
  rw [heq]
  simpa using hs1.tag (b := false) rfl

/-- The chunk marked free, after its merge with the one before it. -/
theorem coalescePrevious_spec (hi : Inv full ext h) (hL : h.chunks = pre ++ c :: d :: post)
    (hc : c.status = .inuse) :
    ∃ pre' f h', Loosened full ext h' pre' f { d with pinuse := false } post ∧
      coalescePrevious { c with status := .free } (h.release c) = (f.slot, h') ∧
      h'.start = h.start ∧ h.used = c.slot ::ₘ h'.used := by
  obtain ⟨heq, hs⟩ := release_eq hi.shape hL hc
  have htags := hi.tags
  rw [hL, tags_mid] at htags
  obtain ⟨hpre, ⟨htag, hapart⟩, -, -, hpost⟩ := htags
  have hused : h.used = c.slot ::ₘ (usedSlots pre + usedSlots (d :: post)) := by
    rw [Heap.used, hL, usedSlots_append, usedSlots_cons, if_pos hc, ← Multiset.singleton_add]
    abel
  cases hp : c.pinuse with
  -- the chunk before is in use: the freed chunk itself is loose
  | true =>
    refine ⟨pre, { c with status := .free }, h.release c, ⟨by rw [heq], rfl, ?_, hpre, htag,
      fun hfull => ?_, fun _ _ => rfl, hpost⟩, by simp [coalescePrevious, hp], by rw [heq], ?_⟩
    · rw [heq] at hs ⊢
      exact hs
    · cases hb : lastFree false pre with
      | false => rfl
      | true => simpa [hp] using (hapart hfull hb).1
    · rw [hused, heq, Heap.used, usedSlots_append, usedSlots_cons, usedSlots_cons]
      simp [usedSlots_cons, Chunk.slot]
  -- the chunk before is free: it leaves its bin, and the two are fused
  | false =>
    obtain ⟨pre', p, rfl, hfree⟩ := exists_of_lastFree (htag hp)
    have hL1 : (h.release c).chunks = pre' ++ p :: { c with status := .free } ::
        { d with pinuse := false } :: post := by
      rw [heq]
      simp
    have hbins : (h.release c).bins = h.bins := rfl
    rw [← hbins] at hs
    -- it is not the freed chunk, so a bin holds it
    have hpne : p.slot ∉ ({c.slot} : Multiset Slot) := by
      rw [Multiset.mem_singleton]
      intro he
      have h1 : p.addr = c.addr := congrArg Prod.fst he
      have h2 := (tiles_mid.mp (hs.tiles_of hL1)).2.1
      simp only [Chunk.next] at h2
      omega
    rw [← Multiset.singleton_add] at hs
    have hheld := hs.held_of_free (Shape.mem_chunks hL1) hfree hpne
    have hbefore := hs.chunkBefore hL1
    rw [add_comm] at hs
    have hm := (hs.remove hheld).fuse (τ := .free)
      (Y := ((h.release c).bins.remove p.slot).victimSlot) hL1 ?_ (by simp [hfree]) (by simp)
    · rw [tags_append] at hpre
      refine ⟨pre', fused p { c with status := .free } .free, { h.release c with
          chunks := Dlmalloc.fuse p.addr .free (h.release c).chunks
          bins := (h.release c).bins.remove p.slot }, ⟨hs.fuse_chunks hL1, rfl, ?_,
        hpre.1, hpre.2.1, fun hfull => ?_, fun _ _ => rfl, hpost⟩, ?_, rfl, ?_⟩
      · simpa [freeSlots_cons, fused] using hm
      · cases hb : lastFree false pre' with
        | false => rfl
        | true => simpa [hfree] using (hpre.2.2.1 hfull hb).2
      · simp only [coalescePrevious, hp]
        rw [hbefore]
        rfl
      · rw [hused]
        simp only [Heap.used]
        rw [hs.fuse_chunks hL1]
        simp [usedSlots_append, usedSlots_cons, fused, hfree, Chunk.slot]
    · simp only [freeSlots_cons, freeSlots_nil, hfree, if_true, ← Multiset.singleton_add]
      simp only [Chunk.slot]
      abel

/-- **Deallocation** keeps the invariant and takes out one chunk in use. -/
theorem free_spec (hi : Inv full ext h) (hc : c ∈ h.chunks) (hst : c.status = .inuse) :
    Inv full ext (h.free c.addr) ∧ (h.free c.addr).start = h.start ∧
      h.used = c.slot ::ₘ (h.free c.addr).used := by
  obtain ⟨pre, post, hL⟩ := List.append_of_mem hc
  obtain ⟨d, post', rfl, -⟩ := hi.shape.exists_next hL (by simp [hst])
  obtain ⟨pre', f, h1, hl, heq, hstart, hused⟩ := coalescePrevious_spec hi hL hst
  obtain ⟨hinv, hused', hstart'⟩ := hl.settle_spec
  have hfree : h.free c.addr = h1.settle f.slot := by
    rw [free, hi.shape.chunkAt hc]
    simp only [heq]
  rw [hfree]
  exact ⟨hinv, hstart'.trans hstart, by rw [hused, hused']⟩

end Free

end Heap

end Dlmalloc
