import Dlmalloc.Refine.Malloc

/-!
# Deallocation in memory

`my_free` does to memory what `Heap.free` does to the row (`myFree_spec`). The merge with the chunk
after the freed one and the choice of its bin (`settle`) are shared with the shrinking reallocation.
-/

namespace Dlmalloc

open Heap

section Free

variable {full : Prop} {ext : ℕ} {X Y : Multiset Slot} {h : Heap} {s s' : State}
  {c d f p : Chunk} {e : Slot} {pre post : List Chunk}

/-! ### Looking at neighbours -/

theorem userPointerToChunk_add {a : ℕ} (ha : a + 16 < 2 ^ 64) :
    userPointerToChunk (a + 16) = a := by
  have h1 : sub64 (a + 16) (2 * 8) = a + 16 - 2 * 8 := sub64_of_le (by omega) ha
  have h2 : a + 16 - 2 * 8 = a := by omega
  rw [userPointerToChunk, h1, h2]

theorem Models.isEndOfHeap (hm : Models s h) (hs : Shape ext X h) (hc : c ∈ h.chunks) :
    isEndOfHeap c.addr s = some (decide (c.status = .top), s) := by
  obtain ⟨pre, t, hL, ht, htop, -⟩ := hs.exists_top
  have htm : t ∈ h.chunks := by simp [hL]
  rw [isEndOfHeap_apply, hm.top, htop]
  congr 3
  refine propext ⟨fun heq => ?_, fun hst => ?_⟩
  · rw [hs.tiles.eq_of_addr_eq hc htm heq, ht]
  · have h1 := (hs.top_eq hc hst).1
    rw [htop] at h1
    exact (congrArg Prod.fst h1).symm

theorem Models.nextHeapChunk (hm : Models s h) (hs : Shape ext X h)
    (hL : h.chunks = pre ++ c :: d :: post) : nextHeapChunk c.addr s = some (d.addr, s) := by
  have hc := Shape.mem_chunks hL
  rw [nextHeapChunk_apply, (hs.fits hc).nextHeapChunk (hm.headers c hc).word,
    (tiles_mid.mp (hs.tiles_of hL)).2.1]

theorem Heap.Shape.ne_top (hs : Shape ext X h) (hL : h.chunks = pre ++ c :: d :: post) :
    c.status ≠ .top := by
  have ht := hs.topLast
  rw [hL, topLast_append] at ht
  exact ht.2.1

theorem Models.canCombineNext (hm : Models s h) (hs : Shape ext X h)
    (hL : h.chunks = pre ++ c :: d :: post) :
    canCombineNext c.addr s = some (decide (d.status ≠ .inuse), s) := by
  have hc := Shape.mem_chunks hL
  have hd : d ∈ h.chunks := by simp [hL]
  have hcur := (hs.fits hd).currentFree (hm.headers d hd).word
  unfold Dlmalloc.canCombineNext
  rw [M.bind_apply, hm.isEndOfHeap hs hc, Option.bind_some, decide_eq_false (hs.ne_top hL)]
  simp only [Bool.false_eq_true, if_false]
  rw [M.bind_apply, hm.nextHeapChunk hs hL, Option.bind_some, isCurrentFree_apply, hcur]

theorem Models.canCombinePrevious (hm : Models s h) (hs : Shape ext X h) (hc : c ∈ h.chunks) :
    canCombinePrevious c.addr s = some (!c.pinuse, s) := by
  unfold Dlmalloc.canCombinePrevious
  rw [isPreviousFree_apply, (hs.fits hc).previousFree (hm.headers c hc).word]

theorem Models.isPtr_footer (hm : Models s h) (hs : Shape ext X h)
    (hL : h.chunks = pre ++ p :: c :: post) (hp : p.status = .free) :
    IsPtr (s.load .previousSize c.addr) := by
  have hpm := Shape.mem_chunks hL
  rw [(tiles_mid.mp (hs.tiles_of hL)).2.1]
  exact (hm.headers p hpm).isPtr_footer (hs.fits hpm) hp

theorem Models.previousHeapChunk (hm : Models s h) (hs : Shape ext X h)
    (hL : h.chunks = pre ++ p :: c :: post) (hp : p.status = .free) :
    previousHeapChunk c.addr s = some (p.addr, s) := by
  have hpm := Shape.mem_chunks hL
  rw [previousHeapChunk_apply s _ (hm.isPtr_footer hs hL hp),
    (hm.headers p hpm).previousHeapChunk (hs.fits hpm) hp (tiles_mid.mp (hs.tiles_of hL)).2.1]

/-! ### Steps on a heap with loose chunks -/

theorem Models.removeChunkOrVictim_spec (hm : Models s h) (hs : Shape ext (h.bins.victimSlot + X) h)
    (he : e ∈ h.bins.held) : Returns (removeChunkOrVictim e.1) s fun _ s' =>
      Models s' { h with bins := h.bins.remove e } ∧ Keeps (InUse h.chunks) s s' :=
  (hm.toRep.removeChunkOrVictim_spec hs he).mono fun _ _ h' =>
    ⟨⟨h'.1, h'.2.top.trans hm.top⟩, h'.2.keeps⟩

theorem Models.insertChunk_spec (hm : Models s h) (hs : Shape ext (e ::ₘ X) h) :
    Returns (insertChunk e.1) s fun _ s' =>
      Models s' { h with bins := h.bins.insert e } ∧ Keeps (InUse h.chunks) s s' :=
  (hm.toRep.insertChunk_spec hs).mono fun _ _ h' =>
    ⟨⟨h'.1, h'.2.top.trans hm.top⟩, h'.2.keeps⟩

/-- The victim is a free chunk. -/
theorem Heap.Shape.victim_ne (hs : Shape ext (h.bins.victimSlot + X) h) (hc : c ∈ h.chunks)
    (hst : c.status ≠ .free) : h.bins.victim ≠ some c.slot := fun hv => by
  have hfree : c.slot ∈ freeSlots h.chunks := by
    rw [← hs.account, Multiset.mem_add, Multiset.mem_add]
    exact .inl (.inl (Bins.mem_victimSlot.mpr hv))
  obtain ⟨x, hx, hxst, hxc⟩ := mem_freeSlots.mp hfree
  rw [hs.tiles.eq_of_addr_eq hx hc (congrArg Prod.fst hxc)] at hxst
  exact hst hxst

/-- A loose chunk that is not counted as the victim is not the victim. -/
theorem Heap.Shape.victim_ne_of_loose (hs : Shape ext (h.bins.victimSlot + X) h) (he : e ∈ X) :
    h.bins.victim ≠ some e := fun hv => by
  have h1 := (Multiset.nodup_add.mp hs.nodup).1
  exact Multiset.disjoint_left.mp (Multiset.nodup_add.mp h1).2.2 (Bins.mem_victimSlot.mpr hv) he

theorem Rep.victim_ne (hr : Rep s h) (hs : Shape ext (h.bins.victimSlot + X) h)
    (hc : c ∈ h.chunks) (hv : h.bins.victim ≠ some c.slot) : s.bin VICTIM_BIN ≠ c.addr := by
  rw [hr.victim]
  cases hvic : h.bins.victim with
  | none =>
    have h1 := (hs.bounds hc).1
    have h2 := hs.first_pos
    rw [pointer_none]
    have h3 : 0 ≠ c.addr := by omega
    exact h3
  | some v =>
    have hmem : v ∈ freeSlots h.chunks := by
      rw [← hs.account, Multiset.mem_add, Multiset.mem_add]
      exact .inl (.inl (Bins.mem_victimSlot.mpr hvic))
    obtain ⟨x, hx, -, rfl⟩ := mem_freeSlots.mp hmem
    rw [pointer_some]
    intro heq
    rw [hs.tiles.eq_of_addr_eq hx hc heq] at hvic
    exact hv hvic

/-- Two free chunks are merged. -/
theorem Models.combineChunks_spec (hm : Models s h) (hs : Shape ext (h.bins.victimSlot + X) h)
    (hL : h.chunks = pre ++ c :: d :: post) (hX : freeSlots [c, d] ≤ X) (hc : c.status = .free)
    (hd : d.status = .free) : Returns (combineChunks c.addr d.addr) s fun a s' => a = c.addr ∧
      Models s' { h with chunks := fuse c.addr .free h.chunks } ∧
      Keeps (InUse h.chunks) s s' := by
  have hcm : c ∈ h.chunks := Shape.mem_chunks hL
  have hdm : d ∈ h.chunks := by simp [hL]
  have hcX : c.slot ∈ X := Multiset.mem_of_le hX (by simp [freeSlots_cons, hc])
  have hdX : d.slot ∈ X := Multiset.mem_of_le hX (by simp [freeSlots_cons, hd])
  have hX' : freeSlots [c, d] ≤ h.bins.victimSlot + X := hX.trans (Multiset.le_add_left _ _)
  have hv : ∀ x ∈ h.chunks, x.slot ∈ X → s.bin VICTIM_BIN ≠ x.addr := fun x hx hxX =>
    hm.toRep.victim_ne hs hx (hs.victim_ne_of_loose hxX)
  refine (Dlmalloc.combineChunks_spec hm.toRep hs hL hc (by simp [hd]) hX' hm.top
    ⟨hv c hcm hcX, hv d hdm hdX⟩).mono fun a s' hpost => ?_
  obtain ⟨ha, hr, hf⟩ := hpost
  rw [hd] at hr
  refine ⟨ha, ⟨hr, ?_⟩, hf.keeps⟩
  have hL' : h.chunks = (pre ++ [c]) ++ d :: post := by rw [hL, List.append_assoc]; rfl
  obtain ⟨x, post', rfl, -⟩ := hs.exists_next hL' (by simp [hd])
  -- the fusion lies before the end of the heap
  have htop : Heap.top { h with chunks := fuse c.addr .free h.chunks } = h.top :=
    Heap.top_congr (A := pre ++ [c, d]) (Q := x :: post') (B := pre ++ [fused c d .free])
      (by simpa using hL) (by simpa using hs.fuse_chunks hL) (by simp)
  rw [hf.top, hm.top, htop]

theorem inUse_fuse {τ : Status} (hs : Shape ext X h) (hL : h.chunks = pre ++ c :: d :: post)
    (hc : c.status ≠ .inuse) (hd : d.status ≠ .inuse) (hst : τ ≠ .inuse) :
    InUse (fuse c.addr τ h.chunks) = InUse h.chunks := by
  have h1 : usedSlots (fuse c.addr τ h.chunks) = usedSlots h.chunks := by
    rw [hs.fuse_chunks hL, hL]
    simp [usedSlots_append, usedSlots_cons, fused, hc, hd, hst]
  rw [InUse, InUse, h1]

/-! ### Settling -/

/-- The end of the heap is merged into the loose chunk; `END_OF_HEAP_BIN` is still to be set. -/
theorem Heap.Loosened.combineTop (hm : Models s h) (hl : Loosened full ext h pre f d post)
    (hd : d.status = .top) :
    Returns (combineChunks f.addr d.addr) s fun a s' => a = f.addr ∧
      Models (s'.setBin END_OF_HEAP_BIN f.addr) { h with chunks := fuse f.addr .top h.chunks } ∧
      Keeps (InUse h.chunks) s (s'.setBin END_OF_HEAP_BIN f.addr) := by
  have hs := hl.shape
  rw [← Multiset.singleton_add, add_comm] at hs
  have hf : f ∈ h.chunks := by simp [hl.chunks]
  have hpost : post = [] := by
    have ht := hs.topLast
    rw [hl.chunks, ← List.singleton_append, ← List.append_assoc] at ht
    exact ht.post_eq_nil hd
  refine (combineChunks_spec hm.toRep hs hl.chunks hl.free (by simp [hd]) ?_ hm.top
    ⟨hm.toRep.victim_ne hs hf (hs.victim_ne_of_loose (Multiset.mem_singleton_self _)),
      hm.toRep.victim_ne hs hl.next_mem (hs.victim_ne hl.next_mem (by simp [hd]))⟩).mono
    fun a s' hpost => ?_
  · simp [freeSlots_cons, hl.free, hd]
  · obtain ⟨ha, hr, hfr⟩ := hpost
    rw [hd] at hr
    refine ⟨ha, ⟨hr.setTop, ?_⟩, hfr.keeps.trans (keeps_setBin _ _ _ _)⟩
    rw [State.bin_setBin_same (by decide)]
    simp [Heap.top, hs.fuse_chunks hl.chunks, hpost, fused, Chunk.slot]

/-- The chunk after the loose one is free, and leaves the bins. -/
theorem Heap.Loosened.removeNext (hm : Models s h) (hl : Loosened full ext h pre f d post)
    (hd : d.status = .free) :
    Returns (removeChunkOrVictim d.addr) s fun _ s' =>
      Models s' { h with bins := h.bins.remove d.slot } ∧ Keeps (InUse h.chunks) s s' := by
  have hs := hl.shape
  rw [← Multiset.singleton_add, add_comm] at hs
  exact hm.removeChunkOrVictim_spec hs (hl.merge_next hd).1

theorem Heap.Loosened.removed (hl : Loosened full ext h pre f d post) (hd : d.status = .free) :
    Shape ext ((h.bins.remove d.slot).victimSlot + freeSlots [f, d])
      { h with bins := h.bins.remove d.slot } := by
  have hs := hl.shape
  rw [← Multiset.singleton_add, add_comm] at hs
  have hs' := hs.remove (hl.merge_next hd).1
  have hX : d.slot ::ₘ ((h.bins.remove d.slot).victimSlot + {f.slot}) =
      (h.bins.remove d.slot).victimSlot + freeSlots [f, d] := by
    simp only [freeSlots_cons, freeSlots_nil, hl.free, hd, if_true, ← Multiset.singleton_add]
    abel
  rwa [hX] at hs'

/-- The chunk after the loose one is in use. -/
theorem Heap.Loosened.coalesceNext_inuse (hl : Loosened full ext h pre f d post) (hm : Models s h)
    (hd : d.status = .inuse) : coalesceNext f.addr s = some ((f.addr, false), s) := by
  have hcan := hm.canCombineNext hl.shape hl.chunks
  rw [hd] at hcan
  unfold coalesceNext
  rw [M.bind_apply, hcan]
  rfl

/-- The chunk after the loose one is free, and merged into it. -/
theorem Heap.Loosened.coalesceNext_free (hl : Loosened full ext h pre f d post) (hm : Models s h)
    (hd : d.status = .free) : Returns (coalesceNext f.addr) s fun o s' => o = (f.addr, false) ∧
      Models s' { h with chunks := fuse f.addr .free h.chunks, bins := h.bins.remove d.slot } ∧
      Keeps (InUse h.chunks) s s' := by
  have hs := hl.shape
  have hcan := hm.canCombineNext hs hl.chunks
  have hend := hm.isEndOfHeap hs hl.next_mem
  rw [hd] at hcan hend
  unfold coalesceNext
  refine Returns.bind_of_eq hcan ?_
  rw [if_pos (by simp)]
  refine Returns.bind_of_eq (hm.nextHeapChunk hs hl.chunks) ?_
  refine Returns.bind_of_eq hend ?_
  rw [if_neg (by simp)]
  refine (hl.removeNext hm hd).bind_of fun _ s₁ hpost => ?_
  obtain ⟨hm₁, hk₁⟩ := hpost
  -- the code tests for the end of the heap again after the removal
  have hend₁ := hm₁.isEndOfHeap (hl.removed hd) hl.next_mem
  rw [hd] at hend₁
  refine Returns.bind_of_eq hend₁ ?_
  refine (hm₁.combineChunks_spec (hl.removed hd) hl.chunks le_rfl hl.free hd).bind_of
    fun a s' hpost => ?_
  obtain ⟨ha, hm', hk⟩ := hpost
  refine .pure ⟨?_, hm', hk₁.trans hk⟩
  rw [ha]
  rfl

/-- The chunk after the loose one is the end of the heap, which now begins earlier. -/
theorem Heap.Loosened.coalesceNext_top (hl : Loosened full ext h pre f d post) (hm : Models s h)
    (hd : d.status = .top) : Returns (coalesceNext f.addr) s fun o s' => o = (f.addr, true) ∧
      Models (s'.setBin END_OF_HEAP_BIN f.addr) { h with chunks := fuse f.addr .top h.chunks } ∧
      Keeps (InUse h.chunks) s (s'.setBin END_OF_HEAP_BIN f.addr) := by
  have hs := hl.shape
  have hcan := hm.canCombineNext hs hl.chunks
  have hend := hm.isEndOfHeap hs hl.next_mem
  rw [hd] at hcan hend
  unfold coalesceNext
  refine Returns.bind_of_eq hcan ?_
  rw [if_pos (by simp)]
  refine Returns.bind_of_eq (hm.nextHeapChunk hs hl.chunks) ?_
  refine Returns.bind_of_eq hend ?_
  rw [if_pos (by simp)]
  refine Returns.bind_of_eq hend ?_
  refine (hl.combineTop hm hd).bind_of fun a s' hpost => ?_
  obtain ⟨ha, hpost⟩ := hpost
  refine .pure ⟨?_, hpost⟩
  rw [ha]
  rfl

/-- The end of `my_free`: the chunk goes into its bin, or is the end of the heap. -/
theorem Heap.Loosened.settle_run (hl : Loosened full ext h pre f d post) (hm : Models s h) :
    Returns (do
      let (chunk, combinedWithEnd) ← coalesceNext f.addr
      if false || combinedWithEnd then
        setBin END_OF_HEAP_BIN chunk
      else
        let _ ← insertChunk chunk) s fun _ s' =>
      Models s' (settle f.slot h) ∧ Keeps (InUse h.chunks) s s' := by
  have hs := hl.shape
  rw [settle, hl.chunkAt_next]
  cases hd : d.status with
  -- nothing to merge with: `coalesce_next` returns the chunk itself
  | inuse =>
    refine Returns.bind_of_eq (hl.coalesceNext_inuse hm hd) ?_
    simp only [hd]
    exact (hm.insertChunk_spec hs).bind_of fun _ s' hpost => .pure hpost
  -- `coalesce_next` takes the free chunk behind out of its bin
  | free =>
    refine (hl.coalesceNext_free hm hd).bind_of fun o s₁ hpost => ?_
    obtain ⟨ho, hm₁, hk₁⟩ := hpost
    rw [ho]
    simp only [hd]
    refine (hm₁.insertChunk_spec (e := (fused f d .free).slot) (hl.merge_next hd).2).bind_of
      fun _ s' hpost => ?_
    obtain ⟨hm', hk⟩ := hpost
    refine .pure ⟨hm', hk₁.trans ?_⟩
    rw [← inUse_fuse hs hl.chunks (τ := .free) (by simp [hl.free]) (by simp [hd]) (by simp)]
    exact hk
  -- the merged chunk is the new end of the heap and goes to no bin
  | top =>
    refine (hl.coalesceNext_top hm hd).bind_of fun o s₁ hpost => ?_
    obtain ⟨ho, hpost⟩ := hpost
    rw [ho]
    simp only [hd]
    exact .intro (setBin_apply s₁ _ _ endOfHeapBin_lt) hpost

/-! ### The whole call -/

/-- The freed chunk is merged with the one before it if its `PREVIOUS_INUSE` bit is clear. -/
theorem coalescePrevious_run (hi : Inv full ext h) (hL : h.chunks = pre ++ c :: d :: post)
    (hc : c.status = .inuse) (hm : Models s (h.release c)) :
    Returns (coalescePrevious c.addr) s fun a s' =>
      a = (Heap.coalescePrevious { c with status := .free } (h.release c)).1.1 ∧
      Models s' (Heap.coalescePrevious { c with status := .free } (h.release c)).2 ∧
      Keeps (InUse (h.release c).chunks) s s' := by
  obtain ⟨heq, hs⟩ := release_eq hi.shape hL hc
  have htags := hi.tags
  rw [hL, tags_mid] at htags
  obtain ⟨o, ho⟩ : ∃ o : Chunk, o = { c with status := .free } := ⟨_, rfl⟩
  have hom : o ∈ (h.release c).chunks := by simp [heq, ho]
  have hop : o.pinuse = c.pinuse := by rw [ho]
  have hcan := hm.canCombinePrevious hs hom
  rw [hop] at hcan
  have hoa : o.addr = c.addr := by rw [ho]
  have hos : o.slot = c.slot := by rw [ho]; rfl
  rw [← ho, ← hoa]
  unfold Dlmalloc.coalescePrevious Heap.coalescePrevious
  refine Returns.bind_of_eq hcan ?_
  rw [hop]
  cases hp : c.pinuse with
  -- `PREVIOUS_INUSE` is set: the code returns at once
  | true =>
    rw [if_neg (by simp), if_pos rfl]
    exact .pure ⟨rfl, hm, .refl _ _⟩
  -- the footer leads to the free chunk before, which some bin holds
  | false =>
    obtain ⟨pre', p, rfl, hfree⟩ := exists_of_lastFree (htags.2.1.1 hp)
    have hL1 : (h.release c).chunks = pre' ++ p :: o :: { d with pinuse := false } :: post := by
      rw [heq, ho]
      simp
    have hpne : p.slot ∉ ({c.slot} : Multiset Slot) := by
      rw [Multiset.mem_singleton]
      intro he
      have h1 : p.addr = o.addr := hoa ▸ congrArg Prod.fst he
      have h2 := (tiles_mid.mp (hs.tiles_of hL1)).2.1
      simp only [Chunk.next] at h2
      omega
    have hbins : (h.release c).bins = h.bins := rfl
    rw [← hbins, ← Multiset.singleton_add] at hs
    have hheld := hs.held_of_free (Shape.mem_chunks hL1) hfree hpne
    have hbefore := hs.chunkBefore hL1
    have hprev := hm.previousHeapChunk hs hL1 hfree
    rw [add_comm] at hs
    have hs' := hs.remove hheld
    -- with the chunk before loose too, the two can be combined
    have hX : p.slot ::ₘ (((h.release c).bins.remove p.slot).victimSlot + {c.slot}) =
        ((h.release c).bins.remove p.slot).victimSlot + freeSlots [p, o] := by
      have hof : o.status = .free := by rw [ho]
      simp only [freeSlots_cons, freeSlots_nil, hfree, hof, if_true, ← Multiset.singleton_add, hos]
      abel
    rw [hX] at hs'
    rw [if_pos (by simp), if_neg (by simp), hbefore]
    refine Returns.bind_of_eq hprev ?_
    refine (hm.removeChunkOrVictim_spec hs hheld).bind_of fun _ s₁ hpost => ?_
    obtain ⟨hm₁, hk₁⟩ := hpost
    refine (Models.combineChunks_spec hm₁ hs' hL1 le_rfl hfree (by rw [ho])).mono
      fun a s' hpost => ?_
    obtain ⟨ha, hm', hk⟩ := hpost
    exact ⟨ha, hm', hk₁.trans hk⟩

/-- **Deallocation** of the block in the chunk `c`. -/
theorem myFree_spec (hm : Models s h) (hi : Inv full ext h) (hc : c ∈ h.chunks)
    (hst : c.status = .inuse) : Returns (myFree (c.addr + 16)) s fun _ s' =>
      Models s' (h.free c.addr) ∧ Keeps (InUse (h.free c.addr).chunks) s s' := by
  have hs := hi.shape
  obtain ⟨pre, post, hL⟩ := List.append_of_mem hc
  obtain ⟨d, post', rfl, -⟩ := hs.exists_next hL (by simp [hst])
  obtain ⟨heq, hs₁⟩ := release_eq hs hL hst
  obtain ⟨pre', f, h', hl, hco, -, hused⟩ := coalescePrevious_spec hi hL hst
  have hfree : h.free c.addr = h'.settle f.slot := by
    rw [Heap.free, hs.chunkAt hc]
    simp only [hco]
  -- the same chunks are in use from here on
  have hrel : h.used = c.slot ::ₘ (h.release c).used := by
    rw [used_mid hL hst, heq, Heap.used]
    simp [usedSlots_append, usedSlots_cons, Chunk.slot]
  obtain ⟨-, hused', -⟩ := hl.settle_spec
  have hU : InUse (h.release c).chunks = InUse h'.chunks := by
    have h1 : (h.release c).used = h'.used :=
      (Multiset.cons_inj_right _).mp (hrel.symm.trans hused)
    show {e | e ∈ (h.release c).used} = {e | e ∈ h'.used}
    rw [h1]
  have hU' : InUse (h'.settle f.slot).chunks = InUse h'.chunks := by
    show {e | e ∈ (h'.settle f.slot).used} = {e | e ∈ h'.used}
    rw [hused']
  rw [hfree, hU']
  have hptr : userPointerToChunk (c.addr + 16) = c.addr := by
    refine userPointerToChunk_add ?_
    have h1 := (hs.fits hc).below
    simp only [Chunk.next] at h1
    omega
  unfold myFree
  rw [hptr]
  refine (markFree_spec hm.toRep hs hL hst).bind_of fun _ s₁ hpost => ?_
  obtain ⟨hr₁, hf₁⟩ := hpost
  have hm₁ : Models s₁ (h.release c) := by
    refine ⟨hr₁, ?_⟩
    rw [hf₁.top, hm.top, heq]
    rcases List.eq_nil_or_concat post' with rfl | ⟨l, x, rfl⟩ <;>
      simp [Heap.top, hL, List.getLast?_append, List.getLast?_cons, Chunk.slot]
  have hend := hm₁.isEndOfHeap (c := { c with status := .free }) hs₁ (by simp [heq])
  refine Returns.bind_of_eq hend ?_
  refine (coalescePrevious_run hi hL hst hm₁).bind_of fun a s₂ hpost => ?_
  obtain ⟨ha, hm₂, hk₂⟩ := hpost
  rw [hco] at ha hm₂
  rw [ha]
  refine (hl.settle_run hm₂).mono fun _ s' hpost => ?_
  obtain ⟨hm', hk'⟩ := hpost
  refine ⟨hm', ?_⟩
  rw [hU] at hk₂
  exact ((hU ▸ hf₁.keeps).trans hk₂).trans hk'

end Free

end Dlmalloc
