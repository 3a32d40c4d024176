import Dlmalloc.Refine.Free

/-!
# Reallocation in memory

`my_realloc` does to memory what `Heap.realloc` does to the row, and brings the contents of the
block along (`myRealloc_spec`). The three ways over free neighbours end in one program,
`resize_chunk_and_split`, after the header of the merged chunk is written
(`resizeChunkAndSplit_spec`).
-/

namespace Dlmalloc

open Heap

section Realloc

variable {full : Prop} {ext r n lo hi : ℕ} {X : Multiset Slot} {h : Heap} {s s' : State}
  {b c d f p : Chunk} {e : Slot} {pre C ms post : List Chunk}

theorem tag_self {L : List Chunk} {v : Bool} (ht : Tiles lo L hi) (hd : d ∈ L)
    (hv : d.pinuse = v) : tag d.addr v L = L := by
  obtain ⟨pre, post, rfl⟩ := List.append_of_mem hd
  rw [tag_mid ht, ← hv]

/-- Writes in the payload of a chunk in use. -/
theorem Models.write (hm : Models s h) (hs : Shape ext X h) (hc : c ∈ h.chunks)
    (hst : c.status = .inuse) (hw : Within (c.addr + 16) (c.next + 8) s s') : Models s' h := by
  obtain ⟨pre, post, hL⟩ := List.append_of_mem hc
  have hedit := hm.toRep.edit (C := [c]) (D := [c]) (i := c.addr) (j := c.next) hs
    (by simpa using hL) (by simp) (by simp [freeSlots_cons, hst]) ⟨rfl, rfl⟩
    (hw.mono (by omega) le_rfl) fun x hx => ?_
  · refine ⟨?_, (hw.bin _).trans hm.top⟩
    have hL' : pre ++ [c] ++ post = h.chunks := by simp [hL]
    rw [hL'] at hedit
    exact hedit
  · obtain rfl := List.mem_singleton.mp hx
    refine hw.header (hm.headers x hc) (.inl ⟨le_rfl, fun h' => ?_⟩)
    rw [hst] at h'
    cases h'

/-! ### Tags and footers between calls -/

theorem Models.setPreviousInuse_spec (hm : Models s h) (hs : Shape ext X h)
    (hL : h.chunks = pre ++ d :: post) : Returns (setPreviousInuse d.addr) s fun _ s' =>
      Models s' { h with chunks := tag d.addr true h.chunks } ∧ Keeps (InUse h.chunks) s s' := by
  refine (hm.toRep.setPreviousInuse_spec hs hL).mono fun _ s' hpost => ?_
  obtain ⟨hr, hf⟩ := hpost
  refine ⟨⟨hr, ?_⟩, hf.keeps⟩
  rw [hf.top, hm.top]
  exact (congrArg Prod.fst (Heap.top_of_map (h := h) map_slot_tag)).symm

/-- A tag set once more. -/
theorem Models.setPreviousInuse_self (hm : Models s h) (hs : Shape ext X h) (hd : d ∈ h.chunks)
    (hp : d.pinuse = true) : Returns (setPreviousInuse d.addr) s fun _ s' =>
      Models s' h ∧ Keeps (InUse h.chunks) s s' := by
  obtain ⟨pre, post, hL⟩ := List.append_of_mem hd
  have hspec := hm.setPreviousInuse_spec hs hL
  rw [tag_self hs.tiles hd hp] at hspec
  exact hspec

theorem Models.clearPreviousInuse_spec (hm : Models s h) (hs : Shape ext X h)
    (hL : h.chunks = pre ++ d :: post) : Returns (clearPreviousInuse d.addr) s fun _ s' =>
      Models s' { h with chunks := tag d.addr false h.chunks } ∧ Keeps (InUse h.chunks) s s' := by
  refine (hm.toRep.clearPreviousInuse_spec hs hL).mono fun _ s' hpost => ?_
  obtain ⟨hr, hf⟩ := hpost
  refine ⟨⟨hr, ?_⟩, hf.keeps⟩
  rw [hf.top, hm.top]
  exact (congrArg Prod.fst (Heap.top_of_map (h := h) map_slot_tag)).symm

/-- A footer written once more. -/
theorem Models.footer (hm : Models s h) (hs : Shape ext X h) (hL : h.chunks = pre ++ f :: post)
    (hf : f.status = .free) : Models (s.store .previousSize f.next f.size) h ∧
      Keeps (InUse h.chunks) s (s.store .previousSize f.next f.size) := by
  obtain ⟨hr, hframe⟩ := hm.toRep.footer hs hL hf
  exact ⟨⟨hr, hframe.top.trans hm.top⟩, hframe.keeps⟩

/-- The end of the heap does not begin inside of a chunk. -/
theorem Models.end_ne {x : ℕ} (hm : Models s h) (hs : Shape ext X h) (hc : c ∈ h.chunks)
    (h1 : c.addr < x) (h2 : x < c.next) : s.bin END_OF_HEAP_BIN ≠ x := by
  obtain ⟨pre, t, hL, -, htop, -⟩ := hs.exists_top
  have htm : t ∈ h.chunks := by simp [hL]
  have hne : t.addr ≠ x := by
    rcases hs.tiles.apart htm hc with rfl | h' | h' <;> simp only [Chunk.next] at * <;> omega
  rw [hm.top, htop]
  exact hne

/-! ### Cutting down a merged chunk -/

/-- A chunk in use that is cut in two, between two chunks. -/
theorem Models.splitMallocdChunk_spec (hm : Models s h) (hs : Shape ext X h)
    (hL : h.chunks = pre ++ b :: d :: post) (hb : b.status = .inuse) (hq : Request r)
    (hfit : r + SMALLEST_CHUNK ≤ b.size) :
    Returns (splitMallocdChunk b.addr r) s fun a s' => a = (offcut b r).addr ∧
      Models s' { h with chunks := trim b.addr r .free h.chunks } ∧
      Keeps (InUse (trim b.addr r .free h.chunks)) s s' := by
  have hfit' : r + 32 ≤ b.size := hfit
  have hbm : b ∈ h.chunks := Shape.mem_chunks hL
  have hend : s.bin END_OF_HEAP_BIN ≠ b.addr + r + 8 :=
    hm.end_ne hs hbm (by omega) (by simp only [Chunk.next]; omega)
  refine (Dlmalloc.splitMallocdChunk_spec (τ := .free) hm.toRep hs hL hb (by simp) hq.aligned hfit'
    hend).mono fun a s' hpost => ?_
  obtain ⟨ha, hr, hf⟩ := hpost
  refine ⟨ha, ⟨hr, ?_⟩, hf.keeps⟩
  have htop : Heap.top { h with chunks := trim b.addr r .free h.chunks } = h.top :=
    Heap.top_congr (A := pre ++ [b]) (Q := d :: post)
      (B := pre ++ [⟨b.addr, r, b.status, b.pinuse⟩, offcut b r]) (by simpa using hL)
      (by simpa [offcut] using hs.trim_chunks (r := r) (τ := .free) hL) (by simp)
  rw [hf.top, hm.top, htop]

/-- The end of `resize_chunk_and_split` after a split: of its four writes only the one that clears
the tag of `d` changes anything. -/
theorem Models.retag_run (hm : Models s h) (hs : Shape ext X h)
    (hL : h.chunks = pre ++ b :: f :: d :: post) (hf : f.status = .free) (hp : f.pinuse = true) :
    Returns (do
      Dlmalloc.setPreviousInuse f.addr
      Dlmalloc.clearPreviousInuse (← Dlmalloc.nextHeapChunk f.addr)
      store .previousSize (← Dlmalloc.nextHeapChunk f.addr) (← chunkSize f.addr)
      Dlmalloc.setPreviousInuse (← Dlmalloc.nextHeapChunk b.addr) : M Unit) s fun _ s' =>
      Models s' { h with chunks := tag d.addr false h.chunks } ∧ Keeps (InUse h.chunks) s s' := by
  have hL1 : h.chunks = (pre ++ [b]) ++ f :: d :: post := by simp [hL]
  have hL2 : h.chunks = (pre ++ [b, f]) ++ d :: post := by simp [hL]
  refine (hm.setPreviousInuse_self hs (Shape.mem_chunks hL1) hp).bind_of fun _ s₁ hpost => ?_
  obtain ⟨hm₁, hk₁⟩ := hpost
  refine Returns.bind_of_eq (hm₁.nextHeapChunk hs hL1) ?_
  refine (hm₁.clearPreviousInuse_spec hs hL2).bind_of fun _ s₂ hpost => ?_
  obtain ⟨hm₂, hk₂⟩ := hpost
  -- the row after that
  obtain ⟨L, hLdef⟩ : ∃ L, L = tag d.addr false h.chunks := ⟨_, rfl⟩
  obtain ⟨d', hd'⟩ : ∃ d' : Chunk, d' = { d with pinuse := false } := ⟨_, rfl⟩
  have htag : L = (pre ++ [b, f]) ++ d' :: post := by
    rw [hLdef, hL2, tag_mid (hs.tiles_of hL2), hd']
  have hs2 : Shape ext X { h with chunks := L } := by
    rw [htag, hd']
    exact hs.tag hL2
  rw [← hLdef] at hm₂ ⊢
  have hd₂ : d'.addr = d.addr := by rw [hd']
  have hL3 : L = (pre ++ [b]) ++ f :: d' :: post := by simp [htag]
  have hL4 : L = pre ++ b :: f :: d' :: post := by simp [htag]
  have hfm : f ∈ L := by simp [hL3]
  have hU : InUse L = InUse h.chunks := by simp only [hLdef, InUse, usedSlots_tag]
  have hfn : f.next = d'.addr := (tiles_mid.mp (hs2.tiles_of hL3)).2.1.symm
  refine Returns.bind_of_eq (hm₂.nextHeapChunk hs2 hL3) ?_
  have hsz : chunkSize f.addr s₂ = some (f.size, s₂) := by
    rw [chunkSize_apply, (hs2.fits hfm).chunkSize (hm₂.headers f hfm).word]
  refine Returns.bind_of_eq hsz ?_
  refine Returns.bind_of_eq (store_apply _ _ _ _) ?_
  obtain ⟨hm₃, hk₃⟩ := hm₂.footer hs2 hL3 hf
  rw [hfn] at hm₃ hk₃
  refine Returns.bind_of_eq (hm₃.nextHeapChunk hs2 hL4) ?_
  refine (hm₃.setPreviousInuse_self hs2 hfm hp).mono fun _ s' hpost => ?_
  obtain ⟨hm', hk⟩ := hpost
  refine ⟨hm', ?_⟩
  simp only [hU] at hk₃ hk
  exact ((hk₁.trans hk₂).trans hk₃).trans hk

/-- `resize_chunk_and_split`, after the first header is written. -/
theorem resize_run (hmg : Merged full ext h pre b d post) (hm : Models s h) (hq : Request r)
    (hsmall : r < 2 ^ 32) :
    Returns (do
      if ← canSplitChunk b.addr r then
        let splittedChunk ← splitMallocdChunk b.addr r
        let _ ← insertChunk splittedChunk
        setPreviousInuse splittedChunk
        clearPreviousInuse (← nextHeapChunk splittedChunk)
        store .previousSize (← nextHeapChunk splittedChunk) (← chunkSize splittedChunk)
      setPreviousInuse (← nextHeapChunk b.addr) : M Unit) s fun _ s' =>
      Models s' (resize b.addr b.size r h) ∧
        Keeps (InUse (resize b.addr b.size r h).chunks) s s' := by
  have hs := hmg.shape
  have hL := hmg.chunks
  have hbm : b ∈ h.chunks := Shape.mem_chunks hL
  have hda : d.addr = b.addr + b.size + 8 := (tiles_mid.mp (hs.tiles_of hL)).2.1
  refine Returns.bind_of_eq (hs.canSplit hm.toRep hbm hsmall) ?_
  unfold resize
  by_cases hfit : r + SMALLEST_CHUNK ≤ b.size
  · rw [if_pos (by simpa using hfit), if_pos hfit]
    have hU : ∀ B : Bins, InUse ({ h with
        chunks := tag (b.addr + b.size + 8) false (trim b.addr r .free h.chunks)
        bins := B } : Heap).chunks = InUse (trim b.addr r .free h.chunks) := fun B => by
      simp only [InUse, usedSlots_tag]
    rw [hU]
    -- the row after the split
    have hL1 : trim b.addr r .free h.chunks =
        pre ++ ⟨b.addr, r, b.status, b.pinuse⟩ :: offcut b r :: d :: post := hs.trim_chunks hL
    have hs1 := hs.trim hq hL hmg.inuse hfit
    refine (hm.splitMallocdChunk_spec hs hL hmg.inuse hq hfit).bind_of fun a s₁ hpost => ?_
    obtain ⟨ha, hm₁, hk₁⟩ := hpost
    rw [ha]
    refine (hm₁.insertChunk_spec hs1).bind_of fun _ s₂ hpost => ?_
    obtain ⟨hm₂, hk₂⟩ := hpost
    have hs2 := hs1.insert
    refine (hm₂.retag_run (b := ⟨b.addr, r, b.status, b.pinuse⟩) (d := d) hs1.insert hL1 rfl
      rfl).mono fun _ s' hpost => ?_
    obtain ⟨hm', hk⟩ := hpost
    refine ⟨?_, (hk₁.trans hk₂).trans hk⟩
    rw [← hda]
    exact hm'
  · rw [if_neg (by simpa using hfit), if_neg hfit]
    refine Returns.bind_of_eq (hm.nextHeapChunk hs hL) ?_
    have hL' : h.chunks = (pre ++ [b]) ++ d :: post := by rw [hL, List.append_assoc]; rfl
    have hspec := hm.setPreviousInuse_spec hs hL'
    rw [hda] at hspec ⊢
    refine hspec.mono fun _ s' hpost => ?_
    obtain ⟨hm', hk⟩ := hpost
    refine ⟨hm', ?_⟩
    simpa only [InUse, usedSlots_tag] using hk

/-- `resize_chunk_and_split` makes one chunk in use of the chunks from `c` to before `d`. Memory may
have changed between their headers in the state `s₁` it is called in. -/
theorem resizeChunkAndSplit_spec {s₁ : State} (hm : Models s h) (hs : Shape ext X h)
    (hL : h.chunks = pre ++ c :: ms ++ d :: post) (hX : freeSlots (c :: ms) ≤ X)
    (ht : Tiles c.addr (c :: ms) d.addr) (hw : Within (c.addr + 8) (d.addr + 8) s s₁)
    (hword : s₁.load .currentSize c.addr = c.word)
    (hmg : Merged full ext
      { h with chunks := pre ++ ⟨c.addr, n, .inuse, c.pinuse⟩ :: d :: post } pre
      ⟨c.addr, n, .inuse, c.pinuse⟩ d post)
    (hq : Request r) (hle : r ≤ n) (hsmall : r < 2 ^ 32) :
    Returns (resizeChunkAndSplit c.addr n r) s₁ fun _ s' =>
      Models s' (resize c.addr n r
        { h with chunks := pre ++ ⟨c.addr, n, .inuse, c.pinuse⟩ :: d :: post }) ∧
      Keeps (InUse (resize c.addr n r
        { h with chunks := pre ++ ⟨c.addr, n, .inuse, c.pinuse⟩ :: d :: post }).chunks) s₁ s' := by
  obtain ⟨b, hb⟩ : ∃ b : Chunk, b = ⟨c.addr, n, .inuse, c.pinuse⟩ := ⟨_, rfl⟩
  have hba : b.addr = c.addr := by rw [hb]
  have hbn : b.size = n := by rw [hb]
  rw [← hb] at hmg ⊢
  have hcm : c ∈ h.chunks := by simp [hL]
  have hfit_b := hmg.shape.fits (c := b) (by simp)
  have hvalue : n ||| s₁.isPreviousInuse c.addr ||| CURRENT_CHUNK_INUSE = b.word := by
    rw [(hs.fits hcm).isPreviousInuse hword, hb]
    exact or_inuse (hbn ▸ hfit_b.aligned)
  have hda : d.addr = c.addr + n + 8 := by
    have h1 := (tiles_mid.mp (hmg.shape.tiles_of rfl)).2.1
    rwa [Chunk.next, hba, hbn] at h1
  -- the header of the merged chunk
  set s₂ := s₁.store .currentSize c.addr b.word with hs₂
  have hr₂ : Rep s₂ { h with chunks := pre ++ b :: d :: post } :=
    hm.toRep.fuse_inuse hs hL hX ht hw hba (by rw [hb]) hfit_b.word_lt
  have hw₂ : Within (c.addr + 8) (c.addr + 16) s₁ s₂ := by
    refine (Within.refl _ _ _).store ?_ ?_ <;> simp only [Field.offset, Field.width] <;> omega
  have hm₂ : Models s₂ { h with chunks := pre ++ b :: d :: post } := by
    refine ⟨hr₂, ?_⟩
    have htop : Heap.top { h with chunks := pre ++ b :: d :: post } = h.top :=
      Heap.top_congr (A := pre ++ c :: ms) (B := pre ++ [b]) (Q := d :: post) hL (by simp)
        (by simp)
    rw [htop, ← hm.top, hw₂.bin, hw.bin]
  have hrun := resize_run hmg hm₂ hq hsmall
  obtain ⟨-, -, m, -, hused⟩ := hmg.resize_spec hq (hbn.symm ▸ hle)
  rw [hba, hbn] at hrun hused
  unfold resizeChunkAndSplit
  refine Returns.bind_of_eq (isPreviousInuse_apply s₁ _) ?_
  rw [hvalue]
  refine Returns.bind_of_eq (store_apply s₁ _ _ _) ?_
  refine hrun.mono fun _ s' hpost => ?_
  obtain ⟨hm', hk⟩ := hpost
  refine ⟨hm', Keeps.trans (hw₂.keeps fun e he => ?_) hk⟩
  have he' : e ∈ (c.addr, m) ::ₘ (usedSlots pre + usedSlots (d :: post)) := hused ▸ he
  have hsep := hs.tiles
  rw [hL, List.append_assoc, List.cons_append] at hsep
  rw [Multiset.mem_cons, Multiset.mem_add] at he'
  rcases he' with rfl | he' | he'
  · exact .inr le_rfl
  · obtain ⟨x, hx, -, rfl⟩ := mem_usedSlots.mp he'
    have := hsep.around.1 x hx
    simp only [Chunk.slot, Chunk.next] at *
    omega
  · obtain ⟨x, hx, -, rfl⟩ := mem_usedSlots.mp he'
    have h1 := hsep.around.2 x (by simp only [List.mem_append]; exact .inr hx)
    simp only [Chunk.slot, Chunk.next] at *
    omega

/-! ### The ways to grow -/

theorem Models.combinedSizes (hm : Models s h) (hs : Shape ext X h)
    (hL : h.chunks = pre ++ c :: d :: post) :
    Dlmalloc.combinedSizes c.addr d.addr s = some (c.size + d.size + 8, s) := by
  rw [← hm.toRep.combinedSizes hs hL]
  rfl

/-- The outcome of a call that moves or resizes the block in the chunk `c`, with a request `r`. -/
def Relocated (h : Heap) (c : Chunk) (r : ℕ) (s : State) (o : Option (ℕ × Heap)) (p : Addr)
    (s' : State) : Prop :=
  match o with
  | none => p = NULL ∧ s' = s
  | some (a, h') => p = a + 16 ∧ Models s' h' ∧ Keeps (InUse h.chunks \ {c.slot}) s s' ∧
      ∀ i, i < c.size → i < r → s'.mem (a + 16 + i) = s.mem (c.addr + 16 + i)

/-- A call that brings the contents along first, and then leaves the payloads in use alone. -/
theorem relocated_of {s₁ : State} {h' : Heap} {a : ℕ} (hm : Models s' h')
    (hrep : Replaced r h h' c a) (hk : Keeps (InUse h'.chunks) s₁ s')
    (hothers : Keeps (InUse h.chunks \ {c.slot}) s s₁)
    (hcopy : ∀ i, i < c.size → i < r → s₁.mem (a + 16 + i) = s.mem (c.addr + 16 + i)) :
    Relocated h c r s (some (a, h')) (a + 16) s' := by
  obtain ⟨-, n, U, hn, hU, hU'⟩ := hrep
  refine ⟨rfl, hm, hothers.trans (hk.mono fun e he => ?_), fun i h1 h2 => ?_⟩
  · obtain ⟨he1, he2⟩ := he
    have he3 : e ∈ h.used := he1
    rw [hU, Multiset.mem_cons] at he3
    show e ∈ h'.used
    rw [hU']
    exact Multiset.mem_cons_of_mem (he3.resolve_left he2)
  · have hmem : (a, n) ∈ InUse h'.chunks := by
      show (a, n) ∈ h'.used
      rw [hU']
      exact Multiset.mem_cons_self _ _
    rw [← hcopy i h1 h2]
    exact hk _ hmem _ (by simp only; omega) (by simp only; omega)

theorem Heap.Shape.ptr (hs : Shape ext X h) (hc : c ∈ h.chunks) :
    userPointerToChunk (c.addr + 16) = c.addr ∧ chunkToUserPointer c.addr = c.addr + 16 := by
  have h1 := (hs.fits hc).below
  simp only [Chunk.next] at h1
  exact ⟨userPointerToChunk_add (by omega), add64_of_lt (by omega)⟩

theorem reallocChunkAndAfter_spec (hm : Models s h) (hi : Inv full ext h) (hq : Request r)
    (hsmall : r < 2 ^ 32) (hL : h.chunks = pre ++ c :: d :: post) (hc : c.status = .inuse)
    (hd : d.status ≠ .inuse) : Returns (reallocChunkAndAfter (c.addr + 16) r) s
      (Relocated h c r s (growAfter c r h)) := by
  have hs := hi.shape
  have hcm : c ∈ h.chunks := Shape.mem_chunks hL
  have hdm : d ∈ h.chunks := by simp [hL]
  obtain ⟨hptr, hptr'⟩ := hs.ptr hcm
  have hat := (hs.chunkAt_next hL).1
  unfold reallocChunkAndAfter
  rw [hptr]
  refine Returns.bind_of_eq (hm.nextHeapChunk hs hL) ?_
  refine Returns.bind_of_eq (hm.combinedSizes hs hL) ?_
  refine Returns.bind_of_eq (hm.isEndOfHeap hs hdm) ?_
  by_cases hcond : d.status = .free ∧ r ≤ c.size + d.size + 8
  · obtain ⟨hfree, hle⟩ := hcond
    rw [if_neg (by simp [hfree, hle])]
    have hgrow : growAfter c r h = some (c.addr, resize c.addr (c.size + d.size + 8) r
        { h with chunks := fuse c.addr .inuse h.chunks, bins := h.bins.remove d.slot }) := by
      simp [growAfter, hat, hfree, hle]
    have hrep := (growAfter_spec hi hq hL hc hgrow).2
    rw [hgrow]
    -- the chunk after `c` leaves the bins
    have hs0 : Shape ext (h.bins.victimSlot + 0) h := by rwa [add_zero]
    have hheld := (hs.merge_next hL hc hfree).1
    refine (hm.removeChunkOrVictim_spec hs0 hheld).bind_of fun _ s₁ hpost => ?_
    obtain ⟨hm₁, hk₁⟩ := hpost
    have hs1 := hs0.remove hheld
    refine Returns.bind_of_eq (hm₁.combinedSizes hs1 hL) ?_
    -- the merged chunk
    have hL1 : h.chunks = (pre ++ [c]) ++ d :: post := by rw [hL, List.append_assoc]; rfl
    obtain ⟨x, post, rfl, hx⟩ := hs.exists_next hL1 (by simp [hfree])
    have hmg := hi.merged_after hL hc hfree
    have hfuse := hs.fuse_chunks (τ := .inuse) hL
    rw [hfuse] at hmg hrep ⊢
    have htl := tiles_mid.mp (hs.tiles_of hL)
    refine (resizeChunkAndSplit_spec (n := c.size + d.size + 8) hm₁ hs1
      (show h.chunks = pre ++ c :: [d] ++ x :: post by simpa using hL) ?_
      ⟨rfl, htl.2.1, hx.symm⟩ (.refl _ _ _) (hm₁.headers c hcm).word hmg hq hle
      hsmall).bind_of fun _ s' hpost => ?_
    · simp only [freeSlots_cons, freeSlots_nil, hc, hfree, Chunk.slot, if_true, reduceCtorEq,
        if_false, zero_add, add_zero]
      exact Multiset.singleton_le.mpr (Multiset.mem_cons_self _ _)
    · obtain ⟨hm', hk'⟩ := hpost
      rw [hptr']
      exact .pure (relocated_of hm' hrep hk' (hk₁.mono Set.sdiff_subset)
        fun i h1 h2 => hk₁ c.slot (mem_usedSlots.mpr ⟨c, hcm, hc, rfl⟩) _
          (by simp only [Chunk.slot]; omega) (by simp only [Chunk.slot]; omega))
  · have hgrow : growAfter c r h = none := by simp [growAfter, hat, hcond]
    rw [hgrow, if_pos ?_]
    · exact .pure ⟨rfl, rfl⟩
    · cases hst : d.status with
      | inuse => exact absurd hst hd
      | free => exact .inl (not_le.mp fun hle => hcond ⟨hst, hle⟩)
      | top => exact .inr (by simp)

/-- The payload of `c` slides down into the free chunk before it. -/
theorem slide {s₁ : State} (hs : Shape ext X h) (hL : h.chunks = pre ++ p :: c :: post)
    (hp : p.status = .free) (hc : c.status = .inuse) (hk : Keeps (InUse h.chunks) s s₁) :
    Returns (moveBytes (p.addr + 16) (c.addr + 16) c.size) s₁ fun _ s₂ =>
      Within (p.addr + 16) (c.next + 8) s₁ s₂ ∧ Keeps (InUse h.chunks \ {c.slot}) s s₂ ∧
      ∀ i, i < c.size → s₂.mem (p.addr + 16 + i) = s.mem (c.addr + 16 + i) := by
  have hpm : p ∈ h.chunks := Shape.mem_chunks hL
  have hcm : c ∈ h.chunks := by simp [hL]
  have hca : c.addr = p.next := (tiles_mid.mp (hs.tiles_of hL)).2.1
  simp only [Chunk.next] at hca
  -- the move writes inside the two chunks only
  have hw : Within (p.addr + 16) (c.next + 8) s₁
      { s₁ with mem := s₁.mem.move (p.addr + 16) (c.addr + 16) c.size } := by
    refine ⟨fun x hx => ByteMem.move_of_notMem ?_, fun _ => rfl, rfl, rfl, rfl⟩
    simp only [Chunk.next] at hx
    omega
  refine .intro (change_apply s₁ _) ⟨hw, (hk.mono Set.sdiff_subset).trans (hw.keeps fun e he => ?_),
    fun i hi => ?_⟩
  · obtain ⟨x, hx, hxst, rfl⟩ := mem_usedSlots.mp he.1
    -- a chunk in use other than the moved one lies apart from both
    have hxp : x ≠ p := by
      rintro rfl
      rw [hp] at hxst
      cases hxst
    have hxc : x ≠ c := by
      rintro rfl
      exact he.2 rfl
    have h1 := (hs.tiles.apart hx hpm).resolve_left hxp
    have h2 := (hs.tiles.apart hx hcm).resolve_left hxc
    simp only [Chunk.slot, Chunk.next] at *
    omega
  · -- `memmove`: every byte is read as it was before the move
    have hsrc : c.addr + 16 + (p.addr + 16 + i - (p.addr + 16)) = c.addr + 16 + i := by omega
    show s₁.mem.move (p.addr + 16) (c.addr + 16) c.size _ = _
    rw [ByteMem.move_of_mem (by omega) (by omega), hsrc]
    exact hk c.slot (mem_usedSlots.mpr ⟨c, hcm, hc, rfl⟩) _ (by simp only [Chunk.slot]; omega)
      (by simp only [Chunk.slot]; omega)

theorem reallocChunkAndBefore_spec (hm : Models s h) (hi : Inv full ext h) (hq : Request r)
    (hsmall : r < 2 ^ 32) (hL : h.chunks = pre ++ p :: c :: d :: post) (hp : p.status = .free)
    (hc : c.status = .inuse) (hcp : c.pinuse = false) (hd : d.status ≠ .top)
    (haround : growAround c r h = none) : Returns (reallocChunkAndBefore (c.addr + 16) r) s
      (Relocated h c r s (growBefore c r h)) := by
  have hs := hi.shape
  have hpm : p ∈ h.chunks := Shape.mem_chunks hL
  have hcm : c ∈ h.chunks := by simp [hL]
  have hL' : h.chunks = (pre ++ [p]) ++ c :: d :: post := by simp [hL]
  have hptr := (hs.ptr hcm).1
  have hptr' := (hs.ptr hpm).2
  have hat := (hs.chunkAt_next hL').1
  have hbefore := hs.chunkBefore hL
  unfold reallocChunkAndBefore
  rw [hptr]
  refine Returns.bind_of_eq (hm.previousHeapChunk hs hL hp) ?_
  refine Returns.bind_of_eq (hm.combinedSizes hs hL) ?_
  by_cases hle : r ≤ p.size + c.size + 8
  · rw [if_neg (not_lt.mpr hle)]
    have hgrow : growBefore c r h = some (p.addr, resize p.addr (p.size + c.size + 8) r
        { h with chunks := fuse p.addr .inuse h.chunks, bins := h.bins.remove p.slot }) := by
      simp [growBefore, hcp, hbefore, hat, hd, hle]
    have hrep := (growBefore_spec hi hq hL' hc haround hgrow).2
    rw [hgrow]
    -- the chunk before `c` leaves the bins
    have hs0 : Shape ext (h.bins.victimSlot + 0) h := by rwa [add_zero]
    have hheld := (hs.merge_previous hL hc hp).1
    refine (hm.removeChunkOrVictim_spec hs0 hheld).bind_of fun _ s₁ hpost => ?_
    obtain ⟨hm₁, hk₁⟩ := hpost
    have hs1 := hs0.remove hheld
    have hsz : chunkSize c.addr s₁ = some (c.size, s₁) := by
      rw [chunkSize_apply, (hs.fits hcm).chunkSize (hm₁.headers c hcm).word]
    refine Returns.bind_of_eq hsz ?_
    rw [hptr']
    refine (slide hs hL hp hc hk₁).bind_of fun _ s₂ hpost => ?_
    obtain ⟨hw, hk₂, hcopy⟩ := hpost
    -- the merged chunk
    have hmg := hi.merged_before hL hp hc fun _ =>
      next_inuse_of_growAround hs hL hcp haround hd hle
    have hfuse := hs.fuse_chunks (τ := .inuse) hL
    rw [hfuse] at hmg hrep ⊢
    have hca := (tiles_mid.mp (hs.tiles_of hL)).2.1
    have hda := (tiles_mid.mp (hs.tiles_of hL')).2.1
    have hword : s₂.load .currentSize p.addr = p.word := by
      rw [hw.load (.inl (by simp only [Field.offset, Field.width]; omega))]
      exact (hm₁.headers p hpm).word
    refine (resizeChunkAndSplit_spec (n := p.size + c.size + 8) hm₁ hs1
      (show h.chunks = pre ++ p :: [c] ++ d :: post by simpa using hL) ?_ ⟨rfl, hca, hda.symm⟩
      (hw.mono (by omega) (by rw [hda])) hword hmg hq hle hsmall).bind_of
        fun _ s' hpost => .pure (relocated_of hpost.1 hrep hpost.2 hk₂ fun i h1 _ => hcopy i h1)
    simp only [freeSlots_cons, freeSlots_nil, hc, hp, Chunk.slot, if_true, reduceCtorEq,
      if_false, add_zero]
    exact Multiset.singleton_le.mpr (Multiset.mem_cons_self _ _)
  · rw [if_pos (not_le.mp hle)]
    have hgrow : growBefore c r h = none := by simp [growBefore, hcp, hbefore, hat, hle]
    rw [hgrow]
    exact .pure ⟨rfl, rfl⟩

theorem reallocChunkBeforeAndAfter_spec (hm : Models s h) (hi : Inv full ext h) (hq : Request r)
    (hsmall : r < 2 ^ 32) (hL : h.chunks = pre ++ p :: c :: d :: post) (hp : p.status = .free)
    (hc : c.status = .inuse) (hcp : c.pinuse = false) (hd : d.status ≠ .inuse) :
    Returns (reallocChunkBeforeAndAfter (c.addr + 16) r) s
      (Relocated h c r s (growAround c r h)) := by
  have hs := hi.shape
  have hpm : p ∈ h.chunks := Shape.mem_chunks hL
  have hcm : c ∈ h.chunks := by simp [hL]
  have hdm : d ∈ h.chunks := by simp [hL]
  have hL' : h.chunks = (pre ++ [p]) ++ c :: d :: post := by simp [hL]
  have hptr := (hs.ptr hcm).1
  have hptr' := (hs.ptr hpm).2
  have hat := (hs.chunkAt_next hL').1
  have hbefore := hs.chunkBefore hL
  have hsizes : add64 (add64 (add64 (s.chunkSize c.addr) (s.chunkSize p.addr))
      (s.chunkSize d.addr)) (2 * 8) = c.size + p.size + d.size + 16 := by
    have hbelow := (hs.fits hdm).below
    have hca := (tiles_mid.mp (hs.tiles_of hL)).2.1
    have hda := (tiles_mid.mp (hs.tiles_of hL')).2.1
    rw [(hs.fits hcm).chunkSize (hm.headers c hcm).word,
      (hs.fits hpm).chunkSize (hm.headers p hpm).word,
      (hs.fits hdm).chunkSize (hm.headers d hdm).word]
    simp only [Chunk.next] at hbelow hca hda
    have h1 : add64 c.size p.size = c.size + p.size := add64_of_lt (by omega)
    have h2 : add64 (c.size + p.size) d.size = c.size + p.size + d.size := add64_of_lt (by omega)
    rw [h1, h2]
    exact add64_of_lt (by omega)
  unfold reallocChunkBeforeAndAfter
  rw [hptr]
  refine Returns.bind_of_eq (hm.previousHeapChunk hs hL hp) ?_
  refine Returns.bind_of_eq (hm.nextHeapChunk hs hL') ?_
  refine Returns.bind_of_eq (chunkSize_apply s _) ?_
  refine Returns.bind_of_eq (chunkSize_apply s _) ?_
  refine Returns.bind_of_eq (chunkSize_apply s _) ?_
  rw [hsizes]
  refine Returns.bind_of_eq (hm.isEndOfHeap hs hdm) ?_
  by_cases hcond : d.status = .free ∧ r ≤ c.size + p.size + d.size + 16
  · obtain ⟨hfree, hle⟩ := hcond
    rw [if_neg (by simp [hfree, hle])]
    have hgrow : growAround c r h = some (p.addr, resize p.addr (c.size + p.size + d.size + 16) r
        { h with
          chunks := fuse p.addr .inuse (fuse c.addr .inuse h.chunks)
          bins := (h.bins.remove d.slot).remove p.slot }) := by
      simp [growAround, hcp, hbefore, hat, hfree, hle]
    have hrep := (growAround_spec hi hq hL' hc hgrow).2
    rw [hgrow]
    have hL2 : h.chunks = (pre ++ [p, c]) ++ d :: post := by simp [hL]
    obtain ⟨x, post, rfl, hx⟩ := hs.exists_next hL2 (by simp [hfree])
    obtain ⟨hheld', hmg⟩ := hi.merged_around hL hp hc hfree
    -- both neighbours leave the bins
    have hs0 : Shape ext (h.bins.victimSlot + 0) h := by rwa [add_zero]
    have hheld := (hs.merge_next hL' hc hfree).1
    refine (hm.removeChunkOrVictim_spec hs0 hheld).bind_of fun _ s₁ hpost => ?_
    obtain ⟨hm₁, hk₁⟩ := hpost
    have hs1 : Shape ext ((h.bins.remove d.slot).victimSlot + {d.slot})
        { h with bins := h.bins.remove d.slot } := by
      have h1 := hs0.remove hheld
      rwa [add_zero, ← Multiset.singleton_add, add_comm] at h1
    refine (hm₁.removeChunkOrVictim_spec hs1 hheld').bind_of fun _ s₂ hpost => ?_
    obtain ⟨hm₂, hk₂⟩ := hpost
    have hs2 := Shape.remove (e := p.slot) (h := { h with bins := h.bins.remove d.slot }) hs1 hheld'
    have hsz : chunkSize c.addr s₂ = some (c.size, s₂) := by
      rw [chunkSize_apply, (hs.fits hcm).chunkSize (hm₂.headers c hcm).word]
    refine Returns.bind_of_eq hsz ?_
    rw [hptr']
    refine (slide hs hL hp hc (hk₁.trans hk₂)).bind_of fun _ s₃ hpost => ?_
    obtain ⟨hw, hk₃, hcopy⟩ := hpost
    -- the merged chunk
    have hfuse := hmg.chunks
    have hchunk : fused p (fused c d .inuse) .inuse =
        ⟨p.addr, c.size + p.size + d.size + 16, .inuse, p.pinuse⟩ := by
      rw [← size_around]
      rfl
    simp only at hfuse
    rw [hchunk] at hmg hfuse
    rw [hfuse] at hmg hrep ⊢
    have hca := (tiles_mid.mp (hs.tiles_of hL)).2.1
    have hda := (tiles_mid.mp (hs.tiles_of hL')).2.1
    have hword : s₃.load .currentSize p.addr = p.word := by
      rw [hw.load (.inl (by simp only [Field.offset, Field.width]; omega))]
      exact (hm₂.headers p hpm).word
    refine (resizeChunkAndSplit_spec (n := c.size + p.size + d.size + 16)
      (h := { h with bins := (h.bins.remove d.slot).remove p.slot }) hm₂ hs2
      (show h.chunks = pre ++ p :: [c, d] ++ x :: post by simpa using hL) ?_
      ⟨rfl, hca, hda, hx.symm⟩ (hw.mono (by omega) ?_) hword hmg hq hle hsmall).bind_of
      fun _ s' hpost =>
        .pure (relocated_of hpost.1 hrep hpost.2 hk₃ fun i h1 _ => hcopy i h1)
    · simp only [freeSlots_cons, freeSlots_nil, hc, hp, hfree, if_true, reduceCtorEq, if_false,
        zero_add, add_zero, ← Multiset.singleton_add]
      exact add_le_add_right (Multiset.le_add_left _ _) _
    · have h1 := hda
      simp only [Chunk.next] at hx h1 ⊢
      omega
  · have hgrow : growAround c r h = none := by simp [growAround, hcp, hbefore, hat, hcond]
    rw [hgrow, if_pos ?_]
    · exact .pure ⟨rfl, rfl⟩
    · cases hst : d.status with
      | inuse => exact absurd hst hd
      | free => exact .inl (not_le.mp fun hle => hcond ⟨hst, hle⟩)
      | top => exact .inr (by simp)

/-- The end of `realloc_chunk_after_extend_heap`: the end of the heap is cut anew. While it is,
there is none in `END_OF_HEAP_BIN`, so that the footer of the new end is written too. -/
theorem retop_run {t : Chunk} (hr : Rep s h) (hs : Shape ext X h) (hL : h.chunks = pre ++ [c, t])
    (hc : c.status = .inuse) (ht : t.status = .top) (hq : Request r)
    (hfit : r + SMALLEST_CHUNK ≤ c.size + t.size + 8) :
    Returns (do
      setBin END_OF_HEAP_BIN NULL
      store .currentSize c.addr
        (c.size + t.size + 8 ||| (← isPreviousInuse c.addr) ||| CURRENT_CHUNK_INUSE)
      let splittedChunk ← splitMallocdChunk c.addr r
      setPreviousInuse splittedChunk
      setBin END_OF_HEAP_BIN splittedChunk
      return chunkToUserPointer c.addr) s fun p s' => p = c.addr + 16 ∧
      Models s' { h with chunks := trim c.addr r .top (fuse c.addr .inuse h.chunks) } ∧
        Keeps (InUse (trim c.addr r .top (fuse c.addr .inuse h.chunks))) s s' := by
  have hcm : c ∈ h.chunks := by simp [hL]
  have htm : t ∈ h.chunks := by simp [hL]
  have hta := (tiles_mid.mp (hs.tiles_of hL)).2.1
  have hfit_c := hs.fits hcm
  have hfit_t := hs.fits htm
  obtain ⟨htrim, hs'⟩ := hs.retop hq hL hc ht hfit
  -- the merged chunk
  obtain ⟨b, hb⟩ : ∃ b : Chunk, b = fused c t .inuse := ⟨_, rfl⟩
  have hba : b.addr = c.addr := by rw [hb]; rfl
  have hbn : b.next = t.next := by
    simp only [hb, fused, Chunk.next] at *
    omega
  have hbz : b.size = c.size + t.size + 8 := by rw [hb]; rfl
  have h8 : 8 ∣ c.size + t.size + 8 := by
    have h1 := hfit_c.aligned
    have h2 := hfit_t.aligned
    omega
  have hfit_b : Fits b := ⟨hbz ▸ h8, hbn ▸ hfit_t.below⟩
  -- its header
  set s₁ := s.setBin END_OF_HEAP_BIN NULL with hs₁
  set s₂ := s₁.store .currentSize c.addr b.word with hs₂
  have hr₁ : Rep s₁ h := hr.setTop
  have hvalue : c.size + t.size + 8 ||| s₁.isPreviousInuse c.addr ||| CURRENT_CHUNK_INUSE =
      b.word := by
    rw [hfit_c.isPreviousInuse (hr₁.headers c hcm).word, hb]
    exact or_inuse h8
  have hend : s₂.bin END_OF_HEAP_BIN ≠ b.addr + r + 8 := by
    have h1 : s₂.bin END_OF_HEAP_BIN = NULL := by
      rw [hs₂, State.bin_store, hs₁, State.bin_setBin_same (by decide)]
    have h2 : 0 ≠ b.addr + r + 8 := by omega
    rw [h1]
    exact h2
  have hword : s₂.load .currentSize b.addr = b.word := by
    rw [hs₂, hba, load_store_currentSize hfit_b.word_lt]
  refine Returns.bind_of_eq (setBin_apply s _ _ endOfHeapBin_lt) ?_
  refine Returns.bind_of_eq (isPreviousInuse_apply s₁ _) ?_
  rw [hvalue]
  refine Returns.bind_of_eq (store_apply s₁ _ _ _) ?_
  have hsplit := splitMallocdChunk_run (τ := .top) hword hfit_b (by simp) hq.aligned (hbz ▸ hfit)
    hend
  rw [hba] at hsplit
  refine hsplit.bind_of fun a s₃ hpost => ?_
  obtain ⟨ha, hw, hnew, hpayload⟩ := hpost
  have hw₂ : Within (c.addr + 8) (c.addr + 16) s₁ s₂ := by
    refine (Within.refl _ _ _).store ?_ ?_ <;> simp only [Field.offset, Field.width] <;> omega
  have hw₃ : Within (c.addr + 8) (t.next + 8) s₁ s₃ := by
    refine (hw₂.mono le_rfl ?_).trans (hbn ▸ hw)
    simp only [Chunk.next] at *
    omega
  -- the two pieces
  obtain ⟨c', hc'⟩ : ∃ c' : Chunk, c' = ⟨c.addr, r, .inuse, c.pinuse⟩ := ⟨_, rfl⟩
  obtain ⟨t', ht'⟩ : ∃ t' : Chunk, t' = ⟨c.addr + r + 8, c.size + t.size + 8 - r - 8, .top, true⟩ :=
    ⟨_, rfl⟩
  have hbp : b.pinuse = c.pinuse := by rw [hb]; rfl
  rw [hbz, hbp, ← hc', ← ht'] at hnew
  rw [← hc', ← ht'] at htrim
  have hr₃ : Rep s₃ { h with chunks := trim c.addr r .top (fuse c.addr .inuse h.chunks) } := by
    have hedit := hr₁.edit (C := [c, t]) (Q := []) (i := c.addr) (j := t.next) hs
      (by simpa using hL) (by simp) (by simp [freeSlots_cons, hc, ht])
      ⟨rfl, hta, rfl⟩ hw₃ hnew
    rw [htrim]
    simpa using hedit
  have htm' : t' ∈ trim c.addr r .top (fuse c.addr .inuse h.chunks) := by simp [htrim]
  have htrim' : trim c.addr r .top (fuse c.addr .inuse h.chunks) = (pre ++ [c']) ++ [t'] := by
    simp [htrim]
  have ht'a : a = t'.addr := by rw [ha, ht']
  have htag := hr₃.setPreviousInuse_spec hs' htrim'
  rw [tag_self hs'.tiles htm' (by rw [ht'])] at htag
  rw [ht'a]
  refine htag.bind_of fun _ s₄ hpost => ?_
  obtain ⟨hr₄, hf₄⟩ := hpost
  refine Returns.bind_of_eq (setBin_apply s₄ _ _ endOfHeapBin_lt)
    (.pure ⟨(hs.ptr hcm).2, ⟨hr₄.setTop, ?_⟩, ?_⟩)
  · rw [State.bin_setBin_same (by decide)]
    simp [Heap.top, htrim, Chunk.slot]
  · refine (Keeps.trans (fun e he x h1 h2 => ?_) hf₄.keeps).trans (keeps_setBin _ _ _ _)
    rw [htrim] at he
    obtain ⟨y, hy, hyst, rfl⟩ := mem_usedSlots.mp he
    simp only [List.mem_append, List.mem_cons, List.not_mem_nil, or_false] at hy
    have hmem₁ : ∀ z, s₁.mem z = s.mem z := fun z => by rw [hs₁, State.setBin_mem]
    rcases hy with hy | hy | hy
    · have := (hs.tiles_of hL).around.1 y hy
      rw [← hmem₁, hw₃.mem x]
      simp only [Chunk.slot, Chunk.next] at *
      omega
    · rw [hy, hc'] at h1 h2
      simp only [Chunk.slot] at h1 h2
      rw [hpayload x h1 (by omega), hw₂.mem x (.inr h1), hmem₁]
    · rw [hy, ht'] at hyst
      cases hyst

theorem Heap.extend_zero : h.extend 0 = h := by
  have hgrow : ∀ (a : ℕ) (L : List Chunk), grow a 0 L = L := fun a L => by
    induction L with
    | nil => rfl
    | cons c L ih =>
      have h1 : grow a 0 (c :: L) = (if c.addr = a then [c] else [c]) ++ grow a 0 L := rfl
      rw [h1, ih, ite_self]
      rfl
  rw [Heap.extend, hgrow]
  rfl

theorem reallocChunkAfterExtendHeap_spec {t : Chunk} (hm : Models s h) (hi : Inv full ext h)
    (hx : Extension ext) (hq : Request r) (hbound : r + 32 + ext < 2 ^ 31)
    (hL : h.chunks = pre ++ [c, t]) (hc : c.status = .inuse) (ht : t.status = .top) :
    Returns (reallocChunkAfterExtendHeap ext (c.addr + 16) r) s
      (Relocated h c r s (growTop ext c r h)) := by
  have hs := hi.shape
  have hcm : c ∈ h.chunks := by simp [hL]
  have htm : t ∈ h.chunks := by simp [hL]
  have hL' : h.chunks = (pre ++ [c]) ++ [t] := by simp [hL]
  obtain ⟨hptr, hptr'⟩ := hs.ptr hcm
  have htop := (hs.top_eq htm ht).1
  have hnext : c.next = h.top.1 := by
    rw [htop]
    exact (tiles_mid.mp (hs.tiles_of hL)).2.1.symm
  -- the call, once the heap is large enough
  have hfinish : ∀ d s₁, Rep s₁ (h.extend d) → Frame (InUse h.chunks) s s₁ → 8 ∣ d →
      h.brk + d ≤ h.limit → d = h.shortage ext c r →
      r + SMALLEST_CHUNK ≤ c.size + (t.size + d) + 8 → Returns (do
        setBin END_OF_HEAP_BIN NULL
        store .currentSize c.addr
          (c.size + (t.size + d) + 8 ||| (← isPreviousInuse c.addr) ||| CURRENT_CHUNK_INUSE)
        let splittedChunk ← splitMallocdChunk c.addr r
        setPreviousInuse splittedChunk
        setBin END_OF_HEAP_BIN splittedChunk
        return chunkToUserPointer c.addr) s₁ (Relocated h c r s (growTop ext c r h)) :=
      fun d s₁ hr₁ hf₁ hd8 hroom hdd hfit => by
    have hgrow : growTop ext c r h = some (c.addr, { h.extend d with
        chunks := trim c.addr r .top (fuse c.addr .inuse (h.extend d).chunks) }) := by
      rw [growTop, if_pos ⟨hnext, hdd ▸ hroom⟩, hdd]
    have hrep := (growTop_spec hi hx hq hL hc hgrow).2
    obtain ⟨hs₁, pre', t', -, -, hL₁, hchunks⟩ := hs.extend hd8 hroom
    obtain ⟨rfl, h2⟩ := List.append_inj' (hL'.symm.trans hL₁) rfl
    obtain rfl : t = t' := by simpa using h2
    have hL₂ : (h.extend d).chunks = pre ++ [c, { t with size := t.size + d }] := by
      rw [hchunks, List.append_assoc]
      rfl
    rw [hgrow]
    refine (retop_run (t := { t with size := t.size + d }) hr₁ hs₁ hL₂ hc ht hq hfit).mono
      fun p s' hpost => ?_
    obtain ⟨hp, hm', hk⟩ := hpost
    rw [hp]
    refine relocated_of hm' hrep hk (hf₁.keeps.mono Set.sdiff_subset) fun i h1 h2 => ?_
    exact hf₁.keeps c.slot (mem_usedSlots.mpr ⟨c, hcm, hc, rfl⟩) _
      (by simp only [Chunk.slot]; omega) (by simp only [Chunk.slot]; omega)
  have hr32 : add64 r SMALLEST_CHUNK = r + SMALLEST_CHUNK := by
    refine add64_of_lt ?_
    simp only [SMALLEST_CHUNK, SMALLEST_MALLOC]
    omega
  have hshort : h.shortage ext c r = if c.size + t.size + 8 < r + SMALLEST_CHUNK
      then r + SMALLEST_CHUNK + ext - (c.size + t.size + 8) else 0 := by
    rw [shortage, htop]
    rfl
  unfold reallocChunkAfterExtendHeap
  rw [hptr]
  refine Returns.bind_of_eq (hm.nextHeapChunk hs hL) ?_
  refine Returns.bind_of_eq (hm.combinedSizes hs hL) ?_
  rw [hr32]
  by_cases hlt : c.size + t.size + 8 < r + SMALLEST_CHUNK
  · rw [if_pos hlt] at hshort ⊢
    have hlt' : c.size + t.size + 8 < r + 32 := hlt
    have hd8 : 8 ∣ r + SMALLEST_CHUNK + ext - (c.size + t.size + 8) := by
      have h1 := (hs.fits hcm).aligned
      have h2 := (hs.fits htm).aligned
      have h3 := hq.aligned
      have h4 := hx.aligned
      have h5 : SMALLEST_CHUNK = 32 := rfl
      omega
    obtain ⟨d, hd⟩ : ∃ d, d = r + SMALLEST_CHUNK + ext - (c.size + t.size + 8) := ⟨_, rfl⟩
    have hd' : d = r + 32 + ext - (c.size + t.size + 8) := hd
    have hdiff : sub64 (add64 (r + SMALLEST_CHUNK) ext) (c.size + t.size + 8) = d := by
      have h1 : add64 (r + SMALLEST_CHUNK) ext = r + 32 + ext := by
        refine add64_of_lt ?_
        simp only [SMALLEST_CHUNK, SMALLEST_MALLOC]
        omega
      rw [h1, hd']
      exact sub64_of_le (by omega) (by omega)
    have hsum : add64 (c.size + t.size + 8) d = c.size + (t.size + d) + 8 := by
      have h1 : add64 (c.size + t.size + 8) d = c.size + t.size + 8 + d := add64_of_lt (by omega)
      rw [h1]
      omega
    rw [← hd] at hd8 hshort
    rw [hdiff]
    refine hm.toRep.extend_run hs hL' ht hd8 (by omega) (fun hroom s₁ hr₁ hf₁ => ?_) fun hroom => ?_
    · rw [hsum]
      exact hfinish d s₁ hr₁ hf₁ hd8 hroom hshort.symm (by
        have h5 : SMALLEST_CHUNK = 32 := rfl
        omega)
    · have hgrow : growTop ext c r h = none := by
        rw [growTop, if_neg fun h' => hroom (hshort ▸ h'.2)]
      rw [hgrow]
      exact .pure ⟨rfl, rfl⟩
  · rw [if_neg hlt] at hshort ⊢
    have hfin := hfinish 0 s (by rw [Heap.extend_zero]; exact hm.toRep) (.refl _ _) (by simp)
      (by have := hs.arena.brk_le; omega) hshort.symm (by simpa using hlt)
    exact hfin

/-! ### Moving -/

theorem defaultRealloc_spec (hm : Models s h) (hi : Inv full ext h) (hx : Extension ext)
    (hq : Request r) (hbound : r + 32 + ext < 2 ^ 31) (hL : h.chunks = pre ++ c :: post)
    (hc : c.status = .inuse) (hlt : c.size < r) : Returns (defaultRealloc ext (c.addr + 16) r) s
      (Relocated h c r s (moveOut ext c r h)) := by
  have hs := hi.shape
  have hcm : c ∈ h.chunks := Shape.mem_chunks hL
  have hptr := (hs.ptr hcm).1
  have hround : requestSize r = r := requestSize_of_request hq (by omega)
  have hr0 : r ≠ 0 := by
    have := hq.least
    omega
  have hmal := myMalloc_spec r hm hi hx (hround.symm ▸ hbound)
  rw [hround, if_neg hr0] at hmal
  unfold defaultRealloc
  rw [hptr]
  refine Returns.bind_of_eq (chunkSize_apply s _) ?_
  rw [(hs.fits hcm).chunkSize (hm.headers c hcm).word, if_neg hlt.ne]
  refine hmal.bind_of fun p s₁ hans => ?_
  cases hmalloc : h.malloc ext r with
  | none =>
    rw [hmalloc] at hans
    obtain ⟨rfl, rfl⟩ := hans
    have hmove : moveOut ext c r h = none := by simp [moveOut, hmalloc]
    rw [hmove, if_pos rfl]
    exact .pure ⟨rfl, rfl⟩
  | some out =>
    obtain ⟨a, h₁⟩ := out
    rw [hmalloc] at hans
    obtain ⟨rfl, hm₁, hk₁⟩ := hans
    have hmove : moveOut ext c r h = some (a, h₁.free c.addr) := by simp [moveOut, hmalloc]
    have hrep := (moveOut_spec hi hx hq hL hc hmove).2
    obtain ⟨j, -, n, hn, hused⟩ := malloc_spec hi hx hq hmalloc
    have hp0 : a + 16 ≠ NULL := Nat.succ_ne_zero _
    rw [hmove, if_neg hp0, if_neg (not_lt.mpr hlt.le)]
    -- the two blocks
    have hcU : c.slot ∈ h.used := mem_usedSlots.mpr ⟨c, hcm, hc, rfl⟩
    have hmem : c.slot ∈ h₁.used := hused ▸ Multiset.mem_cons_of_mem hcU
    obtain ⟨c', hc', hst', hslot⟩ := mem_usedSlots.mp hmem
    have haddr : c'.addr = c.addr := congrArg Prod.fst hslot
    have hmem' : (a, n) ∈ h₁.used := hused ▸ Multiset.mem_cons_self _ _
    obtain ⟨b, hb, hbst, hbslot⟩ := mem_usedSlots.mp hmem'
    have hba : b.addr = a := congrArg Prod.fst hbslot
    have hbn : b.size = n := congrArg Prod.snd hbslot
    have hnd : (a, n) ∉ h.used := by
      have h1 := j.shape.tiles.nodup_usedSlots
      have h2 : usedSlots h₁.chunks = (a, n) ::ₘ h.used := hused
      rw [h2, Multiset.nodup_cons] at h1
      exact h1.1
    -- the copy
    obtain ⟨s₂, hs₂⟩ : ∃ s₂, s₂ = { s₁ with mem := s₁.mem.move (a + 16) (c.addr + 16) c.size } :=
      ⟨_, rfl⟩
    have hw : Within (b.addr + 16) (b.next + 8) s₁ s₂ := by
      rw [hs₂]
      refine ⟨fun x hx => ByteMem.move_of_notMem ?_, fun _ => rfl, rfl, rfl, rfl⟩
      simp only [Chunk.next] at hx
      omega
    refine Returns.bind_of_eq (change_apply s₁ _) ?_
    rw [← hs₂]
    have hm₂ := hm₁.write j.shape hb hbst hw
    have hfree := myFree_spec hm₂ j hc' hst'
    rw [haddr] at hfree
    refine hfree.bind_of fun _ s' hpost => ?_
    obtain ⟨hm', hk'⟩ := hpost
    refine .pure ?_
    refine relocated_of hm' hrep hk' ((hk₁.mono Set.sdiff_subset).trans (hw.keeps fun e he => ?_))
      fun i h1 h2 => ?_
    · have he1 : e ∈ h₁.used := hused ▸ Multiset.mem_cons_of_mem he.1
      obtain ⟨x, hx, -, rfl⟩ := mem_usedSlots.mp he1
      have hne : x ≠ b := by
        rintro rfl
        exact hnd (hbslot ▸ he.1)
      have := (j.shape.tiles.apart hx hb).resolve_left hne
      simp only [Chunk.slot, Chunk.next] at *
      omega
    · have hsrc : c.addr + 16 + (a + 16 + i - (a + 16)) = c.addr + 16 + i := by omega
      rw [hs₂]
      show s₁.mem.move (a + 16) (c.addr + 16) c.size _ = _
      rw [ByteMem.move_of_mem (by omega) (by omega), hsrc]
      exact hk₁ c.slot hcU _ (by simp only [Chunk.slot]; omega) (by simp only [Chunk.slot]; omega)

/-! ### Shrinking -/

/-- The merge and the choice of a bin, as `realloc_chunk_is_smaller` writes them. -/
theorem Heap.Loosened.settle_run' (hl : Loosened full ext h pre f d post) (hm : Models s h)
    {a : Addr} {Q : Addr → State → Prop}
    (hq : ∀ s', Models s' (settle f.slot h) → Keeps (InUse h.chunks) s s' → Q a s') :
    Returns (do
      let mut splittedChunk := f.addr
      let mut wasEndOfHeap := false
      if ← Dlmalloc.canCombineNext splittedChunk then
        let nextChunk ← Dlmalloc.nextHeapChunk splittedChunk
        wasEndOfHeap ← Dlmalloc.isEndOfHeap nextChunk
        unless ← Dlmalloc.isEndOfHeap nextChunk do
          Dlmalloc.removeChunkOrVictim nextChunk
        splittedChunk ← Dlmalloc.combineChunks splittedChunk nextChunk
      if !wasEndOfHeap then
        let _ ← insertChunk splittedChunk
      else
        setBin END_OF_HEAP_BIN splittedChunk
      return a) s Q := by
  have hs := hl.shape
  have hcan := hm.canCombineNext hs hl.chunks
  have hend := hm.isEndOfHeap hs hl.next_mem
  rw [settle, hl.chunkAt_next] at hq
  cases hd : d.status with
  -- nothing to merge with: the chunk goes to its bin
  | inuse =>
    rw [hd] at hcan
    simp only [hd] at hq
    refine Returns.bind_of_eq hcan ?_
    rw [if_neg (by simp)]
    refine (hm.insertChunk_spec hs).bind_of fun _ s' hpost => ?_
    obtain ⟨hm', hk⟩ := hpost
    exact .pure (hq s' hm' hk)
  -- the free chunk behind leaves its bin, and the merged one goes to its own
  | free =>
    rw [hd] at hcan hend
    simp only [hd] at hq
    refine Returns.bind_of_eq hcan ?_
    rw [if_pos (by simp)]
    refine Returns.bind_of_eq (hm.nextHeapChunk hs hl.chunks) ?_
    refine Returns.bind_of_eq hend ?_
    refine Returns.bind_of_eq hend ?_
    rw [if_neg (by simp)]
    refine (hl.removeNext hm hd).bind_of fun _ s₁ hpost => ?_
    obtain ⟨hm₁, hk₁⟩ := hpost
    refine (hm₁.combineChunks_spec (hl.removed hd) hl.chunks le_rfl hl.free hd).bind_of
      fun a s₂ hpost => ?_
    obtain ⟨ha, hm₂, hk₂⟩ := hpost
    rw [ha]
    refine (hm₂.insertChunk_spec (e := (fused f d .free).slot) (hl.merge_next hd).2).bind_of
      fun _ s' hpost => ?_
    obtain ⟨hm', hk⟩ := hpost
    refine .pure (hq s' hm' ((hk₁.trans hk₂).trans ?_))
    rw [← inUse_fuse hs hl.chunks (τ := .free) (by simp [hl.free]) (by simp [hd]) (by simp)]
    exact hk
  -- the merged chunk is the new end of the heap and goes to no bin
  | top =>
    rw [hd] at hcan hend
    simp only [hd] at hq
    refine Returns.bind_of_eq hcan ?_
    rw [if_pos (by simp)]
    refine Returns.bind_of_eq (hm.nextHeapChunk hs hl.chunks) ?_
    refine Returns.bind_of_eq hend ?_
    refine Returns.bind_of_eq hend ?_
    rw [if_pos (by simp)]
    refine (hl.combineTop hm hd).bind_of fun a s₁ hpost => ?_
    obtain ⟨ha, hm₁, hk₁⟩ := hpost
    rw [ha]
    exact Returns.bind_of_eq (setBin_apply s₁ _ _ endOfHeapBin_lt) (.pure (hq _ hm₁ hk₁))

theorem reallocChunkIsSmaller_spec (hm : Models s h) (hi : Inv full ext h) (hq : Request r)
    (hsmall : r < 2 ^ 32) (hL : h.chunks = pre ++ c :: post) (hc : c.status = .inuse)
    (hle : r ≤ c.size) : Returns (reallocChunkIsSmaller (c.addr + 16) r) s
      (Relocated h c r s (some (c.addr, h.shrink c r))) := by
  have hs := hi.shape
  have hcm : c ∈ h.chunks := Shape.mem_chunks hL
  obtain ⟨hptr, hptr'⟩ := hs.ptr hcm
  have hrep := (shrink_spec hi hq hL hc hle).2
  have hcU : c.slot ∈ InUse h.chunks := mem_usedSlots.mpr ⟨c, hcm, hc, rfl⟩
  unfold reallocChunkIsSmaller
  rw [hptr]
  refine Returns.bind_of_eq (hs.canSplit hm.toRep hcm hsmall) ?_
  unfold shrink at hrep ⊢
  -- the code splits only where the rest can be a chunk
  by_cases hfit : r + SMALLEST_CHUNK ≤ c.size
  · rw [if_pos hfit] at hrep ⊢
    rw [if_pos (by simpa using hfit)]
    obtain ⟨d, post', rfl, -⟩ := hs.exists_next hL (by simp [hc])
    refine (hm.splitMallocdChunk_spec hs hL hc hq hfit).bind_of fun a s₁ hpost => ?_
    obtain ⟨ha, hm₁, hk₁⟩ := hpost
    rw [ha]
    have hl := hi.loosened_trim hq hL hc hfit
    refine hl.settle_run' hm₁ fun s' hm' hk' => ?_
    have hU : InUse (settle (offcut c r).slot
        { h with chunks := trim c.addr r .free h.chunks }).chunks =
          InUse (trim c.addr r .free h.chunks) := by
      show {e | e ∈ (settle (offcut c r).slot _).used} = _
      rw [hl.settle_spec.2.1]
      rfl
    rw [hptr']
    exact relocated_of hm' hrep (hU ▸ hk₁.trans hk') (.refl _ _) fun _ _ _ => rfl
  · rw [if_neg hfit] at hrep ⊢
    rw [if_neg (by simpa using hfit), hptr']
    exact .pure (relocated_of hm hrep (.refl _ _) (.refl _ _) fun _ _ _ => rfl)

/-! ### The whole call -/

/-- One way to grow is tried, and the next ones if it returns `NULL`. -/
theorem attempt_run {v : Bool} {x : M Addr} {k : Addr → M Addr} {o o' : Option (ℕ × Heap)}
    (hx : v = true → Returns x s (Relocated h c r s o)) (hno : v = false → o = none)
    (hk : o = none → Returns (k NULL) s (Relocated h c r s o')) :
    Returns (do
      if v then
        let p ← x
        if p ≠ NULL then return p else k p
      else if NULL ≠ NULL then return NULL else k NULL) s (Relocated h c r s (o.or o')) := by
  cases v with
  -- the attempt is not made
  | false =>
    rw [if_neg (by simp), if_neg (by simp), hno rfl]
    exact hk (hno rfl)
  -- the attempt is made: its answer counts unless it is `NULL`
  | true =>
    rw [if_pos rfl]
    refine (hx rfl).bind_of fun p s' hp => ?_
    cases o with
    | none =>
      obtain ⟨rfl, rfl⟩ := hp
      rw [if_neg (by simp)]
      exact hk rfl
    | some out =>
      have hp0 : p ≠ NULL := by
        rw [hp.1]
        exact Nat.succ_ne_zero _
      rw [if_pos hp0]
      exact .pure hp

theorem reallocChunkIsLarger_spec (hm : Models s h) (hi : Inv full ext h) (hx : Extension ext)
    (hq : Request r) (hbound : r + 32 + ext < 2 ^ 31) (hL : h.chunks = pre ++ c :: d :: post)
    (hc : c.status = .inuse) (hlt : c.size < r) :
    Returns (reallocChunkIsLarger ext (c.addr + 16) r) s (Relocated h c r s
      ((h.growAfter c r).or <| (h.growAround c r).or <| (h.growBefore c r).or <|
        (h.growTop ext c r).or <| h.moveOut ext c r)) := by
  have hs := hi.shape
  have hcm : c ∈ h.chunks := Shape.mem_chunks hL
  have hdm : d ∈ h.chunks := by simp [hL]
  have hptr := (hs.ptr hcm).1
  have hat := (hs.chunkAt_next hL).1
  have hcan := hm.canCombineNext hs hL
  have hprev := hm.canCombinePrevious hs hcm
  have hnext := hm.nextHeapChunk hs hL
  have hend := hm.isEndOfHeap hs hdm
  unfold reallocChunkIsLarger
  rw [hptr]
  refine Returns.bind_of_eq hcan ?_
  -- over the chunk behind
  refine attempt_run (k := fun result => _) (fun hv => ?_) (fun hv => ?_) fun hafter => ?_
  · exact reallocChunkAndAfter_spec hm hi hq (by omega) hL hc (by simpa using hv)
  · have hd : d.status = .inuse := by simpa using hv
    simp [growAfter, hat, hd]
  refine Returns.bind_of_eq hprev ?_
  refine Returns.bind_of_eq hcan ?_
  -- over the two neighbours
  refine attempt_run (k := fun result => _) (fun hv => ?_) (fun hv => ?_) fun haround => ?_
  · have hv' : c.pinuse = false ∧ d.status ≠ .inuse := by simpa using hv
    obtain ⟨pre', p, rfl, hfree⟩ := exists_of_lastFree ((hi.tags_around hL).2.1 hv'.1)
    have hL1 : h.chunks = pre' ++ p :: c :: d :: post := by rw [hL, List.append_assoc]; rfl
    exact reallocChunkBeforeAndAfter_spec hm hi hq (by omega) hL1 hfree hc hv'.1 hv'.2
  · have hv' : c.pinuse = false → d.status = .inuse := by simpa using hv
    unfold growAround
    split_ifs with hp
    · rfl
    · have hd := hv' (by simpa using hp)
      cases hb : chunkBefore h.chunks c.addr <;> simp [hat, hd]
  refine Returns.bind_of_eq hprev ?_
  refine Returns.bind_of_eq hnext ?_
  refine Returns.bind_of_eq hend ?_
  -- over the chunk before
  refine attempt_run (k := fun result => _) (fun hv => ?_) (fun hv => ?_) fun hbefore => ?_
  · have hv' : c.pinuse = false ∧ d.status ≠ .top := by simpa using hv
    obtain ⟨pre', p, rfl, hfree⟩ := exists_of_lastFree ((hi.tags_around hL).2.1 hv'.1)
    have hL1 : h.chunks = pre' ++ p :: c :: d :: post := by rw [hL, List.append_assoc]; rfl
    exact reallocChunkAndBefore_spec hm hi hq (by omega) hL1 hfree hc hv'.1 hv'.2 haround
  · have hv' : c.pinuse = false → d.status = .top := by simpa using hv
    unfold growBefore
    split_ifs with hp
    · rfl
    · have hd := hv' (by simpa using hp)
      cases hb : chunkBefore h.chunks c.addr <;> simp [hat, hd]
  refine Returns.bind_of_eq hcan ?_
  refine Returns.bind_of_eq hnext ?_
  refine Returns.bind_of_eq hend ?_
  -- over the end of the heap
  refine attempt_run (k := fun result => _) (fun hv => ?_) (fun hv => ?_) fun htop => ?_
  · have hv' : d.status = .top := by
      have h1 : d.status ≠ .inuse ∧ d.status = .top := by simpa using hv
      exact h1.2
    have hpost : post = [] := by
      have h1 := hs.topLast
      rw [hL, ← List.singleton_append, ← List.append_assoc] at h1
      exact h1.post_eq_nil hv'
    exact reallocChunkAfterExtendHeap_spec hm hi hx hq hbound (hpost ▸ hL) hc hv'
  · have hv' : d.status ≠ .top := fun h' => by simp [h'] at hv
    rw [growTop, if_neg]
    rintro ⟨hnext', -⟩
    obtain ⟨pre', t, hLt, ht, htop', -⟩ := hs.exists_top
    have hdt : d = t := hs.tiles.eq_of_addr_eq hdm (by simp [hLt]) (by
      rw [(hs.chunkAt_next hL).2, hnext', htop']
      rfl)
    exact hv' (hdt ▸ ht)
  -- to a new place
  exact defaultRealloc_spec hm hi hx hq hbound hL hc hlt

/-- **Reallocation** of the block in the chunk `c`. -/
theorem myRealloc_spec (size : ℕ) (hm : Models s h) (hi : Inv full ext h) (hx : Extension ext)
    (hbound : requestSize size + 32 + ext < 2 ^ 31) (hc : c ∈ h.chunks) (hst : c.status = .inuse) :
    Returns (myRealloc ext (c.addr + 16) size) s
      (Relocated h c (requestSize size) s (h.realloc ext c.addr (requestSize size))) := by
  have hs := hi.shape
  have hq := request_requestSize size
  obtain ⟨pre, post, hL⟩ := List.append_of_mem hc
  obtain ⟨d, post', rfl, -⟩ := hs.exists_next hL (by simp [hst])
  unfold myRealloc Heap.realloc
  rw [hs.chunkAt hc, (hs.ptr hc).1]
  refine Returns.bind_of_eq (chunkSize_apply s _) ?_
  rw [(hs.fits hc).chunkSize (hm.headers c hc).word]
  by_cases hle : requestSize size ≤ c.size
  · simp only [if_pos hle]
    exact reallocChunkIsSmaller_spec hm hi hq (by omega) hL hst hle
  · simp only [if_neg hle]
    exact reallocChunkIsLarger_spec hm hi hx hq hbound hL hst (not_le.mp hle)

end Realloc

end Dlmalloc
