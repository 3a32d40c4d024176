import Dlmalloc.Abstract.Realloc
import Dlmalloc.Refine.Rep

/-!
# The steps on chunks

What the functions that split and merge chunks do to the row in memory: `split_chunk` is `carve`,
`split_mallocd_chunk` is `trim`, `combine_chunks` is `fuse`, and the start of `my_free` is
`Heap.release`.
-/

namespace Dlmalloc

open Heap

section Steps

variable {ext r : ℕ} {X : Multiset Slot} {h : Heap} {s s' : State} {c d : Chunk} {e : Slot}
  {pre C D post : List Chunk}

/-- The header word of a free chunk that was written as its size and a tag. -/
theorem or_previous {a n : ℕ} {τ : Status} {b : Bool} (hn : 8 ∣ n) (hst : τ ≠ .inuse) :
    n ||| (if b then PREVIOUS_CHUNK_INUSE else 0) = (⟨a, n, τ, b⟩ : Chunk).word := by
  have h1 := LowBits.add_or (w := 3) (k := n) (b := 0)
    (c := if b then PREVIOUS_CHUNK_INUSE else 0) hn (by decide) (by cases b <;> decide)
  rw [Nat.add_zero] at h1
  rw [h1, Chunk.word, Chunk.flags, if_neg hst]
  cases b <;> rfl

/-- The header word of a chunk in use that was written as its size, a tag and the in-use bit. -/
theorem or_inuse {a n : ℕ} {b : Bool} (hn : 8 ∣ n) :
    n ||| (if b then PREVIOUS_CHUNK_INUSE else 0) ||| CURRENT_CHUNK_INUSE =
      (⟨a, n, .inuse, b⟩ : Chunk).word := by
  rw [or_previous (a := a) (τ := .free) hn (by simp), Chunk.word_or_current hn]

/-! ### Splitting -/

/-- `split_chunk` splits a free chunk or the end of the heap. -/
theorem splitChunk_spec (hr : Rep s h) (hs : Shape ext X h) (hL : h.chunks = pre ++ c :: post)
    (hst : c.status ≠ .inuse) (hX : freeSlots [c] ≤ X) (hr8 : 8 ∣ r) (h24 : 24 ≤ r)
    (hfit : r + 8 ≤ c.size) (hend : s.bin END_OF_HEAP_BIN ≠ c.addr + r + 8) :
    Returns (splitChunk c.addr r) s fun a s' => a = c.addr + r + 8 ∧
      Rep s' { h with chunks := carve c.addr r h.chunks } ∧ Frame (InUse h.chunks) s s' := by
  have hc : c ∈ h.chunks := Shape.mem_chunks hL
  have hfit_c := hs.fits hc
  have hword := (hr.headers c hc).word
  have hbelow := hfit_c.below
  have h8 := hfit_c.aligned
  simp only [Chunk.next] at hbelow
  -- the two pieces
  obtain ⟨c', hc'⟩ : ∃ c' : Chunk, c' = ⟨c.addr, r, .free, c.pinuse⟩ := ⟨_, rfl⟩
  have hfit' : Fits c' := ⟨by rw [hc']; exact hr8, by simp only [hc', Chunk.next]; omega⟩
  have hfitr : Fits (remainder c r) := by
    refine ⟨?_, ?_⟩
    · simp only [remainder]
      omega
    · simp only [remainder, Chunk.next]
      omega
  have hrem : (remainder c r).word = c.size - r - 8 := by
    simp [Chunk.word, Chunk.flags, remainder, hst]
  have hremnext : (remainder c r).next = c.next := by
    simp only [remainder, Chunk.next]
    omega
  have hleft : sub64 (sub64 c.size r) 8 = c.size - r - 8 := by
    have h1 : sub64 c.size r = c.size - r := sub64_of_le (by omega) (by omega)
    rw [h1, sub64_of_le (by omega) (by omega)]
  have hrest : (remainder c r).size = c.size - r - 8 := rfl
  have hraddr : (remainder c r).addr = c.addr + r + 8 := rfl
  have hcaddr : c'.addr = c.addr := by rw [hc']
  have hcnext : c'.next = c.addr + r + 8 := by rw [hc']; rfl
  -- the stores
  set s₁ := s.store .currentSize c.addr c'.word with hs₁
  set s₃ := (s₁.store .previousSize (c.addr + r + 8) r).store .currentSize (c.addr + r + 8)
    (c.size - r - 8) with hs₃
  set s₄ := s₃.store .previousSize c.next (c.size - r - 8) with hs₄
  have hw1 : s₁.load .currentSize c'.addr = c'.word := by
    rw [hs₁, hcaddr, load_store_currentSize hfit'.word_lt]
  have hw3 : s₃.load .currentSize (remainder c r).addr = (remainder c r).word := by
    rw [hs₃, hraddr, hrem, load_store_currentSize (by omega)]
  have hrun : splitChunk c.addr r s = some (c.addr + r + 8, s₄) := by
    have e1 := hfit_c.chunkSize hword
    have e2 : r ||| s.isPreviousInuse c.addr = c'.word := by
      rw [hfit_c.isPreviousInuse hword, hc']
      exact or_previous hr8 (by simp)
    have e3 : s₁.nextHeapChunk c.addr = c.addr + r + 8 := by
      have h1 := hfit'.nextHeapChunk hw1
      rwa [hcaddr, hcnext] at h1
    have e4 : s₃.nextHeapChunk (c.addr + r + 8) = c.next := by
      rw [← hraddr, hfitr.nextHeapChunk hw3, hremnext]
    simp [splitChunk, e1, e2, ← hs₁, e3, hleft, ← hs₃, e4, hend.symm, ← hs₄]
  have hw : Within (c.addr + 8) (c.next + 8) s s₄ := by
    refine ((((Within.refl _ _ s).store ?_ ?_).store ?_ ?_).store ?_ ?_).store ?_ ?_ <;>
      simp only [Field.offset, Field.width, Chunk.next] <;> omega
  have hnew : Headers s₄ [c', remainder c r] := by
    have hcw : s₄.load .currentSize c.addr = c'.word := by
      rw [hs₄, State.load_store_of_disjoint, hs₃, State.load_store_of_disjoint,
        State.load_store_of_disjoint, ← hcaddr, hw1]
      all_goals
        simp only [Field.offset, Field.width, Chunk.next]
        omega
    have hcf : s₄.load .previousSize (c.addr + r + 8) = r := by
      rw [hs₄, State.load_store_of_disjoint, hs₃, State.load_store_of_ne (by simp),
        load_store_previousSize (by omega)]
      simp only [Field.offset, Field.width, Chunk.next]
      omega
    have hrw : s₄.load .currentSize (c.addr + r + 8) = c.size - r - 8 := by
      rw [← hraddr, ← hrem, ← hw3, hs₄]
      by_cases hzero : c.size = r + 8
      · -- an empty end of the heap: its footer lies on its header
        have hnext : c.next = c.addr + r + 8 + 8 := by
          simp only [Chunk.next]
          omega
        have hsame : s₄.load .previousSize (c.addr + r + 8 + 8) = c.size - r - 8 := by
          rw [hs₄, hnext, load_store_previousSize (by omega)]
        rw [hw3, hrem, ← hs₄, hraddr, State.load_currentSize_eq, hsame]
        rw [hsame]
        exact (show c.size - r - 8 < 2 ^ 64 by omega)
      · refine State.load_store_of_disjoint ?_
        simp only [Field.offset, Field.width, Chunk.next, hraddr]
        omega
    intro x hx
    rcases List.mem_pair.mp hx with rfl | rfl
    · exact ⟨by rw [hcaddr, hcw], fun _ => by rw [hcnext, hcf, hc']⟩
    · refine ⟨by rw [hraddr, hrem, hrw], fun _ => ?_⟩
      rw [hremnext, hrest, hs₄, load_store_previousSize (by omega)]
  refine .intro hrun ⟨rfl, ?_, hw.keeps fun e he => ?_, rfl⟩
  · have hedit := hr.edit (C := [c]) (D := [c', remainder c r]) (i := c.addr)
      (j := c.next) hs (by simpa using hL) (by simp) hX ⟨rfl, rfl⟩ hw hnew
    rw [hs.carve_chunks hL, ← hc']
    simpa using hedit
  · obtain ⟨x, hx, hxst, rfl⟩ := mem_usedSlots.mp he
    have hne : x ≠ c := by
      rintro rfl
      exact hst hxst
    rcases hs.tiles.apart hx hc with h' | h' | h'
    · exact absurd h' hne
    all_goals
      simp only [Chunk.slot, Chunk.next] at *
      omega

/-- `split_mallocd_chunk` on a header in use: the two headers it leaves, and all that it writes. -/
theorem splitMallocdChunk_run {τ : Status} (hword : s.load .currentSize c.addr = c.word)
    (hfit_c : Fits c) (hst' : τ ≠ .inuse) (hr8 : 8 ∣ r) (hfit : r + 32 ≤ c.size)
    (hend : s.bin END_OF_HEAP_BIN ≠ c.addr + r + 8) :
    Returns (splitMallocdChunk c.addr r) s fun a s' => a = c.addr + r + 8 ∧
      Within (c.addr + 8) (c.next + 8) s s' ∧
      Headers s' [⟨c.addr, r, .inuse, c.pinuse⟩, ⟨c.addr + r + 8, c.size - r - 8, τ, true⟩] ∧
      ∀ x, c.addr + 16 ≤ x → x < c.addr + r + 16 → s'.mem x = s.mem x := by
  have hbelow := hfit_c.below
  have h8 := hfit_c.aligned
  simp only [Chunk.next] at hbelow
  -- the two pieces
  obtain ⟨c', hc'⟩ : ∃ c' : Chunk, c' = ⟨c.addr, r, .inuse, c.pinuse⟩ := ⟨_, rfl⟩
  obtain ⟨d, hd⟩ : ∃ d : Chunk, d = ⟨c.addr + r + 8, c.size - r - 8, τ, true⟩ := ⟨_, rfl⟩
  have hfit' : Fits c' := ⟨by rw [hc']; exact hr8, by simp only [hc', Chunk.next]; omega⟩
  have hfitd : Fits d := ⟨by simp only [hd]; omega, by simp only [hd, Chunk.next]; omega⟩
  have hdnext : d.next = c.next := by
    simp only [hd, Chunk.next]
    omega
  have hleft : sub64 (sub64 c.size r) 8 = c.size - r - 8 := by
    have h1 : sub64 c.size r = c.size - r := sub64_of_le (by omega) (by omega)
    rw [h1, sub64_of_le (by omega) (by omega)]
  have hdaddr : d.addr = c.addr + r + 8 := by rw [hd]
  have hdsize : d.size = c.size - r - 8 := by rw [hd]
  have hcaddr : c'.addr = c.addr := by rw [hc']
  have hcnext : c'.next = c.addr + r + 8 := by rw [hc']; rfl
  have hdword : c.size - r - 8 ||| PREVIOUS_CHUNK_INUSE = d.word := by
    have h1 := or_previous (a := c.addr + r + 8) (τ := τ) (b := true) (hdsize ▸ hfitd.aligned) hst'
    rwa [if_pos rfl, ← hd] at h1
  -- the stores
  set s₁ := s.store .currentSize c.addr c'.word with hs₁
  set s₂ := s₁.store .currentSize (c.addr + r + 8) (c.size - r - 8) with hs₂
  set s₃ := s₂.store .currentSize (c.addr + r + 8) d.word with hs₃
  set s₄ := s₃.store .previousSize c.next (c.size - r - 8) with hs₄
  have hw1 : s₁.load .currentSize c'.addr = c'.word := by
    rw [hs₁, hcaddr, load_store_currentSize hfit'.word_lt]
  have hw3 : s₃.load .currentSize d.addr = d.word := by
    rw [hs₃, hdaddr, load_store_currentSize hfitd.word_lt]
  have hrun : splitMallocdChunk c.addr r s = some (c.addr + r + 8, s₄) := by
    have e1 := hfit_c.chunkSize hword
    have e2 : r ||| s.isPreviousInuse c.addr ||| CURRENT_CHUNK_INUSE = c'.word := by
      rw [hfit_c.isPreviousInuse hword, hc']
      exact or_inuse hr8
    have e3 : s₁.nextHeapChunk c.addr = c.addr + r + 8 := by
      have h1 := hfit'.nextHeapChunk hw1
      rwa [hcaddr, hcnext] at h1
    have e4 : s₂.load .currentSize (c.addr + r + 8) = c.size - r - 8 := by
      rw [hs₂, load_store_currentSize (by omega)]
    have e5 : s₃.nextHeapChunk (c.addr + r + 8) = c.next := by
      rw [← hdaddr, hfitd.nextHeapChunk hw3, hdnext]
    simp [splitMallocdChunk, e1, e2, ← hs₁, e3, hleft, ← hs₂, e4, hdword, ← hs₃, e5, hend.symm,
      ← hs₄]
  have hw : Within (c.addr + 8) (c.next + 8) s s₄ := by
    refine ((((Within.refl _ _ s).store ?_ ?_).store ?_ ?_).store ?_ ?_).store ?_ ?_ <;>
      simp only [Field.offset, Field.width, Chunk.next] <;> omega
  have hnew : Headers s₄ [c', d] := by
    have hcw : s₄.load .currentSize c.addr = c'.word := by
      rw [hs₄, State.load_store_of_disjoint, hs₃, State.load_store_of_disjoint, hs₂,
        State.load_store_of_disjoint, ← hcaddr, hw1]
      all_goals
        simp only [Field.offset, Field.width, Chunk.next]
        omega
    have hdw : s₄.load .currentSize d.addr = d.word := by
      rw [← hw3, hs₄]
      refine State.load_store_of_disjoint ?_
      simp only [Field.offset, Field.width, Chunk.next, hdaddr]
      omega
    intro x hx
    rcases List.mem_pair.mp hx with rfl | rfl
    · exact ⟨by rw [hcaddr, hcw], fun h' => by rw [hc'] at h'; cases h'⟩
    · exact ⟨hdw, fun _ => by rw [hdnext, hdsize, hs₄, load_store_previousSize (by omega)]⟩
  refine .intro hrun ⟨rfl, hw, hc' ▸ hd ▸ hnew, fun x h1 h2 => ?_⟩
  -- between the two headers nothing is written
  rw [hs₄, State.store_mem_of_notMem, hs₃, State.store_mem_of_notMem, hs₂,
    State.store_mem_of_notMem, hs₁, State.store_mem_of_notMem]
  all_goals
    simp only [Field.offset, Field.width, Chunk.next] at *
    omega

/-- `split_mallocd_chunk` cuts a chunk in use. -/
theorem splitMallocdChunk_spec {τ : Status} (hr : Rep s h) (hs : Shape ext X h)
    (hL : h.chunks = pre ++ c :: post) (hst : c.status = .inuse) (hst' : τ ≠ .inuse)
    (hr8 : 8 ∣ r) (hfit : r + 32 ≤ c.size) (hend : s.bin END_OF_HEAP_BIN ≠ c.addr + r + 8) :
    Returns (splitMallocdChunk c.addr r) s fun a s' => a = c.addr + r + 8 ∧
      Rep s' { h with chunks := trim c.addr r τ h.chunks } ∧
      Frame (InUse (trim c.addr r τ h.chunks)) s s' := by
  have hc : c ∈ h.chunks := Shape.mem_chunks hL
  refine (splitMallocdChunk_run (hr.headers c hc).word (hs.fits hc) hst' hr8 hfit hend).mono
    fun a s' hpost => ?_
  obtain ⟨ha, hw, hnew, hpayload⟩ := hpost
  refine ⟨ha, ?_, fun e he x hx1 hx2 => ?_, hw.bin _⟩
  · -- the row, as one edit
    have hedit := hr.edit (C := [c]) (i := c.addr) (j := c.next) hs (by simpa using hL)
      (by simp) (by simp [freeSlots_cons, hst]) ⟨rfl, rfl⟩ hw hnew
    rw [hs.trim_chunks hL, hst]
    simpa using hedit
  · rw [hs.trim_chunks hL] at he
    obtain ⟨x', hx', hxst, rfl⟩ := mem_usedSlots.mp he
    -- the bytes of the chunks in use, those of the shortened one included
    have haround := (hs.tiles_of hL).around
    simp only [List.mem_append, List.mem_cons] at hx'
    rcases hx' with hx' | rfl | rfl | hx'
    · refine hw.mem x ?_
      have := haround.1 x' hx'
      simp only [Chunk.slot, Chunk.next] at *
      omega
    · exact hpayload x hx1 hx2
    · exact absurd hxst hst'
    · refine hw.mem x ?_
      have := haround.2 x' hx'
      simp only [Chunk.slot, Chunk.next] at *
      omega

/-! ### Merging -/

/-- The header of a merged chunk in use, written over the first chunk of a segment. Before it,
memory may have changed in the segment. -/
theorem Rep.fuse_inuse {s₁ : State} {b : Chunk} {ms : List Chunk} {hi : ℕ} (hr : Rep s h)
    (hs : Shape ext X h) (hL : h.chunks = pre ++ c :: ms ++ post) (hX : freeSlots (c :: ms) ≤ X)
    (hm : Tiles c.addr (c :: ms) hi) (hw : Within (c.addr + 8) (hi + 8) s s₁)
    (hb : b.addr = c.addr) (hst : b.status = .inuse) (hfit : b.word < 2 ^ 64) :
    Rep (s₁.store .currentSize c.addr b.word) { h with chunks := pre ++ b :: post } := by
  have hlo := hm.bounds (List.mem_cons_self)
  have hw' : Within (c.addr + 8) (hi + 8) s (s₁.store .currentSize c.addr b.word) := by
    refine hw.store ?_ ?_ <;> simp only [Field.offset, Field.width, Chunk.next] at * <;> omega
  have hedit := hr.edit (C := c :: ms) (D := [b]) hs hL (by simp) hX hm hw' fun x hx => ?_
  · simpa using hedit
  · obtain rfl := List.mem_singleton.mp hx
    exact ⟨by rw [hb, load_store_currentSize hfit], fun h' => by rw [hst] at h'; cases h'⟩

/-- `COMBINED_SIZES` of two neighbours. -/
theorem Rep.combinedSizes (hr : Rep s h) (hs : Shape ext X h)
    (hL : h.chunks = pre ++ c :: d :: post) :
    add64 (add64 (s.chunkSize c.addr) (s.chunkSize d.addr)) 8 = c.size + d.size + 8 := by
  have hcm : c ∈ h.chunks := Shape.mem_chunks hL
  have hdm : d ∈ h.chunks := by simp [hL]
  have hdc : d.addr = c.next := (tiles_mid.mp (hs.tiles_of hL)).2.1
  have hbelow := (hs.fits hdm).below
  rw [(hs.fits hcm).chunkSize (hr.headers c hcm).word,
    (hs.fits hdm).chunkSize (hr.headers d hdm).word]
  simp only [Chunk.next] at hbelow hdc
  have h1 : add64 c.size d.size = c.size + d.size := add64_of_lt (by omega)
  rw [h1, add64_of_lt (by omega)]

/-- `combine_chunks` merges a free chunk with the free chunk, or the end of the heap, after it. -/
theorem combineChunks_spec (hr : Rep s h) (hs : Shape ext X h)
    (hL : h.chunks = pre ++ c :: d :: post) (hc : c.status = .free) (hd : d.status ≠ .inuse)
    (hX : freeSlots [c, d] ≤ X) (hend : s.bin END_OF_HEAP_BIN = h.top.1)
    (hv : s.bin VICTIM_BIN ≠ c.addr ∧ s.bin VICTIM_BIN ≠ d.addr) :
    Returns (combineChunks c.addr d.addr) s fun a s' => a = c.addr ∧
      Rep s' { h with chunks := fuse c.addr d.status h.chunks } ∧ Frame (InUse h.chunks) s s' := by
  have hcm : c ∈ h.chunks := Shape.mem_chunks hL
  have hdm : d ∈ h.chunks := by simp [hL]
  have hfit_c := hs.fits hcm
  have hfit_d := hs.fits hdm
  have hdc : d.addr = c.next := by
    have htl := hs.tiles_of hL
    rw [tiles_mid] at htl
    exact htl.2.1
  have hbelow := hfit_d.below
  have hcsz := (hs.sizes c hcm).least (by simp [hc])
  have h8 : 8 ∣ c.size + d.size + 8 := by
    have h1 := hfit_c.aligned
    have h2 := hfit_d.aligned
    omega
  obtain ⟨b, hb⟩ : ∃ b, b = fused c d d.status := ⟨_, rfl⟩
  have hbn : b.next = d.next := by
    simp only [hb, fused, Chunk.next] at *
    omega
  have hfit_b : Fits b := ⟨by rw [hb]; exact h8, by rw [hbn]; exact hbelow⟩
  have hcomb : add64 (add64 (s.chunkSize c.addr) (s.chunkSize d.addr)) 8 = c.size + d.size + 8 :=
    hr.combinedSizes hs hL
  have hbword : c.size + d.size + 8 ||| s.isPreviousInuse c.addr = b.word := by
    rw [hfit_c.isPreviousInuse (hr.headers c hcm).word, hb]
    exact or_previous h8 hd
  -- the footer is written unless the end of the heap was merged
  obtain ⟨s₁, hs₁⟩ : ∃ s₁, s₁ = if d.status = .top then s
      else s.store .previousSize d.next (c.size + d.size + 8) := ⟨_, rfl⟩
  have htop : d.addr = s.bin END_OF_HEAP_BIN ↔ d.status = .top := by
    rw [hend]
    constructor
    · intro h'
      obtain ⟨pre', t, hL', htop, ht1, -⟩ := hs.exists_top
      have htm : t ∈ h.chunks := by simp [hL']
      rw [ht1] at h'
      rw [hs.tiles.eq_of_addr_eq hdm htm h']
      exact htop
    · intro h'
      rw [(hs.top_eq hdm h').1]
      rfl
  have hw : Within (c.addr + 8) (d.next + 8) s s₁ := by
    rw [hs₁]
    split_ifs
    · exact Within.refl _ _ _
    · refine (Within.refl _ _ s).store ?_ ?_ <;>
        simp only [Field.offset, Field.width, Chunk.next] at * <;> omega
  have hp₁ : s₁.isPreviousInuse c.addr = s.isPreviousInuse c.addr := by
    rw [State.isPreviousInuse, State.isPreviousInuse, hs₁]
    split_ifs
    · rfl
    · rw [State.load_store_of_disjoint]
      simp only [Field.offset, Field.width, Chunk.next] at *
      omega
  have hrun : combineChunks c.addr d.addr s =
      some (c.addr, s₁.store .currentSize c.addr b.word) := by
    have hv₁ : s₁.bin VICTIM_BIN = s.bin VICTIM_BIN := hw.bin _
    have hnext := hfit_d.nextHeapChunk (hr.headers d hdm).word
    by_cases hdt : d.status = .top
    · rw [if_pos hdt] at hs₁
      subst hs₁
      simp [combineChunks, combinedSizes, hcomb, (htop.mpr hdt).symm, hbword, hv]
    · rw [if_neg hdt] at hs₁
      have hne : d.addr ≠ s.bin END_OF_HEAP_BIN := fun h' => hdt (htop.mp h')
      simp [combineChunks, combinedSizes, hcomb, hne, hnext, ← hs₁, hv, hp₁, hbword]
  have hb₁ : b.word < 2 ^ 64 := hfit_b.word_lt
  have hbaddr : b.addr = c.addr := by rw [hb]; rfl
  have hbsize : b.size = c.size + d.size + 8 := by rw [hb]; rfl
  have hw' : Within (c.addr + 8) (d.next + 8) s (s₁.store .currentSize c.addr b.word) := by
    refine hw.store ?_ ?_ <;> simp only [Field.offset, Field.width, Chunk.next] at * <;> omega
  have hnew : Headers (s₁.store .currentSize c.addr b.word) [b] := fun x hx => by
    rw [List.mem_singleton.mp hx]
    refine ⟨by rw [hbaddr, load_store_currentSize hb₁], fun hst => ?_⟩
    have hdt : d.status ≠ .top := fun h' => by
      rw [hb, fused, h'] at hst
      cases hst
    rw [if_neg hdt] at hs₁
    rw [hbn, hbsize, State.load_store_of_disjoint, hs₁, load_store_previousSize]
    · simp only [Chunk.next] at hbelow hdc
      omega
    · simp only [Field.offset, Field.width, Chunk.next] at *
      omega
  refine .intro hrun ⟨rfl, ?_, ?_, ?_⟩
  · have hedit := hr.edit (C := [c, d]) (D := [b]) (i := c.addr) (j := d.next) hs
      (by simpa using hL) (by simp) hX ⟨rfl, hdc, rfl⟩ hw' hnew
    rw [hs.fuse_chunks hL, ← hb]
    simpa using hedit
  · refine hw'.keeps fun e he => ?_
    obtain ⟨x, hx, hxst, rfl⟩ := mem_usedSlots.mp he
    have hxc : x ≠ c := by
      rintro rfl
      rw [hc] at hxst
      cases hxst
    have hxd : x ≠ d := by
      rintro rfl
      exact hd hxst
    have h1 := (hs.tiles.apart hx hcm).resolve_left hxc
    have h2 := (hs.tiles.apart hx hdm).resolve_left hxd
    simp only [Chunk.slot, Chunk.next] at *
    omega
  · exact hw'.bin _

/-! ### Marking -/

/-- The start of `my_free`. -/
theorem markFree_spec (hr : Rep s h) (hs : Shape ext h.bins.victimSlot h)
    (hL : h.chunks = pre ++ c :: d :: post) (hc : c.status = .inuse) :
    Returns (markFree c.addr) s fun _ s' =>
      Rep s' (h.release c) ∧ Frame (InUse (h.release c).chunks) s s' := by
  have hcm : c ∈ h.chunks := Shape.mem_chunks hL
  have hdm : d ∈ h.chunks := by simp [hL]
  have hfit_c := hs.fits hcm
  have hfit_d := hs.fits hdm
  have hdc : d.addr = c.next := by
    have htl := hs.tiles_of hL
    rw [tiles_mid] at htl
    exact htl.2.1
  have hbelow := hfit_d.below
  have hcsz := (hs.sizes c hcm).least (by simp [hc])
  obtain ⟨c', hc'⟩ : ∃ c' : Chunk, c' = { c with status := .free } := ⟨_, rfl⟩
  obtain ⟨d', hd'⟩ : ∃ d' : Chunk, d' = { d with pinuse := false } := ⟨_, rfl⟩
  have hfit_c' : Fits c' := by rw [hc']; exact ⟨hfit_c.aligned, hfit_c.below⟩
  have hfit_d' : Fits d' := by rw [hd']; exact ⟨hfit_d.aligned, hfit_d.below⟩
  have hca : c'.addr = c.addr := by rw [hc']
  have hcn : c'.next = d.addr := by rw [hdc, hc']; rfl
  have hda : d'.addr = d.addr := by rw [hd']
  have hrel : h.release c = { h with chunks := pre ++ c' :: d' :: post } := by
    rw [(release_eq hs hL hc).1, hc', hd']
  -- the stores
  set s₂ := (s.store .prev c.addr NULL).store .next c.addr NULL with hs₂
  set s₃ := s₂.store .currentSize c.addr c'.word with hs₃
  set s₄ := s₃.store .currentSize d.addr d'.word with hs₄
  set s₅ := s₄.store .previousSize d.addr c.size with hs₅
  have hcw₂ : s₂.load .currentSize c.addr = c.word := by
    rw [hs₂, State.load_store_of_ne (by simp), State.load_store_of_ne (by simp),
      (hr.headers c hcm).word]
  have hdw₃ : s₃.load .currentSize d.addr = d.word := by
    rw [← (hr.headers d hdm).word, hs₃, State.load_store_of_disjoint, hs₂,
      State.load_store_of_disjoint, State.load_store_of_disjoint]
    all_goals
      simp only [Field.offset, Field.width, Chunk.next] at *
      omega
  have hcw₃ : s₃.load .currentSize c'.addr = c'.word := by
    rw [hs₃, hca, load_store_currentSize hfit_c'.word_lt]
  have hcw₄ : s₄.load .currentSize c'.addr = c'.word := by
    rw [← hcw₃, hs₄, State.load_store_of_disjoint]
    simp only [Field.offset, Field.width, Chunk.next] at *
    omega
  have hrun : markFree c.addr s = some ((), s₅) := by
    have e1 : c.word &&& (2 ^ 64 - 1 - CURRENT_CHUNK_INUSE) = c'.word := by
      rw [Chunk.word_clear_current hfit_c, hc']
    have e2 : d.word &&& (2 ^ 64 - 1 - PREVIOUS_CHUNK_INUSE) = d'.word := by
      rw [Chunk.word_clear_previous hfit_d, hd']
    have e3 : s₃.nextHeapChunk c.addr = d.addr := by
      rw [← hca, hfit_c'.nextHeapChunk hcw₃, hcn]
    have e4 : s₄.nextHeapChunk c.addr = d.addr := by
      rw [← hca, hfit_c'.nextHeapChunk hcw₄, hcn]
    have e5 : s₄.chunkSize c.addr = c.size := by
      rw [← hca, hfit_c'.chunkSize hcw₄, hc']
    simp only [markFree, M.bind_apply, store_apply, Option.bind_some, clearCurrentInuse_apply,
      clearPreviousInuse_apply, nextHeapChunk_apply, chunkSize_apply]
    rw [← hs₂, hcw₂, e1, ← hs₃, e3, hdw₃, e2, ← hs₄, e4, e5]
  have hw : Within (c.addr + 8) (d.addr + 16) s s₅ := by
    refine (((((Within.refl _ _ s).store ?_ ?_).store ?_ ?_).store ?_ ?_).store ?_ ?_).store
      ?_ ?_ <;> simp only [Field.offset, Field.width, Chunk.next] at * <;> omega
  have hdsz : d.status = .free → 24 ≤ d.size := fun h' => (hs.sizes d hdm).least (by simp [h'])
  have hnew : Headers s₅ [c', d'] := fun x hx => by
    rcases List.mem_pair.mp hx with rfl | rfl
    · refine ⟨?_, fun _ => ?_⟩
      · rw [← hcw₄, hs₅, State.load_store_of_disjoint]
        simp only [Field.offset, Field.width, Chunk.next] at *
        omega
      · rw [hcn, hs₅, load_store_previousSize, hc']
        simp only [Chunk.next] at hbelow hdc
        omega
    · refine ⟨?_, fun hst => ?_⟩
      · rw [hda, hs₅, State.load_store_of_ne (by simp), hs₄, load_store_currentSize hfit_d'.word_lt]
      · rw [hd'] at hst
        have hold := (hr.headers d hdm).footer hst
        have hdn : x.next = d.next := by rw [hd']; rfl
        have hds : x.size = d.size := by rw [hd']
        rw [hdn, hds, ← hold]
        refine hw.load ?_
        have := hdsz hst
        simp only [Field.offset, Field.width, Chunk.next] at *
        omega
  -- where the other chunks lie
  have hsep : ∀ x ∈ h.chunks, x = c ∨ x = d ∨ x.next ≤ c.addr ∨ d.next ≤ x.addr := fun x hx => by
    rcases hs.tiles.apart hx hcm with h' | h' | h'
    · exact .inl h'
    · exact .inr (.inr (.inl h'))
    · rcases hs.tiles.apart hx hdm with h'' | h'' | h''
      · exact .inr (.inl h'')
      · refine .inr (.inr (.inl ?_))
        simp only [Chunk.next] at *
        omega
      · exact .inr (.inr (.inr h''))
  refine .intro hrun ⟨?_, fun e he => hw.keeps (U := {e}) ?_ e rfl, hw.bin _⟩
  · rw [hrel]
    refine hr.of_headers hs hw (fun e he => ?_) ?_
    · have hfree : e ∈ freeSlots h.chunks := hs.account ▸ Multiset.mem_add.mpr (.inr he)
      obtain ⟨x, hx, hxst, rfl⟩ := mem_freeSlots.mp hfree
      rcases hsep x hx with rfl | rfl | h' | h'
      · rw [hc] at hxst
        cases hxst
      all_goals
        simp only [Chunk.slot, Chunk.next] at *
        omega
    · have hh := hr.headers
      have ht := hs.tiles
      have hL' : h.chunks = pre ++ [c, d] ++ post := by simpa using hL
      rw [hL'] at hh ht
      have hedit := hh.edit (D := [c', d']) (i := c.addr) (j := d.next) (t := s₅) ht
        (by simp) (fun x hx => ?_) ⟨rfl, hdc, rfl⟩ (hw.mono le_rfl ?_) hnew
      · simpa using hedit
      · have htop := hs.topLast
        rw [hL, topLast_append] at htop
        have := (hs.sizes x (by simp [hL, hx])).least (htop.1 x hx)
        omega
      · simp only [Chunk.next] at *
        omega
  · rintro e rfl
    rw [hrel] at he
    obtain ⟨x, hx, hxst, rfl⟩ := mem_usedSlots.mp he
    simp only [List.mem_append, List.mem_cons] at hx
    have haround := (hs.tiles_of hL).around
    rcases hx with hx | rfl | rfl | hx
    · have := haround.1 x hx
      simp only [Chunk.slot, Chunk.next] at *
      omega
    · rw [hc'] at hxst
      cases hxst
    · simp only [Chunk.slot, hda]
      omega
    · have := (hs.tiles_of (show h.chunks = (pre ++ [c]) ++ d :: post by simpa using hL)).around.2
        x hx
      simp only [Chunk.slot, Chunk.next] at *
      omega

end Steps

end Dlmalloc
