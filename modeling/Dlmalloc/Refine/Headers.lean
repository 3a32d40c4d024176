import Dlmalloc.Lib.Total
import Dlmalloc.Refine.Cells

/-!
# Headers and footers

What memory says of the row of chunks: the header word of every chunk, and the footer of every free
one (`HeaderRep`). The functions of the allocator that edit a row write in a window from the first
header they change on (`Within`), and every function leaves the payloads of the blocks in use alone
(`Keeps`).
-/

namespace Dlmalloc

/-- The header of `c`, and its footer if it is free. -/
structure HeaderRep (s : State) (c : Chunk) : Prop where
  word : s.load .currentSize c.addr = c.word
  footer : c.status = .free → s.load .previousSize c.next = c.size

/-- The headers and footers of all chunks. -/
def Headers (s : State) (L : List Chunk) : Prop := ∀ c ∈ L, HeaderRep s c

/-- A chunk whose size leaves room for flags and that lies far from the end of the address space. -/
structure Fits (c : Chunk) : Prop where
  aligned : 8 ∣ c.size
  below : c.next + 8 + 2 ^ 31 ≤ 2 ^ 64

/-- Only the bytes of `[lo, hi)` may have changed. -/
structure Within (lo hi : ℕ) (s s' : State) : Prop where
  mem : ∀ x, x < lo ∨ hi ≤ x → s'.mem x = s.mem x
  bin : ∀ n, s'.bin n = s.bin n
  memStartBrk : s'.memStartBrk = s.memStartBrk
  memBrk : s'.memBrk = s.memBrk
  memMaxAddr : s'.memMaxAddr = s.memMaxAddr

/-- The payloads of the chunks of `U` are as before. -/
def Keeps (U : Set Slot) (s s' : State) : Prop :=
  ∀ e ∈ U, ∀ x, e.1 + 16 ≤ x → x < e.1 + e.2 + 16 → s'.mem x = s.mem x

section Headers

variable {s s' s'' : State} {c d : Chunk} {lo hi lo' hi' v : ℕ} {f : Field} {a x n : ℕ}
  {U V : Set Slot} {pre C D post : List Chunk}

/-! ### Reading a header -/

theorem Fits.word_lt (hc : Fits c) : c.word < 2 ^ 64 := by
  have h1 := c.flags_lt
  have h2 := hc.below
  simp only [Chunk.word, Chunk.next] at *
  omega

section Word

variable (hw : s.load .currentSize c.addr = c.word) (hc : Fits c)
include hw hc

theorem Fits.chunkSize : s.chunkSize c.addr = c.size := by
  rw [State.chunkSize, hw]
  exact safeSize_add hc.aligned c.flags_lt hc.word_lt

theorem Fits.isPreviousInuse :
    s.isPreviousInuse c.addr = if c.pinuse then PREVIOUS_CHUNK_INUSE else 0 := by
  rw [State.isPreviousInuse, hw, Chunk.word,
    LowBits.add_and (w := 3) hc.aligned c.flags_lt (by decide), Chunk.flags]
  split_ifs <;> rfl

theorem Fits.isCurrentInuse :
    s.isCurrentInuse c.addr = if c.status = .inuse then CURRENT_CHUNK_INUSE else 0 := by
  rw [State.isCurrentInuse, hw, Chunk.word,
    LowBits.add_and (w := 3) hc.aligned c.flags_lt (by decide), Chunk.flags]
  split_ifs <;> rfl

theorem Fits.previousFree : decide (s.isPreviousInuse c.addr = 0) = !c.pinuse := by
  rw [hc.isPreviousInuse hw]
  cases c.pinuse <;> rfl

theorem Fits.currentFree :
    decide (s.isCurrentInuse c.addr = 0) = decide (c.status ≠ .inuse) := by
  rw [hc.isCurrentInuse hw]
  split_ifs with h' <;> simp [h', CURRENT_CHUNK_INUSE]

theorem Fits.nextHeapChunk : s.nextHeapChunk c.addr = c.next := by
  have h1 := hc.chunkSize hw
  have h2 := hc.below
  simp only [Chunk.next] at *
  rw [State.chunkSize] at h1
  have h3 : add64 c.addr c.size = c.addr + c.size := add64_of_lt (by omega)
  have h4 : add64 (c.addr + c.size) 8 = c.addr + c.size + 8 := add64_of_lt (by omega)
  rw [State.nextHeapChunk, h1, h3, h4]

end Word

theorem HeaderRep.isPtr_footer (h : HeaderRep s c) (hc : Fits c) (hst : c.status = .free) :
    IsPtr (s.load .previousSize c.next) := by
  have h1 := hc.below
  rw [h.footer hst]
  simp only [IsPtr, Chunk.next] at h1 ⊢
  omega

/-- The chunk before `d`, by the footer of that chunk. -/
theorem HeaderRep.previousHeapChunk (h : HeaderRep s c) (hc : Fits c) (hst : c.status = .free)
    (hd : d.addr = c.next) : s.previousHeapChunk d.addr = c.addr := by
  have h1 := h.footer hst
  have h2 := hc.below
  simp only [Chunk.next] at *
  have hlt : c.size + 0 < 2 ^ 64 := by omega
  have h3 : safeSize c.size = c.size := safeSize_add hc.aligned (by decide) hlt
  have h4 : sub64 (c.addr + c.size + 8) c.size = c.addr + 8 := by
    rw [sub64_of_le (by omega) (by omega)]
    omega
  have h5 : sub64 (c.addr + 8) 8 = c.addr := by
    rw [sub64_of_le (by omega) (by omega)]
    omega
  rw [State.previousHeapChunk, hd, h1, h3, h4, h5]

theorem load_store_currentSize (hv : v < 2 ^ 64) :
    (s.store .currentSize a v).load .currentSize a = v := by
  rw [State.load_store_same]
  exact Nat.mod_eq_of_lt hv

theorem load_store_previousSize (hv : v < 2 ^ 64) :
    (s.store .previousSize a v).load .previousSize a = v := by
  rw [State.load_store_same]
  exact Nat.mod_eq_of_lt hv

/-! ### Writing in a window -/

theorem Within.refl (lo hi : ℕ) (s : State) : Within lo hi s s :=
  ⟨fun _ _ => rfl, fun _ => rfl, rfl, rfl, rfl⟩

theorem Within.trans (h : Within lo hi s s') (h' : Within lo hi s' s'') : Within lo hi s s'' :=
  ⟨fun x hx => (h'.mem x hx).trans (h.mem x hx), fun n => (h'.bin n).trans (h.bin n),
    h'.memStartBrk.trans h.memStartBrk, h'.memBrk.trans h.memBrk,
    h'.memMaxAddr.trans h.memMaxAddr⟩

theorem Within.mono (h : Within lo hi s s') (h1 : lo' ≤ lo) (h2 : hi ≤ hi') :
    Within lo' hi' s s' :=
  ⟨fun x hx => h.mem x (by omega), h.bin, h.memStartBrk, h.memBrk, h.memMaxAddr⟩

theorem Within.store (h : Within lo hi s s') (h1 : lo ≤ a + f.offset)
    (h2 : a + f.offset + f.width ≤ hi) : Within lo hi s (s'.store f a v) :=
  h.trans ⟨fun x hx => State.store_mem_of_notMem (by omega), fun _ => rfl, rfl, rfl, rfl⟩

theorem Within.load (h : Within lo hi s s')
    (hx : a + f.offset + f.width ≤ lo ∨ hi ≤ a + f.offset) : s'.load f a = s.load f a :=
  State.load_congr fun x h1 h2 => h.mem x (by omega)

/-- A header outside the window is as before. -/
theorem Within.header (h : Within lo hi s s') (hr : HeaderRep s c)
    (hx : c.addr + 16 ≤ lo ∧ (c.status = .free → c.next + 8 ≤ lo) ∨ hi ≤ c.addr + 8) :
    HeaderRep s' c where
  word := by
    rw [h.load (by simp only [Field.offset, Field.width]; omega), hr.word]
  footer := fun hst => by
    rw [h.load, hr.footer hst]
    rcases hx with hx | hx
    · have := hx.2 hst
      simp only [Field.offset, Field.width]
      omega
    · simp only [Field.offset, Field.width, Chunk.next]
      omega

/-- Replacing a segment of the row: what is written lies behind the first header byte of the segment
and up to the header word of the chunk after it. -/
theorem Headers.edit {P Q : List Chunk} {t : State} (hh : Headers s (P ++ C ++ Q))
    (ht : Tiles lo (P ++ C ++ Q) hi) (hmid : C ≠ [])
    (hsz : ∀ c ∈ P, 8 ≤ c.size) {i j : ℕ} (hm : Tiles i C j)
    (hw : Within (i + 8) (j + 8) s t) (hnew : Headers t D) :
    Headers t (P ++ D ++ Q) := by
  obtain ⟨c, ms, rfl⟩ := List.exists_cons_of_ne_nil hmid
  rw [tiles_append] at ht
  obtain ⟨hi₂, ht, hpost⟩ := ht
  rw [tiles_append] at ht
  obtain ⟨lo₂, hpre, ht⟩ := ht
  obtain rfl : lo₂ = i := ht.1.symm.trans hm.1
  have hend : hi₂ = j := by
    clear hw hpost
    exact ht.unique hm
  subst hend
  intro x hx
  simp only [List.mem_append] at hx
  -- before, inside and behind the part rewritten
  rcases hx with (hx | hx) | hx
  · have h1 := (hpre.bounds hx).2
    have h2 := hsz x hx
    refine hw.header (hh x (by simp [hx])) (.inl ?_)
    simp only [Chunk.next] at *
    omega
  · exact hnew x hx
  · have h1 := (hpost.bounds hx).1
    exact hw.header (hh x (by simp [hx])) (.inr (by omega))

/-! ### Payloads -/

theorem Keeps.refl (U : Set Slot) (s : State) : Keeps U s s := fun _ _ _ _ _ => rfl

theorem Keeps.trans (h : Keeps U s s') (h' : Keeps U s' s'') : Keeps U s s'' :=
  fun e he x h1 h2 => (h' e he x h1 h2).trans (h e he x h1 h2)

theorem Keeps.mono (h : Keeps U s s') (hV : V ⊆ U) : Keeps V s s' :=
  fun e he => h e (hV he)

/-- A window that ends at a header or begins behind one. -/
theorem Within.keeps (h : Within lo hi s s')
    (hU : ∀ e ∈ U, e.1 + e.2 + 16 ≤ lo ∨ hi ≤ e.1 + 16) : Keeps U s s' := fun e he x h1 h2 => by
  have := hU e he
  exact h.mem x (by omega)

/-- Links of free chunks lie off the payloads of chunks apart from them. -/
theorem LinksOnly.keeps {X : Set Slot} (h : LinksOnly X s s')
    (hU : ∀ e ∈ U, ∀ g ∈ X, e.1 + e.2 + 8 ≤ g.1 ∨ g.1 + g.2 + 8 ≤ e.1) : Keeps U s s' :=
  fun e he x h1 h2 => h.mem x fun g hg hint => by
    obtain ⟨h3, h4⟩ := hint
    have := hU e he g hg
    omega

end Headers

end Dlmalloc
