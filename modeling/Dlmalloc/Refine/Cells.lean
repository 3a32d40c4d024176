import Dlmalloc.Abstract.Invariant
import Dlmalloc.Machine.Bins

/-!
# The link fields of free chunks

The bins keep their links inside the free chunks they hold, between the header of the chunk and its
footer (`Interior`). Free chunks do not overlap (`Spread`), so their link fields are separate cells:
a store to one is seen by loads of that cell alone (`Spread.load_store`), and all of them leave the
headers, the footers and every other byte as they are (`LinksOnly`).
-/

namespace Dlmalloc

/-- The bytes of the chunk `e` between its header and its footer. -/
def Interior (e : Slot) (x : ℕ) : Prop := e.1 + 16 ≤ x ∧ x < e.1 + e.2 + 8

/-- Chunks that do not overlap, at addresses a pointer can hold. -/
structure Spread (X : Set Slot) : Prop where
  apart : ∀ e ∈ X, ∀ f ∈ X, e = f ∨ e.1 + e.2 + 8 ≤ f.1 ∨ f.1 + f.2 + 8 ≤ e.1
  least : ∀ e ∈ X, 24 ≤ e.2
  pos : ∀ e ∈ X, 8 ≤ e.1
  below : ∀ e ∈ X, e.1 + e.2 + 8 < 2 ^ 64

/-- `f` is a link field of a chunk of `X` at `c`, which has room for it. -/
def Cell (X : Set Slot) (f : Field) (c : ℕ) : Prop :=
  ∃ n, (c, n) ∈ X ∧ 16 ≤ f.offset ∧ f.offset + f.width ≤ n + 8

/-- Memory is as before but inside the chunks of `X`, and so are the bounds of the heap. -/
structure LinksOnly (X : Set Slot) (s s' : State) : Prop where
  mem : ∀ x, (∀ e ∈ X, ¬ Interior e x) → s'.mem x = s.mem x
  memStartBrk : s'.memStartBrk = s.memStartBrk
  memBrk : s'.memBrk = s.memBrk
  memMaxAddr : s'.memMaxAddr = s.memMaxAddr

section Cells

variable {X Y : Set Slot} {s s' s'' : State} {f g : Field} {c d v n : ℕ} {e : Slot}

theorem Spread.mono (hX : Spread X) (h : Y ⊆ X) : Spread Y :=
  ⟨fun e he f hf => hX.apart e (h he) f (h hf), fun e he => hX.least e (h he),
    fun e he => hX.pos e (h he), fun e he => hX.below e (h he)⟩

theorem Spread.eq_of_addr (hX : Spread X) (he : e ∈ X) {f : Slot} (hf : f ∈ X)
    (h : e.1 = f.1) : e = f := by
  rcases hX.apart e he f hf with h' | h' | h' <;> first | exact h' | omega

theorem Cell.mono (h : Y ⊆ X) (hc : Cell Y f c) : Cell X f c := by
  obtain ⟨n, hn, h'⟩ := hc
  exact ⟨n, h hn, h'⟩

theorem Spread.cell_next (hX : Spread X) (he : e ∈ X) : Cell X .next e.1 := by
  have := hX.least e he
  exact ⟨e.2, he, by decide, by simp only [Field.offset, Field.width]; omega⟩

theorem Spread.cell_prev (hX : Spread X) (he : e ∈ X) : Cell X .prev e.1 := by
  have := hX.least e he
  exact ⟨e.2, he, by decide, by simp only [Field.offset, Field.width]; omega⟩

/-- The links of a list of chunks are cells, and their addresses are pointers other than `NULL`. -/
theorem Spread.link_cells (hX : Spread X) (hc : ∃ k, (c, k) ∈ X) :
    Cell X .next c ∧ Cell X .prev c ∧ IsPtr c ∧ c ≠ NULL := by
  obtain ⟨k, hk⟩ := hc
  have h1 := hX.below _ hk
  have h2 := hX.pos _ hk
  refine ⟨hX.cell_next hk, hX.cell_prev hk, ?_, ?_⟩
  · simp only [IsPtr] at h1 ⊢
    omega
  · simp only [NULL] at h2 ⊢
    omega

/-- A large chunk has room for all link fields. -/
theorem cell_of_large (he : e ∈ X) (hl : isLargeSize e.2) (hf : 16 ≤ f.offset) :
    Cell X f e.1 := by
  refine ⟨e.2, he, hf, ?_⟩
  have hl' : 249 < e.2 := hl
  cases f <;> simp only [Field.offset, Field.width] <;> omega

/-- **Cells are separate**: a store to one is seen by loads of that cell alone. -/
theorem Spread.load_store (hX : Spread X) (hc : Cell X f c) (hd : Cell X g d)
    (hv : v < 256 ^ f.width) :
    (s.store f c v).load g d = if g = f ∧ d = c then v else s.load g d := by
  by_cases h : d = c
  · subst h
    by_cases hfg : g = f
    · subst hfg
      rw [State.load_store_same, if_pos ⟨rfl, rfl⟩, Nat.mod_eq_of_lt hv]
    · rw [State.load_store_of_ne hfg, if_neg (by simp [hfg])]
  · obtain ⟨m, hm, h1, h2⟩ := hc
    obtain ⟨k, hk, h3, h4⟩ := hd
    rw [if_neg (by simp [h])]
    refine State.load_store_of_disjoint ?_
    rcases hX.apart _ hm _ hk with he | he | he
    · exact absurd (congrArg Prod.fst he).symm h
    all_goals
      simp only at he
      omega

/-- `Spread.load_store` for the fields that hold pointers. -/
theorem Spread.load_store_ptr (hX : Spread X) (hc : Cell X f c) (hd : Cell X g d)
    (hb : f ≠ .binNumber) (hs : f ≠ .shift) (hv : IsPtr v) :
    (s.store f c v).load g d = if g = f ∧ d = c then v else s.load g d := by
  have hf : f.width = 8 := by cases f <;> simp_all [Field.width]
  exact hX.load_store hc hd (by rw [hf]; exact hv)

theorem LinksOnly.refl (X : Set Slot) (s : State) : LinksOnly X s s :=
  ⟨fun _ _ => rfl, rfl, rfl, rfl⟩

theorem LinksOnly.trans (h : LinksOnly X s s') (h' : LinksOnly X s' s'') : LinksOnly X s s'' :=
  ⟨fun x hx => (h'.mem x hx).trans (h.mem x hx), h'.memStartBrk.trans h.memStartBrk,
    h'.memBrk.trans h.memBrk, h'.memMaxAddr.trans h.memMaxAddr⟩

theorem LinksOnly.mono (h : LinksOnly Y s s') (hY : Y ⊆ X) : LinksOnly X s s' :=
  ⟨fun x hx => h.mem x fun e he => hx e (hY he), h.memStartBrk, h.memBrk, h.memMaxAddr⟩

theorem LinksOnly.store (h : LinksOnly X s s') (hc : Cell X f c) :
    LinksOnly X s (s'.store f c v) := by
  refine h.trans ⟨fun x hx => ?_, rfl, rfl, rfl⟩
  obtain ⟨n, hn, h1, h2⟩ := hc
  have hx' := hx _ hn
  simp only [Interior] at hx'
  exact State.store_mem_of_notMem (by omega)

theorem LinksOnly.setBin (h : LinksOnly X s s') : LinksOnly X s (s'.setBin n c) :=
  h.trans ⟨fun _ _ => by simp, by simp, by simp, by simp⟩

/-- Fields that lie outside the chunks of `X` are as before. -/
theorem LinksOnly.load (h : LinksOnly X s s')
    (hout : ∀ x, d + g.offset ≤ x → x < d + g.offset + g.width → ∀ e ∈ X, ¬ Interior e x) :
    s'.load g d = s.load g d :=
  State.load_congr fun x h1 h2 => h.mem x (hout x h1 h2)

/-- The cells of other chunks are as before. -/
theorem LinksOnly.load_cell (h : LinksOnly Y s s') (hX : Spread X) (hY : Y ⊆ X)
    (hd : Cell X g d) (hne : ∀ e ∈ Y, e.1 ≠ d) : s'.load g d = s.load g d := by
  obtain ⟨k, hk, h1, h2⟩ := hd
  refine h.load fun x hx1 hx2 e he hint => ?_
  obtain ⟨hi1, hi2⟩ := hint
  rcases hX.apart e (hY he) _ hk with h' | h' | h'
  · exact hne e he (congrArg Prod.fst h')
  all_goals
    simp only at h'
    have := hX.least e (hY he)
    omega

/-- A header is as before. -/
theorem LinksOnly.load_header (h : LinksOnly X s s') (hX : Spread X) (he : e ∈ X) :
    s'.load .currentSize e.1 = s.load .currentSize e.1 := by
  refine h.load fun x hx1 hx2 f hf hint => ?_
  obtain ⟨hi1, hi2⟩ := hint
  simp only [Field.offset, Field.width] at hx1 hx2
  rcases hX.apart e he f hf with rfl | h' | h'
  · omega
  · have := hX.least e he
    omega
  · omega

theorem LinksOnly.chunkSize (h : LinksOnly X s s') (hX : Spread X) (he : e ∈ X) :
    s'.chunkSize e.1 = s.chunkSize e.1 := by
  rw [State.chunkSize, State.chunkSize, h.load_header hX he]

end Cells

/-- The free chunks of a heap do not overlap. -/
theorem Heap.Shape.spread {ext : ℕ} {X : Multiset Slot} {h : Heap} (hs : h.Shape ext X) :
    Spread {e | e ∈ freeSlots h.chunks} := by
  have hmem : ∀ e ∈ freeSlots h.chunks, ∃ c ∈ h.chunks, c.slot = e ∧ 24 ≤ c.size := fun e he => by
    obtain ⟨c, hc, hst, hce⟩ := mem_freeSlots.mp he
    exact ⟨c, hc, hce, (hs.sizes c hc).least (by simp [hst])⟩
  refine ⟨fun e he f hf => ?_, fun e he => ?_, fun e he => ?_, fun e he => ?_⟩
  · obtain ⟨c, hc, rfl, -⟩ := hmem e he
    obtain ⟨d, hd, rfl, -⟩ := hmem f hf
    rcases hs.tiles.apart hc hd with rfl | h' | h'
    · exact .inl rfl
    · exact .inr (.inl h')
    · exact .inr (.inr h')
  · obtain ⟨c, -, rfl, h24⟩ := hmem e he
    exact h24
  · obtain ⟨c, hc, rfl, -⟩ := hmem e he
    have h1 := (hs.bounds hc).1
    have h2 := hs.first_pos
    have h3 := hs.addr_aligned hc
    simp only [Chunk.slot]
    omega
  · obtain ⟨c, hc, rfl, -⟩ := hmem e he
    have h1 := (hs.bounds hc).2
    have h2 := hs.arena.brk_le
    have h3 := hs.arena.span
    simp only [Chunk.slot, Chunk.next] at *
    omega

end Dlmalloc
