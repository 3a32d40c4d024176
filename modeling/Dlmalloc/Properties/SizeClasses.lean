import Dlmalloc.Abstract.Bins

/-!
# The size classes

Every chunk size is small, large or huge, and the classes have bins of their own: one for each small
size, two for each power of two of the large ones, and one for all that is huge. Within the large
class the index says where a size lies: its leading bit and the bit below it (`size_classes`).
-/

namespace Dlmalloc

inductive SizeClass : Type where
  | small
  | large
  | huge
  deriving DecidableEq, Repr

/-- The class of a size, as `insert_chunk` and `remove_chunk` find it: large or not first, and then
huge or not. -/
def sizeClass (size : ℕ) : SizeClass :=
  if isLargeSize size then
    if isHugeSize size then .huge else .large
  else .small

namespace SizeClass

/-- The bin of a size, by the function of its class. -/
def index : SizeClass → ℕ → ℕ
  | small, size => smallRequestIndex size
  | large, size => largeRequestIndex size
  | huge, _ => HUGE_BIN

/-- The bins of a class. -/
def bins : SizeClass → Set ℕ
  | small => Set.Icc 3 31
  | large => Set.Icc 32 63
  | huge => {HUGE_BIN}

/-- The sizes of a class. -/
def sizes : SizeClass → Set ℕ
  | small => Set.Icc 24 248
  | large => Set.Icc 256 16777208
  | huge => Set.Ici 16777216

end SizeClass

/-- The leading bits of `a` and `b` are at the same place, and the bits below these agree. -/
def SameLeadingBits (a b : ℕ) : Prop :=
  ∃ l, (2 ^ l ≤ a ∧ a < 2 ^ (l + 1)) ∧ (2 ^ l ≤ b ∧ b < 2 ^ (l + 1)) ∧
    a.testBit (l - 1) = b.testBit (l - 1)

section Classes

variable {a b k l : ℕ}

theorem fastLog2_eq (h : 2 ^ l ≤ a) (h' : a < 2 ^ (l + 1)) : fastLog2 a = l := by
  have h0 : a ≠ 0 := by
    have := Nat.two_pow_pos l
    omega
  exact (Nat.log2_eq_iff h0).mpr ⟨h, h'⟩

theorem largeRequestIndex_eq_testBit :
    largeRequestIndex k = 16 + 2 * fastLog2 k + (k.testBit (fastLog2 k - 1)).toNat := by
  rw [largeRequestIndex_eq, Nat.toNat_testBit]

/-- Two sizes share a bin if and only if they agree in the leading bit and the bit below it. -/
theorem largeRequestIndex_eq_iff (ha : a ≠ 0) (hb : b ≠ 0) :
    largeRequestIndex a = largeRequestIndex b ↔ SameLeadingBits a b := by
  constructor
  · intro h
    rw [largeRequestIndex_eq_testBit, largeRequestIndex_eq_testBit] at h
    have h1 := Bool.toNat_le (a.testBit (fastLog2 a - 1))
    have h2 := Bool.toNat_le (b.testBit (fastLog2 b - 1))
    have hlog : fastLog2 a = fastLog2 b := by omega
    rw [hlog] at h
    have hbit : a.testBit (fastLog2 b - 1) = b.testBit (fastLog2 b - 1) := by
      rw [Bool.eq_iff_iff, ← Bool.toNat_eq_one, ← Bool.toNat_eq_one]
      omega
    exact ⟨fastLog2 b, hlog ▸ fastLog2_bounds ha, fastLog2_bounds hb, hbit⟩
  · rintro ⟨l, ⟨h1, h2⟩, ⟨h3, h4⟩, hbit⟩
    rw [largeRequestIndex_eq_testBit, largeRequestIndex_eq_testBit, fastLog2_eq h1 h2,
      fastLog2_eq h3 h4, hbit]

/-- The class of a chunk size is the one it lies in. -/
theorem sizeClass_eq_iff (c : SizeClass) (h24 : 24 ≤ k) (h8 : 8 ∣ k) :
    sizeClass k = c ↔ k ∈ c.sizes := by
  have hl : isLargeSize k ↔ 249 < k := Iff.rfl
  have hh : isHugeSize k ↔ 16777215 < k := Iff.rfl
  obtain ⟨q, rfl⟩ := h8
  unfold sizeClass
  rw [apply_ite (· = c), apply_ite (· = c)]
  cases c <;> simp only [SizeClass.sizes, Set.mem_Icc, Set.mem_Ici, hl, hh] <;> split_ifs <;>
    simp <;> omega

theorem index_mem_bins (h24 : 24 ≤ k) (h8 : 8 ∣ k) :
    (sizeClass k).index k ∈ (sizeClass k).bins := by
  unfold sizeClass
  split_ifs with hl hh
  · rfl
  · have := largeRequestIndex_bounds hl hh h8
    exact ⟨this.1, Nat.le_of_lt_succ this.2⟩
  · have := smallRequestIndex_bounds hl h24
    exact ⟨this.1, Nat.le_of_lt_succ this.2⟩

/-- No bin belongs to two classes. -/
theorem notMem_bins {c d : SizeClass} {n : ℕ} (hcd : c ≠ d) (hn : n ∈ c.bins) : n ∉ d.bins := by
  intro hn'
  cases c <;> cases d <;> first
    | exact hcd rfl
    | simp only [SizeClass.bins, HUGE_BIN, Set.mem_Icc, Set.mem_singleton_iff] at hn hn'
      omega

end Classes

/-- The index orders the large sizes, and tells them apart by their leading two bits; sizes of one
bin differ by less than a factor of two; and every chunk size is of exactly one class, with its bin
among the bins of this class, which no other class has. -/
theorem size_classes :
    (∀ a b, 256 ≤ a → 256 ≤ b →
      (largeRequestIndex a < largeRequestIndex b → a < b) ∧
      (largeRequestIndex a = largeRequestIndex b ↔ SameLeadingBits a b) ∧
      (largeRequestIndex a = largeRequestIndex b → b < 2 * a)) ∧
    (∀ k, 24 ≤ k → 8 ∣ k →
      (∀ c : SizeClass, sizeClass k = c ↔ k ∈ c.sizes) ∧
      (sizeClass k).index k ∈ (sizeClass k).bins ∧
      (sizeClass k = .small → 8 * smallRequestIndex k = k)) ∧
    ∀ c d : SizeClass, c ≠ d → ∀ n ∈ c.bins, n ∉ d.bins := by
  refine ⟨fun a b ha hb => ⟨?_, ?_, ?_⟩, fun k h24 h8 => ⟨?_, ?_, ?_⟩, fun c d hcd n hn => ?_⟩
  · exact lt_of_largeRequestIndex_lt ha hb
  · exact largeRequestIndex_eq_iff (by omega) (by omega)
  · exact fun h => lt_two_mul_of_index hb ha h.symm
  · exact fun c => sizeClass_eq_iff c h24 h8
  · exact index_mem_bins h24 h8
  · intro hsmall
    have hk : k ≤ 248 := ((sizeClass_eq_iff .small h24 h8).mp hsmall).2
    rw [smallRequestIndex_eq (not_lt.mpr (show k ≤ 249 by omega))]
    omega
  · exact notMem_bins hcd hn

end Dlmalloc
