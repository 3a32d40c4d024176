import Dlmalloc.Lib.LowBits
import Dlmalloc.Machine.Alloc

/-!
# Machine integers and sizes

What the wrapping operations, `ALIGN`, `MAX` and `mem_sbrk`'s conversions compute, in terms of
ordinary arithmetic.
-/

namespace Dlmalloc

variable {a b n size : ℕ}

theorem add64_of_lt (h : a + b < 2 ^ 64) : add64 a b = a + b := Nat.mod_eq_of_lt h

theorem sub64_of_le (h : b ≤ a) (ha : a < 2 ^ 64) : sub64 a b = a - b := by
  unfold sub64
  rw [Nat.mod_eq_of_lt (h.trans_lt ha)]
  omega

/-- The size in a header word. -/
theorem safeSize_add (h8 : 8 ∣ n) (hb : b < 8) (hn : n + b < 2 ^ 64) : safeSize (n + b) = n := by
  rw [safeSize, LowBits.add_and_compl (w := 3) h8 hb (by decide) (by decide) hn]
  have : b &&& (2 ^ 3 - 1 - 7) = 0 := Nat.and_zero b
  rw [this, Nat.add_zero]

theorem safeSize_eq (h : a < 2 ^ 64) : safeSize a = a / 8 * 8 := by
  have hsplit : a / 8 * 8 + a % 8 = a := by omega
  have h1 := safeSize_add (n := a / 8 * 8) (b := a % 8) (by omega) (by omega) (by omega)
  rwa [hsplit] at h1

/-- `ALIGN`, with what is left of the sum when it wraps. -/
theorem ALIGN_eq (size : ℕ) : ALIGN size = add64 size 7 / 8 * 8 :=
  safeSize_eq (Nat.mod_lt _ (by decide))

theorem MAX_eq (ha : a < 2 ^ 64) (hb : b < 2 ^ 64) : MAX a b = max a b := by
  unfold MAX
  split_ifs with h
  · rw [Nat.and_two_pow_sub_one_eq_mod, Nat.mod_eq_of_lt (Nat.xor_lt_two_pow ha hb),
      ← Nat.xor_assoc, Nat.xor_self, Nat.zero_xor, max_eq_right h.le]
  · rw [Nat.and_zero, Nat.xor_zero, max_eq_left (not_lt.mp h)]

theorem requestSize_eq (size : ℕ) : requestSize size = max (add64 size 7 / 8 * 8) 24 := by
  have h1 : add64 size 7 < 2 ^ 64 := Nat.mod_lt _ (by decide)
  rw [requestSize, ALIGN_eq, MAX_eq (by omega) (by decide)]
  rfl

/-- A size that rounding up does not wrap. -/
theorem requestSize_of_lt (h : size + 7 < 2 ^ 64) :
    size ≤ requestSize size ∧ requestSize size ≤ max (size + 7) 24 := by
  rw [requestSize_eq, add64_of_lt h]
  omega

end Dlmalloc
