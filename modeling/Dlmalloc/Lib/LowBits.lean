import Mathlib.Data.Nat.Bitwise

/-!
# Flags in the low bits of an aligned word

A word that is a multiple of `2 ^ w` has room for `w` flag bits. A word `k + b`, with `k` aligned
and `b` below `2 ^ w`, holds the flags `b`: setting, testing and clearing them by masks below
`2 ^ w` acts on `b` alone.
-/

namespace LowBits

variable {w n k b c : ℕ}

theorem testBit_add (hk : 2 ^ w ∣ k) (hb : b < 2 ^ w) (j : ℕ) :
    (k + b).testBit j = if j < w then b.testBit j else k.testBit j := by
  obtain ⟨q, rfl⟩ := hk
  rw [Nat.testBit_two_pow_mul_add _ hb]
  split_ifs with hj
  · rfl
  · rw [Nat.testBit_two_pow_mul]
    simp [not_lt.mp hj]

theorem testBit_low (hb : b < 2 ^ w) {j : ℕ} (hj : ¬ j < w) : b.testBit j = false :=
  Nat.testBit_lt_two_pow (hb.trans_le (Nat.pow_le_pow_right (by decide) (not_lt.mp hj)))

/-- Setting flags. -/
theorem add_or (hk : 2 ^ w ∣ k) (hb : b < 2 ^ w) (hc : c < 2 ^ w) :
    (k + b) ||| c = k + (b ||| c) := by
  apply Nat.eq_of_testBit_eq
  intro j
  rw [Nat.testBit_or, testBit_add hk hb, testBit_add hk (Nat.or_lt_two_pow hb hc)]
  split_ifs with hj
  · rw [Nat.testBit_or]
  · simp [testBit_low hc hj]

/-- Testing flags. -/
theorem add_and (hk : 2 ^ w ∣ k) (hb : b < 2 ^ w) (hc : c < 2 ^ w) : (k + b) &&& c = b &&& c := by
  apply Nat.eq_of_testBit_eq
  intro j
  rw [Nat.testBit_and, Nat.testBit_and, testBit_add hk hb]
  split_ifs with hj
  · rfl
  · simp [testBit_low hc hj]

/-- Clearing flags, in a word of `n` bits. -/
theorem add_and_compl (hk : 2 ^ w ∣ k) (hb : b < 2 ^ w) (hc : c < 2 ^ w) (hwn : w ≤ n)
    (hn : k + b < 2 ^ n) : (k + b) &&& (2 ^ n - 1 - c) = k + (b &&& (2 ^ w - 1 - c)) := by
  have hmask : ∀ m, c < 2 ^ m → ∀ j, (2 ^ m - 1 - c).testBit j = (decide (j < m) && !c.testBit j) :=
    fun m hcm j => by
      rw [Nat.sub_sub, Nat.add_comm 1 c]
      exact Nat.testBit_two_pow_sub_succ hcm j
  have hlow : b &&& (2 ^ w - 1 - c) < 2 ^ w := Nat.and_le_left.trans_lt hb
  apply Nat.eq_of_testBit_eq
  intro j
  rw [Nat.testBit_and, testBit_add hk hb, testBit_add hk hlow,
    hmask n (hc.trans_le (Nat.pow_le_pow_right (by decide) hwn))]
  split_ifs with hj
  · rw [Nat.testBit_and, hmask w hc]
    simp [hj, hj.trans_le hwn]
  · by_cases hjn : j < n
    · simp [testBit_low hc hj, hjn]
    · have hkj : k.testBit j = false := testBit_low (by omega : k < 2 ^ n) hjn
      simp [hkj]

end LowBits
