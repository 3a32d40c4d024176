import Mathlib.Data.Nat.Basic
import Mathlib.Tactic.Ring

/-!
# Byte-addressed memory

A memory is a total map from addresses to bytes. Words are read and written in little-endian
order at any width:

* `readLE m a n` — the number held by the `n` bytes at `a`;
* `writeLE m a n v stale` — the memory whose `n` bytes at `a` hold `v`, cut to the width;
* `move m dst src n` — the memory after `n` bytes were moved from `src` to `dst`, the two
  ranges overlapping or not.

A read after a write is settled by three lemmas: `readLE_writeLE_same`,
`readLE_writeLE_disjoint`, and `readLE_congr` for reads through an unknown change of memory
(`AgreeOn`).

Two programs may share a memory, one of which must not rely on what the other one writes. So a byte
may be marked as stale. `sound m a n` says that none of `n` bytes is; numbers are read whatever the
marks.
-/

/-- A byte of memory, and whether it is marked as stale. -/
structure Byte : Type where
  val : UInt8
  stale : Bool
  deriving DecidableEq

/-- A memory: every address holds one byte. -/
abbrev ByteMem : Type := ℕ → Byte

namespace ByteMem

/-- The number held by `n` bytes at `a`, least significant byte first. -/
def readLE (m : ByteMem) (a : ℕ) : ℕ → ℕ
  | 0 => 0
  | n + 1 => (m a).val.toNat + 256 * readLE m (a + 1) n

/-- None of the `n` bytes at `a` is stale. -/
def sound (m : ByteMem) (a : ℕ) : ℕ → Bool
  | 0 => true
  | n + 1 => !(m a).stale && sound m (a + 1) n

/-- The memory with the low `n` bytes of `v` written at `a`. -/
def writeLE (m : ByteMem) (a n v : ℕ) (stale : Bool) : ByteMem :=
  fun x => if a ≤ x ∧ x < a + n then ⟨UInt8.ofNat (v / 256 ^ (x - a)), stale⟩ else m x

/-- The memory after moving `n` bytes from `src` to `dst`. All bytes are read before any is
written, so the ranges may overlap. -/
def move (m : ByteMem) (dst src n : ℕ) : ByteMem :=
  fun x => if dst ≤ x ∧ x < dst + n then m (src + (x - dst)) else m x

/-- Two memories hold the same bytes in `[lo, hi)`. -/
def AgreeOn (m m' : ByteMem) (lo hi : ℕ) : Prop :=
  ∀ x, lo ≤ x → x < hi → m' x = m x

section Reads

variable {m m' : ByteMem} {a b n k v : ℕ} {stale : Bool}

theorem readLE_lt (m : ByteMem) (a n : ℕ) : readLE m a n < 256 ^ n := by
  induction n generalizing a with
  | zero => simp [readLE]
  | succ n ih =>
    have hb := (m a).val.toNat_lt
    have hr := ih (a + 1)
    simp only [readLE, pow_succ]
    omega

theorem readLE_congr (h : AgreeOn m m' a (a + n)) : readLE m' a n = readLE m a n := by
  induction n generalizing a with
  | zero => rfl
  | succ n ih =>
    have htail : AgreeOn m m' (a + 1) (a + 1 + n) := fun x h1 h2 => h x (by omega) (by omega)
    simp only [readLE]
    rw [h a (by omega) (by omega), ih htail]

/-- Equal bytes at two places are equal numbers. -/
theorem readLE_eq (h : ∀ k < n, m' (b + k) = m (a + k)) : readLE m' b n = readLE m a n := by
  induction n generalizing a b with
  | zero => rfl
  | succ n ih =>
    have htail : ∀ k < n, m' (b + 1 + k) = m (a + 1 + k) := fun k hk => by
      have h1 := h (k + 1) (by omega)
      rwa [show b + (k + 1) = b + 1 + k by omega, show a + (k + 1) = a + 1 + k by omega] at h1
    have hhead : m' b = m a := h 0 (Nat.succ_pos n)
    simp only [readLE]
    rw [hhead, ih htail]

theorem writeLE_of_notMem {x : ℕ} (h : x < a ∨ a + n ≤ x) : writeLE m a n v stale x = m x :=
  if_neg (by omega)

/-- Writing one byte more is writing the first byte and then the rest one address higher. -/
private theorem writeLE_tail (x : ℕ) (hx : a + 1 ≤ x) :
    writeLE m a (n + 1) v stale x = writeLE m (a + 1) n (v / 256) stale x := by
  by_cases h : x < a + (n + 1)
  · have hd : x - a = x - (a + 1) + 1 := by omega
    simp only [writeLE]
    rw [if_pos ⟨by omega, h⟩, if_pos ⟨hx, by omega⟩, hd, pow_succ, Nat.mul_comm,
      Nat.div_div_eq_div_mul]
  · rw [writeLE_of_notMem (by omega), writeLE_of_notMem (by omega)]

theorem readLE_writeLE_same : readLE (writeLE m a n v stale) a n = v % 256 ^ n := by
  induction n generalizing a v with
  | zero => simp [readLE, Nat.mod_one]
  | succ n ih =>
    have htail : AgreeOn (writeLE m (a + 1) n (v / 256) stale) (writeLE m a (n + 1) v stale)
        (a + 1) (a + 1 + n) := fun x h1 _ => writeLE_tail x h1
    have hhead : (writeLE m a (n + 1) v stale a).val.toNat = v % 256 := by
      simp [writeLE]
    simp only [readLE]
    rw [hhead, readLE_congr htail, ih, pow_succ, Nat.mul_comm (256 ^ n), Nat.mod_mul]

theorem readLE_writeLE_disjoint (h : b + k ≤ a ∨ a + n ≤ b) :
    readLE (writeLE m a n v stale) b k = readLE m b k :=
  readLE_congr fun _ h1 h2 => writeLE_of_notMem (by omega)

end Reads

section Sound

variable {m m' : ByteMem} {a n v : ℕ}

theorem sound_iff : sound m a n = true ↔ ∀ x, a ≤ x → x < a + n → (m x).stale = false := by
  induction n generalizing a with
  | zero => exact iff_of_true rfl fun x h1 h2 => by omega
  | succ n ih =>
    simp only [sound, Bool.and_eq_true, Bool.not_eq_true', ih]
    constructor
    · rintro ⟨hhead, htail⟩ x h1 h2
      rcases h1.eq_or_lt with rfl | h1
      · exact hhead
      · exact htail x h1 (by omega)
    · intro h
      exact ⟨h a le_rfl (by omega), fun x h1 h2 => h x (by omega) (by omega)⟩

theorem sound_congr (h : AgreeOn m m' a (a + n)) : sound m' a n = sound m a n := by
  rw [Bool.eq_iff_iff, sound_iff, sound_iff]
  exact forall_congr' fun x => forall₂_congr fun h1 h2 => by rw [h x h1 h2]

theorem sound_writeLE : sound (writeLE m a n v false) a n = true := by
  rw [sound_iff]
  intro x h1 h2
  rw [writeLE, if_pos ⟨h1, h2⟩]

end Sound

section Move

variable {m : ByteMem} {dst src n x : ℕ}

theorem move_of_mem (h1 : dst ≤ x) (h2 : x < dst + n) :
    move m dst src n x = m (src + (x - dst)) :=
  if_pos ⟨h1, h2⟩

theorem move_of_notMem (h : x < dst ∨ dst + n ≤ x) : move m dst src n x = m x :=
  if_neg (by omega)

end Move

namespace AgreeOn

variable {m m' m'' : ByteMem} {lo hi : ℕ}

theorem refl (m : ByteMem) (lo hi : ℕ) : AgreeOn m m lo hi := fun _ _ _ => rfl

theorem trans (h : AgreeOn m m' lo hi) (h' : AgreeOn m' m'' lo hi) : AgreeOn m m'' lo hi :=
  fun x h1 h2 => (h' x h1 h2).trans (h x h1 h2)

theorem mono {lo' hi' : ℕ} (h : AgreeOn m m' lo hi) (h1 : lo ≤ lo') (h2 : hi' ≤ hi) :
    AgreeOn m m' lo' hi' :=
  fun x hx hx' => h x (by omega) (by omega)

end AgreeOn

end ByteMem
