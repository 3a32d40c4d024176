import Dlmalloc.Abstract.Layout
import Dlmalloc.Lib.DigitTree
import Dlmalloc.Machine.Bins
import Mathlib.Algebra.BigOperators.Group.Finset.Basic
import Mathlib.Data.Nat.Log

/-!
# The bins as collections

What the links of the free chunks stand for: a list of addresses for each small size, a digit tree
for each large class, a list of the huge chunks, and the victim. Two views are used:

* `Bins.slots B n` — what bin `n` holds;
* `Bins.held B` — all free chunks held, the victim included, as a multiset.

`Bins.Sorted` says that every chunk is in the bin of its size and that the trees are routed. The
edits `insert` and `unbin` change `held` by one chunk and keep `Sorted`.
-/

namespace Dlmalloc

open DigitTree

/-! ### Bin indices -/

/-- The bin of a chunk of the size given. -/
def binOf (size : ℕ) : ℕ :=
  if isHugeSize size then HUGE_BIN
  else if isLargeSize size then largeRequestIndex size
  else smallRequestIndex size

/-- The level of the root in the tree of bin `n`. The root's `shift` is one less. -/
def binLevel (n : ℕ) : ℕ := (n - 16) / 2 - 1

section Index

variable {k : ℕ}

theorem smallRequestIndex_eq (h : ¬ isLargeSize k) : smallRequestIndex k = k / 8 := by
  have hk : k ≤ 249 := not_lt.mp h
  rw [smallRequestIndex, Nat.shiftRight_eq_div_pow]
  exact Nat.mod_eq_of_lt (by omega)

theorem smallRequestIndex_bounds (h : ¬ isLargeSize k) (h24 : 24 ≤ k) :
    3 ≤ smallRequestIndex k ∧ smallRequestIndex k < 32 := by
  have hk : k ≤ 249 := not_lt.mp h
  rw [smallRequestIndex_eq h]
  omega

/-- The index of a large size is its leading bit position and the bit below it. -/
theorem largeRequestIndex_eq :
    largeRequestIndex k = 16 + 2 * fastLog2 k + k / 2 ^ (fastLog2 k - 1) % 2 := by
  simp only [largeRequestIndex, Nat.and_one_is_mod, Nat.shiftRight_eq_div_pow]

theorem fastLog2_bounds (hk : k ≠ 0) : 2 ^ fastLog2 k ≤ k ∧ k < 2 ^ (fastLog2 k + 1) :=
  ⟨Nat.log2_self_le hk, Nat.lt_log2_self⟩

/-- Chunk sizes are multiples of 8, so the least large one is a power of two. -/
theorem le_of_isLargeSize (h : isLargeSize k) (h8 : 8 ∣ k) : 256 ≤ k := by
  have hk : 249 < k := h
  obtain ⟨q, rfl⟩ := h8
  omega

theorem le_fastLog2 (h : 256 ≤ k) : 8 ≤ fastLog2 k :=
  (Nat.le_log2 (by omega)).mpr (show 2 ^ 8 ≤ k from h)

theorem fastLog2_large (h : isLargeSize k) (h8 : 8 ∣ k) : 8 ≤ fastLog2 k :=
  le_fastLog2 (le_of_isLargeSize h h8)

theorem fastLog2_not_huge (hk : k ≠ 0) (h : ¬ isHugeSize k) : fastLog2 k < 24 := by
  have hle : k ≤ 16777215 := not_lt.mp h
  exact (Nat.log2_lt hk).mpr (by omega)

theorem binLevel_largeRequestIndex : binLevel (largeRequestIndex k) = fastLog2 k - 1 := by
  rw [largeRequestIndex_eq, binLevel]
  omega

theorem largeRequestIndex_bounds (h : isLargeSize k) (hh : ¬ isHugeSize k) (h8 : 8 ∣ k) :
    32 ≤ largeRequestIndex k ∧ largeRequestIndex k < 64 := by
  have h0 : k ≠ 0 := by
    have : 249 < k := h
    omega
  have h1 := fastLog2_large h h8
  have h2 := fastLog2_not_huge h0 hh
  rw [largeRequestIndex_eq]
  omega

/-- The sizes of a large bin agree above the digit its root looks at. -/
theorem div_largeRequestIndex (h : 256 ≤ k) :
    k / 2 ^ binLevel (largeRequestIndex k) = 2 + largeRequestIndex k % 2 := by
  have hl := le_fastLog2 h
  obtain ⟨h1, h2⟩ := fastLog2_bounds (show k ≠ 0 by omega)
  have hidx := largeRequestIndex_eq (k := k)
  rw [binLevel_largeRequestIndex]
  generalize hm : fastLog2 k - 1 = m at *
  have hlm : fastLog2 k = m + 1 := by omega
  rw [hlm] at h1 h2 hidx
  have hlo : 2 ≤ k / 2 ^ m := by
    rw [Nat.le_div_iff_mul_le (Nat.two_pow_pos m)]
    rw [pow_succ] at h1
    omega
  have hhi : k / 2 ^ m < 4 := by
    rw [Nat.div_lt_iff_lt_mul (Nat.two_pow_pos m)]
    rw [pow_succ, pow_succ] at h2
    omega
  omega

theorem prefix_largeRequestIndex (h : isLargeSize k) (h8 : 8 ∣ k) :
    k / 2 ^ binLevel (largeRequestIndex k) = 2 + largeRequestIndex k % 2 :=
  div_largeRequestIndex (le_of_isLargeSize h h8)

theorem largeRequestIndex_eq_add (h : 256 ≤ k) : largeRequestIndex k =
    16 + 2 * (fastLog2 k - 1) + k / 2 ^ (fastLog2 k - 1) := by
  have h1 := div_largeRequestIndex h
  have h2 := le_fastLog2 h
  have h3 := largeRequestIndex_eq (k := k)
  rw [binLevel_largeRequestIndex] at h1
  omega

/-- Larger bins hold larger sizes. -/
theorem lt_of_largeRequestIndex_lt {j : ℕ} (hj : 256 ≤ j) (hk : 256 ≤ k)
    (h : largeRequestIndex j < largeRequestIndex k) : j < k := by
  by_contra hle
  have hk0 : k ≠ 0 := by omega
  have hlog : fastLog2 k ≤ fastLog2 j :=
    (Nat.le_log2 (by omega)).mpr ((Nat.log2_self_le hk0).trans (not_lt.mp hle))
  have hpj := div_largeRequestIndex hj
  have hpk := div_largeRequestIndex hk
  rw [binLevel_largeRequestIndex] at hpj hpk
  rw [largeRequestIndex_eq_add hj, largeRequestIndex_eq_add hk] at h
  rcases hlog.eq_or_lt with heq | hlt
  · rw [heq] at h
    have := Nat.div_le_div_right (c := 2 ^ (fastLog2 j - 1)) (not_lt.mp hle)
    omega
  · have := le_fastLog2 hk
    omega

/-- Two sizes of one bin differ by less than a factor of two. -/
theorem lt_two_mul_of_index {j : ℕ} (hk : 256 ≤ k) (hj : 256 ≤ j)
    (h : largeRequestIndex k = largeRequestIndex j) : k < 2 * j := by
  have h1 := div_largeRequestIndex hk
  have h2 := div_largeRequestIndex hj
  rw [h, ← h2] at h1
  have hpos : 2 ≤ j / 2 ^ binLevel (largeRequestIndex j) := by omega
  generalize 2 ^ binLevel (largeRequestIndex j) = p at *
  have hp : 0 < p := Nat.pos_of_ne_zero fun h0 => by simp [h0] at hpos
  calc k < p * (k / p + 1) := Nat.lt_mul_div_succ k hp
    _ = p * (j / p) + p := by rw [h1, Nat.mul_succ]
    _ ≤ p * (j / p) + p * (j / p) :=
      Nat.add_le_add_left (Nat.le_mul_of_pos_right p (by omega)) _
    _ ≤ j + j := Nat.add_le_add (Nat.mul_div_le j p) (Nat.mul_div_le j p)
    _ = 2 * j := (Nat.two_mul j).symm

theorem binOf_bounds (h24 : 24 ≤ k) (h8 : 8 ∣ k) : 2 ≤ binOf k ∧ binOf k < 64 := by
  unfold binOf
  split_ifs with hh hl
  · decide
  · have := largeRequestIndex_bounds hl hh h8
    omega
  · have := smallRequestIndex_bounds hl h24
    omega

end Index

/-! ### The collections -/

/-- The bins: the victim, the lists of addresses of the small bins, the trees of the large bins
(addresses under sizes), and the list of the huge chunks. -/
structure Bins : Type where
  victim : Option Slot
  small : ℕ → List ℕ
  large : ℕ → DigitTree ℕ
  huge : List Slot

namespace Bins

/-- The bins of a fresh heap. -/
def empty : Bins := ⟨none, fun _ => [], fun _ => nil, []⟩

/-- What bin `n` holds. -/
def slots (B : Bins) (n : ℕ) : List Slot :=
  if n = HUGE_BIN then B.huge
  else if n < 32 then (B.small n).map (·, 8 * n)
  else (B.large n).entries

/-- The indices of the bins. They are not unfolded: a sum over them is not to be computed. -/
@[irreducible] def indices : Finset ℕ := Finset.range NUM_OF_BINS

theorem mem_indices {n : ℕ} : n ∈ indices ↔ n < NUM_OF_BINS := by
  rw [indices, Finset.mem_range]

/-- What the bins hold besides the victim. -/
def binned (B : Bins) : Multiset Slot := ∑ n ∈ indices, (B.slots n : Multiset Slot)

/-- The victim. -/
def victimSlot (B : Bins) : Multiset Slot := B.victim.elim 0 ({·})

/-- All free chunks held. -/
def held (B : Bins) : Multiset Slot := B.victimSlot + B.binned

/-- Put a chunk into the bin of its size. -/
def insert (e : Slot) (B : Bins) : Bins :=
  if isHugeSize e.2 then { B with huge := e :: B.huge }
  else if isLargeSize e.2 then
    let n := largeRequestIndex e.2
    { B with large := Function.update B.large n ((B.large n).insert e.2 e.1 (binLevel n)) }
  else
    let n := smallRequestIndex e.2
    { B with small := Function.update B.small n (e.1 :: B.small n) }

/-- Take a chunk out of the bin of its size. -/
def unbin (e : Slot) (B : Bins) : Bins :=
  if isHugeSize e.2 then { B with huge := B.huge.erase e }
  else if isLargeSize e.2 then
    let n := largeRequestIndex e.2
    { B with large := Function.update B.large n ((B.large n).remove e.2 e.1 (binLevel n)) }
  else
    let n := smallRequestIndex e.2
    { B with small := Function.update B.small n ((B.small n).erase e.1) }

/-- Take a chunk out of the bins, the victim or another one. -/
def remove (e : Slot) (B : Bins) : Bins :=
  if B.victim = some e then { B with victim := none } else B.unbin e

/-- Every chunk is in the bin of its size, and the trees are routed with one node for each size. -/
structure Sorted (B : Bins) : Prop where
  size : ∀ n < NUM_OF_BINS, ∀ e ∈ B.slots n, 24 ≤ e.2 ∧ 8 ∣ e.2 ∧ binOf e.2 = n
  routed : ∀ n, 32 ≤ n → n < NUM_OF_BINS → (B.large n).Routed (binLevel n) (2 + n % 2)
  distinct : ∀ n, 32 ≤ n → n < NUM_OF_BINS → (B.large n).keys.Nodup

theorem sorted_empty : empty.Sorted := by
  refine ⟨fun n _ e he => ?_, fun n _ _ => routed_nil, fun n _ _ => List.nodup_nil⟩
  simp [slots, empty, entries] at he

@[simp] theorem held_empty : empty.held = 0 := by
  simp [held, victimSlot, binned, slots, empty, entries]

section Edits

variable {B : Bins} {e f : Slot} {n : ℕ}

theorem mem_binned : e ∈ B.binned ↔ ∃ n, n < NUM_OF_BINS ∧ e ∈ B.slots n := by
  rw [binned, Multiset.mem_sum]
  simp only [mem_indices, Multiset.mem_coe]

theorem slots_small (h2 : n ≠ HUGE_BIN) (hn : n < 32) : B.slots n = (B.small n).map (·, 8 * n) := by
  rw [slots, if_neg h2, if_pos hn]

theorem slots_large (hn : 32 ≤ n) : B.slots n = (B.large n).entries := by
  rw [slots, if_neg (by unfold HUGE_BIN; omega), if_neg (by omega)]

theorem slots_huge : B.slots HUGE_BIN = B.huge := if_pos rfl

theorem slots_le_binned (hn : n < NUM_OF_BINS) : (B.slots n : Multiset Slot) ≤ B.binned := by
  rw [binned, ← Finset.add_sum_erase _ _ (mem_indices.mpr hn)]
  exact Multiset.le_add_right _ _

/-- An edit of one bin changes `binned` as it changes that bin. -/
theorem binned_eq_cons {B' : Bins} (hn : n < NUM_OF_BINS)
    (h1 : (B'.slots n : Multiset Slot) = e ::ₘ (B.slots n : Multiset Slot))
    (h2 : ∀ m, m ≠ n → B'.slots m = B.slots m) : B'.binned = e ::ₘ B.binned := by
  have hmem : n ∈ indices := mem_indices.mpr hn
  unfold binned
  rw [← Finset.add_sum_erase _ _ hmem, ← Finset.add_sum_erase _ _ hmem, h1, Multiset.cons_add]
  congr 2
  refine Finset.sum_congr rfl fun m hm => ?_
  rw [h2 m (Finset.ne_of_mem_erase hm)]

/-- The bins other than that of `e` are as before. -/
theorem slots_insert_of_ne (h : n ≠ binOf e.2) : (B.insert e).slots n = B.slots n := by
  unfold insert
  unfold binOf at h
  split_ifs at h ⊢ with hh hl
  · simp only [slots, if_neg h]
  · simp only [slots]
    split_ifs <;> simp [Function.update_of_ne h]
  · simp only [slots]
    split_ifs <;> simp [Function.update_of_ne h]

theorem slots_unbin_of_ne (h : n ≠ binOf e.2) : (B.unbin e).slots n = B.slots n := by
  unfold unbin
  unfold binOf at h
  split_ifs at h ⊢ with hh hl
  · simp only [slots, if_neg h]
  · simp only [slots]
    split_ifs <;> simp [Function.update_of_ne h]
  · simp only [slots]
    split_ifs <;> simp [Function.update_of_ne h]

theorem slots_insert_perm (h24 : 24 ≤ e.2) (h8 : 8 ∣ e.2) :
    ((B.insert e).slots (binOf e.2)).Perm (e :: B.slots (binOf e.2)) := by
  unfold insert binOf
  split_ifs with hh hl
  · simp only [slots_huge]
    exact List.Perm.refl _
  · have hb := largeRequestIndex_bounds hl hh h8
    rw [slots_large hb.1, slots_large hb.1]
    simp only [Function.update_self]
    exact entries_insert _ _ _ _
  · have hb := smallRequestIndex_bounds hl h24
    have hne : smallRequestIndex e.2 ≠ HUGE_BIN := by
      unfold HUGE_BIN
      omega
    have he : 8 * smallRequestIndex e.2 = e.2 := by
      rw [smallRequestIndex_eq hl]
      omega
    rw [slots_small hne hb.2, slots_small hne hb.2]
    simp only [Function.update_self, List.map_cons, he]
    exact List.Perm.refl _

theorem slots_unbin_perm (hs : B.Sorted) (h24 : 24 ≤ e.2) (h8 : 8 ∣ e.2)
    (he : e ∈ B.slots (binOf e.2)) :
    (B.slots (binOf e.2)).Perm (e :: (B.unbin e).slots (binOf e.2)) := by
  unfold unbin
  unfold binOf at he ⊢
  -- a list of huge chunks, a tree, or a list of one size
  split_ifs at he ⊢ with hh hl
  · rw [slots_huge] at he ⊢
    simp only [slots_huge]
    exact List.perm_cons_erase he
  · have hb := largeRequestIndex_bounds hl hh h8
    rw [slots_large hb.1] at he ⊢
    rw [slots_large hb.1]
    simp only [Function.update_self]
    exact entries_remove (hs.routed _ hb.1 hb.2) (hs.distinct _ hb.1 hb.2) he
  · have hb := smallRequestIndex_bounds hl h24
    have hne : smallRequestIndex e.2 ≠ HUGE_BIN := by
      unfold HUGE_BIN
      omega
    have h8e : 8 * smallRequestIndex e.2 = e.2 := by
      rw [smallRequestIndex_eq hl]
      omega
    rw [slots_small hne hb.2] at he ⊢
    rw [slots_small hne hb.2]
    simp only [Function.update_self, h8e] at he ⊢
    have hmem : e.1 ∈ B.small (smallRequestIndex e.2) := by
      obtain ⟨a, ha, hae⟩ := List.mem_map.mp he
      rw [← hae]
      exact ha
    exact (List.perm_cons_erase hmem).map (·, e.2)

theorem binned_insert (h24 : 24 ≤ e.2) (h8 : 8 ∣ e.2) : (B.insert e).binned = e ::ₘ B.binned :=
  binned_eq_cons (binOf_bounds h24 h8).2
    (Multiset.coe_eq_coe.mpr (slots_insert_perm h24 h8))
    fun _ hm => slots_insert_of_ne hm

theorem binned_unbin (hs : B.Sorted) (he : e ∈ B.binned) : B.binned = e ::ₘ (B.unbin e).binned := by
  obtain ⟨n, hn, hen⟩ := mem_binned.mp he
  obtain ⟨h24, h8, rfl⟩ := hs.size n hn e hen
  exact binned_eq_cons hn (Multiset.coe_eq_coe.mpr (slots_unbin_perm hs h24 h8 hen))
    fun _ hm => (slots_unbin_of_ne hm).symm

@[simp] theorem victim_insert : (B.insert e).victim = B.victim := by
  unfold insert
  split_ifs <;> rfl

@[simp] theorem victim_unbin : (B.unbin e).victim = B.victim := by
  unfold unbin
  split_ifs <;> rfl

theorem victimSlot_of_some {v : Slot} (h : B.victim = some v) : B.victimSlot = {v} := by
  rw [victimSlot, h, Option.elim]

theorem victimSlot_of_none (h : B.victim = none) : B.victimSlot = 0 := by
  rw [victimSlot, h, Option.elim]

theorem mem_victimSlot : e ∈ B.victimSlot ↔ B.victim = some e := by
  cases hv : B.victim with
  | none => simp [victimSlot, hv]
  | some v => simp [victimSlot, hv, eq_comm]

@[simp] theorem victimSlot_insert : (B.insert e).victimSlot = B.victimSlot := by
  rw [victimSlot, victim_insert, victimSlot]

@[simp] theorem victimSlot_unbin : (B.unbin e).victimSlot = B.victimSlot := by
  rw [victimSlot, victim_unbin, victimSlot]

/-- What is held and is not the victim is in a bin. -/
theorem mem_binned_of_held (he : e ∈ B.held) (hv : B.victim ≠ some e) : e ∈ B.binned := by
  rw [held, Multiset.mem_add] at he
  exact he.resolve_left fun hm => hv (mem_victimSlot.mp hm)

theorem held_remove (hs : B.Sorted) (he : e ∈ B.held) : B.held = e ::ₘ (B.remove e).held := by
  unfold remove
  split_ifs with hv
  · simp only [held, victimSlot_of_some hv, victimSlot_of_none]
    rw [zero_add, Multiset.singleton_add]
    rfl
  · rw [held, held, binned_unbin hs (mem_binned_of_held he hv), victimSlot_unbin,
      Multiset.add_cons]

/-! ### Edits keep the bins sorted -/

theorem Sorted.mem_slots_binOf (hs : B.Sorted) (he : e ∈ B.binned) :
    24 ≤ e.2 ∧ 8 ∣ e.2 ∧ e ∈ B.slots (binOf e.2) := by
  obtain ⟨n, hn, hen⟩ := mem_binned.mp he
  obtain ⟨h24, h8, rfl⟩ := hs.size n hn e hen
  exact ⟨h24, h8, hen⟩

theorem Sorted.large_of_slots (hs : B.Sorted) (h32 : 32 ≤ n) (hn : n < NUM_OF_BINS)
    (he : e ∈ B.slots n) :
    isLargeSize e.2 ∧ ¬ isHugeSize e.2 ∧ 8 ∣ e.2 ∧ largeRequestIndex e.2 = n := by
  obtain ⟨h24, h8, hbin⟩ := hs.size n hn e he
  unfold binOf at hbin
  split_ifs at hbin with hh hl
  · unfold HUGE_BIN at hbin
    omega
  · exact ⟨hl, hh, h8, hbin⟩
  · have := smallRequestIndex_bounds hl h24
    omega

theorem Sorted.of_victim {v : Option Slot} (hs : B.Sorted) :
    ({ B with victim := v } : Bins).Sorted :=
  ⟨hs.size, hs.routed, hs.distinct⟩

theorem sorted_insert (hs : B.Sorted) (h24 : 24 ≤ e.2) (h8 : 8 ∣ e.2) : (B.insert e).Sorted := by
  refine ⟨fun n hn f hf => ?_, fun n h32 hn => ?_, fun n h32 hn => ?_⟩
  · -- the sizes in bin `n`
    by_cases hne : n = binOf e.2
    · subst hne
      rcases List.mem_cons.mp ((slots_insert_perm h24 h8).mem_iff.mp hf) with rfl | hf
      · exact ⟨h24, h8, rfl⟩
      · exact hs.size _ hn f hf
    · rw [slots_insert_of_ne hne] at hf
      exact hs.size n hn f hf
  -- the trees: only that of the class of `e` has changed
  all_goals
    unfold insert
    split_ifs with hh hl
  · exact hs.routed n h32 hn
  · by_cases hne : n = largeRequestIndex e.2
    · subst hne
      simp only [Function.update_self]
      exact routed_insert (hs.routed _ h32 hn) (prefix_largeRequestIndex hl h8)
    · simp only [Function.update_of_ne hne]
      exact hs.routed n h32 hn
  · exact hs.routed n h32 hn
  · exact hs.distinct n h32 hn
  · by_cases hne : n = largeRequestIndex e.2
    · subst hne
      simp only [Function.update_self]
      exact nodup_keys_insert (hs.routed _ h32 hn) (prefix_largeRequestIndex hl h8)
        (hs.distinct _ h32 hn)
    · simp only [Function.update_of_ne hne]
      exact hs.distinct n h32 hn
  · exact hs.distinct n h32 hn

theorem sorted_unbin (hs : B.Sorted) (he : e ∈ B.binned) : (B.unbin e).Sorted := by
  obtain ⟨h24, h8, hmem⟩ := hs.mem_slots_binOf he
  refine ⟨fun n hn f hf => ?_, fun n h32 hn => ?_, fun n h32 hn => ?_⟩
  · -- the sizes in bin `n`
    by_cases hne : n = binOf e.2
    · subst hne
      exact hs.size _ hn f
        ((slots_unbin_perm hs h24 h8 hmem).mem_iff.mpr (List.mem_cons_of_mem _ hf))
    · rw [slots_unbin_of_ne hne] at hf
      exact hs.size n hn f hf
  -- the trees: only that of the class of `e` has changed
  all_goals
    unfold unbin
    unfold binOf at hmem
    split_ifs at hmem ⊢ with hh hl
  · exact hs.routed n h32 hn
  · by_cases hne : n = largeRequestIndex e.2
    · subst hne
      simp only [Function.update_self]
      rw [slots_large h32] at hmem
      exact routed_remove (hs.routed _ h32 hn) (hs.distinct _ h32 hn) hmem
    · simp only [Function.update_of_ne hne]
      exact hs.routed n h32 hn
  · exact hs.routed n h32 hn
  · exact hs.distinct n h32 hn
  · by_cases hne : n = largeRequestIndex e.2
    · subst hne
      simp only [Function.update_self]
      rw [slots_large h32] at hmem
      exact nodup_keys_remove (hs.routed _ h32 hn) (hs.distinct _ h32 hn) hmem
    · simp only [Function.update_of_ne hne]
      exact hs.distinct n h32 hn
  · exact hs.distinct n h32 hn

theorem sorted_remove (hs : B.Sorted) (he : e ∈ B.held) : (B.remove e).Sorted := by
  unfold remove
  split_ifs with hv
  · exact hs.of_victim
  · exact sorted_unbin hs (mem_binned_of_held he hv)

end Edits

end Bins

end Dlmalloc
