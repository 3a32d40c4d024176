import Dlmalloc.Abstract.Malloc

/-!
# When a search finds nothing

The searches of the bins are complete: they find nothing only if there is nothing to find where they
look. In the request's own bin this is so because every size in it is below the bound the walk
starts from (`lt_two_mul_of_index`) and a size that fits shows on the request's path
(`exists_offered`).
-/

namespace Dlmalloc

open DigitTree

section Own

variable {n r k : ℕ} {t : DigitTree ℕ} {e : Slot}

/-- The best-fit walk finds nothing if and only if nothing in the bin fits. -/
theorem bestFit_eq_none_iff (ht : t.Routed (binLevel n) (2 + n % 2))
    (hsize : ∀ e ∈ t.entries, isLargeSize e.2 ∧ 8 ∣ e.2 ∧ largeRequestIndex e.2 = n)
    (hr : isLargeSize r) (hr8 : 8 ∣ r) (hidx : largeRequestIndex r = n) :
    t.bestFit r (binLevel n) none (2 * r) = none ↔ ∀ e ∈ t.entries, e.2 < r := by
  have hpre : r / 2 ^ binLevel n = 2 + n % 2 := by
    rw [← hidx]
    exact prefix_largeRequestIndex hr hr8
  obtain ⟨hnone, hsome⟩ := bestFit_none_spec ht hpre (show r ≤ 2 * r by omega)
  constructor
  · intro h e he
    by_contra hle
    -- a chunk that fits yields one offered, and sizes of one bin are less than twice each other
    obtain ⟨f, hf, hrf⟩ := exists_offered ht hpre he (not_lt.mp hle)
    have h1 := hnone h f hf hrf
    obtain ⟨h2, h3, h4⟩ := hsize f (offered_subset_entries hf)
    have h5 := lt_two_mul_of_index (le_of_isLargeSize h2 h3) (le_of_isLargeSize hr hr8)
      (h4.trans hidx.symm)
    omega
  · intro h
    cases hfit : t.bestFit r (binLevel n) none (2 * r) with
    | none => rfl
    | some e =>
      obtain ⟨he, hle⟩ := bestFit_mem ht hpre (by omega) hfit
      exact absurd (h e he) (not_lt.mpr hle)

end Own

namespace Bins

variable {B : Bins} {n last left r : ℕ}

/-- The scan finds nothing if and only if all the bins it looks at are empty. -/
theorem scanLarge_eq_none_iff : B.scanLarge last left n = none ↔
    ∀ m, n < m → m ≤ n + left → m ≤ last → B.tree m = .nil := by
  induction left generalizing n with
  | zero =>
    refine iff_of_true rfl fun m h1 h2 => ?_
    omega
  | succ left ih =>
    rw [scanLarge]
    split_ifs with hlast
    · -- the next bin is empty, and the scan goes on, or its root answers
      cases ht : B.tree (n + 1) with
      | nil =>
        rw [ih]
        constructor
        · intro h m h1 h2 h3
          rcases Nat.eq_or_lt_of_le h1 with rfl | h1
          · exact ht
          · exact h m h1 (by omega) h3
        · exact fun h m h1 h2 h3 => h m (by omega) (by omega) h3
      | node k a rest l r =>
        refine iff_of_false (by simp) fun h => ?_
        have h1 := h (n + 1) (by omega) (by omega) (by omega)
        rw [ht] at h1
        cases h1
    · refine iff_of_true rfl fun m h1 h2 h3 => ?_
      omega

theorem findBest_eq_none_iff (hs : B.Sorted) (hr : isLargeSize r) (hr8 : 8 ∣ r)
    (hh : ¬ isHugeSize r) : B.findBest r = none ↔
      (∀ e ∈ (B.large (largeRequestIndex r)).entries, e.2 < r) ∧
      ∀ m, largeRequestIndex r < m → m ≤ largeRequestIndex r + LARGE_BIN_SEARCH_MAX →
        m < NUM_OF_BINS → B.large m = .nil := by
  obtain ⟨hlo, hhi⟩ := largeRequestIndex_bounds hr hh hr8
  have htree : ∀ m, m < NUM_OF_BINS → B.tree m = B.large m := fun m h => if_pos h
  have hout : ∀ m, ¬ m < NUM_OF_BINS → B.tree m = .nil := fun m h => if_neg h
  have hsize : ∀ e ∈ (B.large (largeRequestIndex r)).entries, isLargeSize e.2 ∧ 8 ∣ e.2 ∧
      largeRequestIndex e.2 = largeRequestIndex r := fun e he => by
    obtain ⟨h1, -, h2, h3⟩ := hs.large_of_slots hlo hhi (by rwa [slots_large hlo])
    exact ⟨h1, h2, h3⟩
  rw [findBest, htree _ hhi, Option.or_eq_none_iff, scanLarge_eq_none_iff,
    bestFit_eq_none_iff (hs.routed _ hlo hhi) hsize hr hr8 rfl]
  -- past the last bin there is no tree
  refine and_congr_right fun _ => ⟨fun h m h1 h2 h3 => ?_, fun h m h1 h2 h3 => ?_⟩
  · rw [← htree m h3]
    exact h m h1 h2 (le_of_lt h3)
  · by_cases h64 : m < NUM_OF_BINS
    · rw [htree m h64]
      exact h m h1 h2 h64
    · exact hout m h64

end Bins

namespace Heap

variable {h : Heap} {r : ℕ}

theorem victimMalloc_eq_none_iff :
    victimMalloc r h = none ↔ ∀ v, h.bins.victim = some v → v.2 < r := by
  unfold victimMalloc
  cases hv : h.bins.victim with
  | none => simp
  | some v =>
    simp only [Option.some.injEq, forall_eq']
    have hlt : ∀ m : ℕ, r + SMALLEST_CHUNK ≤ m → r ≤ m := fun m h => by
      unfold SMALLEST_CHUNK SMALLEST_MALLOC at h
      omega
    split_ifs with h1 h2
    · simpa using hlt _ h1
    · simpa using h2
    · simpa using h2

theorem largeMalloc_eq_none_iff (hs : h.bins.Sorted) (hr : isLargeSize r) (hr8 : 8 ∣ r)
    (hh : ¬ isHugeSize r) : largeMalloc r h = none ↔
      (∀ v, h.bins.victim = some v → v.2 < r) ∧
      (∀ e ∈ (h.bins.large (largeRequestIndex r)).entries, e.2 < r) ∧
      ∀ m, largeRequestIndex r < m → m ≤ largeRequestIndex r + LARGE_BIN_SEARCH_MAX →
        m < NUM_OF_BINS → h.bins.large m = .nil := by
  rw [largeMalloc, if_neg hh, Option.or_eq_none_iff, victimMalloc_eq_none_iff,
    Option.map_eq_none_iff, Bins.findBest_eq_none_iff hs hr hr8 hh]

theorem smallMalloc_eq_none_iff : smallMalloc r h = none ↔
    h.bins.small (smallRequestIndex r) = [] ∧ (∀ v, h.bins.victim = some v → v.2 < r) ∧
    ∀ m, 32 ≤ m → m < 32 + LARGE_BIN_SEARCH_MAX → h.bins.large m = .nil := by
  unfold smallMalloc
  cases hb : h.bins.small (smallRequestIndex r) with
  | cons a l => simp
  | nil =>
    rw [Option.or_eq_none_iff, victimMalloc_eq_none_iff, Option.map_eq_none_iff,
      Bins.scanLarge_eq_none_iff]
    simp only [true_and]
    refine and_congr_right fun _ => ⟨fun hm m h1 h2 => ?_, fun hm m h1 h2 h3 => ?_⟩
    · have htree : h.bins.tree m = h.bins.large m :=
        if_pos (by unfold LARGE_BIN_SEARCH_MAX at h2; unfold NUM_OF_BINS; omega)
      rw [← htree]
      unfold LARGE_BIN_SEARCH_MAX at h2 hm
      exact hm m (by omega) (by omega) (by omega)
    · have htree : h.bins.tree m = h.bins.large m := if_pos (by unfold NUM_OF_BINS; omega)
      rw [htree]
      exact hm m (by omega) (by omega)

end Heap

end Dlmalloc
