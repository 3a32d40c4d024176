import Dlmalloc.Abstract.Search
import Dlmalloc.Machine.Reads
import Dlmalloc.Properties.Chunks
import Dlmalloc.Properties.TreeBins

/-!
# The searches

What the searches of the bins read and what they find.

* `search_reads_in_range` — the scan of `find_best_chunk` goes one bin too far, and reads past the
  end of `bins` if nothing stops it before;
* `best_chunk_is_best_fit_iff` — the walk of `find_best_chunk` finds the best fit of a bin if that
  is on the path of the request or at the root of a subtree beside it, and misses it otherwise;
* `fallback_is_exact` — `small_malloc` and `large_malloc` return `NULL` if and only if there is
  nothing in the places they look.
-/

namespace Dlmalloc

open DigitTree Heap

/-! ### What is read -/

/-- Something stops the scan for the request `r` before it leaves `bins`: it is too far from the
end, or the request's own bin has a chunk that fits, or one of the bins after it is not empty. -/
def StaysInBins (r : ℕ) (s : State) : Prop :=
  largeRequestIndex r + LARGE_BIN_SEARCH_MAX < NUM_OF_BINS ∨
    (∃ L, s.binMembers (largeRequestIndex r) = some L ∧ ∃ a ∈ L, r ≤ s.chunkSize a) ∨
    ∃ m, largeRequestIndex r < m ∧ m < NUM_OF_BINS ∧ s.bin m ≠ NULL

section Reads

variable {s s' : State} {B : Bins} {n r last left : ℕ} {t : DigitTree ℕ} {p : Addr} {l : List ℕ}

/-- The scan reads on as long as it finds empty bins. -/
theorem scanLargeBinsReads_run (last left : ℕ) (h : TreeBins s B) (hn : 31 ≤ n) :
    ∃ p l, scanLargeBinsReads last left n s = some ((p, l), s) ∧
      ∀ i, i ∈ l ↔ n < i ∧ i ≤ n + left ∧ i ≤ last ∧ ∀ m, n < m → m < i → s.bin m = NULL := by
  induction left generalizing n with
  | zero =>
    refine ⟨NULL, [], rfl, fun i => ?_⟩
    simp only [List.not_mem_nil, false_iff]
    omega
  | succ left ih =>
    rw [scanLargeBinsReads, M.ite_apply]
    split_ifs with hlast
    · rw [M.bind_apply, bin_apply, Option.bind_some, M.ite_apply]
      dsimp only
      split_ifs with hroot
      · -- the first bin that is not empty
        have h64 : n + 1 < NUM_OF_BINS := by
          by_contra h64
          exact hroot (if_neg h64)
        have hb := h (n + 1) (by omega) h64
        have hbin : s.bin (n + 1) = root (B.large (n + 1)) := hb.tree.1
        have hrun := hb.smallestChunk_run (s.bin (n + 1), s.chunkSize (s.bin (n + 1)))
          hb.height_lt
        rw [← hbin] at hrun
        refine ⟨(leftmost (s.bin (n + 1), s.chunkSize (s.bin (n + 1))) (B.large (n + 1))).1,
          [n + 1], ?_, fun i => ?_⟩
        · rw [M.bind_apply, chunkSize_apply, Option.bind_some, M.bind_apply, hrun]
          rfl
        · rw [List.mem_singleton]
          constructor
          · rintro rfl
            exact ⟨by omega, by omega, by omega, fun m h1 h2 => by omega⟩
          · rintro ⟨h1, h2, h3, h4⟩
            by_contra hne
            exact hroot (h4 (n + 1) (by omega) (by omega))
      · obtain ⟨p, l, hrun, hl⟩ := ih (n := n + 1) (by omega)
        have hnull : s.bin (n + 1) = NULL := not_not.mp hroot
        refine ⟨p, (n + 1) :: l, ?_, fun i => ?_⟩
        · rw [M.bind_apply, hrun]
          rfl
        · rw [List.mem_cons, hl]
          constructor
          · rintro (rfl | ⟨h1, h2, h3, h4⟩)
            · exact ⟨by omega, by omega, by omega, fun m h1 h2 => by omega⟩
            · refine ⟨by omega, by omega, h3, fun m h5 h6 => ?_⟩
              rcases Nat.eq_or_lt_of_le h5 with rfl | h5
              · exact hnull
              · exact h4 m h5 h6
          · rintro ⟨h1, h2, h3, h4⟩
            rcases Nat.eq_or_lt_of_le h1 with rfl | h1
            · exact .inl rfl
            · exact .inr ⟨h1, by omega, h3, fun m h5 h6 => h4 m (by omega) h6⟩
    · refine ⟨NULL, [], rfl, fun i => ?_⟩
      simp only [List.not_mem_nil, false_iff]
      omega

/-- The scan of `small_malloc` stops at its last bin. -/
theorem le_of_scanLargeBinsReads (h : scanLargeBinsReads last left n s = some ((p, l), s')) :
    ∀ i ∈ l, i ≤ last := by
  induction left generalizing n s p l s' with
  | zero =>
    obtain ⟨-, rfl⟩ := Prod.mk.inj (M.pure_eq_some h).1
    simp
  | succ left ih =>
    rw [scanLargeBinsReads, M.ite_apply] at h
    -- the bin read is below the bound just tested
    split_ifs at h with hlast
    · obtain ⟨root, s₁, -, h⟩ := M.bind_eq_some.mp h
      rw [M.ite_apply] at h
      split_ifs at h
      · obtain ⟨size, s₂, -, h⟩ := M.bind_eq_some.mp h
        obtain ⟨best, s₃, -, h⟩ := M.bind_eq_some.mp h
        obtain ⟨-, rfl⟩ := Prod.mk.inj (M.pure_eq_some h).1
        simpa [Nat.succ_le_iff] using hlast
      · obtain ⟨⟨q, l'⟩, s₂, hrec, h⟩ := M.bind_eq_some.mp h
        obtain ⟨-, rfl⟩ := Prod.mk.inj (M.pure_eq_some h).1
        rw [List.forall_mem_cons]
        exact ⟨hlast, ih hrec⟩
    · obtain ⟨-, rfl⟩ := Prod.mk.inj (M.pure_eq_some h).1
      simp

theorem TreeBin.bestFit_eq_none_iff (h : TreeBin s n t) (hr : isLargeSize r) (hr8 : 8 ∣ r)
    (hidx : largeRequestIndex r = n) :
    t.bestFit r (binLevel n) none (2 * r) = none ↔ ∀ e ∈ t.entries, e.2 < r :=
  Dlmalloc.bestFit_eq_none_iff h.routed
    (fun e he => ⟨(h.size e he).1, (h.size e he).2.2.1, (h.size e he).2.2.2⟩) hr hr8 hidx

/-- What fits in a large bin, in terms of its members. -/
theorem TreeBin.exists_fit_iff (h : TreeBin s n t) (h32 : 32 ≤ n) :
    (∃ L, s.binMembers n = some L ∧ ∃ a ∈ L, r ≤ s.chunkSize a) ↔ ∃ e ∈ t.entries, r ≤ e.2 := by
  constructor
  · rintro ⟨L, hL, a, ha, hra⟩
    obtain rfl := Option.some.inj ((h.binMembers_eq h32).symm.trans hL)
    obtain ⟨e, he, rfl⟩ := List.mem_map.mp ha
    exact ⟨e, he, (h.keyed e he) ▸ hra⟩
  · rintro ⟨e, he, hre⟩
    exact ⟨_, h.binMembers_eq h32, e.1, List.mem_map_of_mem he, (h.keyed e he).symm ▸ hre⟩

/-- The reads of `find_best_chunk`. -/
theorem findBestChunkReads_run (h : TreeBins s B) (hr : isLargeSize r) (hh : ¬ isHugeSize r)
    (h8 : 8 ∣ r) : ∃ p l, findBestChunkReads r s = some ((p, l), s) ∧
      ((∀ i ∈ l, i < NUM_OF_BINS) ↔ StaysInBins r s) := by
  obtain ⟨h32, h64⟩ := largeRequestIndex_bounds hr hh h8
  have hb := h _ h32 h64
  have hbound : 2 * r % 2 ^ 64 = 2 * r := by
    have : r ≤ 16777215 := not_lt.mp hh
    omega
  have hwalk := hb.findBest_run r (2 * r) hb.height_lt
  have hfit := hb.exists_fit_iff (r := r) h32
  have hnone := hb.bestFit_eq_none_iff hr h8 rfl
  rw [findBestChunkReads]
  simp only [M.bind_apply, bin_apply, Option.bind_some, hbound, hwalk, M.ite_apply]
  cases hbest : (B.large (largeRequestIndex r)).bestFit r (binLevel (largeRequestIndex r)) none
      (2 * r) with
  -- the tree has a fit: only its own bin is read
  | some e =>
    obtain ⟨hmem, hle⟩ := bestFit_mem hb.routed (prefix_of_index hr h8 rfl) (by omega) hbest
    have he0 : e.1 ≠ NULL := (hb.spread.link_cells ⟨e.2, hmem⟩).2.2.2
    rw [pointer_some, if_pos he0]
    refine ⟨_, _, rfl, iff_of_true (fun i hi => ?_) (.inr (.inl (hfit.mpr ⟨e, hmem, hle⟩)))⟩
    rw [List.mem_singleton.mp hi]
    exact h64
  -- no fit: the scan goes on to the bins behind
  | none =>
    rw [pointer_none, if_neg (by simp)]
    obtain ⟨p, l, hrun, hl⟩ := scanLargeBinsReads_run 64 LARGE_BIN_SEARCH_MAX h
      (n := largeRequestIndex r) (by omega)
    refine ⟨p, largeRequestIndex r :: l, ?_, ?_⟩
    · rw [hrun]
      rfl
    -- the scan leaves the array exactly when it reads `bins[64]`
    have hout : (∀ i ∈ largeRequestIndex r :: l, i < NUM_OF_BINS) ↔ NUM_OF_BINS ∉ l := by
      rw [List.forall_mem_cons]
      refine ⟨fun h hmem => (h.2 _ hmem).ne rfl, fun h => ⟨h64, fun i hi => ?_⟩⟩
      refine lt_of_le_of_ne ((hl i).mp hi).2.2.1 fun heq => h (heq ▸ hi)
    have hnofit : ¬ ∃ L, s.binMembers (largeRequestIndex r) = some L ∧
        ∃ a ∈ L, r ≤ s.chunkSize a := by
      rw [hfit]
      rintro ⟨e, he, hre⟩
      exact absurd (hnone.mp hbest e he) (not_lt.mpr hre)
    rw [hout, hl, StaysInBins]
    simp only [hnofit, false_or]
    constructor
    · intro hstop
      by_contra hnot
      rw [not_or, not_exists] at hnot
      refine hstop ⟨h64, by unfold NUM_OF_BINS at *; omega, le_rfl, fun m h1 h2 => ?_⟩
      by_contra hm
      exact hnot.2 m ⟨h1, h2, hm⟩
    · rintro (hfar | ⟨m, h1, h2, hm⟩) ⟨-, hreach, -, hall⟩
      · omega
      · exact hm (hall m h1 h2)

/-- `small_malloc` reads inside `bins`, whatever they hold. -/
theorem lt_of_smallMallocReads (hr : ¬ isLargeSize r)
    (h : smallMallocReads r s = some ((p, l), s')) : ∀ i ∈ l, i < NUM_OF_BINS := by
  have hi : smallRequestIndex r < NUM_OF_BINS := by
    have : r ≤ 249 := not_lt.mp hr
    rw [smallRequestIndex_eq hr, NUM_OF_BINS]
    omega
  have hv : VICTIM_BIN < NUM_OF_BINS := by decide
  rw [smallMallocReads] at h
  obtain ⟨result, s₁, -, h⟩ := M.bind_eq_some.mp h
  rw [M.ite_apply] at h
  split_ifs at h
  · obtain ⟨_, s₂, -, h⟩ := M.bind_eq_some.mp h
    obtain ⟨-, rfl⟩ := Prod.mk.inj (M.pure_eq_some h).1
    simpa using hi
  obtain ⟨result, s₂, -, h⟩ := M.bind_eq_some.mp h
  rw [M.ite_apply] at h
  split_ifs at h
  · obtain ⟨-, rfl⟩ := Prod.mk.inj (M.pure_eq_some h).1
    simpa using hi
  -- the small bins are not searched
  have hsmall : scanSmallBinsReads r (smallRequestIndex r) 32 (smallRequestIndex r + 1) =
      pure (NULL, []) := by
    rw [scanSmallBinsReads, if_neg (by simp [SMALL_BIN_SEARCH_MAX])]
  rw [hsmall, pure_bind] at h
  dsimp only at h
  rw [if_neg (by simp)] at h
  obtain ⟨⟨best, reads⟩, s₃, hscan, h⟩ := M.bind_eq_some.mp h
  have hl : l = smallRequestIndex r :: VICTIM_BIN :: ([] ++ reads) := by
    dsimp only at h
    rw [M.ite_apply] at h
    split_ifs at h
    · obtain ⟨_, s₄, -, h⟩ := M.bind_eq_some.mp h
      obtain ⟨_, s₅, -, h⟩ := M.bind_eq_some.mp h
      exact (Prod.mk.inj (M.pure_eq_some h).1).2.symm
    · exact (Prod.mk.inj (M.pure_eq_some h).1).2.symm
  subst hl
  rw [List.forall_mem_cons, List.forall_mem_cons, List.nil_append]
  exact ⟨hi, hv, fun i hi => (le_of_scanLargeBinsReads hscan i hi).trans_lt (by decide)⟩

end Reads

variable {s : State} {S : Multiset Slot} {B : Bins} {r : ℕ} {y : System}

/-- Whatever trees the large bins hold, `find_best_chunk` reads inside `bins` if and only if
something stops it before their end. `small_malloc` always does. -/
theorem search_reads_in_range (hb : TreeBins s B) (h8 : 8 ∣ r) :
    (isLargeSize r → ¬ isHugeSize r → ∃ p reads, findBestChunkReads r s = some ((p, reads), s) ∧
      ((∀ i ∈ reads, i < NUM_OF_BINS) ↔ StaysInBins r s)) ∧
    (¬ isLargeSize r → ∀ s₀ p reads s', smallMallocReads r s₀ = some ((p, reads), s') →
      ∀ i ∈ reads, i < NUM_OF_BINS) :=
  ⟨fun hl hh => findBestChunkReads_run hb hl hh h8, fun hl _ _ _ _ h => lt_of_smallMallocReads hl h⟩

theorem treeBins_blank : TreeBins (System.blank 16).state .empty := fun n _ hn => by
  have hbins : ∀ n < NUM_OF_BINS, n ≠ END_OF_HEAP_BIN → (System.blank 16).state.bin n = NULL := by
    decide +kernel
  exact treeBin_nil (hbins n hn (by unfold END_OF_HEAP_BIN; omega))

theorem search_reads_in_range_blank :
    ∃ p reads, findBestChunkReads 16777208 (System.blank 16).state =
      some ((p, reads), (System.blank 16).state) ∧
      ((∀ i ∈ reads, i < NUM_OF_BINS) ↔ StaysInBins 16777208 (System.blank 16).state) :=
  (search_reads_in_range treeBins_blank (by decide)).1 (by decide) (by decide)

/-- With all large bins empty the search for the largest request of them reads `bins[64]`. -/
theorem not_always_reads_in_range : ∃ p reads, TreeBins (System.blank 16).state .empty ∧
    findBestChunkReads 16777208 (System.blank 16).state =
      some ((p, reads), (System.blank 16).state) ∧ NUM_OF_BINS ∈ reads := by
  refine ⟨NULL, [63, 64], treeBins_blank, ?_, by decide⟩
  obtain ⟨p, reads, hrun, -⟩ := findBestChunkReads_run treeBins_blank (r := 16777208) (by decide)
    (by decide) (by decide)
  have hcomp : (findBestChunkReads 16777208 (System.blank 16).state).map Prod.fst =
      some (NULL, [63, 64]) := by decide +kernel
  have heq : (p, reads) = (NULL, [63, 64]) := by
    rw [hrun] at hcomp
    exact Option.some.inj hcomp
  rw [hrun, heq]

/-! ### The best fit of a bin -/

/-- The walk for the request `r` comes past a chunk of the bin `n` that is the best fit in it: one
on the path of `r`, or one at the root of a right subtree that hangs off this path. -/
def BestFitOffered (r n : ℕ) (t : DigitTree ℕ) (S : Multiset Slot) : Prop :=
  ∃ f ∈ t.offered r (binLevel n), r ≤ f.2 ∧ ∀ g ∈ ofBin n S, r ≤ g.2 → f.2 ≤ g.2

/-- If a chunk of the request's own bin fits, then `find_best_chunk` returns one of them. It is the
best fit if and only if the walk comes past a best fit: it does not look into the right subtrees
that hang off its path, but at their roots. -/
theorem best_chunk_is_best_fit_iff (h : TreeRun s S) (hl : isLargeSize r) (hh : ¬ isHugeSize r)
    (h8 : 8 ∣ r) (hfit : ∃ e ∈ ofBin (largeRequestIndex r) S, r ≤ e.2) :
    ∃ t : DigitTree ℕ, WellFormed s (largeRequestIndex r) t ∧
      (t.entries : Multiset Slot) = ofBin (largeRequestIndex r) S ∧
      ∃ e ∈ ofBin (largeRequestIndex r) S, findBestChunk r s = some (e.1, s) ∧ r ≤ e.2 ∧
        ((∀ f ∈ ofBin (largeRequestIndex r) S, r ≤ f.2 → e.2 ≤ f.2) ↔
          BestFitOffered r (largeRequestIndex r) t S) := by
  obtain ⟨lo, hp⟩ := h.planted
  obtain ⟨B, hB, hS⟩ := hp.treeBins
  obtain ⟨h32, h64⟩ := largeRequestIndex_bounds hl hh h8
  have ht := hB _ h32 h64
  have hents := hS _ h32 h64
  have htree : B.tree (largeRequestIndex r) = B.large (largeRequestIndex r) := if_pos h64
  have hpre := prefix_of_index hl h8 (n := largeRequestIndex r) rfl
  have hmem : ∀ e, e ∈ ofBin (largeRequestIndex r) S ↔
      e ∈ (B.large (largeRequestIndex r)).entries := fun e => by rw [← hents, Multiset.mem_coe]
  refine ⟨_, ht.wellFormed, hents, ?_⟩
  obtain ⟨-, hsome⟩ := bestFit_none_spec ht.routed hpre (show r ≤ 2 * r by omega)
  -- something that fits is on offer, and below the bound the walk starts from
  cases hbest : (B.large (largeRequestIndex r)).bestFit r (binLevel (largeRequestIndex r)) none
      (2 * r) with
  | none =>
    obtain ⟨e, he, hre⟩ := hfit
    exact absurd ((ht.bestFit_eq_none_iff hl h8 rfl).mp hbest e ((hmem e).mp he)) (not_lt.mpr hre)
  | some e =>
    obtain ⟨hoff, hre, -, hleast⟩ := hsome e hbest
    have hrun : findBestChunk r s = some (e.1, s) := by
      rw [findBestChunk_run hB hl hh h8, Bins.findBest, htree, hbest]
      rfl
    refine ⟨e, (hmem e).mpr (offered_subset_entries hoff), hrun, hre, fun hmin => ?_, ?_⟩
    · exact ⟨e, hoff, hre, hmin⟩
    · rintro ⟨f, hf, hrf, hmin⟩ g hg hrg
      exact (hleast f hf hrf).trans (hmin g hg hrg)

theorem best_chunk_is_best_fit_iff_threeChunks :
    ∃ t : DigitTree ℕ, WellFormed threeChunks (largeRequestIndex 264) t ∧
      (t.entries : Multiset Slot) =
        ofBin (largeRequestIndex 264) ((664, 320) ::ₘ (280, 376) ::ₘ (16, 256) ::ₘ 0) ∧
      ∃ e ∈ ofBin (largeRequestIndex 264) ((664, 320) ::ₘ (280, 376) ::ₘ (16, 256) ::ₘ 0),
        findBestChunk 264 threeChunks = some (e.1, threeChunks) ∧ 264 ≤ e.2 ∧
        ((∀ f ∈ ofBin (largeRequestIndex 264) ((664, 320) ::ₘ (280, 376) ::ₘ (16, 256) ::ₘ 0),
            264 ≤ f.2 → e.2 ≤ f.2) ↔
          BestFitOffered 264 (largeRequestIndex 264) t
            ((664, 320) ::ₘ (280, 376) ::ₘ (16, 256) ::ₘ 0)) :=
  best_chunk_is_best_fit_iff treeRun_threeChunks (by decide) (by decide) (by decide)
    ⟨(664, 320), by decide +kernel, by decide⟩

/-- The chunk of size 320 fits the request of 264 best, but the walk sees only its parent, of size
376, which is the root of the right subtree. -/
theorem not_always_best_fit : ∃ s S e, TreeRun s S ∧ e ∈ ofBin (largeRequestIndex 264) S ∧
    264 ≤ e.2 ∧ ∃ c, findBestChunk 264 s = some (c, s) ∧ e.2 < s.chunkSize c := by
  refine ⟨threeChunks, _, (664, 320), treeRun_threeChunks, by decide +kernel, by decide, 280, ?_,
    by decide +kernel⟩
  obtain ⟨lo, hp⟩ := treeRun_threeChunks.planted
  obtain ⟨B, hB, -⟩ := hp.treeBins
  have hrun := findBestChunk_run hB (r := 264) (by decide) (by decide) (by decide)
  have hcomp : (findBestChunk 264 threeChunks).map Prod.fst = some 280 := by decide +kernel
  have heq : pointer (Bins.findBest 264 B) = 280 := by
    rw [hrun] at hcomp
    exact Option.some.inj hcomp
  rw [hrun, heq]

/-! ### The smallest chunk of a bin -/

/-- The walk down a bin that is not empty, as the scan over the large bins starts it, returns a
chunk of the least size in the whole bin, and the scan returns that chunk. -/
theorem smallest_chunk_is_least {n : ℕ} (h : TreeRun s S) (h32 : 32 ≤ n) (hn : n < NUM_OF_BINS)
    (hroot : s.bin n ≠ NULL) :
    ∃ e ∈ ofBin n S,
      smallestChunkLoop MAX_HEAP (s.bin n) (s.bin n) (s.chunkSize (s.bin n)) s = some (e.1, s) ∧
      s.chunkSize e.1 = e.2 ∧ (∀ f ∈ ofBin n S, e.2 ≤ f.2) ∧
      ∀ last left, n ≤ last → scanLargeBins last (left + 1) (n - 1) s = some (e.1, s) := by
  obtain ⟨lo, hp⟩ := h.planted
  obtain ⟨t, ht, hents⟩ := hp.bin n h32 hn
  have hmem : ∀ f, f ∈ ofBin n S ↔ f ∈ t.entries := fun f => by rw [← hents, Multiset.mem_coe]
  have hrun := ht.smallestChunk_run (s.bin n, s.chunkSize (s.bin n)) ht.height_lt
  obtain ⟨-, hle⟩ := leftmost_le ht.routed (s.bin n, s.chunkSize (s.bin n))
  have hent : leftmost (s.bin n, s.chunkSize (s.bin n)) t ∈ t.entries := by
    -- the candidate to start from is the root itself
    refine (leftmost_mem _ t).elim (fun heq => heq ▸ ?_) id
    obtain ⟨k, a, rest, l, r, rfl⟩ : ∃ k a rest l r, t = node k a rest l r := by
      cases t with
      | nil => exact absurd (ht.bin_eq_null.mpr rfl) hroot
      | node k a rest l r => exact ⟨k, a, rest, l, r, rfl⟩
    have ha : (a, k) ∈ (node k a rest l r).entries := by simp [entries]
    have hbin : s.bin n = a := ht.tree.1
    rwa [hbin, ht.keyed _ ha]
  rw [← ht.tree.1] at hrun
  refine ⟨_, (hmem _).mpr hent, hrun, ht.keyed _ hent, fun f hf => ?_, fun last left hlast => ?_⟩
  · exact hle f.2 (mem_keys_of_mem_entries ((hmem f).mp hf))
  · have hn1 : n - 1 + 1 = n := by omega
    rw [scanLargeBins, M.ite_apply, if_pos (by omega), hn1, M.bind_apply, bin_apply,
      Option.bind_some, M.ite_apply, if_pos hroot, M.bind_apply, chunkSize_apply, Option.bind_some]
    exact hrun

/-- In the bin of three chunks the least one is the root. -/
theorem smallest_chunk_is_least_threeChunks :
    ∃ e ∈ ofBin 32 ((664, 320) ::ₘ (280, 376) ::ₘ (16, 256) ::ₘ 0),
      smallestChunkLoop MAX_HEAP (threeChunks.bin 32) (threeChunks.bin 32)
        (threeChunks.chunkSize (threeChunks.bin 32)) threeChunks = some (e.1, threeChunks) ∧
      threeChunks.chunkSize e.1 = e.2 ∧
      (∀ f ∈ ofBin 32 ((664, 320) ::ₘ (280, 376) ::ₘ (16, 256) ::ₘ 0), e.2 ≤ f.2) ∧
      ∀ last left, 32 ≤ last →
        scanLargeBins last (left + 1) (32 - 1) threeChunks = some (e.1, threeChunks) :=
  smallest_chunk_is_least treeRun_threeChunks (by decide) (by decide) (by decide +kernel)

/-! ### When a search falls through -/

/-- The victim is no use for the request `r`. -/
def VictimTooSmall (r : ℕ) (s : State) : Prop :=
  s.bin VICTIM_BIN = NULL ∨ s.chunkSize (s.bin VICTIM_BIN) < r

/-- The chunk `p` was found for the request `r`: it is of that size at least, and in no bin. -/
def Taken (r : ℕ) (p : Addr) (s : State) : Prop :=
  r ≤ s.chunkSize p ∧ ∀ n < NUM_OF_BINS, ∃ L, s.binMembers n = some L ∧ p ∉ L

section Fallback

variable {full : Prop} {ext n : ℕ} {h h' : Heap} {s s' : State} {r p : ℕ} {e : Slot}
  {o : Option (ℕ × Heap)}

/-- A free chunk held outside the bins is no member of them. -/
theorem Heap.Shape.notMem_members (hs : Shape ext (e ::ₘ h.bins.victimSlot) h)
    (hn : n < NUM_OF_BINS) : e.1 ∉ h.members n := by
  have hnd : (e ::ₘ (h.bins.victimSlot + h.bins.binned)).Nodup := by
    rw [← Multiset.cons_add]
    exact hs.nodup
  have hfree : ∀ f, f = e ∨ f ∈ h.bins.victimSlot + h.bins.binned → f ∈ freeSlots h.chunks :=
    fun f hf => by rwa [← hs.account, Multiset.cons_add, Multiset.mem_cons]
  -- a free chunk at the same address is the same chunk
  have hne : ∀ f ∈ h.bins.victimSlot + h.bins.binned, f.1 ≠ e.1 := fun f hf hfe => by
    have heq := hs.spread.eq_of_addr (e := f) (f := e) (hfree f (.inr hf)) (hfree e (.inl rfl)) hfe
    exact (Multiset.nodup_cons.mp hnd).1 (heq ▸ hf)
  unfold Heap.members
  split_ifs with h0 h1 <;> intro hmem
  · obtain ⟨pre, t, hL, ht, htop, -⟩ := hs.exists_top
    obtain ⟨pre', c, post, hL', rfl, hst⟩ := hs.mem_free (.inl (Multiset.mem_cons_self e _))
    have hct : c.addr = t.addr := (List.mem_singleton.mp hmem).trans (by rw [htop]; rfl)
    obtain rfl := hs.tiles.eq_of_addr_eq (by simp [hL']) (by simp [hL]) hct
    rw [ht] at hst
    cases hst
  · obtain ⟨v, hv, hve⟩ := List.mem_map.mp hmem
    have hv' : v ∈ h.bins.victimSlot := Bins.mem_victimSlot.mpr (Option.mem_toList.mp hv)
    exact hne v (Multiset.mem_add.mpr (.inl hv')) hve
  · obtain ⟨f, hf, hfe⟩ := List.mem_map.mp hmem
    exact hne f (Multiset.mem_add.mpr (.inr (Bins.mem_binned.mpr ⟨n, hn, hf⟩))) hfe

/-- What a search returns is taken. -/
theorem Served.taken {U : Set Slot} (hserved : Served U s o p s')
    (hfound : ∀ a h', o = some (a, h') →
      ∃ pre c n post rest, c.addr = a ∧ Found ext r h h' pre c n post rest) :
    (p = NULL ↔ o = none) ∧ (p ≠ NULL → Taken r p s') := by
  cases o with
  | none => exact ⟨iff_of_true hserved.1 rfl, fun hp => absurd hserved.1 hp⟩
  | some out =>
    obtain ⟨a, h'⟩ := out
    obtain ⟨rfl, hp0, hm', -⟩ := hserved
    refine ⟨iff_of_false hp0 (by simp), fun _ => ?_⟩
    obtain ⟨pre, c, n, post, rest, rfl, hf⟩ := hfound _ _ rfl
    have hc : (⟨c.addr, n, .free, c.pinuse⟩ : Chunk) ∈ h'.chunks := by simp [hf.after]
    refine ⟨?_, fun j hj => ?_⟩
    · rw [hm'.toRep.chunkSize hf.shape hc]
      exact hf.least
    · have hshape : Shape ext (h'.bins.victimSlot + {(c.addr, n)}) h' := by
        rw [add_comm, Multiset.singleton_add]
        exact hf.shape
      exact ⟨_, hm'.members_of_shape hshape hj, hf.shape.notMem_members hj⟩

theorem Models.victimTooSmall_iff (hm : Models s h) (hi : Inv full ext h) :
    VictimTooSmall r s ↔ ∀ v, h.bins.victim = some v → v.2 < r := by
  have hv := hm.victim
  unfold VictimTooSmall
  cases hvic : h.bins.victim with
  | none =>
    rw [hvic, pointer_none] at hv
    simp [hv]
  | some v =>
    rw [hvic, pointer_some] at hv
    obtain ⟨pre, c, post, hL, rfl, -⟩ :=
      hi.shape.mem_free (.inl (Bins.mem_victimSlot.mpr hvic))
    have h0 := hi.shape.pos_of_free (.inl (Bins.mem_victimSlot.mpr hvic))
    have hsize : s.chunkSize c.slot.1 = c.slot.2 :=
      hm.toRep.chunkSize hi.shape (Shape.mem_chunks hL)
    simp [hv, h0, hsize]

/-- A small bin is empty if and only if its pointer is `NULL`. -/
theorem Models.small_eq_nil_iff (hm : Models s h) (hi : Inv full ext h) (h3 : 3 ≤ n) (hn : n < 32) :
    h.bins.small n = [] ↔ s.bin n = NULL := by
  have h2 : n ≠ HUGE_BIN := by
    unfold HUGE_BIN
    omega
  have hrep := hm.bin n (by omega) (by unfold NUM_OF_BINS; omega)
  rw [BinRep.small h2 hn] at hrep
  cases hl : h.bins.small n with
  | nil =>
    rw [hl] at hrep
    exact iff_of_true rfl hrep.1
  | cons a l =>
    rw [hl] at hrep
    have hbin : s.bin n = a := hrep.1
    have hmem := Bins.mem_binned_small (B := h.bins) (a := a) h3 hn (by simp [hl])
    refine iff_of_false (by simp) ?_
    rw [hbin]
    exact hi.shape.pos_of_free (.inr hmem)

end Fallback

/-- `large_malloc` and `small_malloc` fall through to the end of the heap if and only if nothing
fits where they look. -/
theorem fallback_is_exact (hy : Reachable EXTENSION_SIZE (Sized LARGEST_SIZE) y) (h8 : 8 ∣ r)
    (h24 : 24 ≤ r) :
    (isLargeSize r → ∃ p s', largeMalloc r y.state = some (p, s') ∧ (p ≠ NULL → Taken r p s') ∧
      (¬ isHugeSize r → (p = NULL ↔ VictimTooSmall r y.state ∧
        (∃ L, y.state.binMembers (largeRequestIndex r) = some L ∧
          ∀ a ∈ L, y.state.chunkSize a < r) ∧
        ∀ m, largeRequestIndex r < m → m ≤ min (largeRequestIndex r + 16) 63 →
          y.state.bin m = NULL))) ∧
    (¬ isLargeSize r → ∃ p s', smallMalloc r y.state = some (p, s') ∧ (p ≠ NULL → Taken r p s') ∧
      (p = NULL ↔ y.state.bin (r / 8) = NULL ∧ VictimTooSmall r y.state ∧
        ∀ m, 32 ≤ m → m ≤ 47 → y.state.bin m = NULL)) := by
  obtain ⟨σ, ht⟩ := hy.tracks_default
  have hm := ht.follows.models
  have hi := ht.good.inv
  have hs := hi.shape
  have hq : Request r := ⟨h8, h24⟩
  have hB := (hm.toRep.holds hs).treeBins
  have hnull : ∀ m, 32 ≤ m → m < NUM_OF_BINS →
      (σ.heap.bins.large m = .nil ↔ y.state.bin m = NULL) :=
    fun m h32 hm => (hB m h32 hm).bin_eq_null.symm
  constructor
  · intro hl
    obtain ⟨p, s', hrun, hserved⟩ := largeMalloc_spec hm hi hq hl
    obtain ⟨hnone, htaken⟩ := hserved.taken fun a h' ho => found_of_large hi hq hl ho
    refine ⟨p, s', hrun, htaken, fun hh => ?_⟩
    obtain ⟨h32, h64⟩ := largeRequestIndex_bounds hl hh h8
    have ht := hB _ h32 h64
    -- the chunks of the own bin, as the walk lists them
    have hown : (∃ L, y.state.binMembers (largeRequestIndex r) = some L ∧
        ∀ a ∈ L, y.state.chunkSize a < r) ↔
        ∀ e ∈ (σ.heap.bins.large (largeRequestIndex r)).entries, e.2 < r := by
      constructor
      · rintro ⟨L, hL, hall⟩ e he
        obtain rfl := Option.some.inj ((ht.binMembers_eq h32).symm.trans hL)
        exact ht.keyed e he ▸ hall e.1 (List.mem_map_of_mem he)
      · refine fun hall => ⟨_, ht.binMembers_eq h32, fun a ha => ?_⟩
        obtain ⟨e, he, rfl⟩ := List.mem_map.mp ha
        exact (ht.keyed e he).symm ▸ hall e he
    -- the three places it looks at
    rw [hnone, largeMalloc_eq_none_iff hs.sorted hl h8 hh, hm.victimTooSmall_iff hi, hown]
    refine and_congr_right fun _ => and_congr_right fun _ => forall_congr' fun m => ?_
    unfold LARGE_BIN_SEARCH_MAX NUM_OF_BINS
    constructor
    · intro hall h1 h2
      exact (hnull m (by omega) (by unfold NUM_OF_BINS; omega)).mp (hall h1 (by omega) (by omega))
    · intro hall h1 h2 h3
      exact (hnull m (by omega) (by unfold NUM_OF_BINS; omega)).mpr (hall h1 (by omega))
  · intro hl
    obtain ⟨p, s', hrun, hserved⟩ := smallMalloc_spec hm hi hq hl
    obtain ⟨hnone, htaken⟩ := hserved.taken fun a h' ho => found_of_small hi hq hl ho
    refine ⟨p, s', hrun, htaken, ?_⟩
    obtain ⟨h3, h32⟩ := smallRequestIndex_bounds hl h24
    -- the three places it looks at
    rw [hnone, smallMalloc_eq_none_iff, hm.victimTooSmall_iff hi,
      hm.small_eq_nil_iff hi h3 h32, smallRequestIndex_eq hl]
    refine and_congr_right fun _ => and_congr_right fun _ => forall_congr' fun m => ?_
    unfold LARGE_BIN_SEARCH_MAX
    constructor
    · intro hall h1 h2
      exact (hnull m h1 (by unfold NUM_OF_BINS; omega)).mp (hall h1 (by omega))
    · intro hall h1 h2
      exact (hnull m h1 (by unfold NUM_OF_BINS; omega)).mpr (hall h1 (by omega))

/-- With two chunks in bin 38: one is found for a request of its size and one for a small request,
and there is none for a request above the bins that are not empty. -/
theorem fallback_is_exact_stocked : ∃ y, Reachable EXTENSION_SIZE (Sized LARGEST_SIZE) y ∧
    y.state.binMembers 38 = some [17000056, 17003096] ∧
    (∃ p s', largeMalloc 2600 y.state = some (p, s') ∧ p ≠ NULL ∧ Taken 2600 p s') ∧
    (∃ p s', smallMalloc 24 y.state = some (p, s') ∧ p ≠ NULL ∧ Taken 24 p s') ∧
    ∃ s', largeMalloc 8000 y.state = some (NULL, s') := by
  obtain ⟨y, hreach, hy⟩ := exists_stocked
  have hm := hy.follows.models
  have hi := hy.good.inv
  have hs := hi.shape
  have hB := (hm.toRep.holds hs).treeBins
  have h38 : y.state.binMembers 38 = some [17000056, 17003096] :=
    (hm.members_eq hi (by decide)).trans (by decide +kernel)
  refine ⟨y, hreach, h38, ?_, ?_, ?_⟩
  · -- the chunk of 2600 bytes in bin 38
    obtain ⟨p, s', hrun, htaken, hnull⟩ :=
      (fallback_is_exact (r := 2600) hreach (by decide) (by decide)).1 (by decide)
    have hp : p ≠ NULL := fun hp => by
      obtain ⟨-, ⟨L, hL, hall⟩, -⟩ := (hnull (by decide)).mp hp
      obtain rfl := Option.some.inj (h38.symm.trans hL)
      have hsize := hm.toRep.chunkSize hs (c := ⟨17003096, 2600, .free, true⟩) (by decide +kernel)
      have hlt := hall 17003096 (by decide)
      exact absurd (hsize ▸ hlt) (by decide)
    exact ⟨p, s', hrun, hp, htaken hp⟩
  · -- no small chunk, and bin 38 is not empty
    obtain ⟨p, s', hrun, htaken, hnull⟩ :=
      (fallback_is_exact (r := 24) hreach (by decide) (by decide)).2 (by decide)
    have hp : p ≠ NULL := fun hp => by
      have hempty := (hB 38 (by decide) (by decide)).bin_eq_null.mp
        ((hnull.mp hp).2.2 38 (by decide) (by decide))
      exact absurd (congrArg addrs hempty) (by decide +kernel)
    exact ⟨p, s', hrun, hp, htaken hp⟩
  · -- the bins from that of 8000 bytes on are empty
    obtain ⟨p, s', hrun, -, hnull⟩ :=
      (fallback_is_exact (r := 8000) hreach (by decide) (by decide)).1 (by decide)
    have hslots : ∀ m < NUM_OF_BINS, largeRequestIndex 8000 ≤ m →
        stockedSession.heap.bins.slots m = [] := by
      decide +kernel
    have hown : y.state.binMembers (largeRequestIndex 8000) = some [] :=
      (hm.members_eq hi (by decide)).trans (by decide +kernel)
    have hp : p = NULL := (hnull (by decide)).mpr ⟨.inl (hm.victim.trans (by decide +kernel)),
      ⟨[], hown, by simp⟩, fun m h1 h2 => by
        have h64 : m < NUM_OF_BINS := by
          unfold NUM_OF_BINS
          omega
        have h32 : 32 ≤ largeRequestIndex 8000 := by decide
        exact hm.toRep.bin_eq_null (by omega) h64 (hslots m h64 h1.le)⟩
    exact ⟨s', hp ▸ hrun⟩

end Dlmalloc
