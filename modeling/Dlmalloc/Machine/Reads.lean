import Dlmalloc.Machine.Alloc

/-!
# The searches with the indexes they read

`small_malloc` and `find_best_chunk` once more, each returning with its result the indexes at which
it reads `bins` on the way. Without the indexes they are the functions themselves
(`findBestChunkReads_fst`, `smallMallocReads_fst`).
-/

namespace Dlmalloc

def scanLargeBinsReads (last : ℕ) : ℕ → ℕ → M (Addr × List ℕ)
  | 0, _ => return (NULL, [])
  | left + 1, n => do
    if n < last then
      let root ← bin (n + 1)
      if root ≠ NULL then
        let best ← smallestChunkLoop MAX_HEAP root root (← chunkSize root)
        return (best, [n + 1])
      else
        let (best, reads) ← scanLargeBinsReads last left (n + 1)
        return (best, (n + 1) :: reads)
    else
      return (NULL, [])

def scanSmallBinsReads (request i : ℕ) : ℕ → ℕ → M (Addr × List ℕ)
  | 0, _ => return (NULL, [])
  | left + 1, j => do
    if j < 32 ∧ j - i < SMALL_BIN_SEARCH_MAX then
      let result ← bin j
      if result ≠ NULL then
        let _ ← removeSmallChunk result
        splitOffVictim result request
        return (result, [j])
      let (result, reads) ← scanSmallBinsReads request i left (j + 1)
      return (result, j :: reads)
    else
      return (NULL, [])

def smallMallocReads (request : ℕ) : M (Addr × List ℕ) := do
  let i := smallRequestIndex request
  let result ← bin i
  if result ≠ NULL then
    let _ ← removeSmallChunk result
    return (result, [i])
  let result ← victimMalloc request
  if result ≠ NULL then
    return (result, [i, VICTIM_BIN])
  let (result, reads) ← scanSmallBinsReads request i 32 (i + 1)
  if result ≠ NULL then
    return (result, i :: VICTIM_BIN :: reads)
  let (bestChunk, reads') ← scanLargeBinsReads 63 LARGE_BIN_SEARCH_MAX 31
  if bestChunk ≠ NULL then
    let _ ← removeLargeChunk bestChunk
    splitOffVictim bestChunk request
  return (bestChunk, i :: VICTIM_BIN :: (reads ++ reads'))

def findBestChunkReads (request : ℕ) : M (Addr × List ℕ) := do
  let n := largeRequestIndex request
  let bestChunk ← findBestChunkLoop request MAX_HEAP (← bin n) NULL (2 * request % 2 ^ 64)
  if bestChunk ≠ NULL then
    return (bestChunk, [n])
  let (bestChunk, reads) ← scanLargeBinsReads 64 LARGE_BIN_SEARCH_MAX n
  return (bestChunk, n :: reads)

section Reads

variable {request i last left n j : ℕ} {α β γ : Type}

theorem map_bind_eq {x : M α} {f : α → M β} {g : α → M γ} {k : β → γ} (h : ∀ a, k <$> f a = g a) :
    k <$> (x >>= f) = x >>= g := by
  rw [map_bind]
  exact congrArg _ (funext h)

theorem scanLargeBinsReads_fst :
    Prod.fst <$> scanLargeBinsReads last left n = scanLargeBins last left n := by
  induction left generalizing n with
  | zero => rfl
  | succ left ih =>
    rw [scanLargeBinsReads, scanLargeBins]
    split_ifs
    · refine map_bind_eq fun root => ?_
      split_ifs
      · refine map_bind_eq fun size => ?_
        simp
      · rw [← ih]
        simp
    · rfl

theorem scanSmallBinsReads_fst :
    Prod.fst <$> scanSmallBinsReads request i left j = scanSmallBins request i left j := by
  induction left generalizing j with
  | zero => rfl
  | succ left ih =>
    rw [scanSmallBinsReads, scanSmallBins]
    split_ifs
    · refine map_bind_eq fun result => ?_
      split_ifs
      · simp
      · rw [← ih]
        simp
    · rfl

theorem findBestChunkReads_fst :
    Prod.fst <$> findBestChunkReads request = findBestChunk request := by
  unfold findBestChunkReads findBestChunk
  refine map_bind_eq fun root => map_bind_eq fun best => ?_
  split_ifs
  · rfl
  · rw [← scanLargeBinsReads_fst]
    simp

theorem smallMallocReads_fst : Prod.fst <$> smallMallocReads request = smallMalloc request := by
  unfold smallMallocReads smallMalloc
  refine map_bind_eq fun result => ?_
  split_ifs
  · simp
  refine map_bind_eq fun result => ?_
  split_ifs
  · rfl
  rw [← scanSmallBinsReads_fst, bind_map_left]
  refine map_bind_eq fun hpost => ?_
  obtain ⟨result, reads⟩ := hpost
  dsimp only
  split_ifs
  · rfl
  rw [← scanLargeBinsReads_fst, bind_map_left]
  refine map_bind_eq fun hpost => ?_
  obtain ⟨bestChunk, reads'⟩ := hpost
  dsimp only
  split_ifs <;> simp

end Reads

end Dlmalloc
