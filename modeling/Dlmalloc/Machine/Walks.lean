import Dlmalloc.Machine.Reads

/-!
# The loops with the chunks they visit

The loops that follow links from chunk to chunk once more, and the functions around those that
write. Each returns with its result the chunks it went to, in order. Without these they are the
functions themselves.
-/

namespace Dlmalloc

/-- `descendToLeaf` with the nodes of its path. -/
def descendToLeafVisits (i : ℕ) : ℕ → Addr → M (Addr × List Addr)
  | 0, _ => diverge
  | fuel + 1, current => do
    if current = NULL then
      return (current, [])
    let first ← load (.child i) current
    let second ← load (.child (1 - i)) current
    if first ≠ NULL ∨ second ≠ NULL then
      let (leaf, visits) ← descendToLeafVisits i fuel (if first ≠ NULL then first else second)
      return (leaf, current :: visits)
    else
      return (current, [current])

/-- `copyShift` with the members it gives the shift to. -/
def copyShiftVisits (chunk replacement : Addr) : ℕ → Addr → M (List Addr)
  | 0, _ => diverge
  | fuel + 1, current => do
    if current = replacement then
      return []
    store .shift current (← load .shift chunk)
    let visits ← copyShiftVisits chunk replacement fuel (← load .next current)
    return current :: visits

/-- The chunks that the three loops of a removal visit: on the way down from `children[0]`, on the
way down from `children[1]`, and in the list of the replacement. -/
structure RemovalVisits : Type where
  left : List Addr
  right : List Addr
  list : List Addr

/-- `findReplacementForLargeChunk` with the nodes its loops visit. -/
def findReplacementForLargeChunkVisits (chunk : Addr) : M (Addr × List Addr × List Addr) := do
  let (current, left) ← descendToLeafVisits 1 MAX_HEAP (← load .child0 chunk)
  if current = NULL then
    let (replacement, right) ← descendToLeafVisits 0 MAX_HEAP (← load .child1 chunk)
    if replacement ≠ NULL then
      linkChunkWithParent replacement NULL
    return (replacement, left, right)
  linkChunkWithParent current NULL
  return (current, left, [])

/-- `removeLargeSingleChunk` with the chunks its loops visit. -/
def removeLargeSingleChunkVisits (chunk : Addr) : M (ℕ × Addr × RemovalVisits) := do
  let (replacement, left, right) ← findReplacementForLargeChunkVisits chunk
  if replacement = NULL then
    linkChunkWithParent chunk NULL
    return (1, replacement, ⟨left, right, []⟩)
  store .shift replacement (← load .shift chunk)
  let list ← copyShiftVisits chunk replacement MAX_HEAP (← load .next replacement)
  store .parent replacement (← load .parent chunk)
  linkChildrenWithParent chunk replacement
  linkChunkWithParent chunk replacement
  return (0, replacement, ⟨left, right, list⟩)

/-- `insertLargeChunkLoop` with the nodes of its path. -/
def insertLargeChunkLoopVisits (chunk : Addr) (size : ℕ) :
    ℕ → Addr → Addr → M (Option Addr × List Addr)
  | 0, _, _ => diverge
  | fuel + 1, parent, current => do
    if current = NULL then
      return (some parent, [])
    if (← chunkSize current) = (← chunkSize chunk) then
      store .parent chunk NO_PARENT_CIRCLE_NODE
      store .shift chunk (← load .shift current)
      store .next chunk current
      store .prev chunk (← load .prev current)
      store .next (← load .prev current) chunk
      store .prev current chunk
      return (none, [current])
    let (result, visits) ← insertLargeChunkLoopVisits chunk size fuel current
      (← load (.child ((size >>> (← load .shift current)) &&& 1)) current)
    return (result, current :: visits)

/-- `insertLargeChunk` with the nodes of its walk. -/
def insertLargeChunkVisits (chunk : Addr) : M (ℕ × List Addr) := do
  if ← isHugeChunk chunk then
    return (← insertHugeChunk chunk, [])
  store .child1 chunk NULL
  store .child0 chunk NULL
  store .parent chunk NULL
  store .prev chunk NULL
  store .next chunk NULL
  store .shift chunk 0
  store .binNumber chunk 0
  let n := largeRequestIndex (← chunkSize chunk)
  store .binNumber chunk n
  let size ← chunkSize chunk
  match ← insertLargeChunkLoopVisits chunk size MAX_HEAP NO_PARENT_ROOT_NODE (← bin n) with
  | (none, visits) => return (0, visits)
  | (some parent, visits) =>
    store .parent chunk parent
    let mut result := 0
    if parent = NO_PARENT_ROOT_NODE then
      store .shift chunk (sub64 (fastLog2 (← chunkSize chunk)) 2)
      setBin n chunk
      result := 2
    else
      store (.child ((size >>> (← load .shift parent)) &&& 1)) parent chunk
      store .shift chunk (sub64 (← load .shift parent) 1)
      result := 1
    store .next chunk chunk
    store .prev chunk chunk
    return (result, visits)

/-- `smallestChunkLoop` with the nodes of its path. -/
def smallestChunkLoopVisits : ℕ → Addr → Addr → ℕ → M (Addr × List Addr)
  | 0, _, _, _ => diverge
  | fuel + 1, current, bestChunk, bestSize => do
    if current = NULL then
      return (bestChunk, [])
    let size ← chunkSize current
    let child0 ← load .child0 current
    let child1 ← load .child1 current
    let following := if child0 ≠ NULL then child0 else child1
    if size < bestSize then
      let (best, visits) ← smallestChunkLoopVisits fuel following current size
      return (best, current :: visits)
    else
      let (best, visits) ← smallestChunkLoopVisits fuel following bestChunk bestSize
      return (best, current :: visits)

/-- `findBestChunkLoop` with the nodes of its path. -/
def findBestChunkLoopVisits (request : ℕ) : ℕ → Addr → Addr → ℕ → M (Addr × List Addr)
  | 0, _, _, _ => diverge
  | fuel + 1, current, bestChunk, bestSize => do
    if current = NULL then
      return (bestChunk, [])
    let decision := (request >>> (← load .shift current)) &&& 1
    let size ← chunkSize current
    if size = request then
      return (current, [current])
    let (bestChunk, bestSize) :=
      if size < bestSize ∧ request < size then (current, size) else (bestChunk, bestSize)
    let child1 ← load .child1 current
    let child1Size ← chunkSize child1
    let (bestChunk, bestSize) :=
      if decision = 0 ∧ child1 ≠ NULL ∧ child1Size < bestSize then (child1, child1Size)
      else (bestChunk, bestSize)
    let (best, visits) ← findBestChunkLoopVisits request fuel (← load (.child decision) current)
      bestChunk bestSize
    return (best, current :: visits)

/-- `hugeMallocLoop` with the members it looks at. -/
def hugeMallocLoopVisits (request : ℕ) (start : Addr) : ℕ → Addr → Addr → ℕ → M (Addr × List Addr)
  | 0, _, _, _ => diverge
  | fuel + 1, current, bestFit, bestSize => do
    let size ← chunkSize current
    if request ≤ size ∧ size < bestSize then
      if size = request then
        return (current, [current])
      let following ← load .next current
      if following = start then
        return (current, [current])
      let (best, visits) ← hugeMallocLoopVisits request start fuel following current size
      return (best, current :: visits)
    else
      let following ← load .next current
      if following = start then
        return (bestFit, [current])
      let (best, visits) ← hugeMallocLoopVisits request start fuel following bestFit bestSize
      return (best, current :: visits)

section Erasure

variable {request size i fuel bestSize : ℕ}
  {chunk replacement parent current bestChunk start : Addr}

theorem descendToLeafVisits_fst :
    Prod.fst <$> descendToLeafVisits i fuel current = descendToLeaf i fuel current := by
  induction fuel generalizing current with
  | zero => rfl
  | succ fuel ih =>
    rw [descendToLeafVisits, descendToLeaf]
    split_ifs
    · rfl
    refine map_bind_eq fun first => map_bind_eq fun second => ?_
    by_cases h : first ≠ NULL ∨ second ≠ NULL
    · rw [if_pos h, if_pos h, ← ih]
      simp
    · rw [if_neg h, if_neg h]
      rfl

/-- `copyShift` returns nothing but the state. -/
theorem copyShiftVisits_erase : (fun _ => ()) <$> copyShiftVisits chunk replacement fuel current =
    copyShift chunk replacement fuel current := by
  induction fuel generalizing current with
  | zero => rfl
  | succ fuel ih =>
    rw [copyShiftVisits, copyShift]
    split_ifs
    · rfl
    refine map_bind_eq fun shift => map_bind_eq fun _ => map_bind_eq fun following => ?_
    rw [← ih]
    simp

theorem copyShift_of_visits {s s' : State} {visits : List Addr}
    (h : copyShiftVisits chunk replacement fuel current s = some (visits, s')) :
    copyShift chunk replacement fuel current s = some ((), s') := by
  rw [← copyShiftVisits_erase]
  exact M.map_eq_some.mpr ⟨visits, h, rfl⟩

theorem findReplacementForLargeChunkVisits_fst :
    Prod.fst <$> findReplacementForLargeChunkVisits chunk = findReplacementForLargeChunk chunk := by
  unfold findReplacementForLargeChunkVisits findReplacementForLargeChunk
  refine map_bind_eq fun child0 => ?_
  rw [← descendToLeafVisits_fst, bind_map_left]
  refine map_bind_eq fun hpost => ?_
  obtain ⟨current, left⟩ := hpost
  dsimp only
  by_cases h : current = NULL
  · rw [if_pos h, if_pos h]
    refine map_bind_eq fun child1 => ?_
    rw [← descendToLeafVisits_fst, bind_map_left]
    refine map_bind_eq fun hpost => ?_
    split_ifs <;> simp
  · rw [if_neg h, if_neg h]
    simp [h]

theorem removeLargeSingleChunkVisits_fst :
    Prod.fst <$> removeLargeSingleChunkVisits chunk = removeLargeSingleChunk chunk := by
  unfold removeLargeSingleChunkVisits removeLargeSingleChunk
  rw [← findReplacementForLargeChunkVisits_fst, bind_map_left]
  refine map_bind_eq fun hpost => ?_
  obtain ⟨replacement, left, right⟩ := hpost
  dsimp only
  split_ifs
  · simp
  refine map_bind_eq fun shift => map_bind_eq fun _ => map_bind_eq fun following => ?_
  rw [← copyShiftVisits_erase]
  simp

theorem insertLargeChunkLoopVisits_fst :
    Prod.fst <$> insertLargeChunkLoopVisits chunk size fuel parent current =
      insertLargeChunkLoop chunk size fuel parent current := by
  induction fuel generalizing parent current with
  | zero => rfl
  | succ fuel ih =>
    rw [insertLargeChunkLoopVisits, insertLargeChunkLoop]
    split_ifs
    · rfl
    refine map_bind_eq fun currentSize => map_bind_eq fun ownSize => ?_
    split_ifs
    · simp
    refine map_bind_eq fun shift => map_bind_eq fun child => ?_
    rw [← ih]
    simp

theorem insertLargeChunkVisits_fst :
    Prod.fst <$> insertLargeChunkVisits chunk = insertLargeChunk chunk := by
  unfold insertLargeChunkVisits insertLargeChunk
  refine map_bind_eq fun huge => ?_
  split_ifs
  · simp
  refine map_bind_eq fun _ => map_bind_eq fun _ => map_bind_eq fun _ => map_bind_eq fun _ =>
    map_bind_eq fun _ => map_bind_eq fun _ => map_bind_eq fun _ => map_bind_eq fun chunkSize =>
    map_bind_eq fun _ => map_bind_eq fun size => map_bind_eq fun root => ?_
  rw [← insertLargeChunkLoopVisits_fst, bind_map_left]
  refine map_bind_eq fun hpost => ?_
  obtain ⟨result, visits⟩ := hpost
  cases result with
  | none => rfl
  | some parent =>
    dsimp only
    split_ifs <;> simp

theorem smallestChunkLoopVisits_fst :
    Prod.fst <$> smallestChunkLoopVisits fuel current bestChunk bestSize =
      smallestChunkLoop fuel current bestChunk bestSize := by
  induction fuel generalizing current bestChunk bestSize with
  | zero => rfl
  | succ fuel ih =>
    rw [smallestChunkLoopVisits, smallestChunkLoop]
    split_ifs
    · rfl
    refine map_bind_eq fun size => map_bind_eq fun child0 => map_bind_eq fun child1 => ?_
    dsimp only
    split_ifs <;> rw [← ih] <;> simp

theorem findBestChunkLoopVisits_fst :
    Prod.fst <$> findBestChunkLoopVisits request fuel current bestChunk bestSize =
      findBestChunkLoop request fuel current bestChunk bestSize := by
  induction fuel generalizing current bestChunk bestSize with
  | zero => rfl
  | succ fuel ih =>
    rw [findBestChunkLoopVisits, findBestChunkLoop]
    split_ifs
    · rfl
    refine map_bind_eq fun shift => map_bind_eq fun size => ?_
    dsimp only
    by_cases h : size = request
    · rw [if_pos h, if_pos h]
      rfl
    rw [if_neg h, if_neg h]
    refine map_bind_eq fun child1 => map_bind_eq fun child1Size => map_bind_eq fun child => ?_
    rw [← ih]
    simp

theorem hugeMallocLoopVisits_fst :
    Prod.fst <$> hugeMallocLoopVisits request start fuel current bestChunk bestSize =
      hugeMallocLoop request start fuel current bestChunk bestSize := by
  induction fuel generalizing current bestChunk bestSize with
  | zero => rfl
  | succ fuel ih =>
    rw [hugeMallocLoopVisits, hugeMallocLoop]
    refine map_bind_eq fun size => ?_
    split_ifs
    · rfl
    all_goals
      refine map_bind_eq fun following => ?_
      split_ifs
      · rfl
      · rw [← ih]
        simp

end Erasure

end Dlmalloc
