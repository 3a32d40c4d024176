import Dlmalloc.Machine.State

/-!
# The bins

The functions of `allocator.c` that hook free chunks into the bins and unhook them: circular lists
for the small sizes (bins 3 to 31) and the huge ones (bin 2), and for each large class (bins 32 to
63) a tree whose nodes are circular lists of chunks of one size. The bin of a chunk is computed
from its size, on insertion and again on removal. The functions return the status codes of the
source, which no caller reads.
-/

namespace Dlmalloc

def smallRequestIndex (request : ℕ) : ℕ := (request >>> 3) % 2 ^ 32

def largeRequestIndex (request : ℕ) : ℕ :=
  let l := fastLog2 request
  16 + 2 * l + ((request >>> (l - 1)) &&& 1)

/-! ### Tree surgery -/

/-- Put `newChild` in the place of `chunk` under the parent of `chunk`, or at the root of the bin.
-/
def linkChunkWithParent (chunk newChild : Addr) : M Unit := do
  let parent ← load .parent chunk
  if parent = NO_PARENT_ROOT_NODE then
    let n := largeRequestIndex (← chunkSize chunk)
    setBin n newChild
  else
    if (← load .child0 parent) = chunk then
      store .child0 parent newChild
    else if (← load .child1 parent) = chunk then
      store .child1 parent newChild
  if newChild ≠ NULL then
    store .parent newChild (← load .parent chunk)
  store .parent chunk NULL

/-- Give the children of `chunk` to `replacement`. -/
def linkChildrenWithParent (chunk replacement : Addr) : M Unit := do
  store .child0 replacement (← load .child0 chunk)
  store .child1 replacement (← load .child1 chunk)
  if (← load .child0 replacement) ≠ NULL then
    store .parent (← load .child0 replacement) replacement
  if (← load .child1 replacement) ≠ NULL then
    store .parent (← load .child1 replacement) replacement

/-- The loops of `find_replacement_for_large_chunk`: from `current` down to a leaf, by `children[i]`
where there is one and by the other child else. -/
def descendToLeaf (i : ℕ) : ℕ → Addr → M Addr
  | 0, _ => diverge
  | fuel + 1, current => do
    if current = NULL then
      return current
    let first ← load (.child i) current
    let second ← load (.child (1 - i)) current
    if first ≠ NULL ∨ second ≠ NULL then
      descendToLeaf i fuel (if first ≠ NULL then first else second)
    else
      return current

def findReplacementForLargeChunk (chunk : Addr) : M Addr := do
  -- First, go down the left side
  let mut current ← descendToLeaf 1 MAX_HEAP (← load .child0 chunk)
  -- If we didn't find anything, go down right side
  if current = NULL then
    current ← descendToLeaf 0 MAX_HEAP (← load .child1 chunk)
  let replacement := current
  if replacement ≠ NULL then
    linkChunkWithParent replacement NULL
  return replacement

/-- The loop of `remove_large_single_chunk` over the list of `replacement`. -/
def copyShift (chunk replacement : Addr) : ℕ → Addr → M Unit
  | 0, _ => diverge
  | fuel + 1, current => do
    if current = replacement then
      return ()
    store .shift current (← load .shift chunk)
    copyShift chunk replacement fuel (← load .next current)

def removeLargeSingleChunk (chunk : Addr) : M ℕ := do
  let replacement ← findReplacementForLargeChunk chunk
  -- A null replacement means that none was found
  if replacement = NULL then
    linkChunkWithParent chunk NULL
    return 1
  store .shift replacement (← load .shift chunk)
  copyShift chunk replacement MAX_HEAP (← load .next replacement)
  store .parent replacement (← load .parent chunk)
  linkChildrenWithParent chunk replacement
  linkChunkWithParent chunk replacement
  return 0

def removeLargeLinkedListChunk (chunk : Addr) : M ℕ := do
  let replacement ← load .next chunk
  store .prev replacement (← load .prev chunk)
  store .next (← load .prev chunk) replacement
  if (← load .parent chunk) ≠ NULL then
    linkChildrenWithParent chunk replacement
    linkChunkWithParent chunk replacement
  return 0

/-! ### Removal -/

/-- Take a chunk out of the circular list of bin `n`. -/
def removeFromList (n : ℕ) (chunk : Addr) : M ℕ := do
  if ← circularListIsLengthOne chunk then
    setBin n NULL
    return 1
  if (← bin n) = chunk then
    setBin n (← load .next chunk)
  store .prev (← load .next chunk) (← load .prev chunk)
  store .next (← load .prev chunk) (← load .next chunk)
  store .prev chunk NULL
  store .next chunk NULL
  return 0

def removeHugeChunk (chunk : Addr) : M ℕ := removeFromList HUGE_BIN chunk

def removeLargeChunk (chunk : Addr) : M ℕ := do
  if ← isHugeChunk chunk then
    return ← removeHugeChunk chunk
  if ← circularListIsLengthOne chunk then
    let _ ← removeLargeSingleChunk chunk
  else
    let _ ← removeLargeLinkedListChunk chunk
  store .next chunk NULL
  store .prev chunk NULL
  store .parent chunk NULL
  store .child0 chunk NULL
  store .child1 chunk NULL
  store .binNumber chunk 0
  store .shift chunk 0
  return 0

def removeSmallChunk (chunk : Addr) : M ℕ := do
  removeFromList (smallRequestIndex (← chunkSize chunk)) chunk

def removeChunk (chunk : Addr) : M ℕ := do
  if ← isLargeChunk chunk then
    removeLargeChunk chunk
  else
    removeSmallChunk chunk

def removeChunkOrVictim (chunk : Addr) : M Unit := do
  if chunk = (← bin VICTIM_BIN) then
    setBin VICTIM_BIN NULL
  else
    let _ ← removeChunk chunk

/-! ### Insertion -/

/-- Put a chunk at the front of the circular list of bin `n`. -/
def insertIntoList (n : ℕ) (chunk : Addr) : M ℕ := do
  let mut result := 0
  if (← bin n) = NULL then
    store .next chunk chunk
    store .prev chunk chunk
    result := 1
  else
    store .next chunk (← bin n)
    store .prev chunk (← load .prev (← bin n))
    store .next (← load .prev chunk) chunk
    store .prev (← load .next chunk) chunk
  setBin n chunk
  return result

def insertHugeChunk (chunk : Addr) : M ℕ := insertIntoList HUGE_BIN chunk

/-- The loop of `insert_large_chunk`: walk down the path of `size`. A node of the same size takes
the chunk into its list (`none`); else the walk ends below the parent returned. -/
def insertLargeChunkLoop (chunk : Addr) (size : ℕ) : ℕ → Addr → Addr → M (Option Addr)
  | 0, _, _ => diverge
  | fuel + 1, parent, current => do
    if current = NULL then
      return some parent
    if (← chunkSize current) = (← chunkSize chunk) then
      store .parent chunk NO_PARENT_CIRCLE_NODE
      store .shift chunk (← load .shift current)
      store .next chunk current
      store .prev chunk (← load .prev current)
      store .next (← load .prev current) chunk
      store .prev current chunk
      return none
    insertLargeChunkLoop chunk size fuel current
      (← load (.child ((size >>> (← load .shift current)) &&& 1)) current)

def insertLargeChunk (chunk : Addr) : M ℕ := do
  if ← isHugeChunk chunk then
    return ← insertHugeChunk chunk
  -- Clear out old (potentially unsafe) values.
  store .child1 chunk NULL
  store .child0 chunk NULL
  store .parent chunk NULL
  store .prev chunk NULL
  store .next chunk NULL
  store .shift chunk 0
  store .binNumber chunk 0
  let n := largeRequestIndex (← chunkSize chunk)
  store .binNumber chunk n
  let size ← chunkSize chunk
  match ← insertLargeChunkLoop chunk size MAX_HEAP NO_PARENT_ROOT_NODE (← bin n) with
  | none => return 0
  | some parent =>
    store .parent chunk parent
    let mut result := 0
    if parent = NO_PARENT_ROOT_NODE then
      -- This means it skipped the while loop.
      store .shift chunk (sub64 (fastLog2 (← chunkSize chunk)) 2)
      setBin n chunk
      result := 2
    else
      store (.child ((size >>> (← load .shift parent)) &&& 1)) parent chunk
      store .shift chunk (sub64 (← load .shift parent) 1)
      result := 1
    store .next chunk chunk
    store .prev chunk chunk
    return result

def insertSmallChunk (chunk : Addr) : M ℕ := do
  insertIntoList (smallRequestIndex (← chunkSize chunk)) chunk

def insertChunk (chunk : Addr) : M ℕ := do
  if ← isLargeChunk chunk then
    insertLargeChunk chunk
  else
    insertSmallChunk chunk

end Dlmalloc
