import Dlmalloc.Machine.System

/-!
# The heap checker

`my_checker.c`, with the macros `CONTAINS_TREE_LOOPS`, `IS_VALID_LARGE_CHUNK` and
`IS_VALID_SMALL_CHUNK`. The functions only read memory, so each is a function of the state. `none`
says that a loop does not end. The checker proper stops with the text of the first assertion that
fails; without assertions it only walks through the heap.
-/

namespace Dlmalloc

/-- A check: it returns, or an assertion fails, or it does not end. -/
abbrev Check : Type → Type := ExceptT String Option

/-- An assertion, compiled in or not. -/
def Check.assert (debug : Bool) (assertion : String) (test : Option Bool) : Check Unit :=
  if debug then do
    unless ← (test : Option Bool) do
      throw assertion
  else pure ()

/-- The assertion about the header behind a free chunk. -/
def PREVIOUS_FREE_ASSERTION : String := "!IS_PREVIOUS_INUSE(NEXT_HEAP_CHUNK(chunk))"

/-- The assertion about the end of the heap. -/
def END_ASSERTION : String := "IS_PREVIOUS_INUSE(chunk)"

namespace State

/-! ### Lists -/

/-- A loop of `is_circularly_linked_list`: the steps by the links `f` from `other` to `chunk`. -/
def countLinks (s : State) (f : Field) (chunk : Addr) : ℕ → Addr → Option ℕ
  | 0, _ => none
  | fuel + 1, other =>
    if other = chunk then some 0
    else (s.countLinks f chunk fuel (s.load f other)).map (· + 1)

def isCircularlyLinkedList (s : State) (chunk : Addr) : Option Bool := do
  let left ← s.countLinks .next chunk MAX_HEAP (s.load .next chunk)
  let right ← s.countLinks .prev chunk MAX_HEAP (s.load .prev chunk)
  return left = right

/-! ### Chunks -/

/-- Where the checker takes the first chunk to be. -/
def checkedFrom (s : State) : Addr := add64 (memHeapLo s) (memHeapLo s &&& 7)

def isValidChunkPointerLoop (s : State) (chunk : Addr) : ℕ → Addr → Option Bool
  | 0, _ => none
  | fuel + 1, start =>
    if start = chunk then some true
    else if chunk < start then some false
    else s.isValidChunkPointerLoop chunk fuel (s.nextHeapChunk start)

def isValidChunkPointer (s : State) (chunk : Addr) : Option Bool :=
  s.isValidChunkPointerLoop chunk MAX_HEAP s.checkedFrom

def isValidSmallChunk (s : State) (c : Addr) : Bool :=
  s.isCurrentInuse c = 0 ∧ s.load .next c ≠ NULL ∧ s.load .prev c ≠ NULL

def isValidLargeChunk (s : State) (c : Addr) : Bool :=
  s.isCurrentInuse c = 0 ∧ s.load .next c ≠ NULL ∧ s.load .prev c ≠ NULL ∧
    (s.load .parent c = NO_PARENT_ROOT_NODE ∨ s.load .parent c = NO_PARENT_CIRCLE_NODE ∨
      s.load (.child ((s.chunkSize c >>> s.load .shift (s.load .parent c)) &&& 1))
        (s.load .parent c) = c)

/-! ### Trees -/

/-- The loop of `chunk_not_in_tree` over the list of `root`. -/
def chunkNotInList (s : State) (root chunk : Addr) : ℕ → Addr → Option Bool
  | 0, _ => none
  | fuel + 1, current =>
    if current = root then some true
    else if current = chunk then some false
    else s.chunkNotInList root chunk fuel (s.load .next current)

/-- `chunk_not_in_tree`. -/
def chunkNotInTree (s : State) (chunk : Addr) : ℕ → Addr → Option Bool
  | 0, _ => none
  | fuel + 1, root =>
    if root = NULL then some true
    else if root = chunk then some false
    else do
      unless ← s.chunkNotInList root chunk MAX_HEAP (s.load .next root) do
        return false
      unless ← s.chunkNotInTree chunk fuel (s.load .child0 root) do
        return false
      s.chunkNotInTree chunk fuel (s.load .child1 root)

def chunkInTree (s : State) (root chunk : Addr) : Option Bool :=
  (s.chunkNotInTree chunk MAX_HEAP root).map (!·)

def containsTreeLoops (s : State) (c : Addr) : Bool :=
  s.load .parent c = c ∨ c = s.load .child1 c ∨ c = s.load .child0 c ∨
    s.load .child1 c = s.load .child0 c ∧ s.load .child0 c ≠ NULL

def isValidPointerTree (s : State) (i : ℕ) : ℕ → Addr → Option Bool
  | 0, _ => none
  | fuel + 1, chunk =>
    if chunk = NULL then some true
    else if s.containsTreeLoops chunk then some false
    else if s.load .child0 chunk ≠ NULL ∧ s.load .parent (s.load .child0 chunk) ≠ chunk then
      some false
    else if s.load .child1 chunk ≠ NULL ∧ s.load .parent (s.load .child1 chunk) ≠ chunk then
      some false
    else if s.load .binNumber chunk ≠ i then some false
    else do
      unless ← s.isValidPointerTree i fuel (s.load .child0 chunk) do
        return false
      unless ← s.isValidPointerTree i fuel (s.load .child1 chunk) do
        return false
      return true

/-! ### The checker -/

/-- What the checker asserts of a chunk that should be in a bin. -/
def checkBinned (s : State) (debug : Bool) (chunk : Addr) : Check Unit := do
  Check.assert debug "is_circularly_linked_list(chunk)" (s.isCircularlyLinkedList chunk)
  if isLargeSize (s.chunkSize chunk) ∧ ¬ isHugeSize (s.chunkSize chunk) then
    Check.assert debug "IS_VALID_LARGE_CHUNK((bigchunk_t*)chunk)" (s.isValidLargeChunk chunk)
  else if ¬ isLargeSize (s.chunkSize chunk) then
    Check.assert debug "IS_VALID_SMALL_CHUNK(chunk)" (s.isValidSmallChunk chunk)
  Check.assert debug "is_valid_chunk_pointer(chunk->next)"
    (s.isValidChunkPointer (s.load .next chunk))
  Check.assert debug "is_valid_chunk_pointer(chunk->prev)"
    (s.isValidChunkPointer (s.load .prev chunk))
  Check.assert debug "is_valid_chunk_pointer(chunk)" (s.isValidChunkPointer chunk)

/-- What the checker asserts of the header behind a chunk. -/
def checkTags (s : State) (debug : Bool) (chunk : Addr) : Check Unit :=
  if s.isCurrentInuse chunk = 0 then do
    Check.assert debug "chunk == PREVIOUS_HEAP_CHUNK(NEXT_HEAP_CHUNK(chunk))"
      (decide (chunk = s.previousHeapChunk (s.nextHeapChunk chunk)))
    Check.assert debug "CHUNK_SIZE(chunk) == NEXT_HEAP_CHUNK(chunk)->previous_size"
      (decide (s.chunkSize chunk = s.load .previousSize (s.nextHeapChunk chunk)))
    Check.assert debug PREVIOUS_FREE_ASSERTION
      (decide (s.isPreviousInuse (s.nextHeapChunk chunk) = 0))
  else
    Check.assert debug "IS_PREVIOUS_INUSE(NEXT_HEAP_CHUNK(chunk))"
      (decide (s.isPreviousInuse (s.nextHeapChunk chunk) ≠ 0))

/-- The body of the loop through the heap. -/
def checkChunk (s : State) (debug : Bool) (chunk : Addr) : Check Unit := do
  if chunk ≠ s.bin VICTIM_BIN ∧ s.isCurrentInuse chunk = 0 then
    s.checkBinned debug chunk
  s.checkTags debug chunk
  Check.assert debug "chunk->current_size > 4" (decide (4 < s.load .currentSize chunk))

/-- The loop through the heap. It returns the chunk at which it stops. -/
def checkHeap (s : State) (debug : Bool) : ℕ → Addr → Check Addr
  | 0, _ => (none : Option _)
  | fuel + 1, chunk =>
    if chunk = s.bin END_OF_HEAP_BIN then return chunk
    else do
      s.checkChunk debug chunk
      s.checkHeap debug fuel (s.nextHeapChunk chunk)

/-- The loop over the large bins. -/
def checkTrees (s : State) (debug : Bool) : List ℕ → Check Unit
  | [] => return ()
  | i :: is => do
    Check.assert debug "is_valid_pointer_tree(i, (bigchunk_t*) bins[i])"
      (s.isValidPointerTree i MAX_HEAP (s.bin i))
    s.checkTrees debug is

def myChecker (s : State) (debug : Bool) (length : ℕ) : Check ℕ := do
  if 512 < 8 * length then
    return 1
  let chunk ← s.checkHeap debug MAX_HEAP s.checkedFrom
  Check.assert debug END_ASSERTION (decide (s.isPreviousInuse chunk ≠ 0))
  s.checkTrees debug (List.range' 32 32)
  return 0

def myCheck (s : State) (debug : Bool) : Check ℕ := s.myChecker debug NUM_OF_BINS

end State

end Dlmalloc
