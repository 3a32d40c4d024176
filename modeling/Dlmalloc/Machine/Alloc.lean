import Dlmalloc.Machine.Bins

/-!
# The allocator

`my_init`, `my_malloc`, `my_free` and `my_realloc` of `allocator.c`, with the functions they are
made of, in a build with assertions compiled out. `EXTENSION_SIZE` may be set by the tuner, so the
functions that extend the heap take it as an argument.
-/

namespace Dlmalloc

def INITIAL_CHUNK_SIZE : ℕ := 39184
def SMALL_BIN_SEARCH_MAX : ℕ := 0
def LARGE_BIN_SEARCH_MAX : ℕ := 16

/-- The default of `EXTENSION_SIZE`. -/
def EXTENSION_SIZE : ℕ := SMALLEST_CHUNK + 320

/-- Round up to a multiple of 8. -/
def ALIGN (size : ℕ) : ℕ := add64 size 7 &&& (2 ^ 64 - 1 - 7)

/-- The larger of two numbers, by the bits of their difference. -/
def MAX (a b : ℕ) : ℕ := a ^^^ ((a ^^^ b) &&& (if a < b then 2 ^ 64 - 1 else 0))

/-! ### Initialisation -/

def myInit : M ℕ := do
  let brk := add64 (← look memHeapHi) 1
  let reqSize := sub64 (ALIGN brk) brk
  if reqSize ≠ 0 then
    let _ ← memSbrk (toInt reqSize)
  let firstChunk ← memSbrk (toInt (INITIAL_CHUNK_SIZE + 2 * 8))
  store .currentSize firstChunk INITIAL_CHUNK_SIZE
  setPreviousInuse firstChunk
  setBin END_OF_HEAP_BIN firstChunk
  return 0

def myResetBrk : M Unit := memResetBrk

/-! ### Allocation -/

def canSplitChunk (chunk : Addr) (size : ℕ) : M Bool :=
  look fun s => decide (add64 size SMALLEST_CHUNK ≤ s.chunkSize chunk)

/-- Split a free chunk; the address of the second piece is returned. -/
def splitChunk (chunk : Addr) (request : ℕ) : M Addr := do
  let leftover := sub64 (sub64 (← chunkSize chunk) request) 8
  store .currentSize chunk (request ||| (← isPreviousInuse chunk))
  let nextChunk ← nextHeapChunk chunk
  store .previousSize nextChunk request
  store .currentSize nextChunk leftover
  unless ← isEndOfHeap nextChunk do
    store .previousSize (← nextHeapChunk nextChunk) leftover
  return nextChunk

/-- The end of `small_malloc` and `large_malloc`: what is left of a chunk taken from a bin becomes
the victim, and the old victim goes into its bin. -/
def splitOffVictim (chunk : Addr) (request : ℕ) : M Unit := do
  if ← canSplitChunk chunk request then
    if (← bin VICTIM_BIN) ≠ NULL then
      let _ ← insertChunk (← bin VICTIM_BIN)
    setBin VICTIM_BIN (← splitChunk chunk request)

/-- The walk to the smallest chunk of a large bin: `children[0]` if present, else `children[1]`,
remembering the smallest size seen. -/
def smallestChunkLoop : ℕ → Addr → Addr → ℕ → M Addr
  | 0, _, _, _ => diverge
  | fuel + 1, current, bestChunk, bestSize => do
    if current = NULL then
      return bestChunk
    let size ← chunkSize current
    let child0 ← load .child0 current
    let child1 ← load .child1 current
    let following := if child0 ≠ NULL then child0 else child1
    if size < bestSize then
      smallestChunkLoop fuel following current size
    else
      smallestChunkLoop fuel following bestChunk bestSize

/-- The scan of the large bins above `n` up to `last`, at most `left` of them, for the smallest
chunk of the first bin that is not empty. -/
def scanLargeBins (last : ℕ) : ℕ → ℕ → M Addr
  | 0, _ => return NULL
  | left + 1, n => do
    if n < last then
      let root ← bin (n + 1)
      if root ≠ NULL then
        smallestChunkLoop MAX_HEAP root root (← chunkSize root)
      else
        scanLargeBins last left (n + 1)
    else
      return NULL

/-- The scan of `small_malloc` over the small bins after `i`. -/
def scanSmallBins (request i : ℕ) : ℕ → ℕ → M Addr
  | 0, _ => return NULL
  | left + 1, j => do
    if j < 32 ∧ j - i < SMALL_BIN_SEARCH_MAX then
      let result ← bin j
      if result ≠ NULL then
        let _ ← removeSmallChunk result
        splitOffVictim result request
        return result
      scanSmallBins request i left (j + 1)
    else
      return NULL

/-- The part of `small_malloc` and `large_malloc` that tries the victim. -/
def victimMalloc (request : ℕ) : M Addr := do
  let victim ← bin VICTIM_BIN
  if victim ≠ NULL then
    if ← canSplitChunk victim request then
      setBin VICTIM_BIN (← splitChunk victim request)
      return victim
    else if request ≤ (← chunkSize victim) then
      setBin VICTIM_BIN NULL
      return victim
    else
      return NULL
  else
    return NULL

def smallMalloc (request : ℕ) : M Addr := do
  let i := smallRequestIndex request
  let result ← bin i
  if result ≠ NULL then
    let _ ← removeSmallChunk result
    return result
  -- First two bins didn't work? Try the victim
  let result ← victimMalloc request
  if result ≠ NULL then
    return result
  -- Trying the rest of the small bins
  let result ← scanSmallBins request i 32 (i + 1)
  if result ≠ NULL then
    return result
  -- check the rest of the large bins
  let bestChunk ← scanLargeBins 63 LARGE_BIN_SEARCH_MAX 31
  if bestChunk ≠ NULL then
    let _ ← removeLargeChunk bestChunk
    splitOffVictim bestChunk request
  return bestChunk

/-- The walk of `find_best_chunk` down the tree of the request's own bin. -/
def findBestChunkLoop (request : ℕ) : ℕ → Addr → Addr → ℕ → M Addr
  | 0, _, _, _ => diverge
  | fuel + 1, current, bestChunk, bestSize => do
    if current = NULL then
      return bestChunk
    let decision := (request >>> (← load .shift current)) &&& 1
    let size ← chunkSize current
    if size = request then
      return current
    let (bestChunk, bestSize) :=
      if size < bestSize ∧ request < size then (current, size) else (bestChunk, bestSize)
    let child1 ← load .child1 current
    let child1Size ← chunkSize child1
    let (bestChunk, bestSize) :=
      if decision = 0 ∧ child1 ≠ NULL ∧ child1Size < bestSize then (child1, child1Size)
      else (bestChunk, bestSize)
    findBestChunkLoop request fuel (← load (.child decision) current) bestChunk bestSize

def findBestChunk (request : ℕ) : M Addr := do
  let n := largeRequestIndex request
  let bestChunk ← findBestChunkLoop request MAX_HEAP (← bin n) NULL (2 * request % 2 ^ 64)
  if bestChunk ≠ NULL then
    return bestChunk
  -- check the rest of the large bins
  scanLargeBins 64 LARGE_BIN_SEARCH_MAX n

/-- The loop of `huge_malloc` round the huge list. -/
def hugeMallocLoop (request : ℕ) (start : Addr) : ℕ → Addr → Addr → ℕ → M Addr
  | 0, _, _, _ => diverge
  | fuel + 1, current, bestFit, bestSize => do
    let size ← chunkSize current
    if request ≤ size ∧ size < bestSize then
      if size = request then
        return current
      let following ← load .next current
      if following = start then
        return current
      hugeMallocLoop request start fuel following current size
    else
      let following ← load .next current
      if following = start then
        return bestFit
      hugeMallocLoop request start fuel following bestFit bestSize

def hugeMalloc (request : ℕ) : M Addr := do
  let start ← bin HUGE_BIN
  if start = NULL then
    return NULL
  let bestFit ← hugeMallocLoop request start MAX_HEAP start NULL (2 ^ 64 - 1)
  if bestFit ≠ NULL then
    let _ ← removeHugeChunk bestFit
  return bestFit

def largeMalloc (request : ℕ) : M Addr := do
  if isHugeSize request then
    return ← hugeMalloc request
  let result ← victimMalloc request
  if result ≠ NULL then
    return result
  let bestChunk ← findBestChunk request
  if bestChunk = NULL then
    return NULL
  let _ ← removeLargeChunk bestChunk
  splitOffVictim bestChunk request
  return bestChunk

def endOfHeapMalloc (extensionSize request : ℕ) : M Addr := do
  let endChunk ← bin END_OF_HEAP_BIN
  if !(← canSplitChunk endChunk request) then
    let grow := add64 (sub64 request (← chunkSize endChunk)) extensionSize
    if (← memSbrk (toInt grow)) = SBRK_FAILED then
      return NULL
    store .currentSize endChunk (add64 (← load .currentSize endChunk) grow)
  setBin END_OF_HEAP_BIN (← splitChunk endChunk request)
  return endChunk

/-- The size a request is rounded to. -/
def requestSize (size : ℕ) : ℕ := MAX (ALIGN size) SMALLEST_MALLOC

def myMalloc (extensionSize size : ℕ) : M Addr := do
  if size = 0 then
    return NULL
  let request := requestSize size
  let mut result ← if isLargeSize request then largeMalloc request else smallMalloc request
  if result = NULL then
    result ← endOfHeapMalloc extensionSize request
  if result ≠ NULL then
    setCurrentInuse result
    setPreviousInuse (← nextHeapChunk result)
    return chunkToUserPointer result
  return NULL

/-! ### Deallocation -/

/-- `COMBINED_SIZES`. -/
def combinedSizes (left right : Addr) : M ℕ :=
  look fun s => add64 (add64 (s.chunkSize left) (s.chunkSize right)) 8

/-- `CAN_COMBINE_PREVIOUS`. -/
def canCombinePrevious (chunk : Addr) : M Bool := isPreviousFree chunk

/-- `CAN_COMBINE_NEXT`. -/
def canCombineNext (chunk : Addr) : M Bool := do
  if ← isEndOfHeap chunk then
    return false
  isCurrentFree (← nextHeapChunk chunk)

def combineChunks (left right : Addr) : M Addr := do
  let combined ← combinedSizes left right
  unless ← isEndOfHeap right do
    store .previousSize (← nextHeapChunk right) combined
  if (← bin VICTIM_BIN) = left ∨ (← bin VICTIM_BIN) = right then
    setBin VICTIM_BIN NULL
  store .currentSize left (combined ||| (← isPreviousInuse left))
  return left

/-- The start of `my_free`: the chunk is marked free, in its own header and after it. -/
def markFree (chunk : Addr) : M Unit := do
  store .prev chunk NULL
  store .next chunk NULL
  clearCurrentInuse chunk
  clearPreviousInuse (← nextHeapChunk chunk)
  store .previousSize (← nextHeapChunk chunk) (← chunkSize chunk)

/-- Merge a free chunk with the one before it if that is free. -/
def coalescePrevious (chunk : Addr) : M Addr := do
  if ← canCombinePrevious chunk then
    let prevChunk ← previousHeapChunk chunk
    removeChunkOrVictim prevChunk
    combineChunks prevChunk chunk
  else
    return chunk

/-- Merge a free chunk with the one after it if that is free, and say whether that was the end of
the heap. -/
def coalesceNext (chunk : Addr) : M (Addr × Bool) := do
  if ← canCombineNext chunk then
    let nextChunk ← nextHeapChunk chunk
    unless ← isEndOfHeap nextChunk do
      removeChunkOrVictim nextChunk
    let wasEndOfHeap ← isEndOfHeap nextChunk
    return (← combineChunks chunk nextChunk, wasEndOfHeap)
  else
    return (chunk, false)

def myFree (ptr : Addr) : M Unit := do
  let chunk := userPointerToChunk ptr
  markFree chunk
  let wasEndOfHeap ← isEndOfHeap chunk
  let chunk ← coalescePrevious chunk
  let (chunk, combinedWithEnd) ← coalesceNext chunk
  if wasEndOfHeap || combinedWithEnd then
    setBin END_OF_HEAP_BIN chunk
  else
    let _ ← insertChunk chunk

/-! ### Reallocation -/

/-- `memcpy` and `memmove`. -/
def moveBytes (dst src n : ℕ) : M Unit := change fun s => { s with mem := s.mem.move dst src n }

def defaultRealloc (extensionSize : ℕ) (ptr : Addr) (size : ℕ) : M Addr := do
  let copySize ← chunkSize (userPointerToChunk ptr)
  if copySize = size then
    return ptr
  -- Allocate a new chunk of memory, and fail if that allocation fails.
  let newptr ← myMalloc extensionSize size
  if newptr = NULL then
    return NULL
  moveBytes newptr ptr (if size < copySize then size else copySize)
  myFree ptr
  return newptr

/-- Split a chunk in use; the address of the free second piece is returned. -/
def splitMallocdChunk (chunk : Addr) (size : ℕ) : M Addr := do
  let leftover := sub64 (sub64 (← chunkSize chunk) size) 8
  store .currentSize chunk (size ||| (← isPreviousInuse chunk) ||| CURRENT_CHUNK_INUSE)
  let newChunk ← nextHeapChunk chunk
  store .currentSize newChunk leftover
  setPreviousInuse newChunk
  unless ← isEndOfHeap newChunk do
    store .previousSize (← nextHeapChunk newChunk) leftover
  return newChunk

def reallocChunkIsSmaller (ptr : Addr) (size : ℕ) : M Addr := do
  let chunk := userPointerToChunk ptr
  if ← canSplitChunk chunk size then
    let mut splittedChunk ← splitMallocdChunk chunk size
    let mut wasEndOfHeap := false
    -- To reduce fragmentation, and to preserve the invariant that no two free chunks are
    -- next to each other, we must coalesce this newly splitted chunk.
    if ← canCombineNext splittedChunk then
      let nextChunk ← nextHeapChunk splittedChunk
      wasEndOfHeap ← isEndOfHeap nextChunk
      unless ← isEndOfHeap nextChunk do
        removeChunkOrVictim nextChunk
      splittedChunk ← combineChunks splittedChunk nextChunk
    if !wasEndOfHeap then
      let _ ← insertChunk splittedChunk
    else
      setBin END_OF_HEAP_BIN splittedChunk
  return chunkToUserPointer chunk

def resizeChunkAndSplit (base : Addr) (newSize request : ℕ) : M Unit := do
  store .currentSize base (newSize ||| (← isPreviousInuse base) ||| CURRENT_CHUNK_INUSE)
  if ← canSplitChunk base request then
    let splittedChunk ← splitMallocdChunk base request
    let _ ← insertChunk splittedChunk
    setPreviousInuse splittedChunk
    clearPreviousInuse (← nextHeapChunk splittedChunk)
    store .previousSize (← nextHeapChunk splittedChunk) (← chunkSize splittedChunk)
  setPreviousInuse (← nextHeapChunk base)

def reallocChunkAndAfter (ptr : Addr) (request : ℕ) : M Addr := do
  let chunk := userPointerToChunk ptr
  let nextChunk ← nextHeapChunk chunk
  if (← combinedSizes chunk nextChunk) < request ∨ (← isEndOfHeap nextChunk) then
    return NULL
  removeChunkOrVictim nextChunk
  let newSize ← combinedSizes chunk nextChunk
  resizeChunkAndSplit chunk newSize request
  return chunkToUserPointer chunk

def reallocChunkAndBefore (ptr : Addr) (request : ℕ) : M Addr := do
  let chunk := userPointerToChunk ptr
  let prevChunk ← previousHeapChunk chunk
  let newSize ← combinedSizes prevChunk chunk
  if newSize < request then
    return NULL
  removeChunkOrVictim prevChunk
  let oldSize ← chunkSize chunk
  moveBytes (chunkToUserPointer prevChunk) ptr oldSize
  resizeChunkAndSplit prevChunk newSize request
  return chunkToUserPointer prevChunk

def reallocChunkBeforeAndAfter (ptr : Addr) (request : ℕ) : M Addr := do
  let chunk := userPointerToChunk ptr
  let prevChunk ← previousHeapChunk chunk
  let nextChunk ← nextHeapChunk chunk
  let newSize := add64 (add64 (add64 (← chunkSize chunk) (← chunkSize prevChunk))
    (← chunkSize nextChunk)) (2 * 8)
  if newSize < request ∨ (← isEndOfHeap nextChunk) then
    return NULL
  removeChunkOrVictim nextChunk
  removeChunkOrVictim prevChunk
  let oldSize ← chunkSize chunk
  moveBytes (chunkToUserPointer prevChunk) ptr oldSize
  resizeChunkAndSplit prevChunk newSize request
  return chunkToUserPointer prevChunk

def reallocChunkAfterExtendHeap (extensionSize : ℕ) (ptr : Addr) (request : ℕ) : M Addr := do
  let chunk := userPointerToChunk ptr
  let nextChunk ← nextHeapChunk chunk
  let mut newSize ← combinedSizes chunk nextChunk
  if newSize < add64 request SMALLEST_CHUNK then
    let difference := sub64 (add64 (add64 request SMALLEST_CHUNK) extensionSize) newSize
    if (← memSbrk (toInt difference)) = SBRK_FAILED then
      return NULL
    store .currentSize nextChunk (add64 (← load .currentSize nextChunk) difference)
    newSize := add64 newSize difference
  setBin END_OF_HEAP_BIN NULL
  store .currentSize chunk (newSize ||| (← isPreviousInuse chunk) ||| CURRENT_CHUNK_INUSE)
  let splittedChunk ← splitMallocdChunk chunk request
  setPreviousInuse splittedChunk
  setBin END_OF_HEAP_BIN splittedChunk
  return chunkToUserPointer chunk

def reallocChunkIsLarger (extensionSize : ℕ) (ptr : Addr) (request : ℕ) : M Addr := do
  let chunk := userPointerToChunk ptr
  let mut result := NULL
  if ← canCombineNext chunk then
    result ← reallocChunkAndAfter ptr request
  if result ≠ NULL then
    return result
  if (← canCombinePrevious chunk) && (← canCombineNext chunk) then
    result ← reallocChunkBeforeAndAfter ptr request
  if result ≠ NULL then
    return result
  if (← canCombinePrevious chunk) && !(← isEndOfHeap (← nextHeapChunk chunk)) then
    result ← reallocChunkAndBefore ptr request
  if result ≠ NULL then
    return result
  if (← canCombineNext chunk) && (← isEndOfHeap (← nextHeapChunk chunk)) then
    result ← reallocChunkAfterExtendHeap extensionSize ptr request
  if result ≠ NULL then
    return result
  defaultRealloc extensionSize ptr request

def myRealloc (extensionSize : ℕ) (ptr : Addr) (size : ℕ) : M Addr := do
  let request := requestSize size
  if request ≤ (← chunkSize (userPointerToChunk ptr)) then
    reallocChunkIsSmaller ptr request
  else
    reallocChunkIsLarger extensionSize ptr request

end Dlmalloc
