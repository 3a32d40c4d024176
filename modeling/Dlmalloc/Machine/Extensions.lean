import Dlmalloc.Machine.Assertions
import Dlmalloc.Machine.System

/-!
# The extensions of the heap

The functions that extend the heap and the calls that reach them, watched at the place where the
extension is added to the header of the end chunk: a run stops there if the flag bits change. All
else is as in the functions themselves (`Watched.myMalloc_erases`, `Watched.myRealloc_erases`).
-/

namespace Dlmalloc

/-- An action that stops at an extension that changes the flag bits, with the header word before the
addition and after it. -/
abbrev Watched : Type → Type := ExceptT (ℕ × ℕ) M

namespace Watched

/-- `chunk->current_size += d`, for the chunk at the end of the heap. -/
def addToHeader (chunk : Addr) (d : ℕ) : Watched Unit := do
  let word ← load .currentSize chunk
  store .currentSize chunk (add64 word d)
  assertOr (word, add64 word d) (fun s =>
    s.isCurrentInuse chunk = 0 ∧ s.isPreviousInuse chunk = word &&& PREVIOUS_CHUNK_INUSE)

def endOfHeapMalloc (extensionSize request : ℕ) : Watched Addr := do
  let endChunk ← bin END_OF_HEAP_BIN
  if !(← canSplitChunk endChunk request) then
    let grow := add64 (sub64 request (← chunkSize endChunk)) extensionSize
    if (← memSbrk (toInt grow)) = SBRK_FAILED then
      return NULL
    addToHeader endChunk grow
  setBin END_OF_HEAP_BIN (← splitChunk endChunk request)
  return endChunk

def myMalloc (extensionSize size : ℕ) : Watched Addr := do
  if size = 0 then
    return NULL
  let request := requestSize size
  let mut result ← if isLargeSize request then largeMalloc request else smallMalloc request
  if result = NULL then
    result ← endOfHeapMalloc extensionSize request
  if result ≠ NULL then
    setCurrentInuse result
    setPreviousInuse (← nextHeapChunk result)
    return chunkToUserPointer result
  return NULL

def defaultRealloc (extensionSize : ℕ) (ptr : Addr) (size : ℕ) : Watched Addr := do
  let copySize ← chunkSize (userPointerToChunk ptr)
  if copySize = size then
    return ptr
  let newptr ← myMalloc extensionSize size
  if newptr = NULL then
    return NULL
  moveBytes newptr ptr (if size < copySize then size else copySize)
  myFree ptr
  return newptr

def reallocChunkAfterExtendHeap (extensionSize : ℕ) (ptr : Addr) (request : ℕ) : Watched Addr := do
  let chunk := userPointerToChunk ptr
  let nextChunk ← nextHeapChunk chunk
  let mut newSize ← combinedSizes chunk nextChunk
  if newSize < add64 request SMALLEST_CHUNK then
    let difference := sub64 (add64 (add64 request SMALLEST_CHUNK) extensionSize) newSize
    if (← memSbrk (toInt difference)) = SBRK_FAILED then
      return NULL
    addToHeader nextChunk difference
    newSize := add64 newSize difference
  setBin END_OF_HEAP_BIN NULL
  store .currentSize chunk (newSize ||| (← isPreviousInuse chunk) ||| CURRENT_CHUNK_INUSE)
  let splittedChunk ← splitMallocdChunk chunk request
  setPreviousInuse splittedChunk
  setBin END_OF_HEAP_BIN splittedChunk
  return chunkToUserPointer chunk

def growth (extensionSize : ℕ) : Growth (ℕ × ℕ) where
  reallocChunkAndAfter ptr request := liftM (reallocChunkAndAfter ptr request)
  reallocChunkBeforeAndAfter ptr request := liftM (reallocChunkBeforeAndAfter ptr request)
  reallocChunkAndBefore ptr request := liftM (reallocChunkAndBefore ptr request)
  reallocChunkAfterExtendHeap := reallocChunkAfterExtendHeap extensionSize
  defaultRealloc := defaultRealloc extensionSize

def myRealloc (extensionSize : ℕ) (ptr : Addr) (size : ℕ) : Watched Addr :=
  (growth extensionSize).myRealloc ptr size

section Erasure

variable {extensionSize request size : ℕ} {ptr : Addr}

theorem addToHeader_erases {α : Type} {chunk : Addr} {d : ℕ} {x : Watched α} {y : M α}
    (h : Erases x y) : Erases (addToHeader chunk d >>= fun _ => x) (do
      store .currentSize chunk (add64 (← load .currentSize chunk) d)
      y) := by
  unfold addToHeader
  simp only [bind_assoc]
  exact .bind .lift fun word => .bind .lift fun _ => .assertOr h

theorem endOfHeapMalloc_erases : Erases (endOfHeapMalloc extensionSize request)
    (Dlmalloc.endOfHeapMalloc extensionSize request) := by
  unfold endOfHeapMalloc Dlmalloc.endOfHeapMalloc
  refine .bind .lift fun endChunk => .bind .lift fun fits => ?_
  have htail : Erases (do
      setBin END_OF_HEAP_BIN (← splitChunk endChunk request)
      return endChunk : Watched Addr) (do
      setBin END_OF_HEAP_BIN (← splitChunk endChunk request)
      return endChunk) := .bind .lift fun split => .bind .lift fun _ => .pure
  cases fits with
  | true => exact htail
  | false =>
    refine .bind .lift fun size => .bind .lift fun brk => ?_
    by_cases hbrk : brk = SBRK_FAILED
    · rw [if_pos hbrk, if_pos hbrk]
      exact .pure
    · rw [if_neg hbrk, if_neg hbrk]
      exact addToHeader_erases htail

/-- A chunk is looked for in the bins, and then at the end of the heap. -/
theorem supply_erases {α : Type} {k : Addr → Watched α} {k' : Addr → M α}
    (hk : ∀ p, Erases (k p) (k' p)) : Erases (do
      let result ← if isLargeSize request then largeMalloc request else smallMalloc request
      if result = NULL then
        let result ← endOfHeapMalloc extensionSize request
        k result
      else
        k result : Watched α) (do
      let result ← if isLargeSize request then largeMalloc request else smallMalloc request
      if result = NULL then
        let result ← Dlmalloc.endOfHeapMalloc extensionSize request
        k' result
      else
        k' result) := by
  -- the second attempt, at the end of the heap
  have hend : ∀ p : Addr, Erases
      (if p = NULL then endOfHeapMalloc extensionSize request >>= k else k p)
      (if p = NULL then Dlmalloc.endOfHeapMalloc extensionSize request >>= k' else k' p) := by
    intro p
    by_cases hp : p = NULL
    · rw [if_pos hp, if_pos hp]
      exact endOfHeapMalloc_erases.bind hk
    · rw [if_neg hp, if_neg hp]
      exact hk p
  by_cases hlarge : isLargeSize request
  · rw [if_pos hlarge, if_pos hlarge]
    exact .bind .lift hend
  · rw [if_neg hlarge, if_neg hlarge]
    exact .bind .lift hend

theorem myMalloc_erases :
    Erases (myMalloc extensionSize size) (Dlmalloc.myMalloc extensionSize size) := by
  unfold myMalloc Dlmalloc.myMalloc
  by_cases h0 : size = 0
  · rw [if_pos h0, if_pos h0]
    exact .pure
  · rw [if_neg h0, if_neg h0]
    refine supply_erases fun result => ?_
    beta_reduce
    by_cases hnull : result ≠ NULL
    · rw [if_pos hnull, if_pos hnull]
      exact .bind .lift fun _ => .bind .lift fun next => .bind .lift fun _ => .pure
    · rw [if_neg hnull, if_neg hnull]
      exact .pure

theorem defaultRealloc_erases : Erases (defaultRealloc extensionSize ptr size)
    (Dlmalloc.defaultRealloc extensionSize ptr size) := by
  unfold defaultRealloc Dlmalloc.defaultRealloc
  refine .bind .lift fun copySize => ?_
  by_cases hsame : copySize = size
  · rw [if_pos hsame, if_pos hsame]
    exact .pure
  · rw [if_neg hsame, if_neg hsame]
    refine myMalloc_erases.bind fun newptr => ?_
    by_cases hnull : newptr = NULL
    · rw [if_pos hnull, if_pos hnull]
      exact .pure
    · rw [if_neg hnull, if_neg hnull]
      exact .bind .lift fun _ => .bind .lift fun _ => .pure

theorem reallocChunkAfterExtendHeap_erases :
    Erases (reallocChunkAfterExtendHeap extensionSize ptr request)
      (Dlmalloc.reallocChunkAfterExtendHeap extensionSize ptr request) := by
  unfold reallocChunkAfterExtendHeap Dlmalloc.reallocChunkAfterExtendHeap
  refine .bind .lift fun nextChunk => .bind .lift fun newSize => ?_
  by_cases hlt : newSize < add64 request SMALLEST_CHUNK
  · rw [if_pos hlt, if_pos hlt]
    refine .bind .lift fun brk => ?_
    by_cases hbrk : brk = SBRK_FAILED
    · rw [if_pos hbrk, if_pos hbrk]
      exact .pure
    · rw [if_neg hbrk, if_neg hbrk]
      refine addToHeader_erases ?_
      exact .bind .lift fun _ => .bind .lift fun inuse => .bind .lift fun _ =>
        .bind .lift fun split => .bind .lift fun _ => .bind .lift fun _ => .pure
  · rw [if_neg hlt, if_neg hlt]
    exact .bind .lift fun _ => .bind .lift fun inuse => .bind .lift fun _ =>
      .bind .lift fun split => .bind .lift fun _ => .bind .lift fun _ => .pure

theorem growth_sound (extensionSize : ℕ) : (growth extensionSize).Sound extensionSize where
  andAfter _ _ := .lift
  beforeAndAfter _ _ := .lift
  andBefore _ _ := .lift
  afterExtendHeap _ _ := reallocChunkAfterExtendHeap_erases
  default _ _ := defaultRealloc_erases

theorem myRealloc_erases :
    Erases (myRealloc extensionSize ptr size) (Dlmalloc.myRealloc extensionSize ptr size) :=
  (growth_sound extensionSize).myRealloc_erases

end Erasure

end Watched

/-! ### Soundness -/

/-- The end chunk reaches to eight bytes below the break. -/
def State.EndsAtBrk (s : State) : Prop :=
  add64 (s.nextHeapChunk (s.bin END_OF_HEAP_BIN)) 8 = s.memBrk

/-- No extension in the call changes the flag bits of the end chunk. -/
def Call.KeepsFlags (extensionSize : ℕ) (y : System) : Call → Prop
  | .malloc size => ¬ Stops (Watched.myMalloc extensionSize size) y.state
  | .realloc i size => ∀ b ∈ y.live[i]?,
      ¬ Stops (Watched.myRealloc extensionSize b.ptr size) y.state
  | .free _ => True

end Dlmalloc
