import Dlmalloc.Lib.Stops
import Dlmalloc.Machine.Alloc

/-!
# Reallocation with assertions

A growing `my_realloc` in a build with assertions on: the four ways to grow in place, each with the
assertions at its start, and the function that tries them. A run stops with the text of the first
assertion that fails. Without the assertions these are the functions themselves
(`Asserting.myRealloc_erases`).
-/

namespace Dlmalloc

/-- Functions in the place of those that `realloc_chunk_is_larger` calls, which may stop. -/
structure Growth (ε : Type) where
  reallocChunkAndAfter : Addr → ℕ → ExceptT ε M Addr
  reallocChunkBeforeAndAfter : Addr → ℕ → ExceptT ε M Addr
  reallocChunkAndBefore : Addr → ℕ → ExceptT ε M Addr
  reallocChunkAfterExtendHeap : Addr → ℕ → ExceptT ε M Addr
  defaultRealloc : Addr → ℕ → ExceptT ε M Addr

section Growth

variable {ε : Type}

def Growth.reallocChunkIsLarger (g : Growth ε) (ptr : Addr) (request : ℕ) : ExceptT ε M Addr := do
  let chunk := userPointerToChunk ptr
  let mut result := NULL
  if ← canCombineNext chunk then
    result ← g.reallocChunkAndAfter ptr request
  if result ≠ NULL then
    return result
  if (← canCombinePrevious chunk) && (← canCombineNext chunk) then
    result ← g.reallocChunkBeforeAndAfter ptr request
  if result ≠ NULL then
    return result
  if (← canCombinePrevious chunk) && !(← isEndOfHeap (← nextHeapChunk chunk)) then
    result ← g.reallocChunkAndBefore ptr request
  if result ≠ NULL then
    return result
  if (← canCombineNext chunk) && (← isEndOfHeap (← nextHeapChunk chunk)) then
    result ← g.reallocChunkAfterExtendHeap ptr request
  if result ≠ NULL then
    return result
  g.defaultRealloc ptr request

def Growth.myRealloc (g : Growth ε) (ptr : Addr) (size : ℕ) : ExceptT ε M Addr := do
  let request := requestSize size
  if request ≤ (← chunkSize (userPointerToChunk ptr)) then
    reallocChunkIsSmaller ptr request
  else
    g.reallocChunkIsLarger ptr request

/-- Without what may stop them the functions are those of the source. -/
structure Growth.Sound (g : Growth ε) (extensionSize : ℕ) : Prop where
  andAfter : ∀ ptr request, Erases (g.reallocChunkAndAfter ptr request)
    (Dlmalloc.reallocChunkAndAfter ptr request)
  beforeAndAfter : ∀ ptr request, Erases (g.reallocChunkBeforeAndAfter ptr request)
    (Dlmalloc.reallocChunkBeforeAndAfter ptr request)
  andBefore : ∀ ptr request, Erases (g.reallocChunkAndBefore ptr request)
    (Dlmalloc.reallocChunkAndBefore ptr request)
  afterExtendHeap : ∀ ptr request, Erases (g.reallocChunkAfterExtendHeap ptr request)
    (Dlmalloc.reallocChunkAfterExtendHeap extensionSize ptr request)
  default : ∀ ptr request, Erases (g.defaultRealloc ptr request)
    (Dlmalloc.defaultRealloc extensionSize ptr request)

variable {g : Growth ε} {extensionSize request size : ℕ} {ptr : Addr}

/-- One way to grow is tried, and the next ones if it returns `NULL`. -/
theorem attempt_erases {b : Bool} {x : ExceptT ε M Addr} {y : M Addr} {f : Addr → ExceptT ε M Addr}
    {k : Addr → M Addr} {r : Addr} (hx : Erases x y) (hf : ∀ p, Erases (f p) (k p)) :
    Erases (if b then x >>= fun p => if p ≠ NULL then pure p else f p
        else if r ≠ NULL then pure r else f r)
      (if b then y >>= fun p => if p ≠ NULL then pure p else k p
        else if r ≠ NULL then pure r else k r) := by
  have hk : ∀ p, Erases (if p ≠ NULL then pure p else f p : ExceptT ε M Addr)
      (if p ≠ NULL then pure p else k p) := by
    intro p
    by_cases hp : p ≠ NULL
    · rw [if_pos hp, if_pos hp]
      exact .pure
    · rw [if_neg hp, if_neg hp]
      exact hf p
  cases b with
  | false => exact hk r
  | true => exact hx.bind hk

theorem Growth.Sound.reallocChunkIsLarger_erases (hg : g.Sound extensionSize) :
    Erases (g.reallocChunkIsLarger ptr request)
      (Dlmalloc.reallocChunkIsLarger extensionSize ptr request) := by
  unfold Growth.reallocChunkIsLarger Dlmalloc.reallocChunkIsLarger
  refine .bind .lift fun next => ?_
  refine attempt_erases (hg.andAfter ptr request) fun _ => ?_
  refine .bind .lift fun previous => .bind .lift fun next => ?_
  refine attempt_erases (hg.beforeAndAfter ptr request) fun _ => ?_
  refine .bind .lift fun previous => .bind .lift fun nextChunk => .bind .lift fun atEnd => ?_
  refine attempt_erases (hg.andBefore ptr request) fun _ => ?_
  refine .bind .lift fun next => .bind .lift fun nextChunk => .bind .lift fun atEnd => ?_
  exact attempt_erases (hg.afterExtendHeap ptr request) fun _ => hg.default ptr request

/-- Where nothing stops it, the call is the one of the source. -/
theorem Growth.Sound.myRealloc_erases (hg : g.Sound extensionSize) :
    Erases (g.myRealloc ptr size) (Dlmalloc.myRealloc extensionSize ptr size) := by
  unfold Growth.myRealloc Dlmalloc.myRealloc
  refine .bind .lift fun chunkSize => ?_
  split_ifs
  · exact .lift
  · exact hg.reallocChunkIsLarger_erases

/-- A call that shrinks the block or leaves it does not stop. -/
theorem Growth.stops_myRealloc {s : State} : Stops (g.myRealloc ptr size) s ↔
    s.chunkSize (userPointerToChunk ptr) < requestSize size ∧
      Stops (g.reallocChunkIsLarger ptr (requestSize size)) s := by
  unfold Growth.myRealloc
  refine (stops_lift_bind (chunkSize_apply s _)).trans ?_
  by_cases hlarger : s.chunkSize (userPointerToChunk ptr) < requestSize size
  · rw [if_neg (not_le.mpr hlarger)]
    exact (and_iff_right hlarger).symm
  · rw [if_pos (not_lt.mp hlarger)]
    exact iff_of_false not_stops_lift fun h => hlarger h.1

end Growth

/-! ### The assertions -/

/-- An action with assertions. -/
abbrev Asserting : Type → Type := ExceptT String M

namespace Asserting

def reallocChunkAndAfter (ptr : Addr) (request : ℕ) : Asserting Addr := do
  let chunk := userPointerToChunk ptr
  assertOr "IS_CURRENT_FREE(next_chunk)" (fun s => s.isCurrentInuse (s.nextHeapChunk chunk) = 0)
  assertOr "IS_CURRENT_INUSE(chunk)" (·.isCurrentInuse chunk ≠ 0)
  Dlmalloc.reallocChunkAndAfter ptr request

def reallocChunkAndBefore (ptr : Addr) (request : ℕ) : Asserting Addr := do
  let chunk := userPointerToChunk ptr
  assertOr "IS_PREVIOUS_FREE(chunk)" (·.isPreviousInuse chunk = 0)
  assertOr "IS_CURRENT_INUSE(chunk)" (·.isCurrentInuse chunk ≠ 0)
  assertOr "IS_CURRENT_INUSE(NEXT_HEAP_CHUNK(chunk))"
    (fun s => s.isCurrentInuse (s.nextHeapChunk chunk) ≠ 0)
  Dlmalloc.reallocChunkAndBefore ptr request

def reallocChunkBeforeAndAfter (ptr : Addr) (request : ℕ) : Asserting Addr := do
  let chunk := userPointerToChunk ptr
  assertOr "IS_PREVIOUS_FREE(chunk)" (·.isPreviousInuse chunk = 0)
  assertOr "IS_CURRENT_INUSE(chunk)" (·.isCurrentInuse chunk ≠ 0)
  assertOr "IS_CURRENT_FREE(NEXT_HEAP_CHUNK(chunk))"
    (fun s => s.isCurrentInuse (s.nextHeapChunk chunk) = 0)
  Dlmalloc.reallocChunkBeforeAndAfter ptr request

def reallocChunkAfterExtendHeap (extensionSize : ℕ) (ptr : Addr) (request : ℕ) :
    Asserting Addr := do
  let chunk := userPointerToChunk ptr
  assertOr "IS_CURRENT_INUSE(chunk)" (·.isCurrentInuse chunk ≠ 0)
  assertOr "IS_CURRENT_FREE(NEXT_HEAP_CHUNK(chunk))"
    (fun s => s.isCurrentInuse (s.nextHeapChunk chunk) = 0)
  assertOr "IS_END_OF_HEAP(NEXT_HEAP_CHUNK(chunk))"
    (fun s => s.nextHeapChunk chunk = s.bin END_OF_HEAP_BIN)
  Dlmalloc.reallocChunkAfterExtendHeap extensionSize ptr request

/-- The ways to grow with their assertions. `default_realloc` has none of its own. -/
def growth (extensionSize : ℕ) : Growth String where
  reallocChunkAndAfter := reallocChunkAndAfter
  reallocChunkBeforeAndAfter := reallocChunkBeforeAndAfter
  reallocChunkAndBefore := reallocChunkAndBefore
  reallocChunkAfterExtendHeap := reallocChunkAfterExtendHeap extensionSize
  defaultRealloc ptr request := liftM (defaultRealloc extensionSize ptr request)

def reallocChunkIsLarger (extensionSize : ℕ) (ptr : Addr) (request : ℕ) : Asserting Addr :=
  (growth extensionSize).reallocChunkIsLarger ptr request

def myRealloc (extensionSize : ℕ) (ptr : Addr) (size : ℕ) : Asserting Addr :=
  (growth extensionSize).myRealloc ptr size

theorem growth_sound (extensionSize : ℕ) : (growth extensionSize).Sound extensionSize where
  andAfter _ _ := .assertOr (.assertOr .lift)
  beforeAndAfter _ _ := .assertOr (.assertOr (.assertOr .lift))
  andBefore _ _ := .assertOr (.assertOr (.assertOr .lift))
  afterExtendHeap _ _ := .assertOr (.assertOr (.assertOr .lift))
  default _ _ := .lift

/-- Where no assertion fails the assertions make no difference. -/
theorem myRealloc_erases {extensionSize size : ℕ} {ptr : Addr} :
    Erases (myRealloc extensionSize ptr size) (Dlmalloc.myRealloc extensionSize ptr size) :=
  (growth_sound extensionSize).myRealloc_erases

end Asserting

end Dlmalloc
