import Dlmalloc.Machine.State

/-!
# The validator

`eval_mm_valid` of `validator.h`, which runs a trace of requests against an allocator and keeps the
extents of the live payloads in a list of records. The allocator is any (`MallocImpl`): its
functions may change memory, the bounds of the heap and data of its own in any way, and may return
any pointer. `debug` says whether assertions are compiled in. The records are allocated with the C
library's `malloc`, which is taken not to fail.
-/

namespace Dlmalloc

/-- What the driver and an allocator share: memory and the static pointers of `memlib.c`; and the
allocator's own data. -/
structure World (σ : Type) where
  mem : ByteMem
  memStartBrk : Addr
  memBrk : Addr
  own : σ

section Validator

variable {σ : Type}

def World.memHeapLo (w : World σ) : ℕ := w.memStartBrk

def World.memHeapHi (w : World σ) : ℕ := sub64 w.memBrk 1

/-- The functions of a `malloc_impl_t` that the validator calls. Pointers have 64 bits. -/
structure MallocImpl (σ : Type) where
  init : World σ → ℤ × World σ
  malloc : ℕ → World σ → Addr × World σ
  realloc : Addr → ℕ → World σ → Addr × World σ
  free : Addr → World σ → World σ
  resetBrk : World σ → World σ
  malloc_lt : ∀ size w, (malloc size w).1 < 2 ^ 64
  realloc_lt : ∀ p size w, (realloc p size w).1 < 2 ^ 64

def R_ALIGNMENT : ℕ := 8

inductive TraceOpType : Type where
  | alloc
  | free
  | realloc
  | write
  deriving DecidableEq, Repr

/-- A request of a trace: its type, the index of its block, and the size asked for. -/
structure TraceOp : Type where
  type : TraceOpType
  index : ℕ
  size : ℕ
  deriving DecidableEq, Repr

/-- A trace: the requests, and the arrays for the blocks' pointers and sizes, which may hold
anything before they are written. -/
structure Trace : Type where
  ops : List TraceOp
  blocks : ℕ → Addr
  blockSizes : ℕ → ℕ

/-- The record of a payload: its first address and its last. -/
structure Range : Type where
  lo : ℕ
  hi : ℕ
  deriving DecidableEq, Repr

/-- How the validator ends: it returns, or an assertion fails. -/
inductive Stop : Type where
  | returned (result : ℕ)
  | aborted
  deriving DecidableEq, Repr

/-- An assertion, compiled in or not. -/
def assertion (debug : Bool) (p : Prop) [Decidable p] : Except Stop Unit :=
  if debug = true ∧ ¬ p then .error .aborted else .ok ()

/-- The loop of `add_range` over the records: whether none of them overlaps `lo` to `hi`. -/
def noOverlap (debug : Bool) (lo hi : ℕ) : List Range → Except Stop Bool
  | [] => return true
  | p :: ranges => do
    assertion debug (p.hi < lo ∨ hi < p.lo)
    if ¬ (p.hi < lo ∨ hi < p.lo) then
      return false
    noOverlap debug lo hi ranges

def addRange (debug : Bool) (w : World σ) (ranges : List Range) (lo size : ℕ) :
    Except Stop (ℕ × List Range) := do
  let hi := sub64 (add64 lo size) 1
  assertion debug (0 < size)
  -- Payload addresses must be R_ALIGNMENT-byte aligned
  assertion debug (lo % R_ALIGNMENT = 0)
  if lo % R_ALIGNMENT ≠ 0 then
    return (0, ranges)
  -- The payload must lie within the extent of the heap
  assertion debug (hi ≤ w.memHeapHi)
  assertion debug (w.memHeapLo ≤ lo)
  if w.memHeapHi < hi ∨ lo < w.memHeapLo then
    return (0, ranges)
  -- The payload must not overlap any other payloads
  if (← noOverlap debug lo hi ranges) = false then
    return (0, ranges)
  return (1, ⟨lo, hi⟩ :: ranges)

/-- Unlink the first record whose payload starts at `lo`. -/
def removeRange (lo : ℕ) : List Range → List Range
  | [] => []
  | p :: ranges => if p.lo = lo then ranges else p :: removeRange lo ranges

/-! ### The contents of the blocks -/

/-- The words `*writer` of a loop from `p` while `writer` is below `p + size`; there are none if
this sum wraps. -/
def words (p : Addr) (size : ℕ) : List Addr :=
  (List.range ((add64 p size - p + 7) / 8)).map (p + 8 * ·)

/-- Fill the block `p` with words that tell the block and the place in it. They are stale to the
allocator. -/
def fill (p : Addr) (size : ℕ) (mem : ByteMem) : ByteMem :=
  (words p size).foldl (fun mem writer => mem.writeLE writer 8 (sub64 writer p ^^^ p) true) mem

/-- The loop over the words of a block that was moved to `newp`: they must be those of `oldp`. -/
def checkWords (debug : Bool) (mem : ByteMem) (newp oldp : Addr) : List Addr → Except Stop Unit
  | [] => return ()
  | writer :: writers => do
    assertion debug (mem.readLE writer 8 = sub64 writer newp ^^^ oldp)
    if mem.readLE writer 8 ≠ sub64 writer newp ^^^ oldp then
      throw (.returned 0)
    checkWords debug mem newp oldp writers

/-! ### The requests -/

/-- The variables of `eval_mm_valid`, with the arrays of the trace. -/
structure Checker (σ : Type) where
  ranges : List Range
  blocks : ℕ → Addr
  blockSizes : ℕ → ℕ
  world : World σ

/-- Remember the block `p` under an index, and fill it. -/
def Checker.remember (c : Checker σ) (index : ℕ) (p : Addr) (size : ℕ) (w : World σ)
    (ranges : List Range) : Checker σ where
  ranges := ranges
  blocks := Function.update c.blocks index p
  blockSizes := Function.update c.blockSizes index size
  world := { w with mem := fill p size w.mem }

/-- One request. -/
def evalOp (impl : MallocImpl σ) (debug : Bool) (op : TraceOp) (c : Checker σ) :
    Except Stop (Checker σ) :=
  match op.type with
  | .alloc => do
    let (p, w) := impl.malloc op.size c.world
    if p = NULL then
      throw (.returned 0)
    let (added, ranges) ← addRange debug w c.ranges p op.size
    if added = 0 then
      throw (.returned 0)
    return c.remember op.index p op.size w ranges
  | .realloc => do
    let oldp := c.blocks op.index
    let (newp, w) := impl.realloc oldp op.size c.world
    if newp = NULL then
      throw (.returned 0)
    -- Remove the old region from the range list
    let ranges := removeRange oldp c.ranges
    let (added, ranges) ← addRange debug w ranges newp op.size
    if added = 0 then
      throw (.returned 0)
    -- Make sure that the new block contains the data from the old block
    let oldsize := min op.size (c.blockSizes op.index)
    checkWords debug w.mem newp oldp (words newp oldsize)
    return c.remember op.index newp op.size w ranges
  | .free =>
    let p := c.blocks op.index
    return { c with ranges := removeRange p c.ranges, world := impl.free p c.world }
  | .write => return c

/-- The loop over the requests. -/
def evalOps (impl : MallocImpl σ) (debug : Bool) :
    List TraceOp → Checker σ → Except Stop (Checker σ)
  | [], c => return c
  | op :: ops, c => do
    let c ← evalOp impl debug op c
    evalOps impl debug ops c

/-- The validator before the first request, the heap reset and `init` called. -/
def Checker.start (impl : MallocImpl σ) (trace : Trace) (w : World σ) : Checker σ :=
  ⟨[], trace.blocks, trace.blockSizes, (impl.init (impl.resetBrk w)).2⟩

/-- `eval_mm_valid`: the loop over the requests between a reset of the heap and the end. -/
def evalMmValid (impl : MallocImpl σ) (debug : Bool) (trace : Trace) (w : World σ) : Stop :=
  if (impl.init (impl.resetBrk w)).1 < 0 then
    .returned 0
  else
    match evalOps impl debug trace.ops (.start impl trace w) with
    | .error stop => stop
    | .ok _ => .returned 1

end Validator

end Dlmalloc
