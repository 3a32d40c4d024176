import Dlmalloc.Machine.Alloc
import Dlmalloc.Machine.Checker
import Dlmalloc.Machine.Validator

/-!
# The driver

The allocators that `mdriver.c` runs traces against, as tables of functions: the one of
`allocator.c` (`myImpl`, as it is built without assertions) and the broken one of `bad_allocator.c`
(`badImpl`, which has none). Besides validating
them the driver measures how well they use the heap (`evalMmUtil`), it can have the heap checked
after every request (`evalMmCheck`), and it measures the time that a run takes, in which the blocks
are written to (`evalMmSpeed`).
-/

namespace Dlmalloc

/-- The static data of the process that the driver does not see: the bins, and the end of the memory
that `mem_init` sets aside. -/
structure Statics where
  bins : ℕ → Addr
  memMaxAddr : Addr

def World.state (w : World Statics) : State :=
  ⟨w.mem, w.own.bins, w.memStartBrk, w.memBrk, w.own.memMaxAddr⟩

def State.world (s : State) : World Statics :=
  ⟨s.mem, s.memStartBrk, s.memBrk, ⟨s.bins, s.memMaxAddr⟩⟩

/-- A call of the allocator. Pointers have 64 bits. A call that does not return is taken to return
`NULL` and to change nothing; the calls that the driver makes return. -/
def World.call (x : M Addr) (w : World Statics) : Addr × World Statics :=
  match x w.state with
  | none => (NULL, w)
  | some (p, s) => (p % (2 ^ 64 : ℕ), s.world)

/-- A call that returns nothing. -/
def World.perform (x : M Unit) (w : World Statics) : World Statics :=
  match x w.state with
  | none => w
  | some (_, s) => s.world

/-- `my_impl`. -/
def myImpl : MallocImpl Statics where
  init w := Prod.map Int.ofNat id (w.call myInit)
  malloc size w := w.call (myMalloc EXTENSION_SIZE size)
  realloc p size w := w.call (myRealloc EXTENSION_SIZE p size)
  free p w := w.perform (myFree p)
  resetBrk w := w.perform myResetBrk
  malloc_lt size w := by
    unfold World.call
    split
    · exact Nat.two_pow_pos 64
    · exact Nat.mod_lt _ (by decide)
  realloc_lt p size w := by
    unfold World.call
    split
    · exact Nat.two_pow_pos 64
    · exact Nat.mod_lt _ (by decide)

/-! ### `bad_allocator.c` -/

def BAD_SIZE : ℕ := 4101

/-- Overrides the size, and has bad alignment. -/
def badMalloc (_size : ℕ) : M Addr := do
  let p ← memSbrk (toInt BAD_SIZE)
  if p = SBRK_FAILED then
    return NULL
  else
    return p

def badFree (_ptr : Addr) : M Unit := return ()

/-- Lacks the copy step. -/
def badRealloc (ptr : Addr) (size : ℕ) : M Addr := do
  let newptr ← badMalloc size
  if newptr = NULL then
    return NULL
  badFree ptr
  return newptr

/-- `bad_impl`. -/
def badImpl : MallocImpl Statics where
  init w := (0, w)
  malloc size w := w.call (badMalloc size)
  realloc p size w := w.call (badRealloc p size)
  free p w := w.perform (badFree p)
  resetBrk w := w.perform memResetBrk
  malloc_lt size w := by
    unfold World.call
    split
    · exact Nat.two_pow_pos 64
    · exact Nat.mod_lt _ (by decide)
  realloc_lt p size w := by
    unfold World.call
    split
    · exact Nat.two_pow_pos 64
    · exact Nat.mod_lt _ (by decide)

/-! ### Utilization -/

def MEM_ALLOWANCE : ℕ := 40 * 2 ^ 10

/-- The value of `x` as an `int`; arithmetic wraps. -/
def cInt (x : ℤ) : ℤ := (x + 2 ^ 31) % 2 ^ 32 - 2 ^ 31

/-- The variables of `eval_mm_util`, with the arrays of the trace. -/
structure Usage (σ : Type) where
  blocks : ℕ → Addr
  blockSizes : ℕ → ℕ
  totalSize : ℤ
  maxTotalSize : ℤ
  world : World σ

section Util

variable {σ : Type}

/-- Remember the block `p` under an index, and that the total changed by `d`. -/
def Usage.remember (u : Usage σ) (index : ℕ) (p : Addr) (size : ℕ) (d : ℤ) (w : World σ) :
    Usage σ where
  blocks := Function.update u.blocks index p
  blockSizes := Function.update u.blockSizes index size
  totalSize := cInt (u.totalSize + d)
  maxTotalSize := max (cInt (u.totalSize + d)) u.maxTotalSize
  world := w

/-- One request. A request that fails ends the program with a message. -/
def utilOp (impl : MallocImpl σ) (op : TraceOp) (u : Usage σ) : Except String (Usage σ) :=
  match op.type with
  | .alloc => do
    let (p, w) := impl.malloc op.size u.world
    if p = NULL then
      throw "malloc failed in eval_mm_util"
    return u.remember op.index p op.size op.size w
  | .realloc => do
    let oldsize := cInt (u.blockSizes op.index)
    let (newp, w) := impl.realloc (u.blocks op.index) op.size u.world
    if newp = NULL then
      throw "realloc failed in eval_mm_util"
    return u.remember op.index newp op.size (cInt (op.size - oldsize)) w
  | .free => do
    let size := cInt (u.blockSizes op.index)
    let w := impl.free (u.blocks op.index) u.world
    return { u with totalSize := cInt (u.totalSize - size), world := w }
  | .write => return u

def utilOps (impl : MallocImpl σ) : List TraceOp → Usage σ → Except String (Usage σ)
  | [], u => return u
  | op :: ops, u => do
    let u ← utilOp impl op u
    utilOps impl ops u

/-- `mem_reset_brk` of the driver. -/
def World.memResetBrk (w : World σ) : World σ := { w with memBrk := w.memStartBrk }

/-- `mem_heapsize`. -/
def World.memHeapsize (w : World σ) : ℕ := sub64 w.memBrk w.memStartBrk

def Usage.start (impl : MallocImpl σ) (trace : Trace) (w : World σ) : Usage σ :=
  ⟨trace.blocks, trace.blockSizes, 0, 0, (impl.init w.memResetBrk).2⟩

/-- `eval_mm_util`: the numerator and the denominator of the ratio that it returns. -/
def evalMmUtil (impl : MallocImpl σ) (trace : Trace) (w : World σ) : Except String (ℤ × ℕ) := do
  if (impl.init w.memResetBrk).1 < 0 then
    throw "init failed in eval_mm_util"
  let u ← utilOps impl trace.ops (.start impl trace w)
  return (max u.maxTotalSize MEM_ALLOWANCE, max u.world.memHeapsize MEM_ALLOWANCE)

end Util

/-! ### Heap checks and speed -/

/-- The variables of `eval_mm_check` and `eval_mm_speed`, with the array of the trace. -/
structure Replay (σ : Type) where
  blocks : ℕ → Addr
  world : World σ

section Replay

variable {σ : Type}

/-- One request, with what is done to write into a block; `none` is one that fails. -/
def replayOp (impl : MallocImpl σ) (write : TraceOp → Replay σ → Replay σ) (op : TraceOp)
    (r : Replay σ) : Option (Replay σ) :=
  match op.type with
  | .alloc =>
    let (p, w) := impl.malloc op.size r.world
    if p = NULL then none else some ⟨Function.update r.blocks op.index p, w⟩
  | .realloc =>
    let (newp, w) := impl.realloc (r.blocks op.index) op.size r.world
    if newp = NULL then none else some ⟨Function.update r.blocks op.index newp, w⟩
  | .free => some { r with world := impl.free (r.blocks op.index) r.world }
  | .write => some (write op r)

/-- A request in `eval_mm_check`, which writes nothing. -/
def checkOp (impl : MallocImpl σ) : TraceOp → Replay σ → Option (Replay σ) :=
  replayOp impl fun _ r => r

/-- The loop over the requests. -/
def checkOps (impl : MallocImpl σ) (check : World σ → Check ℤ) :
    List TraceOp → Replay σ → Check ℕ
  | [], _ => return 1
  | op :: ops, r =>
    match checkOp impl op r with
    | none => return 0
    | some r => do
      if (← check r.world) < 0 then
        return 0
      checkOps impl check ops r

/-- `eval_mm_check`, where `check` is the one of the implementation. An `init` that fails is
reported, and the requests are made nevertheless. -/
def evalMmCheck (impl : MallocImpl σ) (check : World σ → Check ℤ) (trace : Trace) (w : World σ) :
    Check ℕ :=
  checkOps impl check trace.ops ⟨trace.blocks, (impl.init w.memResetBrk).2⟩

/-- `my_check` of `myImpl`, which has no assertions compiled in. -/
def myImplCheck (w : World Statics) : Check ℤ := do
  return (← w.state.myCheck false : ℕ)

def XOR_CONSTANT : UInt8 := 0x7B

def memOp (raddr waddr : Addr) (mem : ByteMem) : ByteMem :=
  Function.update mem waddr ⟨(mem raddr).val ^^^ XOR_CONSTANT, true⟩

/-- Every byte of a block but the first is computed from the one before. There are no such bytes if
the size is at most one. -/
def memOps (p : Addr) (size : ℕ) (mem : ByteMem) : ByteMem :=
  (List.range' 1 (size - 1)).foldl (fun mem offset => memOp (p + offset - 1) (p + offset) mem) mem

/-- A request in `eval_mm_speed`. -/
def speedOp (impl : MallocImpl σ) : TraceOp → Replay σ → Option (Replay σ) :=
  replayOp impl fun op r =>
    { r with world := { r.world with mem := memOps (r.blocks op.index) op.size r.world.mem } }

/-- The loop over the requests. A request that fails ends the program with a message. -/
def speedOps (impl : MallocImpl σ) : List TraceOp → Replay σ → Except String (Replay σ)
  | [], r => return r
  | op :: ops, r =>
    match speedOp impl op r with
    | none => throw (if op.type = .realloc then "realloc error in eval_mm_speed"
        else "malloc error in eval_mm_speed")
    | some r => speedOps impl ops r

/-- `eval_mm_speed`. -/
def evalMmSpeed (impl : MallocImpl σ) (trace : Trace) (w : World σ) :
    Except String (Replay σ) := do
  if (impl.init w.memResetBrk).1 < 0 then
    throw "init failed in eval_mm_speed"
  speedOps impl trace.ops ⟨trace.blocks, (impl.init w.memResetBrk).2⟩

end Replay

end Dlmalloc
