import Dlmalloc.Machine.Alloc

/-!
# The allocator and its user

The user makes calls and, between them, writes into the blocks it holds. `Run` is a finite run of
such events, in which every call is one that is allowed; `Reachable` are the states of runs that
start with `my_init` on an empty heap and empty bins. The initial contents of memory are arbitrary,
and so is which bytes of it are stale.
-/

namespace Dlmalloc

/-- A live block: its pointer, and the size it was asked for. -/
structure Block : Type where
  ptr : Addr
  size : ℕ
  deriving DecidableEq, Repr

/-- A call; blocks are named by their place in the list of live blocks. -/
inductive Call : Type
  | malloc (size : ℕ)
  | realloc (i size : ℕ)
  | free (i : ℕ)
  deriving DecidableEq, Repr

/-- What the user does: a call, or a byte `v` written at offset `k` of a live block. -/
inductive Event : Type
  | call (c : Call)
  | write (i k : ℕ) (v : UInt8)
  deriving DecidableEq

/-- The calls among the events. -/
def calls : List Event → List Call
  | [] => []
  | .call c :: es => c :: calls es
  | .write _ _ _ :: es => calls es

/-- The state of the allocator, and the live blocks. -/
structure System : Type where
  state : State
  live : List Block

/-- Make a call. The outcome is the pointer it returns, `NULL` for a deallocation. -/
def Call.run (extensionSize : ℕ) : Call → System → Option (Addr × System)
  | .malloc size, y =>
    (myMalloc extensionSize size y.state).map fun (p, s') =>
      (p, ⟨s', if p = NULL then y.live else y.live ++ [⟨p, size⟩]⟩)
  | .realloc i size, y =>
    y.live[i]?.bind fun b => (myRealloc extensionSize b.ptr size y.state).map fun (p, s') =>
      (p, ⟨s', if p = NULL then y.live else y.live.set i ⟨p, size⟩⟩)
  | .free i, y =>
    y.live[i]?.bind fun b => (myFree b.ptr y.state).map fun (_, s') =>
      (NULL, ⟨s', y.live.eraseIdx i⟩)

/-- The byte `v` written at `p`. It is stale to the allocator. -/
def System.write (y : System) (p : Addr) (v : UInt8) : System :=
  { y with state := { y.state with mem := Function.update y.state.mem p ⟨v, true⟩ } }

/-- The system in which every byte of a live block is stale, whoever wrote it. -/
def System.spoiled (y : System) : System :=
  { y with state := { y.state with mem := fun x =>
      ⟨(y.state.mem x).val,
        (y.state.mem x).stale || y.live.any fun b => decide (b.ptr ≤ x ∧ x < b.ptr + b.size)⟩ } }

/-- The blocks a call names are live, and the size it asks for is at most `N`. -/
def Call.Valid (N : ℕ) (live : List Block) : Call → Prop
  | .malloc size => size ≤ N
  | .realloc i size => i < live.length ∧ size ≤ N
  | .free i => i < live.length

instance (N : ℕ) (live : List Block) : (c : Call) → Decidable (c.Valid N live)
  | .malloc size => inferInstanceAs (Decidable (size ≤ N))
  | .realloc i size => inferInstanceAs (Decidable (i < live.length ∧ size ≤ N))
  | .free i => inferInstanceAs (Decidable (i < live.length))

/-- The size a call asks for. -/
def Call.asks : Call → Option ℕ
  | .malloc size => some size
  | .realloc _ size => some size
  | .free _ => none

/-- Sizes up to this one are far enough from what an `int` can hold: the heap is extended by the
size, rounded and with room for another chunk and `EXTENSION_SIZE`. -/
def LARGEST_SIZE : ℕ := 2 ^ 31 - 1024

/-- A call on live blocks, with a size of at most `N`. -/
def Sized (N : ℕ) (y : System) (c : Call) : Prop := c.Valid N y.live

/-- A run from `y`, all of whose calls are allowed: the events, what the calls among them return,
and the system after them. -/
inductive Run (extensionSize : ℕ) (Allowed : System → Call → Prop) (y : System) :
    List Event → List Addr → System → Prop
  | nil : Run extensionSize Allowed y [] [] y
  | call {es : List Event} {ps : List Addr} {y' y'' : System} {c : Call} {p : Addr} :
      Run extensionSize Allowed y es ps y' → Allowed y' c → c.run extensionSize y' = some (p, y'') →
      Run extensionSize Allowed y (es ++ [.call c]) (ps ++ [p]) y''
  | write {es : List Event} {ps : List Addr} {y' : System} {i k : ℕ} {v : UInt8} {b : Block} :
      Run extensionSize Allowed y es ps y' → y'.live[i]? = some b → k < b.size →
      Run extensionSize Allowed y (es ++ [.write i k v]) ps (y'.write (b.ptr + k) v)

/-- Make the calls of a list, and collect what they return. -/
def runCalls (extensionSize : ℕ) : List Call → System → Option (List Addr × System)
  | [], y => some ([], y)
  | c :: cs, y => do
    let (p, y) ← c.run extensionSize y
    let (ps, y) ← runCalls extensionSize cs y
    return (p :: ps, y)

/-- Make the calls of a list, all the live blocks being spoiled before each one. -/
def runSpoiled (extensionSize : ℕ) : List Call → System → Option (List Addr × System)
  | [], y => some ([], y)
  | c :: cs, y => do
    let (p, y) ← c.run extensionSize y.spoiled
    let (ps, y) ← runSpoiled extensionSize cs y
    return (p :: ps, y)

/-! ### The start -/

/-- The simulated heap is empty, as `mem_init` and `mem_reset_brk` leave it. It does not begin at
`NULL`, and lies so far from the end of the address space that adding an `int` to an address in it
does not wrap. -/
structure Fresh (s : State) : Prop where
  start : s.memStartBrk ≠ NULL
  brk : s.memBrk = s.memStartBrk
  max : s.memMaxAddr = s.memStartBrk + MAX_HEAP
  span : s.memMaxAddr + 2 ^ 31 ≤ 2 ^ 64

/-- `my_init` was run on an empty heap and empty bins. What the first bin pointed to before does not
matter. -/
structure Started (y : System) : Prop where
  live : y.live = []
  init : ∃ s, Fresh s ∧ (∀ n, n ≠ END_OF_HEAP_BIN → s.bin n = NULL) ∧ myInit s = some (0, y.state)

/-- An empty heap at `start`, in a memory of stale zeros, with empty bins. -/
def State.blank (start : Addr) : State :=
  ⟨fun _ => ⟨0, true⟩, fun _ => NULL, start, start, start + MAX_HEAP⟩

/-- The system after `my_init` on an empty heap at `start`. -/
def System.blank (start : Addr) : System :=
  ⟨((myInit (.blank start)).map Prod.snd).getD (.blank start), []⟩

/-- The systems reached from a fresh start by calls that are allowed. -/
def Reachable (extensionSize : ℕ) (Allowed : System → Call → Prop) (y : System) : Prop :=
  ∃ y₀ es ps, Started y₀ ∧ Run extensionSize Allowed y₀ es ps y

/-- The call takes the splitting branch of `realloc_chunk_is_smaller`. -/
def Call.Splits (y : System) : Call → Prop
  | .realloc i size => ∃ b ∈ y.live[i]?,
      requestSize size + SMALLEST_CHUNK ≤ y.state.chunkSize (userPointerToChunk b.ptr)
  | _ => False

/-- The call takes that branch for a block before a chunk in use. -/
def Call.BareSplits (y : System) : Call → Prop
  | .realloc i size => ∃ b ∈ y.live[i]?,
      requestSize size + SMALLEST_CHUNK ≤ y.state.chunkSize (userPointerToChunk b.ptr) ∧
      y.state.isCurrentInuse (y.state.nextHeapChunk (userPointerToChunk b.ptr)) ≠ 0
  | _ => False

/-! ### What there is to see -/

namespace State

/-- The first chunk of the heap. -/
def firstChunk (s : State) : Addr := ALIGN s.memStartBrk

/-- The walk along `NEXT_HEAP_CHUNK` from `c` to the end of the heap. -/
def heapWalk (s : State) : ℕ → Addr → Option (List Addr)
  | 0, _ => none
  | fuel + 1, c =>
    if c = s.bin END_OF_HEAP_BIN then some [c]
    else (s.heapWalk fuel (s.nextHeapChunk c)).map (c :: ·)

/-- The chunks of the heap. -/
def heapChunks (s : State) : Option (List Addr) := s.heapWalk MAX_HEAP s.firstChunk

/-- The circular list from `c` on, up to the chunk before `start`. -/
def ringMembers (s : State) (start : Addr) : ℕ → Addr → Option (List Addr)
  | 0, _ => none
  | fuel + 1, c =>
    if s.load .next c = start then some [c]
    else (s.ringMembers start fuel (s.load .next c)).map (c :: ·)

/-- The chunks in the tree under `c`: nodes and the members of their lists. -/
def treeMembers (s : State) : ℕ → Addr → Option (List Addr)
  | 0, _ => none
  | fuel + 1, c =>
    if c = NULL then some []
    else do
      let ring ← s.ringMembers c MAX_HEAP c
      let left ← s.treeMembers fuel (s.load .child0 c)
      let right ← s.treeMembers fuel (s.load .child1 c)
      return ring ++ (left ++ right)

/-- The chunks a bin holds. The first two bins hold one chunk at most, the huge bin and the small
ones a circular list, the large ones a tree. -/
def binMembers (s : State) (n : ℕ) : Option (List Addr) :=
  if s.bin n = NULL then some []
  else if n < HUGE_BIN then some [s.bin n]
  else if n < 32 then s.ringMembers (s.bin n) MAX_HEAP (s.bin n)
  else s.treeMembers MAX_HEAP (s.bin n)

end State

end Dlmalloc
