import Dlmalloc.Lib.ByteMem
import Mathlib.Data.Nat.Bitwise
import Mathlib.Data.Int.Basic

/-!
# The machine under the allocator

The state the allocator works on, and the macros of `allocator_helper.h` over it.

* A pointer is a natural number below `2 ^ 64`; arithmetic on `size_int` values wraps
  (`add64`, `sub64`), and `mem_sbrk` takes a 32-bit `int` (`toInt`).
* Memory is byte-addressed. A chunk header is a record laid over it (`Field`): its fields are
  loaded and stored in place, so the `previous_size` of a chunk lies on the last bytes of the
  payload before it, and the links of a free chunk lie on its old payload.
* A byte that the user wrote is marked as stale, one that the allocator stored is not. A load of a
  link, a tree field or a `previous_size` from a stale byte has no outcome, so that a call that
  returns has not taken what the user wrote for its own data.
* `bins` is an array of 64 pointers. A read past its end gives `NULL`; a write past its end has no
  outcome.
* The simulated heap (`memlib.c`) is the range from `mem_start_brk` to `mem_brk`, which `mem_sbrk`
  moves up to at most `mem_max_addr`.

A function of the allocator is an action on this state; a loop that runs out of fuel does not
return.
-/

namespace Dlmalloc

/-- A pointer, or a `size_int`. -/
abbrev Addr : Type := ℕ

def NULL : Addr := 0

/-- A value that a pointer, or a field of a chunk header, can hold. -/
def IsPtr (a : ℕ) : Prop := a < 2 ^ 64

instance (a : ℕ) : Decidable (IsPtr a) := inferInstanceAs (Decidable (_ < _))

@[simp] theorem isPtr_NULL : IsPtr NULL := Nat.two_pow_pos 64

/-! ### Machine integers -/

/-- Addition of 64-bit unsigned integers. -/
def add64 (a b : ℕ) : ℕ := (a + b) % 2 ^ 64

/-- Subtraction of 64-bit unsigned integers. -/
def sub64 (a b : ℕ) : ℕ := (a + (2 ^ 64 - b % 2 ^ 64)) % 2 ^ 64

/-- The `int` with the low 32 bits of `x`. -/
def toInt (x : ℕ) : ℤ :=
  if x % 2 ^ 32 < 2 ^ 31 then (x % 2 ^ 32 : ℕ) else (x % 2 ^ 32 : ℕ) - 2 ^ 32

/-- Negation of an `int`; the least one is its own negation. -/
def negInt (x : ℤ) : ℤ := if x = -2 ^ 31 then x else -x

/-- A pointer moved by an `int`. -/
def movePtr (p : Addr) (x : ℤ) : Addr := ((p + x) % 2 ^ 64).toNat

/-! ### Chunk headers -/

/-- The fields of `struct small_chunk` and `struct large_chunk`. -/
inductive Field : Type
  | previousSize | currentSize | next | prev | child0 | child1 | parent | binNumber | shift
  deriving DecidableEq, Repr

/-- The offset of a field in its record. -/
def Field.offset : Field → ℕ
  | previousSize => 0
  | currentSize => 8
  | next => 16
  | prev => 24
  | child0 => 32
  | child1 => 40
  | parent => 48
  | binNumber => 56
  | shift => 60

/-- The size of a field in bytes. -/
def Field.width : Field → ℕ
  | binNumber | shift => 4
  | _ => 8

/-- `children[i]`. -/
def Field.child (i : ℕ) : Field := if i = 0 then .child0 else .child1

def CURRENT_CHUNK_INUSE : ℕ := 1
def PREVIOUS_CHUNK_INUSE : ℕ := 2

def SMALLEST_MALLOC : ℕ := 2 * 8 + 8
def SMALLEST_CHUNK : ℕ := SMALLEST_MALLOC + 8

def LARGE_CHUNK_CUTOFF : ℕ := 249
def HUGE_CHUNK_CUTOFF : ℕ := 16777215

def NUM_OF_BINS : ℕ := 64
def END_OF_HEAP_BIN : ℕ := 0
def VICTIM_BIN : ℕ := 1
def HUGE_BIN : ℕ := 2

@[simp] theorem endOfHeapBin_lt : END_OF_HEAP_BIN < NUM_OF_BINS := by decide
@[simp] theorem victimBin_lt : VICTIM_BIN < NUM_OF_BINS := by decide
@[simp] theorem hugeBin_lt : HUGE_BIN < NUM_OF_BINS := by decide

/-- The parent of the root of a bin's tree. -/
def NO_PARENT_ROOT_NODE : Addr := 1
/-- The parent of a chunk that is in a tree as a list member only. -/
def NO_PARENT_CIRCLE_NODE : Addr := NULL

/-- The size in a header word, its three flag bits cleared. -/
def safeSize (size : ℕ) : ℕ := size &&& (2 ^ 64 - 1 - 7)

def isLargeSize (size : ℕ) : Prop := LARGE_CHUNK_CUTOFF < size
def isHugeSize (size : ℕ) : Prop := HUGE_CHUNK_CUTOFF < size

instance (size : ℕ) : Decidable (isLargeSize size) := inferInstanceAs (Decidable (_ < _))
instance (size : ℕ) : Decidable (isHugeSize size) := inferInstanceAs (Decidable (_ < _))

theorem isLargeSize_of_isHugeSize {size : ℕ} (hh : isHugeSize size) : isLargeSize size :=
  lt_trans (show LARGE_CHUNK_CUTOFF < HUGE_CHUNK_CUTOFF by decide) hh

/-- The position of the leading bit. -/
def fastLog2 (x : ℕ) : ℕ := Nat.log2 x

def userPointerToChunk (ptr : Addr) : Addr := sub64 ptr (2 * 8)
def chunkToUserPointer (chunk : Addr) : Addr := add64 chunk (2 * 8)

/-! ### The state -/

/-- Memory, the static array `bins` of `allocator.c` and the static pointers of `memlib.c`. -/
structure State where
  mem : ByteMem
  bins : ℕ → Addr
  memStartBrk : Addr
  memBrk : Addr
  memMaxAddr : Addr

namespace State

/-- The field `f` of the chunk at `c` lies on no stale byte. The header word of a chunk is never
part of a payload; its marks do not matter. -/
def Sound (s : State) (f : Field) (c : Addr) : Prop :=
  f = .currentSize ∨ s.mem.sound (c + f.offset) f.width = true

instance (s : State) (f : Field) (c : Addr) : Decidable (s.Sound f c) :=
  inferInstanceAs (Decidable (_ ∨ _))

/-- The field `f` of the chunk at `c`. On a stale byte it is a number that no field can hold. -/
def load (s : State) (f : Field) (c : Addr) : ℕ :=
  if s.Sound f c then s.mem.readLE (c + f.offset) f.width else 2 ^ 64

/-- The state with `v` in the field `f` of the chunk at `c`. -/
def store (s : State) (f : Field) (c : Addr) (v : ℕ) : State :=
  { s with mem := s.mem.writeLE (c + f.offset) f.width v false }

def bin (s : State) (n : ℕ) : Addr := if n < NUM_OF_BINS then s.bins n else NULL

def setBin (s : State) (n : ℕ) (chunk : Addr) : State :=
  { s with bins := Function.update s.bins n chunk }

def chunkSize (s : State) (c : Addr) : ℕ := safeSize (s.load .currentSize c)
def isPreviousInuse (s : State) (c : Addr) : ℕ := s.load .currentSize c &&& PREVIOUS_CHUNK_INUSE
def isCurrentInuse (s : State) (c : Addr) : ℕ := s.load .currentSize c &&& CURRENT_CHUNK_INUSE

/-- The chunk before `c`, by the footer of that chunk. -/
def previousHeapChunk (s : State) (c : Addr) : Addr :=
  sub64 (sub64 c (safeSize (s.load .previousSize c))) 8

/-- The chunk after `c`. -/
def nextHeapChunk (s : State) (c : Addr) : Addr :=
  add64 (add64 c (safeSize (s.load .currentSize c))) 8

end State

/-! ### Actions -/

/-- An action of the allocator: it returns a value and a state, or does not return. -/
abbrev M : Type → Type := StateT State Option

/-- The fuel of every loop. A loop follows links from chunk to chunk, and there are fewer chunks
than bytes in the simulated heap. -/
def MAX_HEAP : ℕ := 50 * 2 ^ 20

/-- Read a function of the state. -/
def look {α : Type} (f : State → α) : M α := fun s => some (f s, s)

/-- Change the state. -/
def change (f : State → State) : M Unit := fun s => some ((), f s)

/-- A loop out of fuel. -/
def diverge {α : Type} : M α := fun _ => none

/-- A load of a field. There is no outcome if the field lies on a stale byte. -/
def load (f : Field) (c : Addr) : M ℕ := fun s =>
  if s.Sound f c then some (s.load f c, s) else none

def store (f : Field) (c : Addr) (v : ℕ) : M Unit := change (·.store f c v)
def bin (n : ℕ) : M Addr := look (·.bin n)

/-- A store to `bins`. One past the end of the array would change something else of the process, so
there is no outcome. -/
def setBin (n : ℕ) (chunk : Addr) : M Unit := fun s =>
  if n < NUM_OF_BINS then some ((), s.setBin n chunk) else none

def chunkSize (c : Addr) : M ℕ := look (·.chunkSize c)
def isPreviousInuse (c : Addr) : M ℕ := look (·.isPreviousInuse c)
def isCurrentInuse (c : Addr) : M ℕ := look (·.isCurrentInuse c)
def isPreviousFree (c : Addr) : M Bool := look (fun s => decide (s.isPreviousInuse c = 0))
def isCurrentFree (c : Addr) : M Bool := look (fun s => decide (s.isCurrentInuse c = 0))

def previousHeapChunk (c : Addr) : M Addr := do
  return sub64 (sub64 c (safeSize (← load .previousSize c))) 8

def nextHeapChunk (c : Addr) : M Addr := look (·.nextHeapChunk c)
def isEndOfHeap (c : Addr) : M Bool := look (fun s => decide (c = s.bin END_OF_HEAP_BIN))

def isLargeChunk (c : Addr) : M Bool := look (fun s => decide (isLargeSize (s.chunkSize c)))
def isHugeChunk (c : Addr) : M Bool := look (fun s => decide (isHugeSize (s.chunkSize c)))

def circularListIsLengthOne (c : Addr) : M Bool := do
  if c = (← load .next c) then
    return decide (c = (← load .prev c))
  return false

def setPreviousInuse (c : Addr) : M Unit := do
  store .currentSize c ((← load .currentSize c) ||| PREVIOUS_CHUNK_INUSE)

def setCurrentInuse (c : Addr) : M Unit := do
  store .currentSize c ((← load .currentSize c) ||| CURRENT_CHUNK_INUSE)

def clearPreviousInuse (c : Addr) : M Unit := do
  store .currentSize c ((← load .currentSize c) &&& (2 ^ 64 - 1 - PREVIOUS_CHUNK_INUSE))

def clearCurrentInuse (c : Addr) : M Unit := do
  store .currentSize c ((← load .currentSize c) &&& (2 ^ 64 - 1 - CURRENT_CHUNK_INUSE))

/-! ### The simulated heap -/

/-- `mem_reset_brk`: make the heap empty. -/
def memResetBrk : M Unit := change fun s => { s with memBrk := s.memStartBrk }

/-- What `mem_sbrk` returns when it fails. -/
def SBRK_FAILED : Addr := 2 ^ 64 - 1

/-- `mem_sbrk`: move the break up by `incr` bytes and return where it was. A negative increment
or one past the end of the heap is undone and fails. -/
def memSbrk (incr : ℤ) : M Addr := do
  let oldBrk ← look (·.memBrk)
  change fun s => { s with memBrk := movePtr s.memBrk incr }
  if incr < 0 ∨ (← look (·.memMaxAddr)) < (← look (·.memBrk)) then
    change fun s => { s with memBrk := movePtr s.memBrk (negInt incr) }
    return SBRK_FAILED
  return oldBrk

/-- `mem_heap_lo`: the first byte of the heap. -/
def memHeapLo (s : State) : Addr := s.memStartBrk

/-- `mem_heap_hi`: the last byte of the heap. -/
def memHeapHi (s : State) : Addr := sub64 s.memBrk 1

/-! ### Fields -/

namespace State

variable {s : State} {f g : Field} {c d v n m : ℕ}

theorem width_le (f : Field) : 256 ^ f.width ≤ 2 ^ 64 := by
  cases f <;> decide

theorem isPtr_load_iff : IsPtr (s.load f c) ↔ s.Sound f c := by
  unfold load
  split_ifs with h
  · exact iff_of_true ((ByteMem.readLE_lt _ _ _).trans_le (width_le f)) h
  · exact iff_of_false (lt_irrefl _) h

@[simp] theorem isPtr_load_currentSize : IsPtr (s.load .currentSize c) :=
  isPtr_load_iff.mpr (.inl rfl)

/-- The header word of a record is the footer before the header word of one 8 bytes higher. -/
theorem load_currentSize_eq (h : IsPtr (s.load .previousSize (c + 8))) :
    s.load .currentSize c = s.load .previousSize (c + 8) := by
  have h1 := isPtr_load_iff.mp h
  exact (if_pos (.inl rfl)).trans (if_pos h1).symm

theorem load_store_same : (s.store f c v).load f c = v % 256 ^ f.width := by
  have hsound : (s.store f c v).Sound f c := .inr ByteMem.sound_writeLE
  exact (if_pos hsound).trans ByteMem.readLE_writeLE_same

theorem load_congr {s' : State} (h : ByteMem.AgreeOn s.mem s'.mem (c + f.offset)
    (c + f.offset + f.width)) : s'.load f c = s.load f c := by
  have hsound : s'.Sound f c ↔ s.Sound f c := by rw [Sound, Sound, ByteMem.sound_congr h]
  unfold load
  rw [ByteMem.readLE_congr h]
  exact if_congr hsound rfl rfl

theorem load_store_of_disjoint
    (h : d + g.offset + g.width ≤ c + f.offset ∨ c + f.offset + f.width ≤ d + g.offset) :
    (s.store f c v).load g d = s.load g d :=
  load_congr fun _ h1 h2 => ByteMem.writeLE_of_notMem (by omega)

/-- Distinct fields of one record do not overlap. -/
theorem load_store_of_ne (h : g ≠ f) : (s.store f c v).load g c = s.load g c := by
  refine load_store_of_disjoint ?_
  cases f <;> cases g <;> simp_all [Field.offset, Field.width]

theorem store_mem_of_notMem {x : ℕ} (h : x < c + f.offset ∨ c + f.offset + f.width ≤ x) :
    (s.store f c v).mem x = s.mem x :=
  ByteMem.writeLE_of_notMem h

@[simp] theorem store_bins : (s.store f c v).bins = s.bins := rfl
@[simp] theorem store_memStartBrk : (s.store f c v).memStartBrk = s.memStartBrk := rfl
@[simp] theorem store_memBrk : (s.store f c v).memBrk = s.memBrk := rfl
@[simp] theorem store_memMaxAddr : (s.store f c v).memMaxAddr = s.memMaxAddr := rfl
@[simp] theorem bin_store : (s.store f c v).bin n = s.bin n := rfl

@[simp] theorem setBin_mem : (s.setBin n c).mem = s.mem := rfl
@[simp] theorem setBin_memStartBrk : (s.setBin n c).memStartBrk = s.memStartBrk := rfl
@[simp] theorem setBin_memBrk : (s.setBin n c).memBrk = s.memBrk := rfl
@[simp] theorem setBin_memMaxAddr : (s.setBin n c).memMaxAddr = s.memMaxAddr := rfl
@[simp] theorem load_setBin : (s.setBin n c).load f d = s.load f d := rfl

theorem bin_setBin_same (h : n < NUM_OF_BINS) : (s.setBin n c).bin n = c := by
  simp [bin, setBin, h]

theorem bin_setBin_of_ne (h : m ≠ n) : (s.setBin n c).bin m = s.bin m := by
  unfold bin setBin
  split_ifs <;> simp [Function.update_of_ne h]

end State

/-! ### Running actions -/

section Run

variable {α β : Type} (s : State)

@[simp] theorem M.bind_apply (x : M α) (f : α → M β) :
    (x >>= f) s = (x s).bind fun p => f p.1 p.2 := rfl

/-- What a run of two actions in sequence went through. -/
theorem M.bind_eq_some {s} {s' : State} {x : M α} {f : α → M β} {b : β} :
    (x >>= f) s = some (b, s') ↔ ∃ a s₁, x s = some (a, s₁) ∧ f a s₁ = some (b, s') := by
  rw [M.bind_apply, Option.bind_eq_some_iff]
  exact Prod.exists

theorem M.pure_eq_some {s} {s' : State} {a b : α} (h : (pure a : M α) s = some (b, s')) :
    a = b ∧ s = s' :=
  Prod.mk.inj (Option.some.inj h)

/-- A statement whose outcome is known is passed by computing it. -/
theorem M.bind_of_run {s} {s₁ : State} {x : M α} {f : α → M β} {a : α} (h : x s = some (a, s₁)) :
    (x >>= f) s = f a s₁ := by
  rw [M.bind_apply, h, Option.bind_some]

@[simp] theorem M.map_apply (f : α → β) (x : M α) :
    (f <$> x) s = (x s).map fun p => (f p.1, p.2) := by
  rw [map_eq_pure_bind, M.bind_apply]
  cases x s <;> rfl

/-- What a run of an action went through whose value is mapped. -/
theorem M.map_eq_some {s} {s' : State} {x : M α} {f : α → β} {b : β} :
    (f <$> x) s = some (b, s') ↔ ∃ a, x s = some (a, s') ∧ f a = b := by
  rw [M.map_apply, Option.map_eq_some_iff]
  constructor
  · rintro ⟨p, hp, hb⟩
    obtain ⟨hf, ht⟩ := Prod.mk.inj hb
    exact ⟨p.1, by rw [hp, ← ht], hf⟩
  · rintro ⟨a, ha, hb⟩
    exact ⟨(a, s'), ha, by rw [hb]⟩

@[simp] theorem M.pure_apply (a : α) : (pure a : M α) s = some (a, s) := rfl

@[simp] theorem M.ite_apply (p : Prop) [Decidable p] (x y : M α) :
    (if p then x else y) s = if p then x s else y s := by split <;> rfl

@[simp] theorem look_apply (f : State → α) : look f s = some (f s, s) := rfl
@[simp] theorem change_apply (f : State → State) : change f s = some ((), f s) := rfl

variable (f : Field) (c : Addr) (v n : ℕ)

@[simp] theorem load_apply (h : IsPtr (s.load f c)) : load f c s = some (s.load f c, s) :=
  if_pos (State.isPtr_load_iff.mp h)

/-- A load of a field that is known to hold `v`. -/
theorem load_of_eq {f c v} (h : s.load f c = v) (hv : IsPtr v) : load f c s = some (v, s) :=
  h ▸ load_apply s f c (h ▸ hv)

/-- What a load that has an outcome read. -/
theorem load_eq_some {s} {s' : State} {f c v} (h : load f c s = some (v, s')) :
    IsPtr (s.load f c) ∧ s.load f c = v ∧ s' = s := by
  unfold load at h
  split_ifs at h with hsound
  obtain ⟨rfl, rfl⟩ := Prod.mk.inj (Option.some.inj h)
  exact ⟨State.isPtr_load_iff.mpr hsound, rfl, rfl⟩

@[simp] theorem store_apply : store f c v s = some ((), s.store f c v) := rfl
@[simp] theorem bin_apply : bin n s = some (s.bin n, s) := rfl
@[simp] theorem setBin_apply (h : n < NUM_OF_BINS) : setBin n c s = some ((), s.setBin n c) :=
  if_pos h
@[simp] theorem chunkSize_apply : chunkSize c s = some (s.chunkSize c, s) := rfl
@[simp] theorem isPreviousInuse_apply : isPreviousInuse c s = some (s.isPreviousInuse c, s) := rfl
@[simp] theorem isCurrentInuse_apply : isCurrentInuse c s = some (s.isCurrentInuse c, s) := rfl

@[simp] theorem isPreviousFree_apply :
    isPreviousFree c s = some (decide (s.isPreviousInuse c = 0), s) := rfl

@[simp] theorem isCurrentFree_apply :
    isCurrentFree c s = some (decide (s.isCurrentInuse c = 0), s) := rfl

@[simp] theorem previousHeapChunk_apply (h : IsPtr (s.load .previousSize c)) :
    previousHeapChunk c s = some (s.previousHeapChunk c, s) := by
  simp [previousHeapChunk, h, State.previousHeapChunk]

@[simp] theorem nextHeapChunk_apply : nextHeapChunk c s = some (s.nextHeapChunk c, s) := rfl

@[simp] theorem isEndOfHeap_apply :
    isEndOfHeap c s = some (decide (c = s.bin END_OF_HEAP_BIN), s) := rfl

@[simp] theorem isLargeChunk_apply :
    isLargeChunk c s = some (decide (isLargeSize (s.chunkSize c)), s) := rfl

@[simp] theorem isHugeChunk_apply :
    isHugeChunk c s = some (decide (isHugeSize (s.chunkSize c)), s) := rfl

@[simp] theorem circularListIsLengthOne_apply (h : IsPtr (s.load .next c))
    (h' : IsPtr (s.load .prev c)) : circularListIsLengthOne c s =
      some (decide (c = s.load .next c ∧ c = s.load .prev c), s) := by
  rw [circularListIsLengthOne, M.bind_of_run (load_apply s .next c h), M.ite_apply]
  by_cases hc : c = s.load .next c
  · rw [if_pos hc]
    simp [h', ← hc]
  · rw [if_neg hc]
    simp [hc]

@[simp] theorem setPreviousInuse_apply : setPreviousInuse c s =
    some ((), s.store .currentSize c (s.load .currentSize c ||| PREVIOUS_CHUNK_INUSE)) := by
  simp [setPreviousInuse]

@[simp] theorem setCurrentInuse_apply : setCurrentInuse c s =
    some ((), s.store .currentSize c (s.load .currentSize c ||| CURRENT_CHUNK_INUSE)) := by
  simp [setCurrentInuse]

@[simp] theorem clearPreviousInuse_apply : clearPreviousInuse c s = some ((), s.store .currentSize c
    (s.load .currentSize c &&& (2 ^ 64 - 1 - PREVIOUS_CHUNK_INUSE))) := by
  simp [clearPreviousInuse]

@[simp] theorem clearCurrentInuse_apply : clearCurrentInuse c s = some ((), s.store .currentSize c
    (s.load .currentSize c &&& (2 ^ 64 - 1 - CURRENT_CHUNK_INUSE))) := by
  simp [clearCurrentInuse]

end Run

end Dlmalloc
