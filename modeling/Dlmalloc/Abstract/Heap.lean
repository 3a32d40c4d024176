import Dlmalloc.Abstract.Bins
import Dlmalloc.Abstract.Layout
import Dlmalloc.Machine.Alloc

/-!
# The allocator on a row of chunks

What the allocator does, said on the row of chunks and the collections the bins stand for. Nothing
here depends on addresses in memory being read or written; the definitions are what the machine
level is shown to compute.

* `Heap` — the row of chunks, the bins, and the bounds of the simulated heap;
* `Heap.malloc`, `Heap.free`, `Heap.realloc` — the three calls. Blocks are named by the address of
  their chunk; `none` is a call that fails, which leaves the heap as it is.
-/

namespace Dlmalloc

/-- The state of the allocator. -/
structure Heap : Type where
  /-- The first byte of the simulated heap. -/
  start : ℕ
  /-- The first chunk. -/
  first : ℕ
  /-- The end of the simulated heap. -/
  brk : ℕ
  /-- What `brk` cannot grow over. -/
  limit : ℕ
  chunks : List Chunk
  bins : Bins

/-- The chunk at `a`. -/
def chunkAt (L : List Chunk) (a : ℕ) : Option Chunk := L.find? (·.addr = a)

/-- The chunk that ends where `a` begins. -/
def chunkBefore (L : List Chunk) (a : ℕ) : Option Chunk := L.find? (·.next = a)

namespace Bins

/-- The tree of a large bin; past the last bin there is none. -/
def tree (B : Bins) (n : ℕ) : DigitTree ℕ := if n < NUM_OF_BINS then B.large n else .nil

/-- The scan of the large bins above `n` up to `last`, at most `left` of them. -/
def scanLarge (B : Bins) (last : ℕ) : ℕ → ℕ → Option Slot
  | 0, _ => none
  | left + 1, n =>
    if n < last then
      match B.tree (n + 1) with
      | .nil => B.scanLarge last left (n + 1)
      | .node k a rest l r => some (DigitTree.leftmost (a, k) (.node k a rest l r))
    else none

/-- The chunk `find_best_chunk` settles on. -/
def findBest (r : ℕ) (B : Bins) : Option Slot :=
  let n := largeRequestIndex r
  ((B.tree n).bestFit r (binLevel n) none (2 * r)).or (B.scanLarge 64 LARGE_BIN_SEARCH_MAX n)

/-- The chunk `huge_malloc` settles on. -/
def hugeBest (r : ℕ) : Option Slot → ℕ → List Slot → Option Slot
  | best, _, [] => best
  | best, bound, e :: l =>
    if r ≤ e.2 ∧ e.2 < bound then
      if e.2 = r then some e else hugeBest r (some e) e.2 l
    else hugeBest r best bound l

/-- The old victim goes into its bin. -/
def retire (B : Bins) : Bins :=
  match B.victim with
  | none => B
  | some v => B.insert v

end Bins

namespace Heap

/-- The end of the heap. -/
def top (h : Heap) : Slot := h.chunks.getLast?.elim (0, 0) Chunk.slot

/-- The end of the heap is where it is as long as no chunk is moved. -/
theorem top_of_map {h h' : Heap} (hL : h'.chunks.map Chunk.slot = h.chunks.map Chunk.slot) :
    h'.top = h.top := by
  have h1 : ∀ g : Heap, g.top = (g.chunks.map Chunk.slot).getLast?.getD (0, 0) := fun g => by
    rw [top, List.getLast?_map]
    cases g.chunks.getLast? <;> rfl
  rw [h1, h1, hL]

/-! ### Allocation -/

/-- What is left of the chunk `e`, taken from a bin for a request `r`, becomes the victim. -/
def splitOffVictim (e : Slot) (r : ℕ) (h : Heap) : Heap :=
  if r + SMALLEST_CHUNK ≤ e.2 then
    { h with
      chunks := carve e.1 r h.chunks
      bins := { h.bins.retire with victim := some (e.1 + r + 8, e.2 - r - 8) } }
  else h

/-- Take the chunk `e` out of its bin for a request `r`. -/
def takeBinned (r : ℕ) (h : Heap) (e : Slot) : ℕ × Heap :=
  (e.1, splitOffVictim e r { h with bins := h.bins.unbin e })

def victimMalloc (r : ℕ) (h : Heap) : Option (ℕ × Heap) :=
  match h.bins.victim with
  | none => none
  | some v =>
    if r + SMALLEST_CHUNK ≤ v.2 then
      some (v.1, { h with
        chunks := carve v.1 r h.chunks
        bins := { h.bins with victim := some (v.1 + r + 8, v.2 - r - 8) } })
    else if r ≤ v.2 then some (v.1, { h with bins := { h.bins with victim := none } })
    else none

def smallMalloc (r : ℕ) (h : Heap) : Option (ℕ × Heap) :=
  match h.bins.small (smallRequestIndex r) with
  | a :: _ => some (a, { h with bins := h.bins.unbin (a, r) })
  | [] =>
    (victimMalloc r h).or ((h.bins.scanLarge 63 LARGE_BIN_SEARCH_MAX 31).map (takeBinned r h))

def hugeMalloc (r : ℕ) (h : Heap) : Option (ℕ × Heap) :=
  (Bins.hugeBest r none (2 ^ 64 - 1) h.bins.huge).map
    fun e => (e.1, { h with bins := h.bins.unbin e })

def largeMalloc (r : ℕ) (h : Heap) : Option (ℕ × Heap) :=
  if isHugeSize r then hugeMalloc r h
  else (victimMalloc r h).or ((h.bins.findBest r).map (takeBinned r h))

/-- Extend the heap by `d` bytes, which go to its last chunk. -/
def extend (d : ℕ) (h : Heap) : Heap :=
  { h with brk := h.brk + d, chunks := grow h.top.1 d h.chunks }

def endMalloc (ext r : ℕ) (h : Heap) : Option (ℕ × Heap) :=
  let (a, n) := h.top
  if r + SMALLEST_CHUNK ≤ n then some (a, { h with chunks := carve a r h.chunks })
  else if n ≤ r + ext ∧ h.brk + (r + ext - n) ≤ h.limit then
    let h' := h.extend (r + ext - n)
    some (a, { h' with chunks := carve a r h'.chunks })
  else none

/-- Hand the chunk at `a` out. -/
def occupy (a : ℕ) (h : Heap) : Heap :=
  match chunkAt h.chunks a with
  | none => h
  | some c => { h with chunks := tag c.next true (mark a .inuse h.chunks) }

/-- Find a chunk for the request: in the bins, or else at the end of the heap. -/
def supply (ext r : ℕ) (h : Heap) : Option (ℕ × Heap) :=
  (if isLargeSize r then largeMalloc r h else smallMalloc r h).or (endMalloc ext r h)

/-- `my_malloc`, for a request that is rounded already. -/
def malloc (ext r : ℕ) (h : Heap) : Option (ℕ × Heap) :=
  (supply ext r h).map fun (a, h') => (a, h'.occupy a)

/-! ### Deallocation -/

/-- Mark the chunk `c` free. -/
def release (c : Chunk) (h : Heap) : Heap :=
  { h with chunks := tag c.next false (mark c.addr .free h.chunks) }

/-- Merge the free chunk `c` with the one before it if the `PREVIOUS_INUSE` bit is clear. -/
def coalescePrevious (c : Chunk) (h : Heap) : Slot × Heap :=
  if c.pinuse then (c.slot, h)
  else match chunkBefore h.chunks c.addr with
    | none => (c.slot, h)
    | some p => ((p.addr, p.size + c.size + 8),
        { h with chunks := fuse p.addr .free h.chunks, bins := h.bins.remove p.slot })

/-- Merge the free chunk `e` with the one after it if that is free, and put the outcome where it
belongs: into its bin, or at the end of the heap. -/
def settle (e : Slot) (h : Heap) : Heap :=
  match chunkAt h.chunks (e.1 + e.2 + 8) with
  | none => h
  | some d =>
    match d.status with
    | .inuse => { h with bins := h.bins.insert e }
    | .free => { h with
        chunks := fuse e.1 .free h.chunks
        bins := (h.bins.remove d.slot).insert (e.1, e.2 + d.size + 8) }
    | .top => { h with chunks := fuse e.1 .top h.chunks }

/-- `my_free` of the block in the chunk at `a`. -/
def free (a : ℕ) (h : Heap) : Heap :=
  match chunkAt h.chunks a with
  | none => h
  | some c =>
    let (e, h') := coalescePrevious { c with status := .free } (h.release c)
    h'.settle e

/-! ### Reallocation -/

/-- Cut the chunk `c` in use down to `r` bytes if the rest makes a chunk. The `PREVIOUS_INUSE` bit
behind the rest is left alone. -/
def shrink (c : Chunk) (r : ℕ) (h : Heap) : Heap :=
  if r + SMALLEST_CHUNK ≤ c.size then
    settle (c.addr + r + 8, c.size - r - 8) { h with chunks := trim c.addr r .free h.chunks }
  else h

/-- `resize_chunk_and_split` on a merged chunk in use at `a` with `n` bytes. -/
def resize (a n r : ℕ) (h : Heap) : Heap :=
  if r + SMALLEST_CHUNK ≤ n then
    { h with
      chunks := tag (a + n + 8) false (trim a r .free h.chunks)
      bins := h.bins.insert (a + r + 8, n - r - 8) }
  else { h with chunks := tag (a + n + 8) true h.chunks }

/-- Grow into the free chunk after `c`. -/
def growAfter (c : Chunk) (r : ℕ) (h : Heap) : Option (ℕ × Heap) :=
  match chunkAt h.chunks c.next with
  | none => none
  | some d =>
    if d.status = .free ∧ r ≤ c.size + d.size + 8 then
      some (c.addr, resize c.addr (c.size + d.size + 8) r
        { h with chunks := fuse c.addr .inuse h.chunks, bins := h.bins.remove d.slot })
    else none

/-- Grow over the free chunks before and after `c`. -/
def growAround (c : Chunk) (r : ℕ) (h : Heap) : Option (ℕ × Heap) :=
  if c.pinuse then none
  else match chunkBefore h.chunks c.addr, chunkAt h.chunks c.next with
    | some p, some d =>
      if d.status = .free ∧ r ≤ c.size + p.size + d.size + 16 then
        some (p.addr, resize p.addr (c.size + p.size + d.size + 16) r
          { h with
            chunks := fuse p.addr .inuse (fuse c.addr .inuse h.chunks)
            bins := (h.bins.remove d.slot).remove p.slot })
      else none
    | _, _ => none

/-- Grow over the free chunk before `c`. -/
def growBefore (c : Chunk) (r : ℕ) (h : Heap) : Option (ℕ × Heap) :=
  if c.pinuse then none
  else match chunkBefore h.chunks c.addr, chunkAt h.chunks c.next with
    | some p, some d =>
      if d.status ≠ .top ∧ r ≤ p.size + c.size + 8 then
        some (p.addr, resize p.addr (p.size + c.size + 8) r
          { h with chunks := fuse p.addr .inuse h.chunks, bins := h.bins.remove p.slot })
      else none
    | _, _ => none

/-- By how much the heap is extended for `c` to grow into its end. -/
def shortage (ext : ℕ) (c : Chunk) (r : ℕ) (h : Heap) : ℕ :=
  let n := c.size + h.top.2 + 8
  if n < r + SMALLEST_CHUNK then r + SMALLEST_CHUNK + ext - n else 0

/-- Grow into the end of the heap, extended if need be. -/
def growTop (ext : ℕ) (c : Chunk) (r : ℕ) (h : Heap) : Option (ℕ × Heap) :=
  if c.next = h.top.1 ∧ h.brk + h.shortage ext c r ≤ h.limit then
    let h' := h.extend (h.shortage ext c r)
    some (c.addr, { h' with chunks := trim c.addr r .top (fuse c.addr .inuse h'.chunks) })
  else none

/-- Allocate elsewhere and free the old block. -/
def moveOut (ext : ℕ) (c : Chunk) (r : ℕ) (h : Heap) : Option (ℕ × Heap) :=
  (h.malloc ext r).map fun (b, h') => (b, h'.free c.addr)

/-- `my_realloc` of the block in the chunk at `a`, for a request that is rounded already. -/
def realloc (ext a r : ℕ) (h : Heap) : Option (ℕ × Heap) :=
  match chunkAt h.chunks a with
  | none => none
  | some c =>
    if r ≤ c.size then some (a, h.shrink c r)
    else (h.growAfter c r).or <| (h.growAround c r).or <| (h.growBefore c r).or <|
      (h.growTop ext c r).or <| h.moveOut ext c r

end Heap

end Dlmalloc
