import Dlmalloc.Properties.Blocks
import Dlmalloc.Properties.Extensions

/-!
# Sizes near the ends of the integer types

For a size of more than 2^64 - 8 `ALIGN` wraps, and the block returned is too small; from 2^64 - 39
on the sums of `CAN_SPLIT_CHUNK` and of `realloc_chunk_after_extend_heap` wrap, and a chunk is split
that does not have the room. In between, the increment passed to `mem_sbrk` is cut to an `int`
(`State.Misled`): what is left of it may be granted, or be the least `int`, for which the undoing of
the step moves the break down by 2^32. In a run in which no call has such a size
(`Call.SafelySized`), every call returns a block of the size asked for that lies in the heap, or
`NULL` with the break where it was (`size_arithmetic_safe`).
-/

namespace Dlmalloc

open Heap

/-- `mem_sbrk` does not fail for `d` bytes as it should: the low 32 bits are the least `int`, or
they are an amount that is granted and not `d`. -/
def State.Misled (s : State) (d : ℕ) : Prop :=
  d % 2 ^ 32 = 2 ^ 31 ∨ 2 ^ 32 ≤ d ∧ d % 2 ^ 32 < 2 ^ 31 ∧ s.memBrk + d % 2 ^ 32 ≤ s.memMaxAddr

/-- The size is at most 2^64 - 40, and `mem_sbrk` is not misled by the increments with which
`end_of_heap_malloc`, and before the end of the heap `realloc_chunk_after_extend_heap`, may call
it. -/
def Call.SafelySized (y : System) : Call → Prop
  | .malloc size => size + 39 < 2 ^ 64 ∧
      ¬ y.state.Misled (requestSize size + EXTENSION_SIZE -
        y.state.chunkSize (y.state.bin END_OF_HEAP_BIN))
  | .realloc i size => ∃ b ∈ y.live[i]?, size + 39 < 2 ^ 64 ∧
      ¬ y.state.Misled (requestSize size + EXTENSION_SIZE -
        y.state.chunkSize (y.state.bin END_OF_HEAP_BIN)) ∧
      (y.state.nextHeapChunk (userPointerToChunk b.ptr) = y.state.bin END_OF_HEAP_BIN →
        ¬ y.state.Misled (requestSize size + SMALLEST_CHUNK + EXTENSION_SIZE -
          (y.state.chunkSize (userPointerToChunk b.ptr) +
            y.state.chunkSize (y.state.bin END_OF_HEAP_BIN) + 8)))
  | .free i => i < y.live.length

section Refused

variable {d r size b m : ℕ} {s : State} {h : Heap} {full : Prop} {c : Chunk}

theorem State.misled_iff (hb : s.memBrk = b) (hm : s.memMaxAddr = m) : s.Misled d ↔
    d % 2 ^ 32 = 2 ^ 31 ∨ 2 ^ 32 ≤ d ∧ d % 2 ^ 32 < 2 ^ 31 ∧ b + d % 2 ^ 32 ≤ m := by
  unfold State.Misled
  rw [hb, hm]

/-- An increment beyond the end of the simulated heap is refused. -/
theorem memSbrk_refused (hb : s.memBrk = b) (hm : s.memMaxAddr = m) (hmis : ¬ s.Misled d)
    (hbig : m < b + d) (hbrk : b + 2 ^ 31 ≤ 2 ^ 64) :
    memSbrk (toInt (d % 2 ^ 64)) s = some (SBRK_FAILED, s) := by
  obtain ⟨low, hlow⟩ : ∃ low, low = d % 2 ^ 32 := ⟨_, rfl⟩
  have hcut : d % 2 ^ 64 % 2 ^ 32 = low := by omega
  rw [State.misled_iff hb hm, ← hlow] at hmis
  rcases Nat.lt_or_ge low (2 ^ 31) with hlt | hge
  · -- the low bits are an amount, and too much themselves
    have hint : toInt (d % 2 ^ 64) = toInt low := by
      rw [toInt_of_lt hlt, toInt, hcut, if_pos hlt]
    have hover : ¬ b + low ≤ m := by omega
    rw [hint, memSbrk_run hlt (hb ▸ hbrk), hb, hm]
    exact if_neg hover
  · -- they are negative, and not the least `int`
    have hint : toInt (d % 2 ^ 64) = -(2 ^ 32 - low : ℕ) := by
      rw [toInt, hcut, if_neg (by omega)]
      omega
    have hlt : b < 2 ^ 64 := by omega
    rw [hint]
    exact memSbrk_neg (by omega) (by omega) (hb ▸ hlt)

/-- All chunks together are much smaller than `LARGEST_SIZE`. -/
theorem Heap.Shape.size_le {ext : ℕ} {X : Multiset Slot} (hs : Shape ext X h) (hc : c ∈ h.chunks) :
    h.start ≤ c.addr ∧ c.addr + c.size + 16 ≤ h.brk ∧ h.brk ≤ h.limit ∧
      h.limit = h.start + 52428800 ∧ h.limit + 2 ^ 31 ≤ 2 ^ 64 := by
  have h1 := hs.bounds hc
  have h2 := hs.arena.start_le
  have h3 := hs.arena.brk_le
  have h4 := hs.arena.span
  have h5 : h.limit = h.start + 52428800 := hs.arena.limit_eq
  simp only [Chunk.next] at h1
  omega

theorem endOfHeapMalloc_refused (hm : Models s h) (hi : Inv full EXTENSION_SIZE h)
    (hlarge : LARGEST_SIZE < r) (hwrap : r + 32 < 2 ^ 64)
    (hmis : ¬ s.Misled (r + EXTENSION_SIZE - s.chunkSize (s.bin END_OF_HEAP_BIN))) :
    endOfHeapMalloc EXTENSION_SIZE r s = some (NULL, s) := by
  have hs := hi.shape
  obtain ⟨pre, t, hL, ht, htop, -⟩ := hs.exists_top
  have htm : t ∈ h.chunks := by simp [hL]
  have hend : s.bin END_OF_HEAP_BIN = t.addr := by
    rw [hm.top, htop]
    rfl
  have hsize : s.chunkSize t.addr = t.size := hm.toRep.chunkSize hs htm
  obtain ⟨h1, h2, h3, h4, h5⟩ := hs.size_le htm
  rw [hend, hsize] at hmis
  have hlarge' : 2 ^ 31 - 1024 < r := hlarge
  -- the end of the heap is too small, and `mem_sbrk` is asked for the rest
  have hcan : canSplitChunk t.addr r s = some (false, s) := by
    have hsum : add64 r SMALLEST_CHUNK = r + 32 := add64_of_lt hwrap
    have hno : ¬ r + 32 ≤ t.size := by omega
    show some (decide (add64 r SMALLEST_CHUNK ≤ s.chunkSize t.addr), s) = _
    rw [hsum, hsize, decide_eq_false hno]
  have hgrow : add64 (sub64 r t.size) EXTENSION_SIZE = (r + EXTENSION_SIZE - t.size) % 2 ^ 64 := by
    have hx : EXTENSION_SIZE = 352 := rfl
    simp only [add64, sub64, hx]
    omega
  have hx : EXTENSION_SIZE = 352 := rfl
  unfold endOfHeapMalloc
  refine (M.bind_of_run (bin_apply s _)).trans ?_
  rw [hend]
  refine (M.bind_of_run hcan).trans ?_
  rw [if_pos (by decide)]
  refine (M.bind_of_run (chunkSize_apply s _)).trans ?_
  rw [hsize, hgrow]
  refine (M.bind_of_run (memSbrk_refused hm.toRep.memBrk hm.toRep.memMaxAddr hmis (by omega)
    (by omega))).trans ?_
  rw [if_pos rfl]
  rfl

theorem myMalloc_refused (hm : Models s h) (hi : Inv full EXTENSION_SIZE h)
    (hlarge : LARGEST_SIZE < requestSize size) (hwrap : requestSize size + 32 < 2 ^ 64)
    (hmis : ¬ s.Misled (requestSize size + EXTENSION_SIZE - s.chunkSize (s.bin END_OF_HEAP_BIN))) :
    myMalloc EXTENSION_SIZE size s = some (NULL, s) := by
  have hq := request_requestSize size
  have hs := hi.shape
  have hlarge' : 2 ^ 31 - 1024 < requestSize size := hlarge
  have hl : isLargeSize (requestSize size) := by
    show 249 < requestSize size
    omega
  -- no chunk is so large
  have hnone : Heap.largeMalloc (requestSize size) h = none := by
    cases ho : Heap.largeMalloc (requestSize size) h with
    | none => rfl
    | some out =>
      obtain ⟨pre, c, n, post, rest, -, hf⟩ := found_of_large hi hq hl ho
      have hcm : (⟨c.addr, n, .free, c.pinuse⟩ : Chunk) ∈ out.2.chunks := by simp [hf.after]
      obtain ⟨h1, h2, h3, h4, -⟩ := hf.shape.size_le hcm
      have h5 := hf.least
      simp only at h1 h2
      omega
  have hserved := largeMalloc_spec hm hi hq hl
  rw [hnone] at hserved
  obtain ⟨p, t, hrun, rfl, rfl⟩ := hserved
  unfold myMalloc
  by_cases h0 : size = 0
  · rw [if_pos h0]
    rfl
  · rw [if_neg h0]
    simp only [if_pos hl]
    refine (M.bind_of_run hrun).trans ?_
    rw [if_pos rfl]
    exact M.bind_of_run (endOfHeapMalloc_refused hm hi hlarge hwrap hmis)

theorem reallocChunkAfterExtendHeap_refused {t : Chunk} {pre : List Chunk} (hm : Models s h)
    (hi : Inv full EXTENSION_SIZE h) (hL : h.chunks = pre ++ [c, t]) (hlarge : LARGEST_SIZE < r)
    (hwrap : r + 32 < 2 ^ 64)
    (hmis : ¬ s.Misled (r + SMALLEST_CHUNK + EXTENSION_SIZE - (c.size + t.size + 8))) :
    reallocChunkAfterExtendHeap EXTENSION_SIZE (c.addr + 16) r s = some (NULL, s) := by
  have hs := hi.shape
  have hcm : c ∈ h.chunks := by simp [hL]
  have htm : t ∈ h.chunks := by simp [hL]
  have hct : t.addr = c.addr + c.size + 8 := (hs.chunkAt_next hL).2
  obtain ⟨h1, h2, h3, h4, h5⟩ := hs.size_le htm
  obtain ⟨h1', -⟩ := hs.size_le hcm
  have hlarge' : 2 ^ 31 - 1024 < r := hlarge
  have hx : EXTENSION_SIZE = 352 := rfl
  have hx' : SMALLEST_CHUNK = 32 := rfl
  have hsum : add64 r SMALLEST_CHUNK = r + 32 := add64_of_lt hwrap
  have hdiff : sub64 (add64 (r + 32) EXTENSION_SIZE) (c.size + t.size + 8) =
      (r + SMALLEST_CHUNK + EXTENSION_SIZE - (c.size + t.size + 8)) % 2 ^ 64 := by
    simp only [add64, sub64, hx, hx']
    omega
  -- the two chunks are too small, and `mem_sbrk` is asked for the rest
  have hfits : c.size + t.size + 8 < r + 32 := by omega
  unfold reallocChunkAfterExtendHeap
  rw [(hs.ptr hcm).1]
  refine (M.bind_of_run (hm.nextHeapChunk hs hL)).trans ?_
  refine (M.bind_of_run (hm.combinedSizes hs hL)).trans ?_
  rw [hsum, if_pos hfits]
  simp only [hdiff]
  refine (M.bind_of_run (memSbrk_refused hm.toRep.memBrk hm.toRep.memMaxAddr hmis (by omega)
    (by omega))).trans ?_
  rw [if_pos rfl]
  rfl

theorem defaultRealloc_refused {ptr : Addr} (hm : Models s h) (hi : Inv full EXTENSION_SIZE h)
    (hq : Request r) (hlarge : LARGEST_SIZE < r) (hwrap : r + 32 < 2 ^ 64)
    (hsize : s.chunkSize (userPointerToChunk ptr) ≠ r)
    (hmis : ¬ s.Misled (r + EXTENSION_SIZE - s.chunkSize (s.bin END_OF_HEAP_BIN))) :
    defaultRealloc EXTENSION_SIZE ptr r s = some (NULL, s) := by
  have hround : requestSize r = r := requestSize_of_request hq (by omega)
  have hrun : myMalloc EXTENSION_SIZE r s = some (NULL, s) :=
    myMalloc_refused hm hi (hround.symm ▸ hlarge) (hround.symm ▸ hwrap) (hround.symm ▸ hmis)
  unfold defaultRealloc
  refine (M.bind_of_run (chunkSize_apply s _)).trans ?_
  rw [if_neg hsize]
  refine (M.bind_of_run hrun).trans ?_
  rw [if_pos rfl]
  rfl

/-- A way to grow that gives up, or is not tried. -/
theorem attempt_refused {v : Bool} {x : M Addr} {k : Addr → M Addr} {o : Option (Addr × State)}
    (hx : v = true → x s = some (NULL, s)) (hk : k NULL s = o) :
    (if v then x >>= fun p => if p ≠ NULL then pure p else k p
      else if NULL ≠ NULL then pure NULL else k NULL : M Addr) s = o := by
  cases v with
  | false => exact hk
  | true =>
    rw [if_pos rfl]
    refine (M.bind_of_run (hx rfl)).trans ?_
    rw [if_neg (by simp)]
    exact hk

theorem reallocChunkIsLarger_refused {d : Chunk} {pre post : List Chunk} (hm : Models s h)
    (hi : Inv full EXTENSION_SIZE h) (hq : Request r) (hL : h.chunks = pre ++ c :: d :: post)
    (hlarge : LARGEST_SIZE < r) (hwrap : r + 32 < 2 ^ 64)
    (hmis : ¬ s.Misled (r + EXTENSION_SIZE - s.chunkSize (s.bin END_OF_HEAP_BIN)))
    (hmis' : d.status = .top →
      ¬ s.Misled (r + SMALLEST_CHUNK + EXTENSION_SIZE - (c.size + d.size + 8))) :
    reallocChunkIsLarger EXTENSION_SIZE (chunkToUserPointer c.addr) r s = some (NULL, s) := by
  have hs := hi.shape
  have hcm : c ∈ h.chunks := Shape.mem_chunks hL
  have hdm : d ∈ h.chunks := by simp [hL]
  obtain ⟨hptr, hup⟩ := hs.ptr hcm
  rw [← hup] at hptr
  have hp0 : chunkToUserPointer c.addr ≠ NULL := by
    rw [hup]
    exact Nat.succ_ne_zero _
  have hcan := hm.canCombineNext hs hL
  have hprev := hm.canCombinePrevious hs hcm
  have hnext := hm.nextHeapChunk hs hL
  have hend := hm.isEndOfHeap hs hdm
  have hread : s.nextHeapChunk c.addr = d.addr :=
    (Prod.mk.inj (Option.some.inj ((nextHeapChunk_apply s c.addr).symm.trans hnext))).1
  have hcd : d.addr = c.addr + c.size + 8 := (hs.chunkAt_next hL).2
  have hsc := hm.toRep.chunkSize hs hcm
  have hsd := hm.toRep.chunkSize hs hdm
  obtain ⟨h1, h2, h3, h4, h5⟩ := hs.size_le hdm
  obtain ⟨h1', -⟩ := hs.size_le hcm
  have hlarge' : 2 ^ 31 - 1024 < r := hlarge
  -- the chunk before, where the tag says that it is free
  have hbefore : c.pinuse = false → ∃ p : Chunk, s.previousHeapChunk c.addr = p.addr ∧
      s.chunkSize p.addr = p.size ∧ c.addr = p.addr + p.size + 8 ∧ h.start ≤ p.addr ∧
      chunkToUserPointer p.addr ≠ NULL ∧ IsPtr (s.load .previousSize c.addr) := fun hp => by
    obtain ⟨pre', p, rfl, hfree⟩ := exists_of_lastFree ((hi.tags_around hL).2.1 hp)
    have hL1 : h.chunks = pre' ++ p :: c :: d :: post := by rw [hL, List.append_assoc]; rfl
    have hpm := Shape.mem_chunks hL1
    refine ⟨p, (hm.toRep.footer_eq hs hL1 hfree).2, hm.toRep.chunkSize hs hpm,
      (hs.chunkAt_next hL1).2, (hs.size_le hpm).1, ?_, hm.isPtr_footer hs hL1 hfree⟩
    rw [(hs.ptr hpm).2]
    exact Nat.succ_ne_zero _
  unfold reallocChunkIsLarger
  rw [hptr]
  refine (M.bind_of_run hcan).trans ?_
  refine attempt_refused (k := fun result => _) (fun _ => ?_) ?_
  · refine (reallocChunkAndAfter_attempt hp0 hptr).gives_up (.inl ?_)
    rw [hread, hsc, hsd]
    have hsum : add64 c.size d.size = c.size + d.size := add64_of_lt (by omega)
    have hsum' : add64 (c.size + d.size) 8 = c.size + d.size + 8 := add64_of_lt (by omega)
    rw [hsum, hsum']
    omega
  refine (M.bind_of_run hprev).trans ((M.bind_of_run hcan).trans ?_)
  refine attempt_refused (k := fun result => _) (fun hv => ?_) ?_
  · have hv' : c.pinuse = false ∧ d.status ≠ .inuse := by simpa using hv
    obtain ⟨p, hp, hsp, hpc, hlo, hnp, hfooter⟩ := hbefore hv'.1
    refine (reallocChunkBeforeAndAfter_attempt hfooter (hp ▸ hnp) hptr).gives_up (.inl ?_)
    rw [hread, hp, hsc, hsd, hsp]
    have hsum : add64 c.size p.size = c.size + p.size := add64_of_lt (by omega)
    have hsum' : add64 (c.size + p.size) d.size = c.size + p.size + d.size := add64_of_lt (by omega)
    have hsum'' : add64 (c.size + p.size + d.size) (2 * 8) = c.size + p.size + d.size + 2 * 8 :=
      add64_of_lt (by omega)
    rw [hsum, hsum', hsum'']
    omega
  refine (M.bind_of_run hprev).trans ((M.bind_of_run hnext).trans ((M.bind_of_run hend).trans ?_))
  refine attempt_refused (k := fun result => _) (fun hv => ?_) ?_
  · have hv' : c.pinuse = false ∧ d.status ≠ .top := by simpa using hv
    obtain ⟨p, hp, hsp, hpc, hlo, hnp, hfooter⟩ := hbefore hv'.1
    refine (reallocChunkAndBefore_attempt hfooter (hp ▸ hnp) hptr).gives_up ?_
    rw [hp, hsc, hsp]
    have hsum : add64 p.size c.size = p.size + c.size := add64_of_lt (by omega)
    have hsum' : add64 (p.size + c.size) 8 = p.size + c.size + 8 := add64_of_lt (by omega)
    rw [hsum, hsum']
    omega
  refine (M.bind_of_run hcan).trans ((M.bind_of_run hnext).trans ((M.bind_of_run hend).trans ?_))
  refine attempt_refused (k := fun result => _) (fun hv => ?_) ?_
  · have hv' : d.status ≠ .inuse ∧ d.status = .top := by simpa using hv
    have hpost : post = [] := by
      have h1 := hs.topLast
      rw [hL, ← List.singleton_append, ← List.append_assoc] at h1
      exact h1.post_eq_nil hv'.2
    rw [hup]
    exact reallocChunkAfterExtendHeap_refused hm hi (hpost ▸ hL) hlarge hwrap (hmis' hv'.2)
  · refine defaultRealloc_refused hm hi hq hlarge hwrap ?_ hmis
    rw [hptr, hsc]
    omega

end Refused

/-! ### Runs -/

section Runs

variable {size : ℕ} {y y' : System} {σ : Session} {c : Call} {es : List Event} {ps : List Addr}

/-- A safe call for more than the heap can hold fails and changes nothing. -/
theorem Tracks.call_refused {full : Prop} (ht : Tracks full EXTENSION_SIZE y σ)
    (hc : c.SafelySized y) (hsize : c.asks = some size) (hlarge : LARGEST_SIZE < size) :
    c.run EXTENSION_SIZE y = some (NULL, y) := by
  have hm := ht.follows.models
  have hi := ht.good.inv
  have hs := hi.shape
  have hbound (h : size + 39 < 2 ^ 64) :
      LARGEST_SIZE < requestSize size ∧ requestSize size + 32 < 2 ^ 64 := by
    have h1 := requestSize_of_lt (show size + 7 < 2 ^ 64 by omega)
    have h2 := (request_requestSize size).aligned
    omega
  cases c with
  | free i => cases hsize
  | malloc n =>
    obtain rfl := Option.some.inj hsize
    obtain ⟨hwrap, hmis⟩ := hc
    obtain ⟨hlarge', hwrap'⟩ := hbound hwrap
    rw [Call.run, myMalloc_refused hm hi hlarge' hwrap' hmis]
    rfl
  | realloc i n =>
    obtain rfl := Option.some.inj hsize
    obtain ⟨b, hb, hwrap, hmis, hmis'⟩ := hc
    obtain ⟨hlarge', hwrap'⟩ := hbound hwrap
    obtain ⟨d, hd, hst, hptr, -⟩ := ht.good.chunk (ht.follows.live ▸ hb)
    obtain ⟨pre, post, hL⟩ := List.append_of_mem hd
    obtain ⟨f, post', rfl, -⟩ := hs.exists_next hL (by simp [hst])
    have hfm : f ∈ σ.heap.chunks := by simp [hL]
    have hpc : userPointerToChunk b.ptr = d.addr := by
      rw [hptr]
      exact (hs.ptr hd).1
    have hsd := hm.toRep.chunkSize hs hd
    have hsf := hm.toRep.chunkSize hs hfm
    have hread : y.state.nextHeapChunk d.addr = f.addr :=
      (hm.toRep.nextHeapChunk hs hd).trans (hs.chunkAt_next hL).2.symm
    have hsmall : d.size < requestSize n := by
      have h1 := hs.size_le hd
      have h2 : LARGEST_SIZE = 2 ^ 31 - 1024 := rfl
      omega
    -- before the end of the heap
    have htop : f.status = .top → ¬ y.state.Misled (requestSize n + SMALLEST_CHUNK +
        EXTENSION_SIZE - (d.size + f.size + 8)) := fun hft => by
      have hend : y.state.bin END_OF_HEAP_BIN = f.addr := by
        rw [hm.top, (hs.top_eq hfm hft).1]
        rfl
      rw [hpc, hread, hend, hsd, hsf] at hmis'
      exact hmis' rfl
    have hrun : myRealloc EXTENSION_SIZE b.ptr n y.state = some (NULL, y.state) := by
      unfold myRealloc
      rw [hpc]
      refine (M.bind_of_run (chunkSize_apply _ _)).trans ?_
      rw [hsd, if_neg (not_le.mpr hsmall), hptr, ← (hs.ptr hd).2]
      exact reallocChunkIsLarger_refused hm hi (request_requestSize n) hL hlarge' hwrap' hmis htop
    rw [Call.run, show y.live[i]? = some b from hb, Option.bind_some, hrun]
    rfl

/-- A safe call of a size that fits an `int` is valid. -/
theorem Call.SafelySized.valid (hc : c.SafelySized y)
    (hle : ∀ size, c.asks = some size → size ≤ LARGEST_SIZE) : c.Valid LARGEST_SIZE y.live := by
  cases c with
  | free i => exact hc
  | malloc n => exact hle n rfl
  | realloc i n =>
    obtain ⟨b, hb, -⟩ := hc
    exact ⟨(List.getElem?_eq_some_iff.mp hb).1, hle n rfl⟩

/-- Every safe call returns, to a state that a session still follows. -/
theorem Tracks.call_safe (ht : Tracks False EXTENSION_SIZE y σ) (hc : c.SafelySized y) :
    ∃ p y' σ', c.run EXTENSION_SIZE y = some (p, y') ∧ Tracks False EXTENSION_SIZE y' σ' ∧
      (p = NULL → (∀ i, c ≠ .free i) → y' = y) := by
  by_cases hle : ∀ size, c.asks = some size → size ≤ LARGEST_SIZE
  · obtain ⟨y', hrun, ht', heff⟩ := ht.call extension_default (by decide) (hc.valid hle)
    exact ⟨_, y', _, hrun, ⟨ht'.follows, ht'.good.weaken False.elim⟩,
      fun hp hi => heff.failed hi hp⟩
  · push Not at hle
    obtain ⟨size, hsize, hlarge⟩ := hle
    exact ⟨_, y, σ, ht.call_refused hc hsize hlarge, ht, fun _ _ => rfl⟩

theorem Run.tracks_safe (hrun : Run EXTENSION_SIZE (fun y c => c.SafelySized y) y es ps y')
    (ht : Tracks False EXTENSION_SIZE y σ) : ∃ σ', Tracks False EXTENSION_SIZE y' σ' := by
  induction hrun with
  | nil => exact ⟨σ, ht⟩
  | @call es ps y' y'' c p hrun hc hcall ih =>
    obtain ⟨σ', ht'⟩ := ih
    obtain ⟨p₁, y₁, σ₁, hcall₁, ht₁, -⟩ := ht'.call_safe hc
    obtain ⟨-, rfl⟩ := Prod.mk.inj (Option.some.inj (hcall₁.symm.trans hcall))
    exact ⟨σ₁, ht₁⟩
  | @write es ps y' i k v b hrun hb hk ih =>
    obtain ⟨σ', ht'⟩ := ih
    exact ⟨σ', ht'.follows.write ht'.good hb hk, ht'.good⟩

end Runs

section Sizes

variable {size : ℕ} {y : System} {c : Call}

/-- `my_malloc` or `my_realloc` returned a block of at least `size` bytes in the heap, or `NULL`
with the break as before. -/
def SizeKept (size : ℕ) (y : System) (p : Addr) (y' : System) : Prop :=
  (p ≠ NULL ∧ size ≤ y'.state.chunkSize (userPointerToChunk p) ∧ memHeapLo y'.state ≤ p ∧
    p + size ≤ memHeapHi y'.state + 1) ∨ (p = NULL ∧ y'.state.memBrk = y.state.memBrk)

/-- **In a run of safe calls** every size is served in full or not at all. -/
theorem size_arithmetic_safe
    (hy : Reachable EXTENSION_SIZE (fun y c => c.SafelySized y) y) (hc : c.SafelySized y)
    (hsize : c.asks = some size) :
    ∃ p y', c.run EXTENSION_SIZE y = some (p, y') ∧ SizeKept size y p y' := by
  obtain ⟨y₀, es, ps, hy₀, hrun⟩ := hy
  obtain ⟨b, -, h0, hspan, hf⟩ := hy₀.follows
  obtain ⟨σ, ht⟩ := hrun.tracks_safe ⟨hf, (Session.good_initial h0 hspan).weaken fun _ => trivial⟩
  obtain ⟨p, y', σ', hcall, ht', hnull⟩ := ht.call_safe hc
  refine ⟨p, y', hcall, ?_⟩
  -- refused with nothing changed, or a live block inside the heap
  by_cases hp : p = NULL
  · have halloc : ∀ i, c ≠ .free i := by
      rintro i rfl
      cases hsize
    rw [hnull hp halloc]
    exact .inr ⟨hp, rfl⟩
  · obtain ⟨j, hj⟩ := c.live_of_returned hcall hsize hp
    obtain ⟨-, hlo, hhi⟩ := ht'.live_inside hj
    obtain ⟨d, hd, -, hptr, hds, -⟩ := ht'.good.chunk (ht'.follows.live ▸ hj)
    refine .inl ⟨hp, ?_, hlo, hhi⟩
    have hs := ht'.good.inv.shape
    rw [show p = d.addr + 16 from hptr, (hs.ptr hd).1, ht'.follows.models.toRep.chunkSize hs hd]
    exact hds

/-- Sizes that fit an `int` with room to spare are safe. -/
theorem Call.Valid.safelySized (hc : c.Valid LARGEST_SIZE y.live) :
    c.SafelySized y := by
  have hmis : ∀ d, d < 2 ^ 31 → ¬ y.state.Misled d := by
    rintro d hd (h | ⟨h, -⟩)
    · omega
    · omega
  have hbound : ∀ n, n ≤ LARGEST_SIZE → n + 39 < 2 ^ 64 ∧ requestSize n + 32 + 352 < 2 ^ 31 := by
    intro n hn
    have h1 : n ≤ 2 ^ 31 - 1024 := hn
    have h2 := (requestSize_of_lt (show n + 7 < 2 ^ 64 by omega)).2
    omega
  have hx : EXTENSION_SIZE = 352 := rfl
  have hx' : SMALLEST_CHUNK = 32 := rfl
  cases c with
  | free i => exact hc
  | malloc n =>
    obtain ⟨h1, h2⟩ := hbound n hc
    exact ⟨h1, hmis _ (by omega)⟩
  | realloc i n =>
    obtain ⟨h1, h2⟩ := hbound n hc.2
    exact ⟨_, List.getElem?_eq_getElem hc.1, h1, hmis _ (by omega), fun _ => hmis _ (by omega)⟩

/-- The greatest size that is safe is refused, and a block for which the victim has room is served.
-/
theorem size_arithmetic_safe_busy : ∃ y y₁ y₂,
    Run EXTENSION_SIZE (fun y c => c.SafelySized y) (.blank 16) (busyCalls.map .call)
      busyPointers y ∧
    (Call.malloc (2 ^ 64 - 40)).run EXTENSION_SIZE y = some (NULL, y₁) ∧
    SizeKept (2 ^ 64 - 40) y NULL y₁ ∧
    (Call.malloc 500).run EXTENSION_SIZE y = some (440, y₂) ∧ SizeKept 500 y 440 y₂ := by
  obtain ⟨y, hst, hrun, hlive, hy⟩ := exists_run_busy (fun y c => c.SafelySized y)
    fun _ _ _ hv => hv.safelySized
  have hreach : Reachable EXTENSION_SIZE (fun y c => c.SafelySized y) y := ⟨_, _, _, hst, hrun⟩
  have hm := hy.follows.models
  -- the increment is negative as an `int`
  have hsafe : (Call.malloc (2 ^ 64 - 40)).SafelySized y := by
    have hend : y.state.chunkSize (y.state.bin END_OF_HEAP_BIN) = 35040 := by
      rw [hm.top.trans (show busySession.heap.top.1 = 4160 by decide +kernel)]
      exact hm.toRep.chunkSize hy.good.inv.shape (c := ⟨4160, 35040, .top, true⟩)
        (by decide +kernel)
    refine ⟨by decide, ?_⟩
    rw [hend]
    rintro (h | ⟨-, h, -⟩) <;> revert h <;> decide
  have hc : (Call.malloc 500).Valid LARGEST_SIZE y.live := by
    rw [hlive]
    decide
  obtain ⟨p₁, y₁, hcall₁, hkept₁⟩ := size_arithmetic_safe hreach hsafe rfl
  obtain ⟨p₂, y₂, hcall₂, hkept₂⟩ := size_arithmetic_safe hreach hc.safelySized rfl
  -- what the calls return
  have hrefused := hy.call_refused hsafe rfl (by decide)
  obtain ⟨rfl, -⟩ := Prod.mk.inj (Option.some.inj (hcall₁.symm.trans hrefused))
  obtain ⟨_, hserved, -⟩ := hy.call extension_default (by decide) hc
  obtain ⟨rfl, -⟩ := Prod.mk.inj (Option.some.inj (hcall₂.symm.trans hserved))
  have hp : (busySession.call EXTENSION_SIZE (.malloc 500)).1 = 440 := by
    decide +kernel
  rw [hp] at hcall₂ hkept₂
  exact ⟨y, y₁, y₂, hrun, hcall₁, hkept₁, hcall₂, hkept₂⟩

/-- For the greatest size `ALIGN` gives 0, and the least block is returned. -/
theorem not_always_size_kept : ¬ ∀ (y : System) (c : Call) (size : ℕ),
    Reachable EXTENSION_SIZE (fun _ _ => True) y → c.asks = some size → 0 < size → size < 2 ^ 64 →
    ∃ p y', c.run EXTENSION_SIZE y = some (p, y') ∧ SizeKept size y p y' := by
  intro hkept
  obtain ⟨p, y₁, hrun, hsize⟩ := hkept (.blank 16) (.malloc (2 ^ 64 - 1)) (2 ^ 64 - 1)
    (reachable_blank (by decide) (by decide)) rfl (by decide) (by decide)
  -- `my_malloc` does what it does for 24 bytes
  obtain ⟨-, ht⟩ := tracks_blank EXTENSION_SIZE (b := 16) (by decide) (by decide)
  have hc : (Call.malloc 24).Valid LARGEST_SIZE (System.blank 16).live := by decide
  obtain ⟨y₂, hrun₂, -⟩ := ht.call extension_default (by decide) hc
  have hp : ((Session.initial 16).call EXTENSION_SIZE (.malloc 24)).1 = 32 := by decide +kernel
  rw [hp] at hrun₂
  have hsame : myMalloc EXTENSION_SIZE (2 ^ 64 - 1) = myMalloc EXTENSION_SIZE 24 := by
    have h1 : requestSize (2 ^ 64 - 1) = requestSize 24 := by decide
    unfold myMalloc
    rw [h1, if_neg (show ¬ 2 ^ 64 - 1 = 0 by decide), if_neg (show ¬ 24 = 0 by decide)]
  rw [Call.run, hsame] at hrun
  rw [Call.run] at hrun₂
  obtain ⟨⟨q, t⟩, hq, h1⟩ := Option.map_eq_some_iff.mp hrun
  obtain ⟨⟨q', t'⟩, hq', h2⟩ := Option.map_eq_some_iff.mp hrun₂
  obtain ⟨rfl, rfl⟩ := Prod.mk.inj (Option.some.inj (hq.symm.trans hq'))
  obtain ⟨rfl, rfl⟩ := Prod.mk.inj h1
  obtain ⟨rfl, rfl⟩ := Prod.mk.inj h2
  rcases hsize with ⟨-, -, -, hhi⟩ | ⟨h0, -⟩
  · obtain ⟨hi, h3⟩ : ∃ hi : ℕ, memHeapHi t = hi := ⟨_, rfl⟩
    have hlt : hi < 2 ^ 64 := h3 ▸ Nat.mod_lt _ (by decide)
    have hhi' : 32 + (2 ^ 64 - 1) ≤ hi + 1 := h3 ▸ hhi
    omega
  · exact absurd h0 (by decide)

end Sizes

end Dlmalloc
