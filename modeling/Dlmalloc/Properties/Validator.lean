import Dlmalloc.Machine.Validator
import Mathlib.Data.List.Pairwise
import Mathlib.Data.Multiset.MapFold

/-!
# The validator's range tracking

`Ledger` keeps account of the live blocks of a trace, independently of the validator. As long as the
validator does not stop, its records are those of the live blocks (`Exact`), and at the next request
it tells results that fit from results that do not (`ranges_exact`).

There is one kind of result that it gets wrong. The last address of a payload is computed with 64
bits, so a payload that reaches past the end of the address space has its last address at the bottom
of memory, below the end of the heap (`TraceOp.Slips`). `slip_passes` shows that the validator takes
such a block, with a wrong record.
-/

namespace Dlmalloc

/-- A live block: its pointer, and the size it was asked for. -/
structure Payload : Type where
  ptr : ℕ
  size : ℕ
  deriving DecidableEq, Repr

/-- The record of a block. -/
def Payload.range (b : Payload) : Range := ⟨b.ptr, b.ptr + b.size - 1⟩

/-- The payloads of two blocks have no address in common. -/
def Payload.Apart (b b' : Payload) : Prop := b.ptr + b.size ≤ b'.ptr ∨ b'.ptr + b'.size ≤ b.ptr

/-- The live blocks, and the block of each index. A live block whose index was used again has no
index any more. -/
structure Ledger : Type where
  live : Multiset Payload
  handle : ℕ → Option Payload

def Ledger.empty : Ledger := ⟨0, fun _ => none⟩

section Ledger

variable {σ : Type}

/-- The pointer the allocator returns for a request, and the world after the call. -/
def TraceOp.answer (impl : MallocImpl σ) (op : TraceOp) (c : Checker σ) : Addr × World σ :=
  match op.type with
  | .alloc => impl.malloc op.size c.world
  | .realloc => impl.realloc (c.blocks op.index) op.size c.world
  | .free => (NULL, impl.free (c.blocks op.index) c.world)
  | .write => (NULL, c.world)

/-- The request asks for a block. -/
def TraceOp.Asks (op : TraceOp) : Prop := op.type = .alloc ∨ op.type = .realloc

/-- Sizes are positive `int`s, and an index is freed or reallocated only while its block is live. -/
def TraceOp.Valid (op : TraceOp) (l : Ledger) : Prop :=
  (op.Asks → 0 < op.size ∧ op.size < 2 ^ 31) ∧
    (op.type = .realloc ∨ op.type = .free → l.handle op.index ≠ none)

/-- The live blocks other than the one a request gives up. -/
def Ledger.others (l : Ledger) (op : TraceOp) : Multiset Payload :=
  if op.type = .realloc ∨ op.type = .free then
    match l.handle op.index with
    | none => l.live
    | some b => l.live.erase b
  else l.live

/-- The account after a request that was answered with `p`. -/
def Ledger.after (l : Ledger) (op : TraceOp) (p : Addr) : Ledger :=
  match op.type with
  | .alloc | .realloc =>
    ⟨⟨p, op.size⟩ ::ₘ l.others op, Function.update l.handle op.index (some ⟨p, op.size⟩)⟩
  | .free => ⟨l.others op, Function.update l.handle op.index none⟩
  | .write => l

/-- The records of the others, as the validator has them before it looks at the result. -/
def TraceOp.rest (op : TraceOp) (c : Checker σ) : List Range :=
  if op.type = .realloc then removeRange (c.blocks op.index) c.ranges else c.ranges

/-- The block is aligned, inside the heap, and apart from the others. -/
structure Payload.Fits (b : Payload) (w : World σ) (others : Multiset Payload) : Prop where
  aligned : 8 ∣ b.ptr
  inside : w.memHeapLo ≤ b.ptr ∧ b.ptr + b.size ≤ w.memHeapHi + 1
  apart : ∀ b' ∈ others, b.Apart b'

/-- The block reaches past the end of the address space, it begins in the heap or after it, and its
end comes round to an address below the end of the heap; the other blocks are below its beginning or
above this end. -/
structure Payload.Wraps (b : Payload) (w : World σ) (others : Multiset Payload) : Prop where
  wraps : 2 ^ 64 < b.ptr + b.size
  aligned : 8 ∣ b.ptr
  inside : w.memHeapLo ≤ b.ptr ∧ b.ptr + b.size ≤ w.memHeapHi + 1 + 2 ^ 64
  apart : ∀ b' ∈ others, b'.ptr + b'.size ≤ b.ptr ∨ b.ptr + b.size ≤ b'.ptr + 2 ^ 64

/-- The block that the allocator returns for a request. -/
def TraceOp.result (impl : MallocImpl σ) (op : TraceOp) (c : Checker σ) : Payload :=
  ⟨(op.answer impl c).1, op.size⟩

/-- The request is answered with a block that wraps. -/
def TraceOp.Slips (impl : MallocImpl σ) (op : TraceOp) (c : Checker σ) (l : Ledger) : Prop :=
  op.Asks ∧ (op.result impl c).Wraps (op.answer impl c).2 (l.others op)

/-- A run of the validator that has not stopped, with the account of it: the requests are valid, and
no result wraps. -/
inductive ValidRun (impl : MallocImpl σ) (debug : Bool) (trace : Trace) (w : World σ) :
    List TraceOp → Checker σ → Ledger → Prop
  | start : 0 ≤ (impl.init (impl.resetBrk w)).1 →
      ValidRun impl debug trace w [] (.start impl trace w) .empty
  | op {ops : List TraceOp} {c c' : Checker σ} {l : Ledger} {op : TraceOp} :
      ValidRun impl debug trace w ops c l → op.Valid l → ¬ op.Slips impl c l →
      evalOp impl debug op c = .ok c' →
      ValidRun impl debug trace w (ops ++ [op]) c' (l.after op (op.answer impl c).1)

/-- There is exactly one record for each live block, and the records are pairwise disjoint. -/
structure Exact (c : Checker σ) (l : Ledger) : Prop where
  records : (c.ranges : Multiset Range) = l.live.map Payload.range
  apart : c.ranges.Pairwise fun r r' => r.hi < r'.lo ∨ r'.hi < r.lo

end Ledger

section Records

variable {σ : Type} {debug : Bool} {w : World σ} {l : Ledger} {c c' : Checker σ} {op : TraceOp}
  {impl : MallocImpl σ} {ranges : List Range} {others : Multiset Payload} {lo hi size : ℕ}
  {b : Payload}

/-! ### The list of records -/

theorem removeRange_sublist : (removeRange lo ranges).Sublist ranges := by
  induction ranges with
  | nil => exact .slnil
  | cons r ranges ih =>
    rw [removeRange]
    split_ifs
    · exact List.sublist_cons_self r ranges
    · exact ih.cons_cons r

/-- The record that is unlinked is the only one that starts where it does. -/
theorem removeRange_eq_erase {r : Range} (hr : r ∈ ranges)
    (honly : ∀ r' ∈ ranges, r'.lo = r.lo → r' = r) :
    removeRange r.lo ranges = ranges.erase r := by
  induction ranges with
  | nil => simp at hr
  | cons r' ranges ih =>
    rw [removeRange, List.erase_cons]
    by_cases heq : r' = r
    · simp [heq]
    · have hlo : r'.lo ≠ r.lo := fun h => heq (honly r' List.mem_cons_self h)
      have hmem : r ∈ ranges := (List.mem_cons.mp hr).resolve_left (Ne.symm heq)
      rw [if_neg hlo, ih hmem fun x hx => honly x (List.mem_cons_of_mem _ hx)]
      simp [heq]

@[simp] theorem ok_bind {α β : Type} (a : α) (f : α → Except Stop β) : (.ok a >>= f) = f a := rfl

@[simp] theorem error_bind {α β : Type} (stop : Stop) (f : α → Except Stop β) :
    (.error stop >>= f) = .error stop := rfl

theorem bind_eq_ok {α β : Type} {x : Except Stop α} {f : α → Except Stop β} {r : β} :
    (x >>= f) = .ok r ↔ ∃ a, x = .ok a ∧ f a = .ok r := by
  cases x with
  | error stop => simp
  | ok a => simp

theorem assertion_bind {β : Type} {p : Prop} [Decidable p] (h : p) (f : Unit → Except Stop β) :
    (assertion debug p >>= f) = f () := by
  rw [assertion, if_neg fun hd => hd.2 h]
  rfl

theorem assertion_false_bind {β : Type} (p : Prop) [Decidable p] (f : Unit → Except Stop β) :
    (assertion false p >>= f) = f () := by
  rw [assertion, if_neg fun hd => Bool.false_ne_true hd.1]
  rfl

theorem noOverlap_of (h : ∀ r ∈ ranges, r.hi < lo ∨ hi < r.lo) :
    noOverlap debug lo hi ranges = .ok true := by
  induction ranges with
  | nil => rfl
  | cons r ranges ih =>
    have hr := h r List.mem_cons_self
    rw [noOverlap, assertion_bind hr, if_neg (not_not.mpr hr)]
    exact ih fun x hx => h x (List.mem_cons_of_mem _ hx)

theorem noOverlap_of_not (h : ¬ ∀ r ∈ ranges, r.hi < lo ∨ hi < r.lo) :
    noOverlap false lo hi ranges = .ok false := by
  induction ranges with
  | nil => simp at h
  | cons r ranges ih =>
    rw [noOverlap, assertion_false_bind]
    by_cases hr : r.hi < lo ∨ hi < r.lo
    · rw [if_neg (not_not.mpr hr)]
      refine ih fun hall => h fun x hx => ?_
      rcases List.mem_cons.mp hx with rfl | hx
      · exact hr
      · exact hall x hx
    · rw [if_pos hr]
      rfl

theorem noOverlap_eq_true (h : noOverlap debug lo hi ranges = .ok true) :
    ∀ r ∈ ranges, r.hi < lo ∨ hi < r.lo := by
  induction ranges with
  | nil => simp
  | cons r ranges ih =>
    rw [noOverlap] at h
    obtain ⟨-, -, h⟩ := bind_eq_ok.mp h
    by_cases hr : r.hi < lo ∨ hi < r.lo
    · rw [if_neg (not_not.mpr hr)] at h
      exact List.forall_mem_cons.mpr ⟨hr, ih h⟩
    · rw [if_pos hr] at h
      cases h

/-- What `add_range` tests. -/
structure Accepted (w : World σ) (ranges : List Range) (lo hi : ℕ) : Prop where
  aligned : lo % R_ALIGNMENT = 0
  inside : hi ≤ w.memHeapHi ∧ w.memHeapLo ≤ lo
  apart : ∀ r ∈ ranges, r.hi < lo ∨ hi < r.lo

theorem addRange_of_accepted (hsize : 0 < size) (hhi : sub64 (add64 lo size) 1 = hi)
    (h : Accepted w ranges lo hi) :
    addRange debug w ranges lo size = .ok (1, ⟨lo, hi⟩ :: ranges) := by
  have hin : ¬ (w.memHeapHi < hi ∨ lo < w.memHeapLo) :=
    not_or.mpr ⟨not_lt.mpr h.inside.1, not_lt.mpr h.inside.2⟩
  unfold addRange
  rw [hhi, assertion_bind hsize, assertion_bind h.aligned, if_neg (not_not.mpr h.aligned),
    assertion_bind h.inside.1, assertion_bind h.inside.2, if_neg hin, noOverlap_of h.apart, ok_bind,
    if_neg (by decide)]
  rfl

theorem addRange_of_not_accepted (hhi : sub64 (add64 lo size) 1 = hi)
    (h : ¬ Accepted w ranges lo hi) : addRange false w ranges lo size = .ok (0, ranges) := by
  unfold addRange
  rw [hhi, assertion_false_bind, assertion_false_bind]
  by_cases hal : lo % R_ALIGNMENT = 0
  · rw [if_neg (not_not.mpr hal), assertion_false_bind, assertion_false_bind]
    by_cases hin : w.memHeapHi < hi ∨ lo < w.memHeapLo
    · rw [if_pos hin]
      rfl
    · obtain ⟨h1, h2⟩ := not_or.mp hin
      have hov : ¬ ∀ r ∈ ranges, r.hi < lo ∨ hi < r.lo := fun hov =>
        h ⟨hal, ⟨not_lt.mp h1, not_lt.mp h2⟩, hov⟩
      rw [if_neg hin, noOverlap_of_not hov, ok_bind, if_pos rfl]
      rfl
  · rw [if_pos hal]
    rfl

/-- Whether assertions are compiled in or not, `add_range` adds what it takes and nothing else. -/
theorem addRange_eq_ok {ranges' : List Range} {n : ℕ} (hhi : sub64 (add64 lo size) 1 = hi)
    (hn : n ≠ 0) (h : addRange debug w ranges lo size = .ok (n, ranges')) :
    Accepted w ranges lo hi ∧ ranges' = ⟨lo, hi⟩ :: ranges := by
  have hzero : (pure (0, ranges) : Except Stop (ℕ × List Range)) ≠ .ok (n, ranges') := fun h0 =>
    hn (congrArg Prod.fst (Except.ok.inj h0)).symm
  unfold addRange at h
  rw [hhi] at h
  obtain ⟨-, -, h⟩ := bind_eq_ok.mp h
  obtain ⟨-, -, h⟩ := bind_eq_ok.mp h
  -- each of the three checks answers 0 when it fails
  by_cases hal : lo % R_ALIGNMENT = 0
  · rw [if_neg (not_not.mpr hal)] at h
    obtain ⟨-, -, h⟩ := bind_eq_ok.mp h
    obtain ⟨-, -, h⟩ := bind_eq_ok.mp h
    by_cases hin : w.memHeapHi < hi ∨ lo < w.memHeapLo
    · rw [if_pos hin] at h
      exact absurd h hzero
    · rw [if_neg hin] at h
      obtain ⟨h1, h2⟩ := not_or.mp hin
      obtain ⟨apart, hov, h⟩ := bind_eq_ok.mp h
      cases apart with
      | false =>
        rw [if_pos rfl] at h
        exact absurd h hzero
      | true =>
        rw [if_neg (by decide)] at h
        have hadd := congrArg Prod.snd (Except.ok.inj h)
        exact ⟨⟨hal, ⟨not_lt.mp h1, not_lt.mp h2⟩, noOverlap_eq_true hov⟩, hadd.symm⟩
  · rw [if_pos hal] at h
    exact absurd h hzero

/-- The address after a payload, by the last address that the validator computes. -/
theorem last_succ (hptr : lo < 2 ^ 64) (hpos : 0 < size) (hint : size < 2 ^ 31) :
    (lo + size ≤ 2 ^ 64 → sub64 (add64 lo size) 1 + 1 = lo + size) ∧
      (2 ^ 64 < lo + size → sub64 (add64 lo size) 1 + 1 + 2 ^ 64 = lo + size) := by
  unfold sub64 add64
  omega

theorem Payload.range_hi (hb : 0 < b.size) : b.range.hi + 1 = b.ptr + b.size :=
  Nat.sub_add_cancel (Nat.le_add_left_of_le hb)

/-- What the validator accepts: the blocks that fit, and those that wrap. -/
theorem accepted_iff (hptr : b.ptr < 2 ^ 64) (hpos : 0 < b.size) (hint : b.size < 2 ^ 31)
    (hothers : (ranges : Multiset Range) = others.map Payload.range)
    (hsizes : ∀ b' ∈ others, 0 < b'.size) :
    Accepted w ranges b.ptr (sub64 (add64 b.ptr b.size) 1) ↔
      b.Fits w others ∨ b.Wraps w others := by
  have hmem : ∀ P : Range → Prop, (∀ r ∈ ranges, P r) ↔ ∀ b' ∈ others, P b'.range := fun P => by
    simp only [← Multiset.mem_coe, hothers, Multiset.mem_map, forall_exists_index, and_imp,
      forall_apply_eq_imp_iff₂]
  have hhi : w.memHeapHi < 2 ^ 64 := Nat.mod_lt _ (by decide)
  -- `hi` wraps exactly when the payload ends past `2 ^ 64`
  have hlast := last_succ hptr hpos hint
  generalize sub64 (add64 b.ptr b.size) 1 = last at *
  constructor
  · rintro ⟨h1, ⟨h2, h3⟩, h4⟩
    have hapart := (hmem _).mp h4
    by_cases hwrap : 2 ^ 64 < b.ptr + b.size
    · have hl := hlast.2 hwrap
      refine .inr ⟨hwrap, Nat.dvd_of_mod_eq_zero h1, ⟨h3, by omega⟩, fun b' hb' => ?_⟩
      have h5 : b'.range.hi < b.ptr ∨ last < b'.ptr := hapart b' hb'
      have h6 := Payload.range_hi (hsizes b' hb')
      omega
    · have hl := hlast.1 (not_lt.mp hwrap)
      refine .inl ⟨Nat.dvd_of_mod_eq_zero h1, ⟨h3, by omega⟩, fun b' hb' => ?_⟩
      have h5 : b'.range.hi < b.ptr ∨ last < b'.ptr := hapart b' hb'
      have h6 := Payload.range_hi (hsizes b' hb')
      unfold Payload.Apart
      omega
  · rintro (⟨h1, ⟨h2, h3⟩, h4⟩ | ⟨hwrap, h1, ⟨h2, h3⟩, h4⟩)
    · have hl := hlast.1 (by omega)
      refine ⟨Nat.mod_eq_zero_of_dvd h1, ⟨by omega, h2⟩, (hmem _).mpr fun b' hb' => ?_⟩
      have h5 : b.ptr + b.size ≤ b'.ptr ∨ b'.ptr + b'.size ≤ b.ptr := h4 b' hb'
      have h6 := Payload.range_hi (hsizes b' hb')
      show b'.range.hi < b.ptr ∨ last < b'.ptr
      omega
    · have hl := hlast.2 hwrap
      refine ⟨Nat.mod_eq_zero_of_dvd h1, ⟨by omega, h2⟩, (hmem _).mpr fun b' hb' => ?_⟩
      have h5 := h4 b' hb'
      have h6 := Payload.range_hi (hsizes b' hb')
      show b'.range.hi < b.ptr ∨ last < b'.ptr
      omega

end Records

/-! ### The invariant of a run -/

section Runs

variable {σ : Type} {debug : Bool} {w : World σ} {l : Ledger} {c c' : Checker σ} {op : TraceOp}
  {ops : List TraceOp} {trace : Trace} {impl : MallocImpl σ} {b : Payload} {i : ℕ}

/-- The records are exact, no live block wraps, and `blocks` has the pointers of the blocks that
have an index, which are different blocks. -/
structure Tracked (c : Checker σ) (l : Ledger) : Prop extends Exact c l where
  bounds : ∀ b ∈ l.live, 0 < b.size ∧ b.ptr + b.size ≤ 2 ^ 64
  handles : ∀ i b, l.handle i = some b → b ∈ l.live ∧ c.blocks i = b.ptr
  distinct : ∀ i j b, l.handle i = some b → l.handle j = some b → i = j

theorem Payload.range_lo_le (hb : 0 < b.size) : b.range.lo ≤ b.range.hi := by
  have h1 := Payload.range_hi hb
  show b.ptr ≤ b.range.hi
  omega

/-- The record of a live block is the only one that starts where the block does. -/
theorem Tracked.eq_range (h : Tracked c l) (hb : b ∈ l.live) :
    b.range ∈ c.ranges ∧ ∀ r ∈ c.ranges, r.lo = b.range.lo → r = b.range := by
  have hmem : ∀ r, r ∈ c.ranges ↔ r ∈ l.live.map Payload.range := fun r => by
    rw [← h.records, Multiset.mem_coe]
  have hbr : b.range ∈ c.ranges := (hmem _).mpr (Multiset.mem_map_of_mem _ hb)
  refine ⟨hbr, fun r hr hlo => ?_⟩
  by_contra hne
  obtain ⟨b', hb', rfl⟩ := Multiset.mem_map.mp ((hmem r).mp hr)
  have hsym : Std.Symm fun r r' : Range => r.hi < r'.lo ∨ r'.hi < r.lo := ⟨fun _ _ h => h.symm⟩
  have happ := h.apart.forall hr hbr hne
  have h1 := Payload.range_lo_le (h.bounds b hb).1
  have h2 := Payload.range_lo_le (h.bounds b' hb').1
  omega

/-- Without the record of a block, the records are those of the other blocks. -/
theorem Tracked.removeRange (h : Tracked c l) (hb : l.handle i = some b) :
    (removeRange (c.blocks i) c.ranges : Multiset Range) = (l.live.erase b).map Payload.range ∧
      (removeRange (c.blocks i) c.ranges).Pairwise fun r r' => r.hi < r'.lo ∨ r'.hi < r.lo := by
  obtain ⟨hlive, hptr⟩ := h.handles i b hb
  obtain ⟨hmem, honly⟩ := h.eq_range hlive
  refine ⟨?_, h.apart.sublist removeRange_sublist⟩
  rw [hptr, show b.ptr = b.range.lo from rfl, removeRange_eq_erase hmem honly, ← Multiset.coe_erase,
    h.records, Multiset.map_erase_of_mem _ _ hlive]

/-- What a request leaves of the records before it looks at the result. -/
theorem Tracked.rest (h : Tracked c l) (hv : op.Valid l) (hasks : op.Asks) :
    (op.rest c : Multiset Range) = (l.others op).map Payload.range ∧
      ((op.rest c).Pairwise fun r r' => r.hi < r'.lo ∨ r'.hi < r.lo) ∧
      ∀ b ∈ l.others op, b ∈ l.live := by
  unfold TraceOp.rest Ledger.others
  rcases hasks with ht | ht
  · rw [if_neg (by simp [ht]), if_neg (by simp [ht])]
    exact ⟨h.records, h.apart, fun _ hb => hb⟩
  · obtain ⟨b, hb⟩ := Option.ne_none_iff_exists'.mp (hv.2 (.inl ht))
    obtain ⟨h1, h2⟩ := h.removeRange hb
    rw [if_pos ht, if_pos (.inl ht), hb]
    exact ⟨h1, h2, fun _ hb' => Multiset.mem_of_mem_erase hb'⟩

theorem TraceOp.answer_lt (hasks : op.Asks) : (op.answer impl c).1 < 2 ^ 64 := by
  rcases hasks with ht | ht <;> simp only [TraceOp.answer, ht]
  · exact impl.malloc_lt _ _
  · exact impl.realloc_lt _ _ _

/-- `add_range` takes the result of a request if it fits or wraps. -/
theorem Tracked.accepted_iff (h : Tracked c l) (hv : op.Valid l) (hasks : op.Asks) :
    Accepted (op.answer impl c).2 (op.rest c) (op.answer impl c).1
        (sub64 (add64 (op.answer impl c).1 op.size) 1) ↔
      (op.result impl c).Fits (op.answer impl c).2 (l.others op) ∨ op.Slips impl c l := by
  obtain ⟨hrest, -, hlive⟩ := h.rest hv hasks
  have hiff := Dlmalloc.accepted_iff (b := op.result impl c) (w := (op.answer impl c).2)
    (TraceOp.answer_lt hasks) (hv.1 hasks).1 (hv.1 hasks).2 hrest
    fun b hb => (h.bounds b (hlive b hb)).1
  rw [TraceOp.Slips, and_iff_right hasks]
  exact hiff

/-- The check of a moved block's contents. -/
def TraceOp.contents (impl : MallocImpl σ) (debug : Bool) (op : TraceOp) (c : Checker σ) :
    Except Stop Unit :=
  if op.type = .realloc then
    checkWords debug (op.answer impl c).2.mem (op.answer impl c).1 (c.blocks op.index)
      (words (op.answer impl c).1 (min op.size (c.blockSizes op.index)))
  else .ok ()

/-- The two kinds of requests for a block go the same way. -/
theorem evalOp_of_asks (hasks : op.Asks) : evalOp impl debug op c =
    if (op.answer impl c).1 = NULL then .error (.returned 0)
    else addRange debug (op.answer impl c).2 (op.rest c) (op.answer impl c).1 op.size >>= fun x =>
      if x.1 = 0 then .error (.returned 0)
      else op.contents impl debug c >>= fun _ =>
        .ok (c.remember op.index (op.answer impl c).1 op.size (op.answer impl c).2 x.2) := by
  unfold evalOp TraceOp.contents TraceOp.answer TraceOp.rest
  rcases hasks with ht | ht
  · simp only [ht, reduceCtorEq, if_false, ok_bind]
    split_ifs with hnull
    · rfl
    · refine congrArg _ (funext fun x => ?_)
      split_ifs <;> rfl
  · simp only [ht, if_true]
    split_ifs with hnull
    · rfl
    · refine congrArg _ (funext fun x => ?_)
      split_ifs <;> rfl

/-- A request for a block whose result neither fits nor wraps. -/
theorem Tracked.evalOp_returned (h : Tracked c l) (hv : op.Valid l) (hasks : op.Asks)
    (hslip : ¬ op.Slips impl c l)
    (hfit : ¬ (op.result impl c).Fits (op.answer impl c).2 (l.others op)) :
    evalOp impl false op c = .error (.returned 0) := by
  have hacc := (h.accepted_iff hv hasks).not.mpr (not_or.mpr ⟨hfit, hslip⟩)
  rw [evalOp_of_asks hasks, addRange_of_not_accepted rfl hacc]
  split_ifs
  · rfl
  · rfl

/-- A request for a block that passes: its record is added to the rest. -/
theorem evalOp_asks_ok (hasks : op.Asks) (h : evalOp impl debug op c = .ok c') :
    Accepted (op.answer impl c).2 (op.rest c) (op.answer impl c).1
        (sub64 (add64 (op.answer impl c).1 op.size) 1) ∧
      c'.ranges = ⟨(op.answer impl c).1, sub64 (add64 (op.answer impl c).1 op.size) 1⟩ ::
        op.rest c ∧
      c'.blocks = Function.update c.blocks op.index (op.answer impl c).1 := by
  rw [evalOp_of_asks hasks] at h
  by_cases hnull : (op.answer impl c).1 = NULL
  · rw [if_pos hnull] at h
    cases h
  rw [if_neg hnull] at h
  obtain ⟨⟨n, ranges⟩, hadd, h⟩ := bind_eq_ok.mp h
  by_cases hn : n = 0
  · rw [if_pos hn] at h
    cases h
  rw [if_neg hn] at h
  obtain ⟨-, -, h⟩ := bind_eq_ok.mp h
  obtain ⟨hacc, hranges⟩ := addRange_eq_ok rfl hn hadd
  rw [← Except.ok.inj h]
  exact ⟨hacc, hranges, rfl⟩

/-- A new block is not one of the others. -/
theorem Payload.Fits.notMem {others : Multiset Payload} (h : b.Fits w others) (hb : 0 < b.size) :
    b ∉ others := fun hmem => by
  have := h.apart b hmem
  unfold Payload.Apart at this
  omega

theorem Payload.Fits.record {others : Multiset Payload} (h : b.Fits w others)
    (hptr : b.ptr < 2 ^ 64) (hpos : 0 < b.size) (hint : b.size < 2 ^ 31) :
    (⟨b.ptr, sub64 (add64 b.ptr b.size) 1⟩ : Range) = b.range := by
  have hhi : w.memHeapHi < 2 ^ 64 := Nat.mod_lt _ (by decide)
  have hin := h.inside.2
  have hlast := (last_succ hptr hpos hint).1 (by omega)
  have hrange := Payload.range_hi hpos
  have heq : sub64 (add64 b.ptr b.size) 1 = b.range.hi := by omega
  rw [heq]
  rfl

theorem Ledger.after_of_asks (hasks : op.Asks) (p : ℕ) : l.after op p =
    ⟨⟨p, op.size⟩ ::ₘ l.others op, Function.update l.handle op.index (some ⟨p, op.size⟩)⟩ := by
  unfold Ledger.after
  rcases hasks with ht | ht <;> simp only [ht]

/-- The block of another index stays. -/
theorem Tracked.mem_others (h : Tracked c l) (hb : l.handle i = some b) (hi : i ≠ op.index) :
    b ∈ l.others op := by
  have hlive := (h.handles i b hb).1
  unfold Ledger.others
  split_ifs with ht
  · cases hown : l.handle op.index with
    | none => exact hlive
    | some b' =>
      refine (Multiset.mem_erase_of_ne fun heq => ?_).mpr hlive
      exact hi (h.distinct i op.index b hb (heq ▸ hown))
  · exact hlive

/-- A request for a block keeps the invariant, if its result fits. -/
theorem Tracked.step_asks (h : Tracked c l) (hv : op.Valid l) (hasks : op.Asks)
    (hslip : ¬ op.Slips impl c l) (hrun : evalOp impl debug op c = .ok c') :
    Tracked c' (l.after op (op.answer impl c).1) := by
  obtain ⟨hrest, hapart, hlive⟩ := h.rest hv hasks
  obtain ⟨hacc, hranges, hblocks⟩ := evalOp_asks_ok hasks hrun
  obtain ⟨hpos, hint⟩ := hv.1 hasks
  have hptr : (op.answer impl c).1 < 2 ^ 64 := TraceOp.answer_lt hasks
  have hfit := ((h.accepted_iff hv hasks).mp hacc).resolve_right hslip
  have hrecord := hfit.record (b := op.result impl c) hptr hpos hint
  have hhi : (op.answer impl c).2.memHeapHi < 2 ^ 64 := Nat.mod_lt _ (by decide)
  have hnew : op.result impl c ∉ l.others op := hfit.notMem hpos
  rw [Ledger.after_of_asks hasks]
  refine ⟨⟨?_, ?_⟩, ?_, ?_, ?_⟩
  · rw [hranges, ← Multiset.cons_coe, hrest, Multiset.map_cons]
    exact congrArg (· ::ₘ _) hrecord
  · rw [hranges]
    exact List.pairwise_cons.mpr ⟨fun r hr => (hacc.apart r hr).symm, hapart⟩
  · intro b hb
    rcases Multiset.mem_cons.mp hb with rfl | hb
    · exact ⟨hpos, hfit.inside.2.trans hhi⟩
    · exact h.bounds b (hlive b hb)
  · intro i b hb
    dsimp only at hb
    rw [hblocks]
    by_cases hi : i = op.index
    · subst hi
      rw [Function.update_self] at hb ⊢
      rw [← Option.some.inj hb]
      exact ⟨Multiset.mem_cons_self _ _, rfl⟩
    · rw [Function.update_of_ne hi] at hb ⊢
      exact ⟨Multiset.mem_cons_of_mem (h.mem_others hb hi), (h.handles i b hb).2⟩
  · intro i j b hi hj
    dsimp only at hi hj
    by_cases hi' : i = op.index <;> by_cases hj' : j = op.index
    · rw [hi', hj']
    · -- the new block is not the block of another index
      subst hi'
      rw [Function.update_self] at hi
      rw [Function.update_of_ne hj', ← Option.some.inj hi] at hj
      exact absurd (h.mem_others hj hj') hnew
    · subst hj'
      rw [Function.update_self] at hj
      rw [Function.update_of_ne hi', ← Option.some.inj hj] at hi
      exact absurd (h.mem_others hi hi') hnew
    · rw [Function.update_of_ne hi'] at hi
      rw [Function.update_of_ne hj'] at hj
      exact h.distinct i j b hi hj

/-- So does a request to free one. -/
theorem Tracked.step_free (h : Tracked c l) (hv : op.Valid l) (ht : op.type = .free)
    (hrun : evalOp impl debug op c = .ok c') (p : ℕ) : Tracked c' (l.after op p) := by
  obtain ⟨b, hb⟩ := Option.ne_none_iff_exists'.mp (hv.2 (.inr ht))
  obtain ⟨hrest, hapart⟩ := h.removeRange hb
  have hothers : l.others op = l.live.erase b := by
    unfold Ledger.others
    rw [if_pos (.inr ht), hb]
  -- the range of the block goes, and its index is forgotten
  have hafter : l.after op p = ⟨l.live.erase b, Function.update l.handle op.index none⟩ := by
    unfold Ledger.after
    rw [ht, ← hothers]
  simp only [evalOp, ht] at hrun
  rw [hafter, ← Except.ok.inj hrun]
  refine ⟨⟨hrest, hapart⟩, fun b' hb' => h.bounds b' (Multiset.mem_of_mem_erase hb'),
    fun i b' hb' => ?_, fun i j b' hi hj => ?_⟩
  · dsimp only at hb'
    by_cases hi : i = op.index
    · subst hi
      rw [Function.update_self] at hb'
      cases hb'
    · rw [Function.update_of_ne hi] at hb'
      exact ⟨hothers ▸ h.mem_others hb' hi, (h.handles i b' hb').2⟩
  · dsimp only at hi hj
    have hne : ∀ k, Function.update l.handle op.index none k = some b' → l.handle k = some b' := by
      intro k hk
      by_cases hk' : k = op.index
      · subst hk'
        rw [Function.update_self] at hk
        cases hk
      · rwa [Function.update_of_ne hk'] at hk
    exact h.distinct i j b' (hne i hi) (hne j hj)

/-- The invariant is kept by every request that does not slip. -/
theorem Tracked.step (h : Tracked c l) (hv : op.Valid l) (hslip : ¬ op.Slips impl c l)
    (hrun : evalOp impl debug op c = .ok c') : Tracked c' (l.after op (op.answer impl c).1) := by
  cases ht : op.type with
  | alloc => exact h.step_asks hv (.inl ht) hslip hrun
  | realloc => exact h.step_asks hv (.inr ht) hslip hrun
  | free => exact h.step_free hv ht hrun _
  | write =>
    simp only [evalOp, ht] at hrun
    rw [← Except.ok.inj hrun]
    unfold Ledger.after
    rwa [ht]

theorem tracked_start : Tracked (.start impl trace w) .empty :=
  ⟨⟨rfl, .nil⟩, fun _ hb => absurd hb (Multiset.notMem_zero _),
    fun _ _ hb => absurd hb.symm (by simp [Ledger.empty]),
    fun _ _ _ hb => absurd hb.symm (by simp [Ledger.empty])⟩

theorem ValidRun.tracked (h : ValidRun impl debug trace w ops c l) : Tracked c l := by
  induction h with
  | start => exact tracked_start
  | op _ hv hslip hrun ih => exact ih.step hv hslip hrun

theorem evalOps_append {ops' : List TraceOp} :
    evalOps impl debug (ops ++ ops') c = evalOps impl debug ops c >>= evalOps impl debug ops' := by
  induction ops generalizing c with
  | nil => rfl
  | cons op ops ih =>
    rw [List.cons_append, evalOps, evalOps]
    cases evalOp impl debug op c with
    | error stop => rfl
    | ok c' => exact ih

/-- A run of the validator is what its loop computes. -/
theorem ValidRun.evalOps_eq (h : ValidRun impl debug trace w ops c l) :
    0 ≤ (impl.init (impl.resetBrk w)).1 ∧
      evalOps impl debug ops (.start impl trace w) = .ok c := by
  induction h with
  | start hinit => exact ⟨hinit, rfl⟩
  | op _ _ _ hrun ih =>
    refine ⟨ih.1, ?_⟩
    rw [evalOps_append, ih.2, ok_bind, evalOps, hrun]
    rfl

/-- As long as the validator has not stopped, and no result wrapped, there is exactly one record for
each live block and the records are disjoint. A next result that fits is added to them, and at one
that does not the validator returns 0. -/
theorem ranges_exact (h : ValidRun impl debug trace w ops c l) :
    Exact c l ∧ ∀ op : TraceOp, op.Valid l → op.Asks → ¬ op.Slips impl c l →
      ((op.result impl c).Fits (op.answer impl c).2 (l.others op) →
        addRange debug (op.answer impl c).2 (op.rest c) (op.answer impl c).1 op.size =
          .ok (1, (op.result impl c).range :: op.rest c)) ∧
      (¬ (op.result impl c).Fits (op.answer impl c).2 (l.others op) → debug = false →
        ∀ post,
          evalMmValid impl debug { trace with ops := ops ++ op :: post } w = .returned 0) := by
  have ht := h.tracked
  refine ⟨ht.toExact, fun op hv hasks hslip => ⟨fun hfit => ?_, fun hfit hdebug post => ?_⟩⟩
  · -- a payload that fits is recorded
    obtain ⟨hpos, hint⟩ := hv.1 hasks
    have hacc := (ht.accepted_iff hv hasks).mpr (.inl hfit)
    have hrecord := hfit.record (b := op.result impl c) (TraceOp.answer_lt hasks) hpos hint
    rw [addRange_of_accepted hpos rfl hacc, ← hrecord]
    rfl
  · -- one that does not ends the evaluation, whatever follows
    subst hdebug
    obtain ⟨hinit, hops⟩ := h.evalOps_eq
    have hstop := ht.evalOp_returned hv hasks hslip hfit
    have hstart : Checker.start impl { trace with ops := ops ++ op :: post } w =
        .start impl trace w := rfl
    rw [evalMmValid, if_neg (not_lt.mpr hinit), hstart, evalOps_append, hops, ok_bind, evalOps,
      hstop]
    rfl

/-- A block that wraps does not fit, but `add_range` takes it, and after an allocation the records
are wrong. -/
theorem slip_passes (h : ValidRun impl debug trace w ops c l) (hv : op.Valid l)
    (hslip : op.Slips impl c l) :
    ¬ (op.result impl c).Fits (op.answer impl c).2 (l.others op) ∧
      addRange debug (op.answer impl c).2 (op.rest c) (op.answer impl c).1 op.size =
        .ok (1, ⟨(op.answer impl c).1, sub64 (add64 (op.answer impl c).1 op.size) 1⟩ ::
          op.rest c) ∧
      (op.type = .alloc → ∃ c', evalOp impl debug op c = .ok c' ∧
        ¬ Exact c' (l.after op (op.answer impl c).1)) := by
  have ht := h.tracked
  obtain ⟨hasks, hwrap⟩ := hslip
  obtain ⟨hpos, hint⟩ := hv.1 hasks
  have hptr : (op.result impl c).ptr < 2 ^ 64 := TraceOp.answer_lt hasks
  have hwraps := hwrap.wraps
  have hacc := (ht.accepted_iff hv hasks).mpr (.inr ⟨hasks, hwrap⟩)
  have hadd : addRange debug (op.answer impl c).2 (op.rest c) (op.answer impl c).1 op.size = _ :=
    addRange_of_accepted hpos rfl hacc
  refine ⟨fun hfit => ?_, hadd, fun halloc => ?_⟩
  · have hhi : (op.answer impl c).2.memHeapHi < 2 ^ 64 := Nat.mod_lt _ (by decide)
    have hin := hfit.inside.2
    omega
  · have hsize : (op.result impl c).size < 2 ^ 31 := hint
    have hnull : (op.answer impl c).1 ≠ NULL := fun h0 => by
      have h0' : (op.result impl c).ptr = 0 := h0
      omega
    have hcontents : op.contents impl debug c = .ok () := if_neg (by simp [halloc])
    have hrun : evalOp impl debug op c = _ := evalOp_of_asks hasks
    rw [if_neg hnull, hadd, ok_bind, if_neg one_ne_zero, hcontents, ok_bind] at hrun
    refine ⟨_, hrun, fun hexact => ?_⟩
    -- the account has a record with a last address that no record has
    have hmem : (op.result impl c).range ∈
        (l.after op (op.answer impl c).1).live.map Payload.range := by
      rw [Ledger.after_of_asks hasks]
      exact Multiset.mem_map_of_mem _ (Multiset.mem_cons_self _ _)
    rw [← hexact.records, Multiset.mem_coe] at hmem
    obtain ⟨hrest, -, hlive⟩ := ht.rest hv hasks
    have hrange := Payload.range_hi (b := op.result impl c) hpos
    rcases List.mem_cons.mp hmem with heq | hmem
    · have hlt : sub64 (add64 (op.answer impl c).1 op.size) 1 < 2 ^ 64 := Nat.mod_lt _ (by decide)
      have hhi := congrArg Range.hi heq
      dsimp only at hhi
      omega
    · rw [← Multiset.mem_coe, hrest] at hmem
      obtain ⟨b, hb, heq⟩ := Multiset.mem_map.mp hmem
      obtain ⟨h1, h2⟩ := ht.bounds b (hlive b hb)
      have h3 := Payload.range_hi h1
      rw [heq] at h3
      omega

end Runs

/-! ### Two allocators -/

/-- An allocator that returns one pointer for every request, and changes nothing. -/
def constantImpl (p : Addr) (hp : p < 2 ^ 64) : MallocImpl Unit where
  init w := (0, w)
  malloc _ w := (p, w)
  realloc _ _ w := (p, w)
  free _ w := w
  resetBrk w := w
  malloc_lt _ _ := hp
  realloc_lt _ _ _ := hp

/-- A heap of 1024 bytes. -/
def smallWorld : World Unit := ⟨fun _ => ⟨0, true⟩, 16, 1040, ()⟩

/-- The second request for a block gets the first block again, and the validator notices. -/
theorem ranges_exact_constant :
    Exact ((Checker.start (constantImpl 32 (by decide)) ⟨[], fun _ => NULL, fun _ => 0⟩
        smallWorld).remember 0 32 24 smallWorld [⟨32, 55⟩])
      (Ledger.empty.after ⟨.alloc, 0, 24⟩ 32) ∧
    evalMmValid (constantImpl 32 (by decide)) false
      ⟨[⟨.alloc, 0, 24⟩, ⟨.alloc, 1, 24⟩], fun _ => NULL, fun _ => 0⟩ smallWorld = .returned 0 := by
  -- no payload wraps, so no operation slips
  have hslip : ∀ (op : TraceOp) (c : Checker Unit) (l : Ledger), op.size = 24 →
      ¬ op.Slips (constantImpl 32 (by decide)) c l := fun op c l hsize hs => by
    have hw := hs.2.wraps
    have hn : (op.result (constantImpl 32 (by decide)) c).size = 24 := hsize
    have hp : (op.result (constantImpl 32 (by decide)) c).ptr = 32 := by
      unfold TraceOp.result TraceOp.answer
      rcases hs.1 with ht | ht <;> simp only [ht] <;> rfl
    omega
  have hstart : ValidRun (constantImpl 32 (by decide)) false ⟨[], fun _ => NULL, fun _ => 0⟩
      smallWorld [] _ _ := .start (by decide)
  have hvalid : (⟨.alloc, 0, 24⟩ : TraceOp).Valid .empty := ⟨fun _ => by decide, by decide⟩
  obtain ⟨hexact, hnext⟩ := ranges_exact (hstart.op hvalid (hslip _ _ _ rfl) rfl)
  refine ⟨hexact, ?_⟩
  refine (hnext ⟨.alloc, 1, 24⟩ ⟨fun _ => by decide, by decide⟩ (.inl rfl) (hslip _ _ _ rfl)).2 ?_
    rfl []
  -- the second answer is the block that is still live
  intro hfit
  have hapart : (⟨32, 24⟩ : Payload).Apart ⟨32, 24⟩ :=
    hfit.apart ⟨32, 24⟩ (show _ ∈ (⟨32, 24⟩ : Payload) ::ₘ 0 from Multiset.mem_cons_self _ _)
  rcases hapart with h | h <;> exact absurd h (by decide)

/-- The pointer is what is left of `(void*) -1`, the failure of `mem_sbrk`, after it is aligned. -/
theorem not_always_exact :
    (TraceOp.mk .alloc 0 16).Valid .empty ∧
    ¬ ((TraceOp.mk .alloc 0 16).result (constantImpl (2 ^ 64 - 8) (by decide))
        (.start (constantImpl (2 ^ 64 - 8) (by decide)) ⟨[], fun _ => NULL, fun _ => 0⟩
          smallWorld)).Fits smallWorld 0 ∧
    evalMmValid (constantImpl (2 ^ 64 - 8) (by decide)) false
      ⟨[⟨.alloc, 0, 16⟩], fun _ => NULL, fun _ => 0⟩ smallWorld = .returned 1 := by
  refine ⟨⟨fun _ => by decide, by decide⟩, fun hfit => ?_, by decide +kernel⟩
  exact absurd hfit.inside.2 (by decide +kernel)

end Dlmalloc
