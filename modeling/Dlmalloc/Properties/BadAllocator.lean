import Dlmalloc.Properties.Driver

/-!
# The broken allocator

The driver comes with an allocator that is wrong on purpose: it takes 4101 bytes for every request,
so that its second block is not aligned. The validator is not fooled: it accepts the allocator only
on traces that ask for one small block at most (`bad_rejected`).
-/

namespace Dlmalloc

/-- How the validator ends at a block that it does not take: an assertion fails, or, if there are
none, it returns 0. -/
def rejection (debug : Bool) : Stop := if debug then .aborted else .returned 0

/-- The requests for blocks. -/
def asked (ops : List TraceOp) : List TraceOp := ops.filter (·.Asks)

section Reject

variable {α : Type} {debug : Bool} {wα : World α} {impl : MallocImpl α} {c : Checker α}
  {op : TraceOp} {ranges : List Range} {lo hi size : ℕ}

theorem assertion_abort_bind {β : Type} {p : Prop} [Decidable p] (h : ¬ p)
    (f : Unit → Except Stop β) : (assertion true p >>= f) = .error .aborted := by
  rw [assertion, if_pos ⟨rfl, h⟩]
  rfl

theorem noOverlap_abort (h : ¬ ∀ r ∈ ranges, r.hi < lo ∨ hi < r.lo) :
    noOverlap true lo hi ranges = .error .aborted := by
  induction ranges with
  | nil => simp at h
  | cons r ranges ih =>
    rw [noOverlap]
    by_cases hr : r.hi < lo ∨ hi < r.lo
    · rw [assertion_bind hr, if_neg (not_not.mpr hr)]
      exact ih fun hall => h (List.forall_mem_cons.mpr ⟨hr, hall⟩)
    · exact assertion_abort_bind hr _

/-- With assertions compiled in, what `add_range` does not take makes one of them fail. -/
theorem addRange_abort (hhi : sub64 (add64 lo size) 1 = hi) (h : ¬ Accepted wα ranges lo hi) :
    addRange true wα ranges lo size = .error .aborted := by
  unfold addRange
  rw [hhi]
  by_cases hsize : 0 < size
  · rw [assertion_bind hsize]
    by_cases hal : lo % R_ALIGNMENT = 0
    · rw [assertion_bind hal, if_neg (not_not.mpr hal)]
      by_cases h1 : hi ≤ wα.memHeapHi
      · rw [assertion_bind h1]
        by_cases h2 : wα.memHeapLo ≤ lo
        · have hin : ¬ (wα.memHeapHi < hi ∨ lo < wα.memHeapLo) :=
            not_or.mpr ⟨not_lt.mpr h1, not_lt.mpr h2⟩
          rw [assertion_bind h2, if_neg hin, noOverlap_abort fun hov => h ⟨hal, ⟨h1, h2⟩, hov⟩]
          rfl
        · exact assertion_abort_bind h2 _
      · exact assertion_abort_bind h1 _
    · exact assertion_abort_bind hal _
  · exact assertion_abort_bind hsize _

/-- A block that `add_range` does not take ends the validation, whatever the allocator. -/
theorem evalOp_rejected (hasks : op.Asks) (hnull : (op.answer impl c).1 ≠ NULL)
    (h : ¬ Accepted (op.answer impl c).2 (op.rest c) (op.answer impl c).1
      (sub64 (add64 (op.answer impl c).1 op.size) 1)) :
    evalOp impl debug op c = .error (rejection debug) := by
  rw [evalOp_of_asks hasks, if_neg hnull]
  cases debug with
  | true =>
    rw [addRange_abort rfl h]
    rfl
  | false =>
    rw [addRange_of_not_accepted rfl h]
    rfl

end Reject

section Bad

variable {debug : Bool} {c c' : Checker Statics} {w : World Statics} {op : TraceOp}
  {ops : List TraceOp} {trace : Trace} {held : Finset ℕ} {N size b m s : ℕ}

/-- The heap begins at the aligned address `s`, and its break is `b`. -/
structure BreakAt (s b : ℕ) (w : World Statics) : Prop where
  memStartBrk : w.memStartBrk = s
  memBrk : w.memBrk = b
  memMaxAddr : w.own.memMaxAddr = s + MAX_HEAP
  pos : 0 < s
  aligned : 8 ∣ s
  span : s + MAX_HEAP + 2 ^ 31 ≤ 2 ^ 64

/-- The break moves up by 4101 bytes. -/
def World.badSbrk (w : World Statics) : World Statics := { w with memBrk := w.memBrk + BAD_SIZE }

theorem BreakAt.badSbrk (hw : BreakAt s b w) : BreakAt s (b + BAD_SIZE) w.badSbrk :=
  ⟨hw.memStartBrk, congrArg (· + BAD_SIZE) hw.memBrk, hw.memMaxAddr, hw.pos, hw.aligned, hw.span⟩

theorem BreakAt.badMalloc_run (size : ℕ) (hw : BreakAt s b w)
    (hroom : b + BAD_SIZE ≤ s + MAX_HEAP) :
    badMalloc size w.state = some (b, w.badSbrk.state) := by
  have hspan := hw.span
  have hfailed : SBRK_FAILED = 2 ^ 64 - 1 := rfl
  have hb : w.state.memBrk = b := hw.memBrk
  have hm : w.state.memMaxAddr = s + MAX_HEAP := hw.memMaxAddr
  have hbrk : b + 2 ^ 31 ≤ 2 ^ 64 := by omega
  have hsbrk : memSbrk (toInt BAD_SIZE) w.state = some (b, w.badSbrk.state) := by
    rw [memSbrk_run (by decide) (by rw [hb]; exact hbrk), if_pos (by rw [hb, hm]; exact hroom)]
    exact congrArg (fun p => some (p, w.badSbrk.state)) hb
  have hne : b ≠ 2 ^ 64 - 1 := by omega
  rw [badMalloc, M.bind_of_run hsbrk, hfailed, if_neg hne]
  rfl

/-- Both kinds of requests for a block get what lies behind the break. -/
theorem BreakAt.answer (hw : BreakAt s b c.world) (hsb : s ≤ b)
    (hroom : b + BAD_SIZE ≤ s + MAX_HEAP) (hasks : op.Asks) :
    op.answer badImpl c = (b, c.world.badSbrk) := by
  have hspan := hw.span
  have hpos := hw.pos
  have hrun := hw.badMalloc_run op.size hroom
  have hlt : b < 2 ^ 64 := by omega
  have hb0 : b ≠ 0 := by omega
  have hnull : b ≠ NULL := hb0
  have hrealloc : badRealloc (c.blocks op.index) op.size c.world.state =
      some (b, c.world.badSbrk.state) := by
    rw [badRealloc, M.bind_of_run hrun, if_neg hnull]
    rfl
  have hmalloc : badImpl.malloc op.size c.world = (b, c.world.badSbrk) := by
    simp only [badImpl]
    exact World.call_of_run hrun hlt
  have hrealloc' : badImpl.realloc (c.blocks op.index) op.size c.world =
      (b, c.world.badSbrk) := by
    simp only [badImpl]
    exact World.call_of_run hrealloc hlt
  -- both kinds of request come down to `bad_malloc`
  unfold TraceOp.answer
  rcases hasks with ht | ht <;> simp only [ht]
  · exact hmalloc
  · exact hrealloc'

/-- What the other requests leave as it is. -/
theorem bad_other (debug : Bool) (c : Checker Statics) (hasks : ¬ op.Asks) :
    ∃ c', evalOp badImpl debug op c = .ok c' ∧ c'.world = c.world ∧
      (op.type = .write → c' = c) := by
  cases ht : op.type with
  | alloc => exact absurd (.inl ht) hasks
  | realloc => exact absurd (.inr ht) hasks
  | free =>
    have hfree : badImpl.free (c.blocks op.index) c.world = c.world := by
      have hrun : badFree (c.blocks op.index) c.world.state = some ((), c.world.state) := rfl
      simp only [badImpl]
      exact World.perform_of_run hrun
    exact ⟨{ c with
      ranges := removeRange (c.blocks op.index) c.ranges
      world := badImpl.free (c.blocks op.index) c.world }, by simp only [evalOp, ht]; rfl, hfree,
      fun h => by cases h⟩
  | write => exact ⟨c, by simp only [evalOp, ht]; rfl, rfl, fun _ => rfl⟩

theorem asked_cons : asked (op :: ops) = if op.Asks then op :: asked ops else asked ops := by
  rw [asked, List.filter_cons]
  simp only [decide_eq_true_eq]
  rfl

/-- After the first block there is no other. -/
theorem bad_second (hw : BreakAt s (s + BAD_SIZE) c.world) :
    (asked ops = [] → ∃ c', evalOps badImpl debug ops c = .ok c') ∧
      (asked ops ≠ [] → evalOps badImpl debug ops c = .error (rejection debug)) := by
  have hbad : BAD_SIZE = 4101 := rfl
  have hheap : MAX_HEAP = 52428800 := rfl
  have hal := hw.aligned
  induction ops generalizing c with
  | nil => exact ⟨fun _ => ⟨c, rfl⟩, fun h => absurd rfl h⟩
  | cons op ops ih =>
    rw [asked_cons, evalOps]
    by_cases hasks : op.Asks
    · have hans := hw.answer (by omega) (by omega) hasks
      have hnull : s + BAD_SIZE ≠ NULL := Nat.succ_ne_zero _
      rw [if_pos hasks, evalOp_rejected hasks (by rwa [hans])]
      · exact ⟨fun h => (by cases h), fun _ => rfl⟩
      · rw [hans]
        -- `BAD_SIZE` is odd, so the second answer is not aligned
        rintro ⟨haligned, -, -⟩
        have hodd : (s + BAD_SIZE) % 8 = 0 := haligned
        omega
    · obtain ⟨c', hrun, hworld, -⟩ := bad_other debug c hasks
      rw [if_neg hasks, hrun, ok_bind]
      exact ih (hworld ▸ hw)

/-- The first block is accepted if it is small enough. -/
theorem bad_first (hw : BreakAt s s c.world) (hranges : c.ranges = []) (hpos : 0 < op.size)
    (hint : op.size < 2 ^ 31) (ht : op.type = .alloc) :
    (op.size ≤ BAD_SIZE → ∃ c', evalOp badImpl debug op c = .ok c' ∧
        BreakAt s (s + BAD_SIZE) c'.world) ∧
      (BAD_SIZE < op.size → evalOp badImpl debug op c = .error (rejection debug)) := by
  have hasks : op.Asks := .inl ht
  have hspan := hw.span
  have hs := hw.pos
  have hal := hw.aligned
  have hheap : MAX_HEAP = 52428800 := rfl
  have hbad : BAD_SIZE = 4101 := rfl
  have hnull : s ≠ NULL := hs.ne'
  have hans := hw.answer le_rfl (by omega) hasks
  have hrest : op.rest c = [] := by rw [TraceOp.rest, if_neg (by simp [ht]), hranges]
  have hlast : sub64 (add64 s op.size) 1 = s + op.size - 1 := by
    rw [add64_of_lt (by omega), sub64_of_le (by omega) (by omega)]
  have hhi : c.world.badSbrk.memHeapHi = s + BAD_SIZE - 1 := by
    rw [World.memHeapHi, hw.badSbrk.memBrk, sub64_of_le (by omega) (by omega)]
  have hlo : c.world.badSbrk.memHeapLo = s := hw.memStartBrk
  -- the payload ends inside the first extent, or past it
  refine ⟨fun hle => ?_, fun hlt => ?_⟩
  · have hacc : Accepted c.world.badSbrk [] s (s + op.size - 1) := by
      refine ⟨Nat.mod_eq_zero_of_dvd hal, ⟨?_, hlo.le⟩, by simp⟩
      rw [hhi]
      omega
    have hadd : addRange debug c.world.badSbrk [] s op.size = _ :=
      addRange_of_accepted hpos hlast hacc
    have hrun : evalOp badImpl debug op c = _ := evalOp_of_asks hasks
    have hcontents : op.contents badImpl debug c = .ok () := if_neg (by simp [ht])
    rw [hans, hrest, if_neg hnull, hadd, ok_bind, if_neg one_ne_zero, hcontents, ok_bind] at hrun
    exact ⟨_, hrun, ⟨hw.memStartBrk, hw.badSbrk.memBrk, hw.memMaxAddr, hs, hal, hspan⟩⟩
  · refine evalOp_rejected hasks (by rwa [hans]) ?_
    rw [hans, hrest, hlast]
    rintro ⟨-, ⟨hin, -⟩, -⟩
    rw [hhi] at hin
    omega

/-- Until a block is asked for, only `WRITE` requests are valid. -/
theorem bad_run (debug : Bool) (hw : BreakAt s s c.world) (hranges : c.ranges = [])
    (hN : N < 2 ^ 31) (hops : ValidOps N ops ∅) :
    ((asked ops).length ≤ 1 ∧ (∀ op ∈ asked ops, op.size ≤ BAD_SIZE) →
        ∃ c', evalOps badImpl debug ops c = .ok c') ∧
      (¬ ((asked ops).length ≤ 1 ∧ ∀ op ∈ asked ops, op.size ≤ BAD_SIZE) →
        evalOps badImpl debug ops c = .error (rejection debug)) := by
  induction ops with
  | nil => exact ⟨fun _ => ⟨c, rfl⟩, fun h => absurd (by simp [asked]) h⟩
  | cons op ops ih =>
    obtain ⟨⟨hsize, hindex⟩, hops⟩ := hops
    rw [asked_cons, evalOps]
    cases ht : op.type with
    -- the first answer is accepted if it fits, and the second never
    | alloc =>
      have hasks : op.Asks := .inl ht
      obtain ⟨hpos, hle⟩ := hsize hasks
      have hfirst : (op.size ≤ BAD_SIZE → ∃ c', evalOp badImpl debug op c = .ok c' ∧ _) ∧ _ :=
        bad_first hw hranges hpos (by omega) ht
      rw [if_pos hasks]
      by_cases hsmall : op.size ≤ BAD_SIZE
      · obtain ⟨c', hrun, hw'⟩ := hfirst.1 hsmall
        have hsecond : _ ∧ (asked ops ≠ [] → evalOps badImpl debug ops c' = _) := bad_second hw'
        rw [hrun, ok_bind]
        have hiff : (op :: asked ops).length ≤ 1 ∧
            (∀ op' ∈ op :: asked ops, op'.size ≤ BAD_SIZE) ↔ asked ops = [] := by
          rw [List.length_cons, Nat.succ_le_succ_iff, Nat.le_zero, List.length_eq_zero_iff]
          refine ⟨And.left, fun h0 => ⟨h0, fun op' hop' => ?_⟩⟩
          rw [h0] at hop'
          rwa [List.mem_singleton.mp hop']
        rw [hiff]
        exact hsecond
      · rw [hfirst.2 (not_le.mp hsmall)]
        exact ⟨fun h => absurd (h.2 op List.mem_cons_self) hsmall, fun _ => rfl⟩
    -- no block is live yet, so these two name none
    | realloc => exact absurd (hindex (.inl ht)) (Finset.notMem_empty _)
    | free => exact absurd (hindex (.inr ht)) (Finset.notMem_empty _)
    -- nothing is asked, and the world is the same
    | write =>
      have hasks : ¬ op.Asks := by simp [TraceOp.Asks, ht]
      obtain ⟨c', hrun, -, hsame⟩ := bad_other debug c hasks
      obtain rfl := hsame ht
      have hheld : op.holds ∅ = ∅ := by
        unfold TraceOp.holds
        rw [ht]
      rw [if_neg hasks, hrun, ok_bind]
      rw [hheld] at hops
      exact ih hops

/-- **The broken allocator is found out.** On a heap that begins at an aligned address the validator
accepts it on the valid traces that ask for at most one block, of at most 4101 bytes, and stops at
all others. -/
theorem bad_rejected (hw : w.SetAside) (hal : 8 ∣ w.memStartBrk) (hN : N < 2 ^ 31)
    (hops : ValidOps N trace.ops ∅) :
    evalMmValid badImpl debug trace w =
      if (asked trace.ops).length ≤ 1 ∧ ∀ op ∈ asked trace.ops, op.size ≤ BAD_SIZE then .returned 1
      else rejection debug := by
  have hreset : badImpl.resetBrk w = { w with memBrk := w.memStartBrk } := by
    have hrun : memResetBrk w.state = some ((), { w.state with memBrk := w.memStartBrk }) := rfl
    simp only [badImpl]
    exact World.perform_of_run hrun
  have hinit : ∀ v : World Statics, badImpl.init v = (0, v) := fun _ => rfl
  have hstart : Checker.start badImpl trace w =
      ⟨[], trace.blocks, trace.blockSizes, { w with memBrk := w.memStartBrk }⟩ := by
    rw [Checker.start, hreset, hinit]
  -- the driver resets the break, so the first answer is the start of the heap
  have hbreak : BreakAt w.memStartBrk w.memStartBrk (Checker.start badImpl trace w).world := by
    have hspan := hw.span
    rw [hw.max] at hspan
    rw [hstart]
    exact ⟨rfl, rfl, hw.max, Nat.pos_of_ne_zero hw.start, hal, hspan⟩
  obtain ⟨hok, hno⟩ := bad_run debug hbreak (by rw [hstart]) hN hops
  rw [evalMmValid, hinit, if_neg (lt_irrefl 0)]
  split_ifs with hcond
  · obtain ⟨c', hrun⟩ := hok hcond
    rw [hrun]
  · rw [hno hcond]

/-- Two small blocks are one too many. -/
theorem bad_rejected_blank : evalMmValid badImpl true
    ⟨[⟨.alloc, 0, 100⟩, ⟨.free, 0, 0⟩, ⟨.alloc, 1, 24⟩], fun _ => NULL, fun _ => 0⟩
    (State.blank 16).world = .aborted := by
  rw [bad_rejected (N := LARGEST_SIZE)
    (ready_blank 16 (by decide) (by decide)).toSetAside (by decide) (by decide)
    (by decide), if_neg (by decide)]
  rfl

end Bad

end Dlmalloc
