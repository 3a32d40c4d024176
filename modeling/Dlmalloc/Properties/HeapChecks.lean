import Dlmalloc.Properties.Checker
import Dlmalloc.Properties.Driver

/-!
# Traces with heap checks

`eval_mm_check` has the allocator check its heap after every request of a trace. Built without
assertions, the checks walk through the whole heap, bin by bin, and never object: all that can go
wrong is that the heap is full (`check_accepts`).
-/

namespace Dlmalloc

open Heap

section Step

variable {blocks : ℕ → Addr} {w : World Statics} {l : Ledger} {y : System}
  {σ : Session} {op : TraceOp} {ops : List TraceOp} {held : Finset ℕ} {r : Replay Statics}
  {trace : Trace}

/-- What the driver knows between two requests. The checker takes the first chunk to be where it is
if the heap starts at a multiple of 4. -/
structure Checked (r : Replay Statics) (l : Ledger) (y : System) (σ : Session) : Prop
    extends Backed r.blocks r.world l y σ where
  start : 4 ∣ σ.heap.start

/-- `my_check` accepts the heap. -/
theorem Checked.check_eq (h : Checked r l y σ) : myImplCheck r.world = pure 0 := by
  have hm := h.tracks.follows.models
  have h4 : 4 ∣ y.state.memStartBrk := hm.memStartBrk ▸ h.start
  have hcheck : y.state.myCheck false = pure 0 := (hm.myCheck_eq h.tracks.good.inv h4).1
  rw [myImplCheck, h.state, hcheck]
  rfl

/-- One request: it goes through, or the heap is full. -/
theorem Checked.step (h : Checked r l y σ) (hv : op.Valid l)
    (hle : op.Asks → op.size ≤ LARGEST_SIZE) :
    (checkOp myImpl op r = none ∧ σ.heap.limit < σ.heap.brk + op.charge) ∨
      ∃ p r' y' σ', checkOp myImpl op r = some r' ∧ Checked r' (l.after op p) y' σ' ∧
        Grows op.charge σ.heap σ'.heap := by
  by_cases hasks : op.Asks
  · rw [checkOp, replayOp_of_asks hasks]
    -- asked for memory: refused, or a block is granted
    rcases h.serve hv hasks (hle hasks) with ⟨hnull, hroom⟩ | ⟨p, y', σ', hans, hp0, hg⟩
    · exact .inl ⟨if_pos hnull, hroom⟩
    · rw [hans, if_neg hp0]
      have hbacked : Backed (Function.update r.blocks op.index p) y'.state.world (l.after op p)
          y' σ' := h.after hg.toGranted hasks (hv.1 hasks).1 (hle hasks) rfl hg.tracks rfl
      refine .inr ⟨p, _, y', σ', rfl, ⟨hbacked, ?_⟩, hg.grows⟩
      rw [hg.grows.start]
      exact h.start
  · cases ht : op.type with
    | alloc => exact absurd (.inl ht) hasks
    | realloc => exact absurd (.inr ht) hasks
    -- the block goes, and the break stays
    | free =>
      obtain ⟨i, y', hworld, hbacked, -⟩ := h.toBacked.free hv ht
      have hrun : checkOp myImpl op r = some ⟨r.blocks, y'.state.world⟩ := by
        simp only [checkOp, replayOp, ht, hworld]
      have hgrows := h.tracks.good.call_grows (c := .free i)
      refine .inr ⟨NULL, _, y', _, hrun, ⟨hbacked, ?_⟩, hgrows.mono (Nat.zero_le _)⟩
      rw [hgrows.start]
      exact h.start
    -- the checker skips it
    | write =>
      refine .inr ⟨NULL, r, y, σ, ?_, ?_, .refl _⟩
      · simp only [checkOp, replayOp, ht]
      · unfold Ledger.after
        rwa [ht]

/-- The requests of a valid trace, one after the other. -/
theorem Checked.run (h : Checked r l y σ) (hheld : ∀ i, i ∈ held ↔ l.handle i ≠ none)
    (hops : ValidOps LARGEST_SIZE ops held) :
    checkOps myImpl myImplCheck ops r = pure 1 ∨
      checkOps myImpl myImplCheck ops r = pure 0 ∧
        σ.heap.limit < σ.heap.brk + traceCharges ops := by
  induction ops generalizing r l y σ held with
  | nil => exact .inl rfl
  | cons op ops ih =>
    obtain ⟨hv, hle⟩ := hops.head hheld
    rw [traceCharges_cons, checkOps]
    rcases h.step hv hle with ⟨hstop, hfull⟩ | ⟨p, r', y', σ', hrun, hnext, hgrows⟩
    · exact .inr ⟨by rw [hstop], by omega⟩
    · have hmost := hgrows.most
      have hlimit := hgrows.limit
      rw [hrun]
      simp only [hnext.check_eq, pure_bind]
      rcases ih hnext (holds_iff hheld p) hops.2 with hok | ⟨hstop, hfull⟩
      · exact .inl hok
      · exact .inr ⟨hstop, by omega⟩

/-- **The heap passes the driver's checks.** Without assertions, and where nothing was allocated
before, `eval_mm_check` returns 1 on every valid trace, or it returns 0 because the sizes asked for
sum up to more than the heap. -/
theorem check_accepts (hw : w.Ready) (h4 : 4 ∣ w.memStartBrk)
    (htrace : ValidOps LARGEST_SIZE trace.ops ∅) :
    evalMmCheck myImpl myImplCheck trace w = pure 1 ∨
      evalMmCheck myImpl myImplCheck trace w = pure 0 ∧
        w.memStartBrk + MAX_HEAP <
          ALIGN w.memStartBrk + INITIAL_CHUNK_SIZE + 16 + traceCharges trace.ops := by
  obtain ⟨w', y, hinit, hbacked, -⟩ := hw.init_backed trace.blocks
  have hworld : (myImpl.init w.memResetBrk).2 = w' := congrArg Prod.snd hinit
  have hchecked : Checked ⟨trace.blocks, w'⟩ .empty y (Session.initial w.memStartBrk) :=
    ⟨hbacked, h4⟩
  rw [evalMmCheck, hworld]
  exact hchecked.run held_empty htrace

/-- A trace with a huge block, a reallocation that cuts off a chunk, and frees. -/
theorem check_accepts_mixed : evalMmCheck myImpl myImplCheck
    ⟨[⟨.alloc, 0, 24⟩, ⟨.alloc, 1, 17000000⟩, ⟨.alloc, 2, 3000⟩, ⟨.alloc, 3, 24⟩, ⟨.free, 1, 0⟩,
      ⟨.realloc, 2, 100⟩, ⟨.free, 3, 0⟩, ⟨.free, 0, 0⟩], fun _ => NULL, fun _ => 0⟩
      (State.blank 16).world = pure 1 := by
  refine (check_accepts (ready_blank 16 (by decide) (by decide)) (by decide)
    (by decide)).resolve_right fun h => ?_
  exact absurd h.2 (by decide)

end Step

end Dlmalloc
