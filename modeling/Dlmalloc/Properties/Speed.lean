import Dlmalloc.Properties.Driver

/-!
# Runs that are timed

`eval_mm_speed` writes into the blocks of a trace. As long as a write stays inside its block it does
not matter to the allocator: the same run without the writes gets the same blocks, and it leaves the
same chunks behind (`speed_ignores_writes`).
-/

namespace Dlmalloc

open Heap

/-! ### Writes -/

/-- The sizes of the blocks that the indices hold after a request; 0 for an index that has none. -/
def TraceOp.sizesAfter (op : TraceOp) (sizes : ℕ → ℕ) : ℕ → ℕ :=
  match op.type with
  | .alloc | .realloc => Function.update sizes op.index op.size
  | .free => Function.update sizes op.index 0
  | .write => sizes

/-- Every write of a trace is to a block that is as large. -/
def WritesFit : List TraceOp → (ℕ → ℕ) → Prop
  | [], _ => True
  | op :: ops, sizes =>
    (op.type = .write → op.size ≤ sizes op.index) ∧ WritesFit ops (op.sizesAfter sizes)

instance instDecidableWritesFit : (ops : List TraceOp) → (sizes : ℕ → ℕ) →
    Decidable (WritesFit ops sizes)
  | [], _ => inferInstanceAs (Decidable True)
  | op :: ops, sizes =>
    have : Decidable (WritesFit ops (op.sizesAfter sizes)) := instDecidableWritesFit ops _
    inferInstanceAs (Decidable (_ ∧ _))

/-- The requests that ask something of the allocator. -/
def withoutWrites (ops : List TraceOp) : List TraceOp := ops.filter (·.type ≠ .write)

section Writes

variable {p size x : ℕ} {mem : ByteMem} {l : Ledger} {op : TraceOp} {ops : List TraceOp}
  {sizes : ℕ → ℕ}

theorem foldl_memOp {offsets : List ℕ} (h : ∀ offset ∈ offsets, x ≠ p + offset) :
    offsets.foldl (fun mem offset => memOp (p + offset - 1) (p + offset) mem) mem x = mem x := by
  induction offsets generalizing mem with
  | nil => rfl
  | cons offset offsets ih =>
    rw [List.foldl_cons, ih fun k hk => h k (List.mem_cons_of_mem _ hk), memOp]
    exact Function.update_of_ne (h offset List.mem_cons_self) _ _

/-- The bytes outside a block are as before. -/
theorem memOps_of_notMem (hx : x < p ∨ p + size ≤ x) : memOps p size mem x = mem x := by
  refine foldl_memOp fun offset hoffset => ?_
  rw [List.mem_range'_1] at hoffset
  omega

/-- The sizes are those of the account. -/
theorem sizesAfter_eq (h : ∀ i, sizes i = (l.handle i).elim 0 Payload.size) (p : Addr) (i : ℕ) :
    op.sizesAfter sizes i = ((l.after op p).handle i).elim 0 Payload.size := by
  unfold TraceOp.sizesAfter Ledger.after
  cases op.type with
  | alloc | realloc | free =>
    by_cases hi : i = op.index
    · simp [hi]
    · simp [hi, h i]
  | write => exact h i

theorem withoutWrites_cons_write (ht : op.type = .write) :
    withoutWrites (op :: ops) = withoutWrites ops := by
  simp [withoutWrites, ht]

theorem withoutWrites_cons (ht : op.type ≠ .write) :
    withoutWrites (op :: ops) = op :: withoutWrites ops := by
  simp [withoutWrites, ht]

end Writes

/-! ### Two runs in step -/

section InStep

variable {w : World Statics} {l : Ledger} {σ : Session} {op : TraceOp} {ops : List TraceOp}
  {held : Finset ℕ} {sizes : ℕ → ℕ} {r r' : Replay Statics} {trace : Trace}

/-- Two runs of the driver have the same blocks, in heaps that differ in what the blocks hold. -/
structure InStep (r r' : Replay Statics) (l : Ledger) (σ : Session) : Prop where
  left : ∃ y, Backed r.blocks r.world l y σ
  right : ∃ y, Backed r.blocks r'.world l y σ
  blocks : r'.blocks = r.blocks

/-- A request other than a write. -/
theorem InStep.step (h : InStep r r' l σ) (hv : op.Valid l) (hle : op.Asks → op.size ≤ LARGEST_SIZE)
    (ht : op.type ≠ .write) :
    (speedOp myImpl op r = none ∧ speedOp myImpl op r' = none ∧
        σ.heap.limit < σ.heap.brk + op.charge) ∨
      ∃ p s s' σ', speedOp myImpl op r = some s ∧ speedOp myImpl op r' = some s' ∧
        InStep s s' (l.after op p) σ' ∧ Grows op.charge σ.heap σ'.heap := by
  obtain ⟨y, hy⟩ := h.left
  obtain ⟨z, hz⟩ := h.right
  by_cases hasks : op.Asks
  -- both runs make the same call of the session
  · rw [speedOp, replayOp_of_asks hasks, replayOp_of_asks hasks, h.blocks]
    rcases hy.serve_both hz hv hasks (hle hasks) with ⟨hnull, hnull', hroom⟩ |
      ⟨p, y', z', σ', hans, hans', hp0, hg, hg'⟩
    · exact .inl ⟨if_pos hnull, if_pos hnull', hroom⟩
    · rw [hans, hans', if_neg hp0, if_neg hp0]
      exact .inr ⟨p, _, _, σ', rfl, rfl,
        ⟨⟨y', hy.after hg.toGranted hasks (hv.1 hasks).1 (hle hasks) rfl hg.tracks rfl⟩,
          ⟨z', hz.after hg'.toGranted hasks (hv.1 hasks).1 (hle hasks) rfl hg'.tracks rfl⟩, rfl⟩,
        hg.grows⟩
  · have hfree : op.type = .free := by
      cases htype : op.type with
      | alloc => exact absurd (.inl htype) hasks
      | realloc => exact absurd (.inr htype) hasks
      | free => rfl
      | write => exact absurd htype ht
    obtain ⟨b, hb⟩ := Option.ne_none_iff_exists'.mp (hv.2 (.inr hfree))
    -- the block has one place for both runs, since they follow the same session
    obtain ⟨i, hi⟩ := hy.exists_block (hy.handles _ b hb).1
    rw [hy.tracks.follows.live] at hi
    obtain ⟨y', hworld, hy', -⟩ := hy.free_at hfree hb hi
    obtain ⟨z', hworld', hz', -⟩ := hz.free_at hfree hb hi
    have hgrows := hy.tracks.good.call_grows (c := .free i)
    refine .inr ⟨NULL, ⟨r.blocks, y'.state.world⟩, ⟨r.blocks, z'.state.world⟩, _, ?_, ?_,
      ⟨⟨y', hy'⟩, ⟨z', hz'⟩, rfl⟩, hgrows.mono (Nat.zero_le _)⟩
    · simp only [speedOp, replayOp, hfree, hworld]
    · simp only [speedOp, replayOp, hfree, h.blocks, hworld']

/-- A write that fits, in the first of the runs. -/
theorem InStep.write (h : InStep r r' l σ) (ht : op.type = .write)
    (hfit : op.size ≤ (l.handle op.index).elim 0 Payload.size) :
    ∃ s, speedOp myImpl op r = some s ∧ InStep s r' l σ := by
  obtain ⟨y, hy⟩ := h.left
  have hrun : speedOp myImpl op r = some { r with world :=
      { r.world with mem := memOps (r.blocks op.index) op.size r.world.mem } } := by
    rw [speedOp, replayOp, ht]
  refine ⟨_, hrun, ?_, h.right, h.blocks⟩
  cases hb : l.handle op.index with
  | none =>
    -- nothing is written
    rw [hb] at hfit
    have hsize : op.size = 0 := Nat.le_zero.mp hfit
    rw [hsize]
    exact ⟨y, hy⟩
  | some b =>
    rw [hb] at hfit
    have hsize : op.size ≤ b.size := hfit
    obtain ⟨hblive, hbptr⟩ := hy.handles _ b hb
    obtain ⟨i, hi⟩ := hy.exists_block hblive
    -- the block has whole words, and the write may end anywhere in the last one
    have hout : ∀ x, x < b.ptr ∨ b.ptr + (b.size + 7) / 8 * 8 ≤ x →
        memOps b.ptr op.size y.state.mem x = y.state.mem x :=
      fun x hx => memOps_of_notMem (by omega)
    have hstate : ({ r.world with mem := memOps b.ptr op.size r.world.mem } :
        World Statics).state = { y.state with mem := memOps b.ptr op.size y.state.mem } := by
      rw [← hy.state]
      rfl
    rw [hbptr]
    exact ⟨_, hy.tracks.overwrite hi hout, hstate, hy.live, hy.sizes, hy.handles, hy.distinct⟩

/-- The requests of a valid trace, one after the other. -/
theorem InStep.run (h : InStep r r' l σ) (hheld : ∀ i, i ∈ held ↔ l.handle i ≠ none)
    (hsizes : ∀ i, sizes i = (l.handle i).elim 0 Payload.size)
    (hops : ValidOps LARGEST_SIZE ops held) (hfit : WritesFit ops sizes) :
    (∃ s s' l' σ', speedOps myImpl ops r = .ok s ∧
        speedOps myImpl (withoutWrites ops) r' = .ok s' ∧ InStep s s' l' σ') ∨
      ∃ e, speedOps myImpl ops r = .error e ∧ speedOps myImpl (withoutWrites ops) r' = .error e ∧
        σ.heap.limit < σ.heap.brk + traceCharges ops := by
  induction ops generalizing r r' l σ held sizes with
  | nil => exact .inl ⟨r, r', l, σ, rfl, rfl, h⟩
  | cons op ops ih =>
    obtain ⟨hv, hle⟩ := hops.head hheld
    rw [traceCharges_cons, speedOps]
    by_cases ht : op.type = .write
    -- only the first run takes this step
    · obtain ⟨s, hrun, hnext⟩ := h.write ht (hsizes op.index ▸ hfit.1 ht)
      rw [hrun, withoutWrites_cons_write ht]
      have hafter : l.after op NULL = l := by rw [Ledger.after, ht]
      have hheld' : ∀ i, i ∈ op.holds held ↔ (l.after op NULL).handle i ≠ none :=
        holds_iff hheld NULL
      have hsizes' : ∀ i, op.sizesAfter sizes i =
          ((l.after op NULL).handle i).elim 0 Payload.size := sizesAfter_eq hsizes NULL
      rw [hafter] at hheld' hsizes'
      rcases ih hnext hheld' hsizes' hops.2 hfit.2 with hok | ⟨e, he, he', hfull⟩
      · exact .inl hok
      · exact .inr ⟨e, he, he', by omega⟩
    · rw [withoutWrites_cons ht, speedOps]
      rcases h.step hv hle ht with ⟨hstop, hstop', hfull⟩ |
        ⟨p, s, s', σ', hrun, hrun', hnext, hgrows⟩
      · rw [hstop, hstop']
        exact .inr ⟨_, rfl, rfl, by omega⟩
      · have hmost := hgrows.most
        have hlimit := hgrows.limit
        rw [hrun, hrun']
        rcases ih hnext (holds_iff hheld p) (sizesAfter_eq hsizes p) hops.2 hfit.2 with
          hok | ⟨e, he, he', hfull⟩
        · exact .inl hok
        · exact .inr ⟨e, he, he', by omega⟩

/-- **Timed runs.** Where nothing was allocated before, `eval_mm_speed` on a valid trace whose
writes fit their blocks ends with the blocks and the chunks of the same run without the writes. If
it ends with a message instead, then without the writes it ends with the same one, and the sizes
asked for sum up to more than the heap. -/
theorem speed_ignores_writes (hw : w.Ready) (htrace : ValidOps LARGEST_SIZE trace.ops ∅)
    (hfit : WritesFit trace.ops fun _ => 0) :
    (∃ r r', evalMmSpeed myImpl trace w = .ok r ∧
        evalMmSpeed myImpl { trace with ops := withoutWrites trace.ops } w = .ok r' ∧
        r.blocks = r'.blocks ∧ r.world.state.heapChunks = r'.world.state.heapChunks) ∨
      ∃ e, evalMmSpeed myImpl trace w = .error e ∧
        evalMmSpeed myImpl { trace with ops := withoutWrites trace.ops } w = .error e ∧
        w.memStartBrk + MAX_HEAP <
          ALIGN w.memStartBrk + INITIAL_CHUNK_SIZE + 16 + traceCharges trace.ops := by
  obtain ⟨w', y, hinit, hbacked, -⟩ := hw.init_backed trace.blocks
  have hreset : myImpl.init w.memResetBrk = (0, w') := hinit
  have hstart : ∀ ops, evalMmSpeed myImpl { trace with ops := ops } w =
      speedOps myImpl ops ⟨trace.blocks, w'⟩ := fun ops => by
    rw [evalMmSpeed, hreset]
    rfl
  rw [show trace = { trace with ops := trace.ops } from rfl, hstart, hstart]
  -- the two runs start in step, and no write gets them out of it
  have hstep : InStep ⟨trace.blocks, w'⟩ ⟨trace.blocks, w'⟩ .empty
      (Session.initial w.memStartBrk) := ⟨⟨y, hbacked⟩, ⟨y, hbacked⟩, rfl⟩
  refine (hstep.run held_empty (fun _ => rfl) htrace hfit).imp_left ?_
  rintro ⟨s, s', l', σ', hrun, hrun', ⟨z, hz⟩, ⟨z', hz'⟩, hblocks⟩
  refine ⟨s, s', hrun, hrun', hblocks.symm, ?_⟩
  have hs := hz.tracks.good.inv.shape
  rw [hz.state, hz'.state, hz.tracks.follows.models.heapChunks_eq hs,
    hz'.tracks.follows.models.heapChunks_eq hs]

theorem speed_ignores_writes_blank : ∃ r r',
    evalMmSpeed myImpl ⟨[⟨.alloc, 0, 100⟩, ⟨.write, 0, 60⟩, ⟨.alloc, 1, 24⟩, ⟨.free, 0, 0⟩],
      fun _ => NULL, fun _ => 0⟩ (State.blank 16).world = .ok r ∧
    evalMmSpeed myImpl ⟨[⟨.alloc, 0, 100⟩, ⟨.alloc, 1, 24⟩, ⟨.free, 0, 0⟩], fun _ => NULL,
      fun _ => 0⟩ (State.blank 16).world = .ok r' ∧
    r.blocks = r'.blocks ∧ r.world.state.heapChunks = r'.world.state.heapChunks := by
  refine (@speed_ignores_writes _
    ⟨[⟨.alloc, 0, 100⟩, ⟨.write, 0, 60⟩, ⟨.alloc, 1, 24⟩, ⟨.free, 0, 0⟩], fun _ => NULL, fun _ => 0⟩
    (ready_blank 16 (by decide) (by decide)) (by decide) (by decide)).resolve_right ?_
  rintro ⟨e, -, -, h⟩
  exact absurd h (by decide)

end InStep

end Dlmalloc
