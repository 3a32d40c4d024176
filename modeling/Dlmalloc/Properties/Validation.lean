import Dlmalloc.Properties.Driver

/-!
# The allocator passes its validator

The validator fills every block it gets with words that tell the block and the place in it, and
looks for them after a reallocation. On a valid trace nothing of what it looks at is ever wrong
(`validator_accepts`): the blocks are good ones, and their contents are those it has written
(`Serves.filled`).
-/

namespace Dlmalloc

open Heap

/-! ### Filling a block -/

section Fill

variable {mem : ByteMem} {p size k x : ℕ}

theorem words_eq (h : p + size < 2 ^ 64) :
    words p size = (List.range ((size + 7) / 8)).map (p + 8 * ·) := by
  rw [words, add64_of_lt h, Nat.add_sub_cancel_left]

/-- The first `n` words of a block that is filled. -/
theorem foldl_words (mem : ByteMem) (n : ℕ) (h : p + 8 * n < 2 ^ 64 + 8) :
    (∀ x, x < p ∨ p + 8 * n ≤ x →
      ((List.range n).map (p + 8 * ·)).foldl
        (fun mem writer => mem.writeLE writer 8 (sub64 writer p ^^^ p) true) mem x = mem x) ∧
    ∀ k < n, ByteMem.readLE (((List.range n).map (p + 8 * ·)).foldl
      (fun mem writer => mem.writeLE writer 8 (sub64 writer p ^^^ p) true) mem) (p + 8 * k) 8 =
        (8 * k) ^^^ p := by
  induction n with
  | zero => exact ⟨fun _ _ => rfl, fun k hk => absurd hk (Nat.not_lt_zero k)⟩
  | succ n ih =>
    obtain ⟨hout, hin⟩ := ih (by omega)
    have hword : sub64 (p + 8 * n) p = 8 * n := by
      rw [sub64_of_le (by omega) (by omega), Nat.add_sub_cancel_left]
    have hlt : 8 * n ^^^ p < 256 ^ 8 := Nat.xor_lt_two_pow (n := 64) (by omega) (by omega)
    simp only [List.range_succ, List.map_append, List.map_cons, List.map_nil, List.foldl_append,
      List.foldl_cons, List.foldl_nil, hword]
    refine ⟨fun x hx => ?_, fun k hk => ?_⟩
    · rw [ByteMem.writeLE_of_notMem (by omega), hout x (by omega)]
    · rcases Nat.lt_succ_iff_lt_or_eq.mp hk with hk | rfl
      · rw [ByteMem.readLE_writeLE_disjoint (by omega), hin k hk]
      · rw [ByteMem.readLE_writeLE_same, Nat.mod_eq_of_lt hlt]

/-- A filled block: the bytes beyond its last word are as before, and every word holds its place in
the block and the block. -/
theorem fill_spec (mem : ByteMem) (h : p + size < 2 ^ 64) :
    (∀ x, x < p ∨ p + (size + 7) / 8 * 8 ≤ x → fill p size mem x = mem x) ∧
    ∀ k, 8 * k < size → (fill p size mem).readLE (p + 8 * k) 8 = (8 * k) ^^^ p := by
  obtain ⟨hout, hin⟩ := foldl_words (p := p) mem ((size + 7) / 8) (by omega)
  unfold fill
  rw [words_eq h]
  exact ⟨fun x hx => hout x (by omega), fun k hk => hin k (by omega)⟩

theorem checkWords_of {debug : Bool} {newp oldp : ℕ} {l : List ℕ}
    (h : ∀ writer ∈ l, mem.readLE writer 8 = sub64 writer newp ^^^ oldp) :
    checkWords debug mem newp oldp l = .ok () := by
  induction l with
  | nil => rfl
  | cons writer l ih =>
    have hw := h writer List.mem_cons_self
    rw [checkWords, assertion_bind hw, if_neg (not_not.mpr hw)]
    exact ih fun x hx => h x (List.mem_cons_of_mem _ hx)

end Fill

/-! ### The invariant -/

section Serves

variable {c : Checker Statics} {l : Ledger} {y y' : System} {σ σ' : Session}
  {op : TraceOp} {ops : List TraceOp} {trace : Trace} {w : World Statics} {held : Finset ℕ}
  {b : Payload} {i p : ℕ}

/-- The system with a block filled. -/
def System.fill (y : System) (p : Addr) (size : ℕ) : System :=
  { y with state := { y.state with mem := Dlmalloc.fill p size y.state.mem } }

/-- Filling a live block of whole words changes nothing but its contents. -/
theorem Tracks.fill {size : ℕ} (ht : Tracks False EXTENSION_SIZE y σ)
    (hb : y.live[i]? = some ⟨p, (size + 7) / 8 * 8⟩) (hp : p + size < 2 ^ 64) :
    Tracks False EXTENSION_SIZE (y.fill p size) σ := by
  obtain ⟨hout, -⟩ := fill_spec y.state.mem hp
  exact ht.overwrite hb hout

/-- The validator's variables agree with the account, and each block with an index holds what the
validator filled it with. -/
structure Serves (c : Checker Statics) (l : Ledger) (y : System) (σ : Session) : Prop extends
    Backed c.blocks c.world l y σ where
  tracked : Tracked c l
  blockSizes : ∀ i b, l.handle i = some b → c.blockSizes i = b.size
  filled : ∀ i b, l.handle i = some b → ∀ k, 8 * k < b.size →
    y.state.mem.readLE (b.ptr + 8 * k) 8 = (8 * k) ^^^ b.ptr

/-- A word of a block whose bytes are kept. -/
theorem readLE_of_keeps {mem mem' : ByteMem} {k q : ℕ} (hk : 8 * k < b.size)
    (h : ∀ m < b.block.size, mem' (q + m) = mem (b.ptr + m)) :
    mem'.readLE (q + 8 * k) 8 = mem.readLE (b.ptr + 8 * k) 8 := by
  refine ByteMem.readLE_eq fun m hm => ?_
  have hbyte := h (8 * k + m) (show 8 * k + m < (b.size + 7) / 8 * 8 by omega)
  rw [Nat.add_assoc, Nat.add_assoc]
  exact hbyte

/-- The validator takes a block that the allocator grants. -/
theorem Serves.grant (h : Serves c l y σ) (hv : op.Valid l) (hasks : op.Asks)
    (hle : op.size ≤ LARGEST_SIZE) (hans : op.answer myImpl c = (p, y'.state.world))
    (hp0 : p ≠ NULL) (hg : Granted op l y y' σ' p) : ∃ c', evalOp myImpl false op c = .ok c' ∧
      Serves c' (l.after op p) (y'.fill p op.size) σ' := by
  obtain ⟨hpos, hint⟩ := hv.1 hasks
  have hres : op.result myImpl c = ⟨p, op.size⟩ := by rw [TraceOp.result, hans]
  obtain ⟨j, hj⟩ := hg.exists_block
  obtain ⟨hal, hlo, hhi⟩ := hg.tracks.live_inside hj
  have hhi' : p + (op.size + 7) / 8 * 8 ≤ memHeapHi y'.state + 1 := hhi
  have hlast := hg.tracks.live_lt hj
  have hroom : p + op.size < 2 ^ 64 := by omega
  have hfits : (op.result myImpl c).Fits (op.answer myImpl c).2 (l.others op) := by
    rw [hres, hans]
    refine ⟨hal, ⟨hlo, ?_⟩, fun b hb => ?_⟩
    · show p + op.size ≤ memHeapHi y'.state + 1
      omega
    · have := hg.apart hb
      show p + op.size ≤ b.ptr ∨ b.ptr + b.size ≤ p
      omega
  have hslip : ¬ op.Slips myImpl c l := fun hs => by
    have h1 := hs.2.wraps
    rw [hres] at h1
    have h2 : 2 ^ 64 < p + op.size := h1
    omega
  -- the contents of a block that was moved are those it was filled with
  have hcontents : op.contents myImpl false c = .ok () := by
    unfold TraceOp.contents
    split_ifs with ht
    · obtain ⟨b, hb⟩ := Option.ne_none_iff_exists'.mp (hv.2 (.inl ht))
      have hbptr := (h.handles _ b hb).2
      rw [hans, h.blockSizes _ b hb, hbptr]
      refine checkWords_of fun writer hwriter => ?_
      rw [words_eq (by omega)] at hwriter
      obtain ⟨k, hk, rfl⟩ := List.mem_map.mp hwriter
      have hk' := List.mem_range.mp hk
      have hplace : sub64 (p + 8 * k) p = 8 * k := by
        rw [sub64_of_le (by omega) (by omega), Nat.add_sub_cancel_left]
      have hword : y'.state.mem.readLE (p + 8 * k) 8 =
          y.state.mem.readLE (b.ptr + 8 * k) 8 := by
        refine ByteMem.readLE_eq fun m hm => ?_
        have hmoved := hg.moved ht b hb (8 * k + m)
          (show 8 * k + m < (b.size + 7) / 8 * 8 by omega) (by omega)
        rw [Nat.add_assoc, Nat.add_assoc]
        exact hmoved
      rw [hplace]
      exact hword.trans (h.filled _ b hb k (by omega))
    · rfl
  have hacc := (h.tracked.accepted_iff hv hasks).mpr (.inl hfits)
  have hadd : addRange false (op.answer myImpl c).2 (op.rest c) (op.answer myImpl c).1 op.size =
      _ := addRange_of_accepted hpos rfl hacc
  have hnull : (op.answer myImpl c).1 ≠ NULL := by rwa [hans]
  have hrun : evalOp myImpl false op c = _ := evalOp_of_asks hasks
  rw [if_neg hnull, hadd, ok_bind, if_neg one_ne_zero, hcontents, ok_bind] at hrun
  have htracked := h.tracked.step hv hslip hrun
  rw [hans] at hrun htracked
  obtain ⟨hout, hin⟩ := fill_spec y'.state.mem hroom
  refine ⟨_, hrun, h.after hg hasks hpos hle rfl (hg.tracks.fill hj hroom) rfl, htracked,
    fun i b hb => ?_, fun i b hb => ?_⟩
  all_goals
    rw [Ledger.after_of_asks hasks] at hb
    by_cases hi : i = op.index
  · subst hi
    have hb' : (⟨p, op.size⟩ : Payload) = b := by simpa using hb
    rw [← hb']
    exact Function.update_self _ _ _
  · have hb' : l.handle i = some b := by simpa [hi] using hb
    exact (Function.update_of_ne hi _ _).trans (h.blockSizes i b hb')
  · subst hi
    have hb' : (⟨p, op.size⟩ : Payload) = b := by simpa using hb
    rw [← hb']
    exact hin
  · have hb' : l.handle i = some b := by simpa [hi] using hb
    have hothers := h.mem_others hb' hi
    have hsep := hg.apart hothers
    intro k hk
    -- neither the call nor the filling touches the block of another index
    refine Eq.trans (readLE_of_keeps hk fun m hm => ?_) (h.filled i b hb' k hk)
    have hm' : m < (b.size + 7) / 8 * 8 := hm
    exact (hout (b.ptr + m) (by omega)).trans (hg.keeps b hothers m hm)

/-- A request to free a block. -/
theorem Serves.free (h : Serves c l y σ) (hv : op.Valid l) (ht : op.type = .free) :
    ∃ i c' y', evalOp myImpl false op c = .ok c' ∧
      Serves c' (l.after op NULL) y' (σ.call EXTENSION_SIZE (.free i)).2 := by
  obtain ⟨i, y', hworld, hbacked, hkeeps⟩ := h.toBacked.free hv ht
  have hrun : evalOp myImpl false op c = .ok { c with
      ranges := removeRange (c.blocks op.index) c.ranges, world := y'.state.world } := by
    simp only [evalOp, ht, hworld]
    rfl
  -- the indices other than that of the request keep their payloads
  have hkept : ∀ j b, (l.after op NULL).handle j = some b →
      l.handle j = some b ∧ j ≠ op.index := fun j b hj => by
    unfold Ledger.after at hj
    simp only [ht] at hj
    by_cases hji : j = op.index
    · subst hji
      rw [Function.update_self] at hj
      cases hj
    · exact ⟨by rwa [Function.update_of_ne hji] at hj, hji⟩
  refine ⟨i, _, y', hrun, hbacked, h.tracked.step_free hv ht hrun NULL,
    fun j b hj => h.blockSizes j b (hkept j b hj).1, fun j b hj k hk => ?_⟩
  obtain ⟨hj', hji⟩ := hkept j b hj
  exact (readLE_of_keeps hk (hkeeps b (h.mem_others hj' hji))).trans (h.filled j b hj' k hk)

/-! ### Runs -/

/-- One request of a valid trace: the validator goes on, or it stops because the allocator fails at
the end of the heap. -/
theorem Serves.step (h : Serves c l y σ) (hv : op.Valid l)
    (hle : op.Asks → op.size ≤ LARGEST_SIZE) :
    (evalOp myImpl false op c = .error (.returned 0) ∧
        σ.heap.limit < σ.heap.brk + op.charge) ∨
      ∃ p c' y' σ', evalOp myImpl false op c = .ok c' ∧ Serves c' (l.after op p) y' σ' ∧
        Grows op.charge σ.heap σ'.heap := by
  by_cases hasks : op.Asks
  · have hanswer : op.answer myImpl c = op.request myImpl c.blocks c.world := rfl
    -- asked for memory: refused, or a block is granted
    rcases h.request hv hasks (hle hasks) with ⟨hnull, hfull⟩ | ⟨p, y', σ', hans, hp0, hg, hgrows⟩
    · exact .inl ⟨by rw [evalOp_of_asks hasks, hanswer, if_pos hnull], hfull⟩
    · have hgrant : ∃ c', evalOp myImpl false op c = .ok c' ∧ _ :=
        h.grant hv hasks (hle hasks) (hanswer.trans hans) hp0 hg
      obtain ⟨c', hrun, hs⟩ := hgrant
      exact .inr ⟨p, c', _, σ', hrun, hs, hgrows⟩
  · cases ht : op.type with
    | alloc => exact absurd (.inl ht) hasks
    | realloc => exact absurd (.inr ht) hasks
    | free =>
      have hfree : ∃ i c' y', evalOp myImpl false op c = .ok c' ∧ _ := h.free hv ht
      obtain ⟨i, c', y', hrun, hs⟩ := hfree
      exact .inr ⟨NULL, c', y', _, hrun, hs,
        (h.tracks.good.call_grows (c := .free i)).mono (Nat.zero_le _)⟩
    -- the validator skips it
    | write =>
      refine .inr ⟨NULL, c, y, σ, ?_, ?_, .refl _⟩
      · simp only [evalOp, ht]
        rfl
      · unfold Ledger.after
        rwa [ht]

/-- The requests of a valid trace, one after the other. -/
theorem Serves.run (h : Serves c l y σ) (hheld : ∀ i, i ∈ held ↔ l.handle i ≠ none)
    (hops : ValidOps LARGEST_SIZE ops held) :
    (∃ c', evalOps myImpl false ops c = .ok c') ∨
      evalOps myImpl false ops c = .error (.returned 0) ∧
        σ.heap.limit < σ.heap.brk + traceCharges ops := by
  induction ops generalizing c l y σ held with
  | nil => exact .inl ⟨c, rfl⟩
  | cons op ops ih =>
    obtain ⟨hv, hle⟩ := hops.head hheld
    have hstep : (evalOp myImpl false op c = .error (.returned 0) ∧ _) ∨ _ := h.step hv hle
    rw [traceCharges_cons, evalOps]
    rcases hstep with ⟨hstop, hfull⟩ | ⟨p, c', y', σ', hrun, hs, hgrows⟩
    · exact .inr ⟨by rw [hstop]; rfl, by omega⟩
    · have hbrk := hgrows.most
      have hlimit := hgrows.limit
      rw [hrun, ok_bind]
      rcases ih hs (holds_iff hheld p) hops.2 with hok | ⟨hstop, hfull⟩
      · exact .inl hok
      · exact .inr ⟨hstop, by omega⟩

/-- **The allocator passes its validator.** Without assertions, and where nothing was allocated
before, `eval_mm_valid` returns 1 on every valid trace, or it returns 0 because the sizes asked for,
each rounded and with `EXTENSION_SIZE`, sum up to more than the heap. -/
theorem validator_accepts (hw : w.Ready) (htrace : ValidOps LARGEST_SIZE trace.ops ∅) :
    evalMmValid myImpl false trace w = .returned 1 ∨
      evalMmValid myImpl false trace w = .returned 0 ∧
        w.memStartBrk + MAX_HEAP <
          ALIGN w.memStartBrk + INITIAL_CHUNK_SIZE + 16 + traceCharges trace.ops := by
  obtain ⟨w', y, hinit, hbacked, -⟩ := hw.init_backed trace.blocks
  have hreset : myImpl.resetBrk w = { w with memBrk := w.memStartBrk } := by
    have hrun : myResetBrk w.state = some ((), { w.state with memBrk := w.memStartBrk }) := rfl
    exact World.perform_of_run hrun
  -- after `my_init` the validator and the allocator start out together
  have hs : Serves (.start myImpl trace w) .empty y (Session.initial w.memStartBrk) := by
    refine ⟨?_, tracked_start, fun _ _ hb => (by cases hb), fun _ _ hb => (by cases hb)⟩
    have hworld : (Checker.start myImpl trace w).world = w' := by
      rw [Checker.start, hreset, hinit]
    rw [hworld]
    exact hbacked
  rw [evalMmValid, hreset, hinit, if_neg (lt_irrefl 0)]
  have hrun : (∃ c', evalOps myImpl false trace.ops (.start myImpl trace w) = .ok c') ∨ _ :=
    hs.run held_empty htrace
  rcases hrun with ⟨c', hrun⟩ | ⟨hstop, hfull⟩
  · exact .inl (by rw [hrun])
  · exact .inr ⟨by rw [hstop], hfull⟩

theorem validator_accepts_blank :
    evalMmValid myImpl false
      ⟨[⟨.alloc, 0, 100⟩, ⟨.alloc, 1, 24⟩, ⟨.realloc, 0, 300⟩, ⟨.free, 1, 0⟩],
        fun _ => NULL, fun _ => 0⟩ (State.blank 16).world = .returned 1 := by
  refine (validator_accepts (ready_blank 16 (by decide) (by decide))
    (by decide)).resolve_right fun h => ?_
  exact absurd h.2 (by decide)

end Serves

end Dlmalloc
