import Dlmalloc.Properties.Driver
import Mathlib.Algebra.Order.BigOperators.Group.Multiset

/-!
# Utilization

The driver measures how well an allocator uses the heap by the ratio of the largest sum of live
sizes (`highWater`) to the size of the heap at the end. For this allocator the sums do not
overflow and the ratio is not above one, since the live blocks are apart in a heap that does not
shrink (`util_exact`).
-/

namespace Dlmalloc

open Heap

/-! ### What a trace asks for -/

/-- The sizes of the live blocks of a trace, and the size of the block of each index. No pointers
occur in it. -/
structure Demand : Type where
  live : Multiset ℕ
  size : ℕ → ℕ

def Demand.none : Demand := ⟨0, fun _ => 0⟩

def Demand.after (d : Demand) (op : TraceOp) : Demand :=
  match op.type with
  | .alloc => ⟨op.size ::ₘ d.live, Function.update d.size op.index op.size⟩
  | .realloc =>
    ⟨op.size ::ₘ d.live.erase (d.size op.index), Function.update d.size op.index op.size⟩
  | .free => ⟨d.live.erase (d.size op.index), d.size⟩
  | .write => d

/-- The largest sum of live sizes that a trace goes through. -/
def highWater : List TraceOp → Demand → ℕ
  | [], d => d.live.sum
  | op :: ops, d => max d.live.sum (highWater ops (d.after op))

theorem sum_le_highWater (ops : List TraceOp) (d : Demand) : d.live.sum ≤ highWater ops d := by
  cases ops with
  | nil => exact le_rfl
  | cons op ops => exact le_max_left _ _

/-! ### Live blocks fit into the heap -/

section Fit

variable {lo hi : ℕ} {L : List Chunk}

/-- The chunks in use take no more than the heap. -/
theorem Tiles.sum_used_le (h : Tiles lo L hi) : ((usedSlots L).map Prod.snd).sum + lo ≤ hi := by
  induction L generalizing lo with
  | nil => simpa [usedSlots] using h.le
  | cons c L ih =>
    obtain ⟨hc, htail⟩ := h
    have hL := ih htail
    simp only [Chunk.next] at hL
    rw [usedSlots_cons, Multiset.map_add, Multiset.sum_add]
    split_ifs
    · rw [Multiset.map_singleton, Multiset.sum_singleton]
      simp only [Chunk.slot]
      omega
    · rw [Multiset.map_zero, Multiset.sum_zero]
      omega

theorem sum_covered_le {live : List Block} {U : List Slot} (h : List.Forall₂ Covers live U) :
    (live.map Block.size).sum ≤ (U.map Prod.snd).sum := by
  induction h with
  | nil => exact le_rfl
  | cons hc _ ih =>
    simp only [List.map_cons, List.sum_cons]
    exact Nat.add_le_add hc.2 ih

/-- The live sizes sum up to no more than the size of the heap. -/
theorem Backed.sum_sizes_le {blocks : ℕ → Addr} {w : World Statics} {l : Ledger} {y : System}
    {σ : Session} (h : Backed blocks w l y σ) :
    (l.live.map Payload.size).sum + σ.heap.start ≤ σ.heap.brk := by
  have hs := h.tracks.good.inv.shape
  obtain ⟨U, hU, hcov⟩ := h.tracks.good.covers
  have hused := hs.tiles.sum_used_le
  rw [← Heap.used, ← hU, Multiset.map_coe, Multiset.sum_coe] at hused
  have hcovered := sum_covered_le hcov
  have hwords : (l.live.map Payload.size).sum ≤ (y.live.map Block.size).sum := by
    have hlive : ((y.live.map Block.size : List ℕ) : Multiset ℕ) =
        l.live.map fun b => b.block.size := by
      rw [← Multiset.map_coe, h.live, Multiset.map_map]
      rfl
    rw [← Multiset.sum_coe, hlive]
    refine Multiset.sum_map_le_sum_map _ _ fun b _ => ?_
    show b.size ≤ (b.size + 7) / 8 * 8
    omega
  rw [h.tracks.follows.live] at hwords
  have hfirst := hs.arena.start_le
  omega

end Fit

/-! ### The loop -/

section Loop

variable {u u' : Usage Statics} {l : Ledger} {y y' : System} {σ σ' : Session} {d : Demand}
  {op : TraceOp} {ops : List TraceOp} {held : Finset ℕ} {w : World Statics}
  {i p : ℕ} {b : Payload}

/-- What `eval_mm_util` keeps is right: the total is that of the live sizes. -/
structure Measures (u : Usage Statics) (l : Ledger) (d : Demand) (y : System) (σ : Session) : Prop
    extends Backed u.blocks u.world l y σ where
  demand : d.live = l.live.map Payload.size
  indexed : ∀ i b, l.handle i = some b → u.blockSizes i = b.size ∧ d.size i = b.size
  total : u.totalSize = d.live.sum

theorem Measures.sum_le (h : Measures u l d y σ) : d.live.sum + σ.heap.start ≤ σ.heap.brk := by
  rw [h.demand]
  exact h.sum_sizes_le

/-- The live sizes of a trace are those of its account. -/
theorem Demand.after_live (hd : d.live = l.live.map Payload.size)
    (hsize : ∀ i b, l.handle i = some b → d.size i = b.size)
    (hlive : ∀ i b, l.handle i = some b → b ∈ l.live)
    (hindex : op.type = .realloc ∨ op.type = .free → l.handle op.index ≠ Option.none) (p : Addr) :
    (d.after op).live = (l.after op p).live.map Payload.size := by
  have hgiven : op.type = .realloc ∨ op.type = .free →
      d.live.erase (d.size op.index) = (l.others op).map Payload.size := fun ht => by
    obtain ⟨b, hb⟩ := Option.ne_none_iff_exists'.mp (hindex ht)
    rw [Ledger.others, if_pos ht, hb, hd, hsize _ b hb]
    exact (Multiset.map_erase_of_mem _ _ (hlive _ b hb)).symm
  unfold Demand.after Ledger.after
  cases ht : op.type with
  | alloc =>
    have hothers : l.others op = l.live := if_neg (by simp [ht])
    simp only [Multiset.map_cons, hothers, hd]
  | realloc => simp only [Multiset.map_cons, hgiven (.inl ht)]
  | free => exact hgiven (.inr ht)
  | write => exact hd

theorem cInt_of_lt {x : ℤ} (h0 : -2 ^ 31 ≤ x) (h1 : x < 2 ^ 31) : cInt x = x := by
  unfold cInt
  omega

/-- By how much a request changes the total, as the loop computes it. -/
def TraceOp.delta {α : Type} (op : TraceOp) (u : Usage α) : ℤ :=
  if op.type = .realloc then cInt (op.size - cInt (u.blockSizes op.index)) else op.size

theorem utilOp_of_asks {α : Type} (impl : MallocImpl α) (u : Usage α) (hasks : op.Asks) :
    ((op.request impl u.blocks u.world).1 = NULL → ∃ msg, utilOp impl op u = .error msg) ∧
      ((op.request impl u.blocks u.world).1 ≠ NULL → utilOp impl op u =
        .ok (u.remember op.index (op.request impl u.blocks u.world).1 op.size (op.delta u)
          (op.request impl u.blocks u.world).2)) := by
  unfold utilOp TraceOp.request TraceOp.delta
  rcases hasks with ht | ht <;> simp only [ht, reduceCtorEq, if_true, if_false]
  all_goals
    refine ⟨fun h => ⟨_, by rw [if_pos h]; rfl⟩, fun h => ?_⟩
    rw [if_neg h]
    rfl

/-- The heap is small enough for an `int`. -/
theorem Backed.heap_lt {blocks : ℕ → Addr} (h : Backed blocks w l y σ) :
    σ.heap.brk < σ.heap.start + 2 ^ 31 := by
  have ha := h.tracks.good.inv.shape.arena
  have hle := ha.brk_le
  have hlimit := ha.limit_eq
  have hheap : MAX_HEAP = 52428800 := rfl
  omega

/-- A granted request: the total is right again, and so is the largest one. -/
theorem Measures.grant (h : Measures u l d y σ) (hv : op.Valid l) (hasks : op.Asks)
    (hle : op.size ≤ LARGEST_SIZE)
    (hans : op.request myImpl u.blocks u.world = (p, y'.state.world)) (hp0 : p ≠ NULL)
    (hg : Granted op l y y' σ' p) : ∃ u', utilOp myImpl op u = .ok u' ∧
      Measures u' (l.after op p) (d.after op) y' σ' ∧
      u'.maxTotalSize = max ((d.after op).live.sum : ℤ) u.maxTotalSize := by
  obtain ⟨hpos, -⟩ := hv.1 hasks
  have hrun := (utilOp_of_asks myImpl u hasks).2
  rw [hans] at hrun
  have hlive := Demand.after_live h.demand (fun i b hb => (h.indexed i b hb).2)
    (fun i b hb => (h.handles i b hb).1) hv.2 p
  have hbacked : Backed (Function.update u.blocks op.index p) y'.state.world (l.after op p) y' σ' :=
    h.after hg hasks hpos hle rfl hg.tracks rfl
  -- none of the sums overflows, since the live blocks fit into the heap
  have hold := h.sum_le
  have hlt := h.heap_lt
  have hnew := hbacked.sum_sizes_le
  have hlt' := hbacked.heap_lt
  rw [← hlive] at hnew
  have htotal : cInt (u.totalSize + op.delta u) = (d.after op).live.sum := by
    have hint : (op.size : ℤ) < 2 ^ 31 := by exact_mod_cast (hv.1 hasks).2
    rw [h.total, TraceOp.delta]
    rcases hasks with ht | ht
    · have hsum : (d.after op).live.sum = op.size + d.live.sum := by
        simp only [Demand.after, ht, Multiset.sum_cons]
      rw [if_neg (by simp [ht]), cInt_of_lt (by omega) (by omega)]
      omega
    · obtain ⟨b, hb⟩ := Option.ne_none_iff_exists'.mp (hv.2 (.inl ht))
      obtain ⟨hsize, hdsize⟩ := h.indexed _ b hb
      have hmem : b.size ∈ d.live := by
        rw [h.demand]
        exact Multiset.mem_map_of_mem _ (h.handles _ b hb).1
      have hsum : (d.after op).live.sum + b.size = op.size + d.live.sum := by
        simp only [Demand.after, ht, Multiset.sum_cons, hdsize]
        rw [← Multiset.sum_erase hmem]
        omega
      have hb31 := (h.sizes b (h.handles _ b hb).1).2
      have hlargest : LARGEST_SIZE < 2 ^ 31 := by decide
      rw [if_pos ht, hsize, cInt_of_lt (x := b.size) (by omega) (by omega),
        cInt_of_lt (x := op.size - b.size) (by omega) (by omega), cInt_of_lt (by omega) (by omega)]
      omega
  refine ⟨_, hrun hp0, ⟨hbacked, hlive, fun i b hb => ?_, htotal⟩, ?_⟩
  · rw [Ledger.after_of_asks hasks] at hb
    have hsizes : (d.after op).size = Function.update d.size op.index op.size := by
      unfold Demand.after
      rcases hasks with ht | ht <;> simp only [ht]
    rw [hsizes]
    by_cases hi : i = op.index
    · subst hi
      have hb' : (⟨p, op.size⟩ : Payload) = b := by simpa using hb
      rw [← hb']
      exact ⟨Function.update_self _ _ _, Function.update_self _ _ _⟩
    · have hb' : l.handle i = some b := by simpa [hi] using hb
      obtain ⟨h1, h2⟩ := h.indexed i b hb'
      exact ⟨(Function.update_of_ne hi _ _).trans h1, (Function.update_of_ne hi _ _).trans h2⟩
  · show max (cInt (u.totalSize + op.delta u)) u.maxTotalSize = _
    rw [htotal]

/-- A request to free a block. -/
theorem Measures.free (h : Measures u l d y σ) (hv : op.Valid l) (ht : op.type = .free) :
    ∃ i u' y', utilOp myImpl op u = .ok u' ∧
      Measures u' (l.after op NULL) (d.after op) y' (σ.call EXTENSION_SIZE (.free i)).2 ∧
      u'.maxTotalSize = u.maxTotalSize ∧ (d.after op).live.sum ≤ d.live.sum := by
  obtain ⟨i, y', hworld, hbacked, -⟩ := h.toBacked.free hv ht
  obtain ⟨b, hb⟩ := Option.ne_none_iff_exists'.mp (hv.2 (.inr ht))
  obtain ⟨hsize, hdsize⟩ := h.indexed _ b hb
  have hmem : b.size ∈ d.live := by
    rw [h.demand]
    exact Multiset.mem_map_of_mem _ (h.handles _ b hb).1
  have hsum : (d.after op).live.sum + b.size = d.live.sum := by
    simp only [Demand.after, ht, hdsize]
    rw [← Multiset.sum_erase hmem]
    omega
  have hold := h.sum_le
  have hlt := h.heap_lt
  -- the two `int` subtractions of the driver do not wrap
  have htotal : cInt (u.totalSize - cInt (u.blockSizes op.index)) = (d.after op).live.sum := by
    rw [h.total, hsize, cInt_of_lt (x := b.size) (by omega) (by omega),
      cInt_of_lt (by omega) (by omega)]
    omega
  have hrun : utilOp myImpl op u = .ok { u with
      totalSize := cInt (u.totalSize - cInt (u.blockSizes op.index)),
      world := y'.state.world } := by
    simp only [utilOp, ht, hworld]
    rfl
  have hlive := Demand.after_live h.demand (fun i b hb => (h.indexed i b hb).2)
    (fun i b hb => (h.handles i b hb).1) hv.2 NULL
  refine ⟨i, _, y', hrun, ⟨hbacked, hlive, fun j b' hj => ?_, htotal⟩, rfl, by omega⟩
  -- the sizes are forgotten with their payloads only
  have hdemand : (d.after op).size = d.size := by simp only [Demand.after, ht]
  have hj' : l.handle j = some b' := by
    unfold Ledger.after at hj
    simp only [ht] at hj
    by_cases hji : j = op.index
    · subst hji
      rw [Function.update_self] at hj
      cases hj
    · rwa [Function.update_of_ne hji] at hj
  rw [hdemand]
  exact h.indexed j b' hj'

/-- The requests of a valid trace, one after the other: the loop ends with the largest total, which
is at most the size of the heap, or a request fails at the end of the heap. -/
theorem Measures.run (h : Measures u l d y σ) (hheld : ∀ i, i ∈ held ↔ l.handle i ≠ none)
    (hops : ValidOps LARGEST_SIZE ops held) (hmax : (d.live.sum : ℤ) ≤ u.maxTotalSize) :
    (∃ u' y' l' σ', utilOps myImpl ops u = .ok u' ∧ Backed u'.blocks u'.world l' y' σ' ∧
        Grows (traceCharges ops) σ.heap σ'.heap ∧
        u'.maxTotalSize = max u.maxTotalSize (highWater ops d) ∧
        highWater ops d + σ.heap.start ≤ σ'.heap.brk) ∨
      ∃ msg, utilOps myImpl ops u = .error msg ∧
        σ.heap.limit < σ.heap.brk + traceCharges ops := by
  induction ops generalizing u l d y σ held with
  | nil =>
    exact .inl ⟨u, y, l, σ, rfl, h.toBacked, .refl _, (max_eq_left hmax).symm, h.sum_le⟩
  | cons op ops ih =>
    obtain ⟨hv, hle⟩ := hops.head hheld
    have hhigh := sum_le_highWater ops (d.after op)
    rw [traceCharges_cons, utilOps]
    -- what follows from the hypothesis for a request that went through
    have hnext : ∀ p u' y' σ', utilOp myImpl op u = .ok u' →
        Measures u' (l.after op p) (d.after op) y' σ' → Grows op.charge σ.heap σ'.heap →
        ((d.after op).live.sum : ℤ) ≤ u'.maxTotalSize →
        max u'.maxTotalSize (highWater ops (d.after op) : ℤ) =
          max u.maxTotalSize (highWater (op :: ops) d : ℤ) →
        (∃ u'' y'' l'' σ'', (do let u ← utilOp myImpl op u; utilOps myImpl ops u) = .ok u'' ∧
            Backed u''.blocks u''.world l'' y'' σ'' ∧
            Grows (op.charge + traceCharges ops) σ.heap σ''.heap ∧
            u''.maxTotalSize = max u.maxTotalSize (highWater (op :: ops) d) ∧
            highWater (op :: ops) d + σ.heap.start ≤ σ''.heap.brk) ∨
          ∃ msg, (do let u ← utilOp myImpl op u; utilOps myImpl ops u) = .error msg ∧
            σ.heap.limit < σ.heap.brk + (op.charge + traceCharges ops) := by
      intro p u' y' σ' hrun hm hgrows hmax' heq
      have hstart := hgrows.start
      have hlimit := hgrows.limit
      have hmost := hgrows.most
      have hmono := hgrows.brk
      have hsum := h.sum_le
      rw [hrun]
      rcases ih hm (holds_iff hheld p) hops.2 hmax' with
        ⟨u'', y'', l'', σ'', hrun', hb, hg, hm'', hfit⟩ | ⟨msg, hstop, hfull⟩
      · have hmono' := hg.brk
        refine .inl ⟨u'', y'', l'', σ'', hrun', hb, hgrows.trans hg, hm''.trans heq, ?_⟩
        have hmaxle : highWater (op :: ops) d = max d.live.sum (highWater ops (d.after op)) := rfl
        omega
      · exact .inr ⟨msg, hstop, by omega⟩
    have hcons : (highWater (op :: ops) d : ℤ) =
        max (d.live.sum : ℤ) (highWater ops (d.after op)) := by
      have hmaxle : highWater (op :: ops) d = max d.live.sum (highWater ops (d.after op)) := rfl
      omega
    by_cases hasks : op.Asks
    · rcases h.request hv hasks (hle hasks) with ⟨hnull, hfull⟩ | ⟨p, y', σ', hans, hp0, hg, hgrows⟩
      · obtain ⟨msg, hmsg⟩ := (utilOp_of_asks myImpl u hasks).1 hnull
        exact .inr ⟨msg, by rw [hmsg]; rfl, by omega⟩
      · obtain ⟨u', hrun, hm, hmax'⟩ := h.grant hv hasks (hle hasks) hans hp0 hg
        refine hnext p u' y' σ' hrun hm hgrows (by rw [hmax']; exact le_max_left _ _) ?_
        rw [hcons, hmax']
        omega
    · cases ht : op.type with
      | alloc => exact absurd (.inl ht) hasks
      | realloc => exact absurd (.inr ht) hasks
      | free =>
        obtain ⟨i, u', y', hrun, hm, hsame, hless⟩ := h.free hv ht
        refine hnext NULL u' y' _ hrun hm
          ((h.tracks.good.call_grows (c := .free i)).mono (Nat.zero_le _)) (by omega) ?_
        rw [hcons, hsame]
        omega
      | write =>
        have hafter : d.after op = d := by simp only [Demand.after, ht]
        have hledger : l.after op NULL = l := by
          unfold Ledger.after
          rw [ht]
        refine hnext NULL u y σ (by simp only [utilOp, ht]; rfl) ?_ (.refl _) ?_ ?_
        · rwa [hafter, hledger]
        · rwa [hafter]
        · rw [hcons, hafter]
          omega

/-- **The utilization is what it is said to be.** Where nothing was allocated before, `eval_mm_util`
computes on a valid trace the largest sum of live sizes and the size of the heap at the end, each at
least `MEM_ALLOWANCE`. The former is at most the latter, so that the ratio is at most one. If the
program ends with a message instead, the sizes asked for sum up to more than the heap. -/
theorem util_exact (trace : Trace) (hw : w.Ready) (htrace : ValidOps LARGEST_SIZE trace.ops ∅) :
    (∃ heapSize, evalMmUtil myImpl trace w = .ok
          (max (highWater trace.ops .none : ℤ) MEM_ALLOWANCE, max heapSize MEM_ALLOWANCE) ∧
        highWater trace.ops .none ≤ heapSize ∧
        w.memStartBrk + heapSize ≤
          ALIGN w.memStartBrk + INITIAL_CHUNK_SIZE + 16 + traceCharges trace.ops) ∨
      ∃ msg, evalMmUtil myImpl trace w = .error msg ∧
        w.memStartBrk + MAX_HEAP <
          ALIGN w.memStartBrk + INITIAL_CHUNK_SIZE + 16 + traceCharges trace.ops := by
  obtain ⟨w', y, hinit, hbacked, -⟩ := hw.init_backed trace.blocks
  have hreset : w.memResetBrk = { w with memBrk := w.memStartBrk } := rfl
  have hstart : Usage.start myImpl trace w = ⟨trace.blocks, trace.blockSizes, 0, 0, w'⟩ := by
    rw [Usage.start, hreset, hinit]
  have hm : Measures (.start myImpl trace w) .empty .none y (Session.initial w.memStartBrk) := by
    rw [hstart]
    exact ⟨hbacked, rfl, fun _ _ hb => (by cases hb), rfl⟩
  have heval : evalMmUtil myImpl trace w = (do
      let u ← utilOps myImpl trace.ops (.start myImpl trace w)
      return (max u.maxTotalSize MEM_ALLOWANCE, max u.world.memHeapsize MEM_ALLOWANCE)) := by
    rw [evalMmUtil, hreset, hinit, if_neg (lt_irrefl 0)]
  have hmax : (Usage.start myImpl trace w).maxTotalSize = 0 := by rw [hstart]
  rw [heval]
  -- the run ends, or an operation is refused
  rcases hm.run held_empty htrace (by rw [hmax]; exact le_rfl) with
    ⟨u', y', l', σ', hrun, hb, hgrows, hhigh, hfit⟩ | ⟨msg, hstop, hfull⟩
  · have ha := hb.tracks.good.inv.shape.arena
    have hstartle := hb.sum_sizes_le
    have hmodels := hb.tracks.follows.models
    -- the size of the heap, as the driver computes it
    have hsize : u'.world.memHeapsize = σ'.heap.brk - σ'.heap.start := by
      have hbrk : u'.world.memBrk = σ'.heap.brk :=
        (congrArg State.memBrk hb.state).trans hmodels.memBrk
      have hlo : u'.world.memStartBrk = σ'.heap.start :=
        (congrArg State.memStartBrk hb.state).trans hmodels.memStartBrk
      have hle := ha.brk_le
      have hspan := ha.span
      rw [World.memHeapsize, hbrk, hlo, sub64_of_le (by omega) (by omega)]
    refine .inl ⟨σ'.heap.brk - σ'.heap.start, ?_, ?_, ?_⟩
    · rw [hrun, ← hsize]
      refine congrArg Except.ok (Prod.ext ?_ rfl)
      show max u'.maxTotalSize _ = _
      rw [hhigh, hmax, max_eq_right (Int.natCast_nonneg _)]
    · have hlo := hgrows.start
      omega
    · have hlo := hgrows.start
      have hmost := hgrows.most
      have hinitial : ∀ s : ℕ, (Session.initial s).heap.start = s ∧
          (Session.initial s).heap.brk = ALIGN s + INITIAL_CHUNK_SIZE + 16 := fun _ => ⟨rfl, rfl⟩
      -- the break started at that of `my_init`
      have hbound : ∀ s : ℕ, s = w.memStartBrk → s + (σ'.heap.brk - σ'.heap.start) ≤
          ALIGN s + INITIAL_CHUNK_SIZE + 16 + traceCharges trace.ops := fun s hs => by
        rw [← hs] at hlo hmost
        obtain ⟨h1, h2⟩ := hinitial s
        omega
      exact hbound _ rfl
  · exact .inr ⟨msg, by rw [hstop]; rfl, hfull⟩

theorem util_exact_blank : ∃ heapSize, evalMmUtil myImpl
    ⟨[⟨.alloc, 0, 50000⟩, ⟨.alloc, 1, 24⟩, ⟨.free, 0, 0⟩, ⟨.realloc, 1, 100⟩],
      fun _ => NULL, fun _ => 0⟩ (State.blank 16).world = .ok (50024, max heapSize MEM_ALLOWANCE) ∧
    50024 ≤ heapSize := by
  rcases util_exact ⟨[⟨.alloc, 0, 50000⟩, ⟨.alloc, 1, 24⟩, ⟨.free, 0, 0⟩, ⟨.realloc, 1, 100⟩],
      fun _ => NULL, fun _ => 0⟩
    (ready_blank 16 (by decide) (by decide)) (by decide) with
    ⟨heapSize, hrun, hle, -⟩ | ⟨msg, -, hfull⟩
  · exact ⟨heapSize, hrun, hle⟩
  · exact absurd hfull (by decide)

end Loop

end Dlmalloc
