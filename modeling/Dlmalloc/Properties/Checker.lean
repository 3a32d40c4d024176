import Dlmalloc.Abstract.Growth
import Dlmalloc.Properties.Coalescing
import Dlmalloc.Refine.Checker

/-!
# What the heap checker finds

On a heap that the allocator built, `my_check` always ends, and of all its assertions two can fail:
the one about the `PREVIOUS_INUSE` bit behind a free chunk and the one about the bit of the end of
the heap (`checker_exact`). The first of them is what a shrinking `my_realloc` breaks that cuts a
chunk off a block before a chunk in use. As long as no call does so the checker accepts the heap,
and it rejects it right after the first one that does (`checker_finds_bare_splits`).
-/

namespace Dlmalloc

open Heap

/-- Behind every free chunk other than the end of the heap the `PREVIOUS_INUSE` bit is clear. -/
def State.Marked (s : State) : Prop :=
  ∃ L, s.heapChunks = some L ∧ L.IsChain fun a b => s.isCurrentInuse a = 0 → s.isPreviousInuse b = 0

section Checker

variable {full : Prop} {debug : Bool} {ext : ℕ} {X : Multiset Slot} {h : Heap} {s : State}
  {c : Chunk} {r : ℕ} {pre post : List Chunk}

/-- In memory, the bits are those of the row. -/
theorem Models.marked_iff (hm : Models s h) (hs : Shape ext X h) :
    s.Marked ↔ List.IsChain Marked h.chunks := by
  have hr := hm.toRep
  -- the flags of two neighbours
  have hpair : ∀ c ∈ h.chunks, ∀ d ∈ h.chunks, c.status ≠ .top →
      ((s.isCurrentInuse c.addr = 0 → s.isPreviousInuse d.addr = 0) ↔ Marked c d) := by
    intro c hc d hd hct
    have hfree : c.status ≠ .inuse ↔ c.status = .free := by
      cases h : c.status <;> simp_all
    rw [hr.isCurrentInuse_eq_zero hs hc, hr.isPreviousInuse_eq_zero hs hd, hfree, Marked]
  constructor
  · rintro ⟨L, hL, hchain⟩
    obtain rfl := Option.some.inj ((hm.heapChunks_eq hs).symm.trans hL)
    refine List.isChain_iff_forall_rel_of_append_cons_cons.mpr fun c d pre post hcd => ?_
    refine (hpair c (Shape.mem_chunks hcd) d (by simp [hcd]) (hs.ne_top hcd)).mp ?_
    exact List.isChain_iff_forall_rel_of_append_cons_cons.mp hchain
      (by rw [hcd, List.map_append, List.map_cons, List.map_cons])
  · intro hchain
    refine ⟨_, hm.heapChunks_eq hs, ?_⟩
    refine List.isChain_iff_forall_rel_of_append_cons_cons.mpr fun a b pre post hab => ?_
    obtain ⟨pre', c, d, post', hcd, rfl, rfl, hct⟩ := hs.neighbours hab
    refine (hpair c (Shape.mem_chunks hcd) d (by simp [hcd]) hct).mpr ?_
    exact List.isChain_iff_forall_rel_of_append_cons_cons.mp hchain hcd

/-- Complete tags mark every free chunk. -/
theorem Tags.marked {b : Bool} {L : List Chunk} (ht : Tags True b L) : List.IsChain Marked L := by
  refine List.isChain_iff_forall_rel_of_append_cons_cons.mpr fun c d pre post hcd hc => ?_
  rw [hcd, tags_mid] at ht
  exact (ht.2.2.2.1 trivial (decide_eq_true hc)).1

/-- `my_check` on a heap. -/
theorem Models.myCheck_eq (hm : Models s h) (hi : Inv full ext h) (h4 : 4 ∣ s.memStartBrk) :
    s.myCheck false = pure 0 ∧
      (¬ s.Marked → s.myCheck true = throw PREVIOUS_FREE_ASSERTION) ∧
      (s.Marked → s.isPreviousInuse (s.bin END_OF_HEAP_BIN) = 0 →
        s.myCheck true = throw END_ASSERTION) ∧
      (s.Marked → s.isPreviousInuse (s.bin END_OF_HEAP_BIN) ≠ 0 → s.myCheck true = pure 0) := by
  have hs := hi.shape
  obtain ⟨c, L, hL, hc⟩ := hs.exists_first
  have hlen := hs.length_lt
  rw [hL, List.length_cons] at hlen
  have hL' : h.chunks = [] ++ c :: L := hL
  have htrees : ∀ debug, s.checkTrees debug (List.range' 32 32) = pure () := fun debug =>
    hm.toRep.checkTrees_eq hs fun i hi => by
      rw [List.mem_range'_1] at hi
      exact ⟨hi.1, hi.2⟩
  have hbins : ¬ 512 < 8 * NUM_OF_BINS := by decide
  simp only [State.myCheck, State.myChecker, if_neg hbins, hm.toRep.checkedFrom_eq hs h4, ← hc,
    hm.marked_iff hs, hL, htrees]
  -- the loop over the heap first, then the bit of the end of the heap
  refine ⟨?_, fun hbad => ?_, fun hgood hend => ?_, fun hgood hend => ?_⟩
  · rw [hm.checkHeap_eq hi h4 hL' (by omega) fun hdebug => absurd hdebug Bool.false_ne_true]
    rfl
  · rw [hm.checkHeap_throw hi h4 hL' (by omega) hbad]
    rfl
  · rw [hm.checkHeap_eq hi h4 hL' (by omega) fun _ => hgood, pure_bind,
      decide_eq_false (not_not.mpr hend), Check.assert_false]
    rfl
  · rw [hm.checkHeap_eq hi h4 hL' (by omega) fun _ => hgood, pure_bind, Check.assert_of hend]
    rfl

/-- After a bare split there is a free chunk that is not marked. -/
theorem Heap.Inv.not_marked_shrink (hi : Inv full ext h) (hL : h.chunks = pre ++ c :: post)
    (hc : c.status = .inuse) (hr : Request r) (hbare : BareSplit c r h) :
    ¬ List.IsChain Marked (h.shrink c r).chunks := by
  obtain ⟨hfit, d, hat, hd⟩ := hbare
  obtain ⟨d', post', rfl, hd'⟩ := hi.shape.exists_next hL (by simp [hc])
  have hat' := hi.shape.chunkAt (c := d') (by simp [hL])
  rw [hd', hat] at hat'
  obtain rfl := Option.some.inj hat'
  have hl := hi.loosened_trim hr hL hc hfit
  have hslot : (offcut c r).slot = (c.addr + r + 8, c.size - r - 8) := rfl
  have hnext := hl.chunkAt_next
  rw [hslot] at hnext
  have hchunks : (h.shrink c r).chunks =
      (pre ++ [⟨c.addr, r, c.status, c.pinuse⟩]) ++ offcut c r :: d :: post' := by
    rw [shrink, if_pos hfit, settle, hnext]
    simp only [hd]
    exact hl.chunks.trans (by simp)
  intro hchain
  have hmarked := List.isChain_iff_forall_rel_of_append_cons_cons.mp hchain hchunks
  -- the chunk after the block still has its bit set, since the block before it was in use
  have hclear : d.pinuse = false := hmarked rfl
  have htag := (tags_iff.mp hi.tags (pre ++ [c]) d post' (by simp [hL])).1 hclear
  rw [lastFree_concat, hc] at htag
  cases htag

end Checker

section Runs

variable {y y' : System} {c : Call} {p : Addr}

/-- **What the checker finds.** In every state that is reached `my_check` ends. Without assertions
it returns 0. With them it stops at the first free chunk that is not marked, if there is one, and
otherwise at the end of the heap, if its bit is clear; no other assertion fails. -/
theorem checker_exact (hy : Reachable EXTENSION_SIZE (Sized LARGEST_SIZE) y)
    (h4 : 4 ∣ y.state.memStartBrk) :
    y.state.myCheck false = pure 0 ∧
      (¬ y.state.Marked → y.state.myCheck true = throw PREVIOUS_FREE_ASSERTION) ∧
      (y.state.Marked → y.state.isPreviousInuse (y.state.bin END_OF_HEAP_BIN) = 0 →
        y.state.myCheck true = throw END_ASSERTION) ∧
      (y.state.Marked → y.state.isPreviousInuse (y.state.bin END_OF_HEAP_BIN) ≠ 0 →
        y.state.myCheck true = pure 0) := by
  obtain ⟨σ, ht⟩ := hy.tracks_default
  exact ht.follows.models.myCheck_eq ht.good.inv h4

/-- The rest of a chunk is filled up, so that the block before it can be split before a chunk in
use. -/
theorem exists_run_filled (Allowed : System → Call → Prop)
    (hA : ∀ y c, ¬ c.Splits y → c.Valid LARGEST_SIZE y.live → Allowed y c) :
    ∃ y, Reachable EXTENSION_SIZE Allowed y ∧ y.live = busyLive ++ [⟨440, 592⟩] ∧
      Tracks False EXTENSION_SIZE y (busySession.call EXTENSION_SIZE (.malloc 592)).2 := by
  obtain ⟨y, hst, hrun, hlive, hy⟩ := exists_run_busy Allowed fun y c hc =>
    hA y c (not_splits_busy hc)
  have hc : (Call.malloc 592).Valid LARGEST_SIZE y.live := by
    rw [hlive]
    decide
  obtain ⟨y', hcall, hy', -⟩ := hy.call extension_default (by decide) hc
  refine ⟨y', ⟨_, _, _, hst, hrun.call (hA y (.malloc 592) (fun h => h) hc) hcall⟩, ?_, hy'.follows,
    hy'.good.weaken False.elim⟩
  rw [hy'.follows.live]
  decide +kernel

theorem bareSplits_filled {y : System}
    (hy : Tracks False EXTENSION_SIZE y (busySession.call EXTENSION_SIZE (.malloc 592)).2) :
    (Call.realloc 3 24).BareSplits y :=
  hy.bareSplits_iff.mp ⟨⟨32, 400⟩, ⟨16, 400, .inuse, true⟩, by decide +kernel, by decide +kernel,
    by decide +kernel, ⟨424, 592, .inuse, true⟩, by decide +kernel, rfl⟩

/-- A heap that the checker accepts, and what it finds after a bare split. -/
theorem checker_exact_filled : ∃ y y', Reachable EXTENSION_SIZE (Sized LARGEST_SIZE) y ∧
    y.live = busyLive ++ [⟨440, 592⟩] ∧ y.state.myCheck false = pure 0 ∧
    y.state.myCheck true = pure 0 ∧ (Call.realloc 3 24).run EXTENSION_SIZE y = some (32, y') ∧
    y'.state.myCheck false = pure 0 ∧ y'.state.myCheck true = throw PREVIOUS_FREE_ASSERTION := by
  obtain ⟨y, hreach, hlive, hy⟩ := exists_run_filled (Sized LARGEST_SIZE) fun _ _ _ h => h
  have hc : (Call.realloc 3 24).Valid LARGEST_SIZE y.live := by
    rw [hlive]
    decide
  obtain ⟨y', hcall, hy', -⟩ := hy.call extension_default (by decide) hc
  obtain ⟨y₀, es, ps, hst, hrun⟩ := id hreach
  have hreach' : Reachable EXTENSION_SIZE (Sized LARGEST_SIZE) y' :=
    ⟨y₀, _, _, hst, hrun.call hc hcall⟩
  have h4 : 4 ∣ y.state.memStartBrk ∧ 4 ∣ y'.state.memStartBrk := by
    rw [hy.follows.models.memStartBrk, hy'.follows.models.memStartBrk]
    decide +kernel
  -- the bits of the two heaps
  have hmarked : y.state.Marked := (hy.follows.models.marked_iff hy.good.inv.shape).mpr (by
    decide +kernel)
  have hend : y.state.isPreviousInuse (y.state.bin END_OF_HEAP_BIN) ≠ 0 := by
    have htop : y.state.bin END_OF_HEAP_BIN = 4160 := hy.follows.models.top.trans (by
      decide +kernel)
    have hlast := hy.follows.models.toRep.isPreviousInuse_eq_zero hy.good.inv.shape
      (c := ⟨4160, 35040, .top, true⟩) (by decide +kernel)
    rw [htop]
    exact hlast.not.mpr (by decide)
  have hbare : ¬ y'.state.Marked := (hy'.follows.models.marked_iff hy'.good.inv.shape).not.mpr (by
    decide +kernel)
  have hp : (((busySession.call EXTENSION_SIZE (.malloc 592)).2).call EXTENSION_SIZE
      (.realloc 3 24)).1 = 32 := by
    decide +kernel
  rw [hp] at hcall
  obtain ⟨hfalse, -, -, htrue⟩ := checker_exact hreach h4.1
  obtain ⟨hfalse', hthrow, -⟩ := checker_exact hreach' h4.2
  exact ⟨y, y', hreach, hlive, hfalse, htrue hmarked hend, hcall, hfalse', hthrow hbare⟩

/-- **The checker finds bare splits.** In a run without them it accepts the heap after every call,
and it rejects the heap after the first call that makes one. -/
theorem checker_finds_bare_splits (hy : Reachable EXTENSION_SIZE (Coalesces LARGEST_SIZE) y)
    (h4 : 4 ∣ y.state.memStartBrk) :
    y.state.myCheck true = pure 0 ∧
      ∀ (c : Call) (p : Addr) (y' : System), c.Valid LARGEST_SIZE y.live → c.BareSplits y →
        c.run EXTENSION_SIZE y = some (p, y') →
        y'.state.myCheck true = throw PREVIOUS_FREE_ASSERTION := by
  obtain ⟨σ, ht⟩ := hy.tracks_coalesced
  have hm := ht.follows.models
  have hs := ht.good.inv.shape
  constructor
  · have hmarked := (hm.marked_iff hs).mpr ht.good.inv.tags.marked
    refine (hm.myCheck_eq ht.good.inv h4).2.2.2 hmarked ?_
    exact ((hm.coalesced_iff ht.good.inv).mpr ht.good.inv.tags).1
  · intro c p y' hc hbare hrun
    obtain ⟨y₁, hrun₁, ht₁, -⟩ := ht.call extension_default (by decide) hc
    obtain ⟨-, rfl⟩ := Prod.mk.inj (Option.some.inj (hrun₁.symm.trans hrun))
    have hm₁ := ht₁.follows.models
    have hstart : y₁.state.memStartBrk = y.state.memStartBrk := by
      have hgrows := (ht.good.call_grows (c := c)).start
      rw [hm.memStartBrk, hm₁.memStartBrk, hgrows]
    refine (hm₁.myCheck_eq ht₁.good.inv (hstart ▸ h4)).2.1 fun hmarked => ?_
    have hchain := (hm₁.marked_iff ht₁.good.inv.shape).mp hmarked
    -- only a realloc splits bare, and its chunk is then cut down in place
    have hb := ht.bareSplits_iff.mpr hbare
    cases c with
    | malloc size => exact hb.elim
    | free i => exact hb.elim
    | realloc i size =>
      obtain ⟨b, c, hlive, hat, hsplit⟩ := hb
      obtain ⟨d, hd, hst, hptr, -⟩ := ht.good.chunk hlive
      have haddr : b.ptr - 16 = d.addr := by rw [hptr, Nat.add_sub_cancel]
      have hatd := hs.chunkAt hd
      rw [haddr, hatd] at hat
      obtain rfl := Option.some.inj hat
      obtain ⟨pre, post, hL⟩ := List.append_of_mem hd
      have hle : requestSize size ≤ d.size := (Nat.le_add_right _ _).trans hsplit.1
      have hreal : σ.heap.realloc EXTENSION_SIZE d.addr (requestSize size) =
          some (d.addr, σ.heap.shrink d (requestSize size)) := by
        rw [Heap.realloc, hatd]
        exact if_pos hle
      simp only [Session.call, hlive, haddr, hreal] at hchain
      exact ht.good.inv.not_marked_shrink hL hst (request_requestSize size) hsplit hchain

theorem checker_finds_bare_splits_filled : ∃ y y',
    Reachable EXTENSION_SIZE (Coalesces LARGEST_SIZE) y ∧ y.live = busyLive ++ [⟨440, 592⟩] ∧
    y.state.myCheck true = pure 0 ∧ (Call.realloc 3 24).BareSplits y ∧
    (Call.realloc 3 24).run EXTENSION_SIZE y = some (32, y') ∧
    y'.state.myCheck true = throw PREVIOUS_FREE_ASSERTION := by
  obtain ⟨y, hreach, hlive, hy⟩ := exists_run_filled (Coalesces LARGEST_SIZE) fun _ _ hs hv =>
    ⟨hv, fun hb => hs hb.splits⟩
  have hc : (Call.realloc 3 24).Valid LARGEST_SIZE y.live := by
    rw [hlive]
    decide
  obtain ⟨y', hcall, -⟩ := hy.call extension_default (by decide) hc
  have hp : (((busySession.call EXTENSION_SIZE (.malloc 592)).2).call EXTENSION_SIZE
      (.realloc 3 24)).1 = 32 := by
    decide +kernel
  rw [hp] at hcall
  have h4 : 4 ∣ y.state.memStartBrk := by
    rw [hy.follows.models.memStartBrk]
    decide +kernel
  obtain ⟨haccepts, hfinds⟩ := checker_finds_bare_splits hreach h4
  have hbare := bareSplits_filled hy
  exact ⟨y, y', hreach, hlive, haccepts, hbare, hcall, hfinds _ _ _ hc hbare hcall⟩

/-- **`chunk_in_tree` decides membership.** It ends on every large bin, and says whether a chunk is
among those that the bin holds. -/
theorem chunk_in_tree_exact (hy : Reachable EXTENSION_SIZE (Sized LARGEST_SIZE) y) {n : ℕ}
    (h32 : 32 ≤ n) (hn : n < NUM_OF_BINS) (chunk : Addr) :
    ∃ L, y.state.binMembers n = some L ∧
      y.state.chunkInTree (y.state.bin n) chunk = some (decide (chunk ∈ L)) := by
  obtain ⟨σ, ht⟩ := hy.tracks_default
  have hb := (ht.follows.models.toRep.holds ht.good.inv.shape).treeBin h32 hn
  refine ⟨_, hb.binMembers_eq h32, ?_⟩
  have hlen : (addrs (σ.heap.bins.large n)).length ≤ MAX_HEAP := by
    rw [addrs, List.length_map]
    exact hb.few.le
  rw [State.chunkInTree, hb.tree.1,
    chunkNotInTree_eq hb.spread hb.large hb.nodup_addrs hlen hb.tree.2 hb.height_lt]
  simp

/-- It finds the chunk that the bin holds, and no other one. -/
theorem chunk_in_tree_exact_busy : ∃ y, Run EXTENSION_SIZE (Sized LARGEST_SIZE) (.blank 16)
      (busyCalls.map .call) busyPointers y ∧ y.state.binMembers 38 = some [1120] ∧
    y.state.chunkInTree (y.state.bin 38) 1120 = some true ∧
    y.state.chunkInTree (y.state.bin 38) 424 = some false := by
  obtain ⟨y, hst, hrun, -, hy⟩ := exists_run_busy (Sized LARGEST_SIZE) fun _ _ _ h => h
  have hreach : Reachable EXTENSION_SIZE (Sized LARGEST_SIZE) y := ⟨_, _, _, hst, hrun⟩
  have hmembers : y.state.binMembers 38 = some [1120] := by
    rw [hy.follows.models.members_eq hy.good.inv (by decide)]
    decide +kernel
  obtain ⟨L, hL, hin⟩ := chunk_in_tree_exact hreach (n := 38) (by decide) (by decide) 1120
  obtain ⟨_, hL', hout⟩ := chunk_in_tree_exact hreach (n := 38) (by decide) (by decide) 424
  obtain rfl := Option.some.inj (hmembers.symm.trans hL)
  obtain rfl := Option.some.inj (hmembers.symm.trans hL')
  exact ⟨y, hrun, hL, hin, hout⟩

end Runs

end Dlmalloc
