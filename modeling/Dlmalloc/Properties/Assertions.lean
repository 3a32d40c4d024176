import Dlmalloc.Machine.Assertions
import Dlmalloc.Properties.Coalescing

/-!
# The assertions of a growing `my_realloc`

Where the boundary tags are exact (`State.TagsExact`), the assertions on the chunks around the block
hold but in one case (`State.Cramped`): both chunks next to the block are free, the one after it is
not the end of the heap, and all three together are too small. The first two attempts then return
`NULL`, and the third one is made: `realloc_chunk_is_larger` asks only whether the chunk after the
block is the end of the heap, and `realloc_chunk_and_before` asserts that it is in use. This happens
in heaps in which no two chunks in a row are free (`not_always_assertions_hold`).
-/

namespace Dlmalloc

namespace State

/-- The chunks of the heap are `L`, and their boundary tags are exact: they lie below the break; the
end of the heap is not in use; the `PREVIOUS_INUSE` bit of a chunk says whether the chunk before it
is in use, and is set in the first one; and behind a free chunk stands its size. -/
structure TagsExact (s : State) (L : List ℕ) : Prop where
  walk : s.heapChunks = some L
  brk_lt : s.memBrk < 2 ^ 64
  within : ∀ c ∈ L, c + s.chunkSize c + 8 ≤ s.memBrk
  top : s.isCurrentInuse (s.bin END_OF_HEAP_BIN) = 0
  first : s.isPreviousInuse s.firstChunk ≠ 0
  tag : ∀ pre a b post, L = pre ++ a :: b :: post →
    (s.isPreviousInuse b = 0 ↔ s.isCurrentInuse a = 0)
  footer : ∀ pre a b post, L = pre ++ a :: b :: post → s.isCurrentInuse a = 0 →
    s.load .previousSize b = s.chunkSize a

/-- No two chunks in a row are free. -/
def NoFreePair (s : State) (L : List ℕ) : Prop :=
  ∀ pre a b post, L = pre ++ a :: b :: post → s.isCurrentInuse a = 0 → s.isCurrentInuse b ≠ 0

/-- The chunks before and after `c` are free, the second is not the end of the heap, and with both
of them `c` has less than `request`. -/
def Cramped (s : State) (c request : ℕ) : Prop :=
  s.isPreviousInuse c = 0 ∧ s.isCurrentInuse (s.nextHeapChunk c) = 0 ∧
    s.nextHeapChunk c ≠ s.bin END_OF_HEAP_BIN ∧
    s.chunkSize (s.previousHeapChunk c) + s.chunkSize c + s.chunkSize (s.nextHeapChunk c) + 16 <
      request

section Walk

variable {s : State} {L pre post : List ℕ} {c a b fuel : ℕ}

theorem nextHeapChunk_eq (h : c + s.chunkSize c + 8 < 2 ^ 64) :
    s.nextHeapChunk c = c + s.chunkSize c + 8 := by
  have h1 : add64 c (s.chunkSize c) = c + s.chunkSize c := add64_of_lt (by omega)
  rw [← add64_of_lt h, ← h1]
  rfl

/-- The footer of a chunk leads back to it. -/
theorem previousHeapChunk_eq (h : a + s.chunkSize a + 8 < 2 ^ 64)
    (hfooter : s.load .previousSize (a + s.chunkSize a + 8) = s.chunkSize a) :
    s.previousHeapChunk (a + s.chunkSize a + 8) = a := by
  have h1 : safeSize (s.chunkSize a) = s.chunkSize a := by
    have h2 : s.chunkSize a = s.load .currentSize a / 8 * 8 := safeSize_eq isPtr_load_currentSize
    rw [safeSize_eq (by omega)]
    omega
  have h2 : sub64 (a + s.chunkSize a + 8) (s.chunkSize a) = a + 8 := by
    rw [sub64_of_le (by omega) h]
    omega
  have h3 : sub64 (a + 8) 8 = a := by
    rw [sub64_of_le (by omega) (by omega)]
    omega
  rw [previousHeapChunk, hfooter, h1, h2, h3]

/-- The walk begins at `c`, goes from a chunk to the next one, and ends at the end of the heap. -/
theorem heapWalk_spec (h : s.heapWalk fuel c = some L) :
    (∃ M, L = c :: M) ∧ (∀ pre a, L = pre ++ [a] → a = s.bin END_OF_HEAP_BIN) ∧
      ∀ pre a b post, L = pre ++ a :: b :: post → b = s.nextHeapChunk a := by
  induction fuel generalizing c L with
  | zero => cases h
  | succ fuel ih =>
    rw [heapWalk] at h
    split_ifs at h with hc
    · -- the walk stops: one address, that of the end of the heap
      obtain rfl := Option.some.inj h
      refine ⟨⟨[], rfl⟩, fun pre a hL => ?_, fun pre a b post hL => ?_⟩
      · cases pre with
        | nil => exact (List.head_eq_of_cons_eq hL).symm.trans hc
        | cons x pre => simp at hL
      · have hlen := congrArg List.length hL
        simp only [List.length_cons, List.length_append, List.length_nil] at hlen
        omega
    · -- the walk goes on: a pair is the first two addresses, or a pair of the rest
      obtain ⟨M, hM, rfl⟩ := Option.map_eq_some_iff.mp h
      obtain ⟨⟨N, rfl⟩, hlast, hnext⟩ := ih hM
      refine ⟨⟨_, rfl⟩, fun pre a hL => ?_, fun pre a b post hL => ?_⟩
      · cases pre with
        | nil => simp at hL
        | cons x pre => exact hlast pre a (List.cons.inj hL).2
      · cases pre with
        | nil =>
          obtain ⟨rfl, hN⟩ := List.cons.inj hL
          exact (List.head_eq_of_cons_eq hN).symm
        | cons x pre => exact hnext pre a b post (List.cons.inj hL).2

namespace TagsExact

variable (ht : s.TagsExact L)
include ht

/-- After a chunk in use there is another chunk. -/
theorem exists_next (hc : c ∈ L) (huse : s.isCurrentInuse c ≠ 0) :
    c ≠ s.bin END_OF_HEAP_BIN ∧ ∃ pre post, L = pre ++ c :: s.nextHeapChunk c :: post := by
  have hne : c ≠ s.bin END_OF_HEAP_BIN := fun h => huse (h ▸ ht.top)
  obtain ⟨-, hlast, hnext⟩ := heapWalk_spec ht.walk
  obtain ⟨pre, post, hL⟩ := List.append_of_mem hc
  refine ⟨hne, ?_⟩
  cases post with
  | nil => exact absurd (hlast pre c hL) hne
  | cons b post =>
    obtain rfl := hnext pre c b post hL
    exact ⟨pre, post, hL⟩

theorem lt (hc : c ∈ L) : c + s.chunkSize c + 8 < 2 ^ 64 :=
  lt_of_le_of_lt (ht.within c hc) ht.brk_lt

theorem next_eq (hc : c ∈ L) : s.nextHeapChunk c = c + s.chunkSize c + 8 :=
  nextHeapChunk_eq (ht.lt hc)

/-- Before a chunk whose tag says so there is a free one. -/
theorem exists_previous (hc : c ∈ L) (hfree : s.isPreviousInuse c = 0) :
    ∃ p : ℕ, s.previousHeapChunk c = p ∧ p ∈ L ∧ s.isCurrentInuse p = 0 ∧
      c = p + s.chunkSize p + 8 ∧ IsPtr (s.load .previousSize c) := by
  obtain ⟨⟨M, hM⟩, -, hnext⟩ := heapWalk_spec ht.walk
  obtain ⟨pre, post, hL⟩ := List.append_of_mem hc
  obtain rfl | ⟨pre, a, rfl⟩ := pre.eq_nil_or_concat
  · -- the tag of the first chunk is set
    have h1 : s.firstChunk = c := List.head_eq_of_cons_eq (hM.symm.trans hL)
    exact absurd (h1 ▸ hfree) ht.first
  · rw [List.concat_eq_append, List.append_assoc] at hL
    have ha : a ∈ L := by
      rw [hL]
      simp
    have h1 : s.isCurrentInuse a = 0 := (ht.tag pre a c post hL).mp hfree
    have h2 : c = a + s.chunkSize a + 8 := (hnext pre a c post hL).trans (ht.next_eq ha)
    have hfooter := ht.footer pre a c post hL h1
    have hlt := ht.lt ha
    refine ⟨a, ?_, ha, h1, h2, ?_⟩
    · rw [h2]
      exact previousHeapChunk_eq hlt (h2 ▸ hfooter)
    · rw [hfooter]
      exact (show s.chunkSize a < 2 ^ 64 by omega)

end TagsExact

end Walk

end State

/-! ### The ways to grow -/

/-- The attempt `x` gives up, and has changed nothing, if the chunks are `short` of room; else it
does not return `NULL`. -/
structure Attempt (x : M Addr) (s : State) (short : Prop) : Prop where
  gives_up : short → x s = some (NULL, s)
  succeeds : ¬ short → ∀ p s', x s = some (p, s') → p ≠ NULL

section Attempts

variable {s : State} {c request extensionSize : ℕ}

/-- A statement that reads is passed by computing it. -/
theorem Attempt.bind {α : Type} {x : M α} {f : α → M Addr} {v : α} {short : Prop}
    (hx : x s = some (v, s)) (hf : Attempt (f v) s short) : Attempt (x >>= f) s short := by
  constructor
  · intro hshort
    exact (M.bind_of_run hx).trans (hf.gives_up hshort)
  · intro hshort p s' hrun
    exact hf.succeeds hshort p s' ((M.bind_of_run hx).symm.trans hrun)

theorem Attempt.ite {rest : M Addr} {b short : Prop} [Decidable b] (hb : b ↔ short)
    (hrest : ∀ p s', rest s = some (p, s') → p ≠ NULL) :
    Attempt (if b then pure NULL else rest) s short := by
  constructor
  · intro hshort
    rw [if_pos (hb.mpr hshort)]
    rfl
  · intro hshort p s' hrun
    rw [if_neg (hb.not.mpr hshort)] at hrun
    exact hrest p s' hrun

theorem reallocChunkAndAfter_attempt (hc : chunkToUserPointer c ≠ NULL)
    (hptr : userPointerToChunk (chunkToUserPointer c) = c) :
    Attempt (reallocChunkAndAfter (chunkToUserPointer c) request) s
      (add64 (add64 (s.chunkSize c) (s.chunkSize (s.nextHeapChunk c))) 8 < request ∨
        s.nextHeapChunk c = s.bin END_OF_HEAP_BIN) := by
  unfold reallocChunkAndAfter
  rw [hptr]
  refine .bind (nextHeapChunk_apply s c) ?_
  refine .bind (look_apply s _) ?_
  refine .bind (isEndOfHeap_apply s _) ?_
  refine .ite (or_congr_right decide_eq_true_iff) fun p s' hrun => ?_
  obtain ⟨_, _, -, hrun⟩ := M.bind_eq_some.mp hrun
  obtain ⟨_, _, -, hrun⟩ := M.bind_eq_some.mp hrun
  obtain ⟨_, _, -, hrun⟩ := M.bind_eq_some.mp hrun
  exact (Prod.mk.inj (Option.some.inj hrun)).1 ▸ hc

theorem reallocChunkBeforeAndAfter_attempt (hfooter : IsPtr (s.load .previousSize c))
    (hp : chunkToUserPointer (s.previousHeapChunk c) ≠ NULL)
    (hptr : userPointerToChunk (chunkToUserPointer c) = c) :
    Attempt (reallocChunkBeforeAndAfter (chunkToUserPointer c) request) s
      (add64 (add64 (add64 (s.chunkSize c) (s.chunkSize (s.previousHeapChunk c)))
        (s.chunkSize (s.nextHeapChunk c))) (2 * 8) < request ∨
        s.nextHeapChunk c = s.bin END_OF_HEAP_BIN) := by
  unfold reallocChunkBeforeAndAfter
  rw [hptr]
  refine .bind (previousHeapChunk_apply s c hfooter) ?_
  refine .bind (nextHeapChunk_apply s c) ?_
  refine .bind (chunkSize_apply s _) ?_
  refine .bind (chunkSize_apply s _) ?_
  refine .bind (chunkSize_apply s _) ?_
  refine .bind (isEndOfHeap_apply s _) ?_
  refine .ite (or_congr_right decide_eq_true_iff) fun p s' hrun => ?_
  obtain ⟨_, _, -, hrun⟩ := M.bind_eq_some.mp hrun
  obtain ⟨_, _, -, hrun⟩ := M.bind_eq_some.mp hrun
  obtain ⟨_, _, -, hrun⟩ := M.bind_eq_some.mp hrun
  obtain ⟨_, _, -, hrun⟩ := M.bind_eq_some.mp hrun
  obtain ⟨_, _, -, hrun⟩ := M.bind_eq_some.mp hrun
  exact (Prod.mk.inj (Option.some.inj hrun)).1 ▸ hp

theorem reallocChunkAndBefore_attempt (hfooter : IsPtr (s.load .previousSize c))
    (hp : chunkToUserPointer (s.previousHeapChunk c) ≠ NULL)
    (hptr : userPointerToChunk (chunkToUserPointer c) = c) :
    Attempt (reallocChunkAndBefore (chunkToUserPointer c) request) s
      (add64 (add64 (s.chunkSize (s.previousHeapChunk c)) (s.chunkSize c)) 8 < request) := by
  unfold reallocChunkAndBefore
  rw [hptr]
  refine .bind (previousHeapChunk_apply s c hfooter) ?_
  refine .bind (look_apply s _) ?_
  refine .ite Iff.rfl fun p s' hrun => ?_
  obtain ⟨_, _, -, hrun⟩ := M.bind_eq_some.mp hrun
  obtain ⟨_, _, -, hrun⟩ := M.bind_eq_some.mp hrun
  obtain ⟨_, _, -, hrun⟩ := M.bind_eq_some.mp hrun
  obtain ⟨_, _, -, hrun⟩ := M.bind_eq_some.mp hrun
  exact (Prod.mk.inj (Option.some.inj hrun)).1 ▸ hp

/-- One attempt after another: the next ones are made if this one gives up or is not made. -/
theorem stops_attempt {v : Bool} {x : Asserting Addr} {y : M Addr} {k : Addr → Asserting Addr}
    {short later : Prop} (hpass : v = true → ∀ k : Addr → Asserting Addr,
      Stops (x >>= k) s ↔ Stops (liftM y >>= k) s)
    (hy : v = true → Attempt y s short) (hk : Stops (k NULL) s ↔ later) :
    Stops (if v then x >>= fun p => if p ≠ NULL then pure p else k p
      else if NULL ≠ NULL then pure NULL else k NULL) s ↔ (v = true → short) ∧ later := by
  rw [← hk]
  cases v with
  | false => simp
  | true =>
    rw [if_pos rfl, hpass rfl]
    by_cases hshort : short
    · rw [stops_lift_bind ((hy rfl).gives_up hshort), if_neg (by simp)]
      simp [hshort]
    · have hno : ¬ Stops (liftM y >>= fun p => if p ≠ NULL then pure p else k p) s := by
        rw [stops_bind]
        rintro (h | ⟨p, t, h1, h2⟩)
        · exact not_stops_lift h
        · rw [if_pos ((hy rfl).succeeds hshort p t (Erases.lift h1))] at h2
          exact not_stops_pure h2
      exact iff_of_false hno fun h => hshort (h.1 rfl)

/-- The last attempt. -/
theorem not_stops_attempt {v : Bool} {x : Asserting Addr} {y : M Addr} {k : Addr → M Addr}
    (hpass : v = true → ∀ k : Addr → Asserting Addr, Stops (x >>= k) s ↔ Stops (liftM y >>= k) s) :
    ¬ Stops (if v then x >>= fun p => if p ≠ NULL then pure p else liftM (k p)
      else if NULL ≠ NULL then pure NULL else liftM (k NULL)) s := by
  cases v with
  | false => exact not_stops_lift
  | true =>
    rw [if_pos rfl, hpass rfl, stops_bind]
    rintro (h | ⟨p, t, -, h⟩)
    · exact not_stops_lift h
    · split_ifs at h
      · exact not_stops_pure h
      · exact not_stops_lift h

/-! ### The whole call -/

theorem stops_reallocChunkAndAfter {ptr : Addr} {k : Addr → Asserting Addr}
    (hnext : s.isCurrentInuse (s.nextHeapChunk (userPointerToChunk ptr)) = 0)
    (huse : s.isCurrentInuse (userPointerToChunk ptr) ≠ 0) :
    Stops (Asserting.reallocChunkAndAfter ptr request >>= k) s ↔
      Stops (liftM (reallocChunkAndAfter ptr request) >>= k) s := by
  unfold Asserting.reallocChunkAndAfter
  simp only [bind_assoc]
  refine (stops_assertOr_bind (by exact hnext)).trans ?_
  exact stops_assertOr_bind (by exact huse)

theorem stops_reallocChunkBeforeAndAfter {ptr : Addr} {k : Addr → Asserting Addr}
    (hprev : s.isPreviousInuse (userPointerToChunk ptr) = 0)
    (hnext : s.isCurrentInuse (s.nextHeapChunk (userPointerToChunk ptr)) = 0)
    (huse : s.isCurrentInuse (userPointerToChunk ptr) ≠ 0) :
    Stops (Asserting.reallocChunkBeforeAndAfter ptr request >>= k) s ↔
      Stops (liftM (reallocChunkBeforeAndAfter ptr request) >>= k) s := by
  unfold Asserting.reallocChunkBeforeAndAfter
  simp only [bind_assoc]
  refine (stops_assertOr_bind (by exact hprev)).trans ?_
  refine (stops_assertOr_bind (by exact huse)).trans ?_
  exact stops_assertOr_bind (by exact hnext)

theorem stops_reallocChunkAndBefore {ptr : Addr} {k : Addr → Asserting Addr}
    (hprev : s.isPreviousInuse (userPointerToChunk ptr) = 0)
    (hnext : s.isCurrentInuse (s.nextHeapChunk (userPointerToChunk ptr)) ≠ 0)
    (huse : s.isCurrentInuse (userPointerToChunk ptr) ≠ 0) :
    Stops (Asserting.reallocChunkAndBefore ptr request >>= k) s ↔
      Stops (liftM (reallocChunkAndBefore ptr request) >>= k) s := by
  unfold Asserting.reallocChunkAndBefore
  simp only [bind_assoc]
  refine (stops_assertOr_bind (by exact hprev)).trans ?_
  refine (stops_assertOr_bind (by exact huse)).trans ?_
  exact stops_assertOr_bind (by exact hnext)

theorem stops_reallocChunkAfterExtendHeap {ptr : Addr} {k : Addr → Asserting Addr}
    (hend : s.nextHeapChunk (userPointerToChunk ptr) = s.bin END_OF_HEAP_BIN)
    (hnext : s.isCurrentInuse (s.nextHeapChunk (userPointerToChunk ptr)) = 0)
    (huse : s.isCurrentInuse (userPointerToChunk ptr) ≠ 0) :
    Stops (Asserting.reallocChunkAfterExtendHeap extensionSize ptr request >>= k) s ↔
      Stops (liftM (reallocChunkAfterExtendHeap extensionSize ptr request) >>= k) s := by
  unfold Asserting.reallocChunkAfterExtendHeap
  simp only [bind_assoc]
  refine (stops_assertOr_bind (by exact huse)).trans ?_
  refine (stops_assertOr_bind (by exact hnext)).trans ?_
  exact stops_assertOr_bind (by exact hend)

theorem stops_of_reallocChunkAndBefore {ptr : Addr} {k : Addr → Asserting Addr}
    (hprev : s.isPreviousInuse (userPointerToChunk ptr) = 0)
    (hnext : s.isCurrentInuse (s.nextHeapChunk (userPointerToChunk ptr)) = 0)
    (huse : s.isCurrentInuse (userPointerToChunk ptr) ≠ 0) :
    Stops (Asserting.reallocChunkAndBefore ptr request >>= k) s := by
  unfold Asserting.reallocChunkAndBefore
  simp only [bind_assoc]
  refine (stops_assertOr_bind (by exact hprev)).mpr ?_
  refine (stops_assertOr_bind (by exact huse)).mpr ?_
  exact stops_assertOr_of_not (by simpa using hnext)

/-- What there is around a chunk in use, and how the code sees it. -/
structure Around (s : State) (c n : ℕ) : Prop where
  use : s.isCurrentInuse c ≠ 0
  next : s.nextHeapChunk c = n
  pointer : userPointerToChunk (chunkToUserPointer c) = c
  after : chunkToUserPointer c ≠ NULL
  footer : s.isPreviousInuse c = 0 → IsPtr (s.load .previousSize c)
  before : s.isPreviousInuse c = 0 → chunkToUserPointer (s.previousHeapChunk c) ≠ NULL
  combine : canCombineNext c s = some (decide (s.isCurrentInuse n = 0), s)

/-- A growing reallocation stops at an assertion if and only if the first two attempts are not made
or give up, and the third one is made before a free chunk. -/
theorem Around.stops_iff {n : ℕ} (h : Around s c n) :
    Stops (Asserting.reallocChunkIsLarger extensionSize (chunkToUserPointer c) request) s ↔
      (decide (s.isCurrentInuse n = 0) = true →
        add64 (add64 (s.chunkSize c) (s.chunkSize n)) 8 < request ∨ n = s.bin END_OF_HEAP_BIN) ∧
      ((decide (s.isPreviousInuse c = 0) && decide (s.isCurrentInuse n = 0)) = true →
        add64 (add64 (add64 (s.chunkSize c) (s.chunkSize (s.previousHeapChunk c))) (s.chunkSize n))
          (2 * 8) < request ∨ n = s.bin END_OF_HEAP_BIN) ∧
      (decide (s.isPreviousInuse c = 0) && !decide (n = s.bin END_OF_HEAP_BIN)) = true ∧
        s.isCurrentInuse n = 0 := by
  have huse := h.use
  have hnext := h.next
  have hptr := h.pointer
  have hprev : canCombinePrevious c s = some (decide (s.isPreviousInuse c = 0), s) := rfl
  have hend : isEndOfHeap n s = some (decide (n = s.bin END_OF_HEAP_BIN), s) := rfl
  have hread : nextHeapChunk c s = some (n, s) := hnext ▸ nextHeapChunk_apply s c
  have hafter (hv : decide (s.isCurrentInuse n = 0) = true) (k : Addr → Asserting Addr) :
      Stops (Asserting.reallocChunkAndAfter (chunkToUserPointer c) request >>= k) s ↔
        Stops (liftM (reallocChunkAndAfter (chunkToUserPointer c) request) >>= k) s :=
    stops_reallocChunkAndAfter (by rw [hptr, hnext]; exact of_decide_eq_true hv) (by rwa [hptr])
  have haround (hv : (decide (s.isPreviousInuse c = 0) && decide (s.isCurrentInuse n = 0)) = true) :
      s.isPreviousInuse c = 0 ∧ s.isCurrentInuse n = 0 := by simpa using hv
  have haround' (hv : (decide (s.isPreviousInuse c = 0) && decide (s.isCurrentInuse n = 0)) = true)
      (k : Addr → Asserting Addr) :
      Stops (Asserting.reallocChunkBeforeAndAfter (chunkToUserPointer c) request >>= k) s ↔
        Stops (liftM (reallocChunkBeforeAndAfter (chunkToUserPointer c) request) >>= k) s :=
    stops_reallocChunkBeforeAndAfter (by rw [hptr]; exact (haround hv).1)
      (by rw [hptr, hnext]; exact (haround hv).2) (by rwa [hptr])
  have htop (hv : (decide (s.isCurrentInuse n = 0) && decide (n = s.bin END_OF_HEAP_BIN)) = true)
      (k : Addr → Asserting Addr) :
      Stops (Asserting.reallocChunkAfterExtendHeap extensionSize (chunkToUserPointer c) request >>=
        k) s ↔ Stops (liftM (reallocChunkAfterExtendHeap extensionSize (chunkToUserPointer c)
          request) >>= k) s := by
    have hboth : s.isCurrentInuse n = 0 ∧ n = s.bin END_OF_HEAP_BIN := by simpa using hv
    exact stops_reallocChunkAfterExtendHeap (by rw [hptr, hnext]; exact hboth.2)
      (by rw [hptr, hnext]; exact hboth.1) (by rwa [hptr])
  unfold Asserting.reallocChunkIsLarger Growth.reallocChunkIsLarger
  simp only [hptr, Asserting.growth]
  refine (stops_lift_bind h.combine).trans ?_
  refine stops_attempt (k := fun p => _) hafter
    (fun _ => hnext ▸ reallocChunkAndAfter_attempt h.after hptr) ?_
  refine (stops_lift_bind hprev).trans ((stops_lift_bind h.combine).trans ?_)
  refine stops_attempt (k := fun p => _) haround'
    (fun hv => hnext ▸ reallocChunkBeforeAndAfter_attempt (h.footer (haround hv).1)
      (h.before (haround hv).1) hptr) ?_
  refine (stops_lift_bind hprev).trans ((stops_lift_bind hread).trans
    ((stops_lift_bind hend).trans ?_))
  cases hv : (decide (s.isPreviousInuse c = 0) && !decide (n = s.bin END_OF_HEAP_BIN)) with
  | false =>
    simp only [Bool.false_eq_true, false_and, iff_false, if_false, ne_eq, not_true_eq_false]
    rw [stops_lift_bind h.combine, stops_lift_bind hread, stops_lift_bind hend]
    exact not_stops_attempt htop
  | true =>
    have hpf : s.isPreviousInuse c = 0 ∧ n ≠ s.bin END_OF_HEAP_BIN := by simpa using hv
    by_cases hfree : s.isCurrentInuse n = 0
    · -- the third attempt is made before a free chunk
      refine iff_of_true ?_ ⟨rfl, hfree⟩
      rw [if_pos rfl]
      exact stops_of_reallocChunkAndBefore (by rw [hptr]; exact hpf.1) (by rwa [hptr, hnext])
        (by rwa [hptr])
    · refine iff_of_false ?_ fun h => hfree h.2
      have hbefore (k : Addr → Asserting Addr) :
          Stops (Asserting.reallocChunkAndBefore (chunkToUserPointer c) request >>= k) s ↔
            Stops (liftM (reallocChunkAndBefore (chunkToUserPointer c) request) >>= k) s :=
        stops_reallocChunkAndBefore (by rw [hptr]; exact hpf.1) (by rwa [hptr, hnext])
          (by rwa [hptr])
      intro hstop
      refine ((stops_attempt (k := fun p => _) (fun _ => hbefore)
        (fun _ => reallocChunkAndBefore_attempt (h.footer hpf.1) (h.before hpf.1) hptr)
        (iff_of_false ?_ not_false)).mp hstop).2
      rw [stops_lift_bind h.combine, stops_lift_bind hread, stops_lift_bind hend]
      exact not_stops_attempt htop

theorem State.TagsExact.around {L : List ℕ} (ht : s.TagsExact L) (hc : c ∈ L)
    (huse : s.isCurrentInuse c ≠ 0) : Around s c (s.nextHeapChunk c) := by
  -- a chunk in use is not the end of the heap, so one follows
  obtain ⟨hne, pre, post, hL⟩ := ht.exists_next hc huse
  have hnL : s.nextHeapChunk c ∈ L := by
    rw [hL]
    simp
  have hlt : c + 16 < 2 ^ 64 := by
    have h1 := ht.lt hnL
    rw [ht.next_eq hc] at h1
    omega
  have hup : chunkToUserPointer c = c + 16 := add64_of_lt hlt
  refine ⟨huse, rfl, ?_, ?_, fun hprev => ?_, fun hprev => ?_, ?_⟩
  · rw [hup]
    exact (sub64_of_le (by omega) hlt).trans (by omega)
  · rw [hup]
    exact Nat.succ_ne_zero _
  · obtain ⟨p, -, -, -, -, hfooter⟩ := ht.exists_previous hc hprev
    exact hfooter
  · obtain ⟨p, hp, -, -, hpc, -⟩ := ht.exists_previous hc hprev
    rw [hp]
    rw [show chunkToUserPointer p = p + 16 from add64_of_lt (by omega)]
    exact Nat.succ_ne_zero _
  · refine (M.bind_of_run (isEndOfHeap_apply s c)).trans ?_
    rw [if_neg (by simpa using hne)]
    exact M.bind_of_run (nextHeapChunk_apply s c)

/-- With exact tags a growing reallocation of a block stops at an assertion if and only if its chunk
is cramped. -/
theorem stops_reallocChunkIsLarger_iff {L : List ℕ} (ht : s.TagsExact L) (hc : c ∈ L)
    (huse : s.isCurrentInuse c ≠ 0) :
    Stops (Asserting.reallocChunkIsLarger extensionSize (chunkToUserPointer c) request) s ↔
      s.Cramped c request := by
  obtain ⟨-, pre, post, hL⟩ := ht.exists_next hc huse
  have hnL : s.nextHeapChunk c ∈ L := by
    rw [hL]
    simp
  obtain ⟨n, hn⟩ : ∃ n : ℕ, s.nextHeapChunk c = n := ⟨_, rfl⟩
  have hnc : n = c + s.chunkSize c + 8 := hn.symm.trans (ht.next_eq hc)
  have hnlt : n + s.chunkSize n + 8 < 2 ^ 64 := ht.lt (hn ▸ hnL)
  rw [(ht.around hc huse).stops_iff, State.Cramped, hn]
  by_cases hprev : s.isPreviousInuse c = 0
  · obtain ⟨p, hp, -, -, hpc, -⟩ := ht.exists_previous hc hprev
    rw [hp]
    -- the sums of the code do not wrap
    have h1 : add64 (s.chunkSize c) (s.chunkSize n) = s.chunkSize c + s.chunkSize n :=
      add64_of_lt (by omega)
    have h2 : add64 (s.chunkSize c + s.chunkSize n) 8 = s.chunkSize c + s.chunkSize n + 8 :=
      add64_of_lt (by omega)
    have h3 : add64 (s.chunkSize c) (s.chunkSize p) = s.chunkSize c + s.chunkSize p :=
      add64_of_lt (by omega)
    have h4 : add64 (s.chunkSize c + s.chunkSize p) (s.chunkSize n) =
      s.chunkSize c + s.chunkSize p + s.chunkSize n := add64_of_lt (by omega)
    have h5 : add64 (s.chunkSize c + s.chunkSize p + s.chunkSize n) (2 * 8) =
      s.chunkSize c + s.chunkSize p + s.chunkSize n + 2 * 8 := add64_of_lt (by omega)
    rw [h1, h2, h3, h4, h5]
    by_cases hfree : s.isCurrentInuse n = 0
    · by_cases hend : n = s.bin END_OF_HEAP_BIN
      · simp [hend]
      · simp only [hprev, hfree, hend, decide_true, Bool.and_self, or_false, true_implies,
          decide_false, Bool.not_false, and_true, ne_eq, not_false_eq_true, true_and]
        omega
    · simp [hfree]
  · simp [hprev]

end Attempts

section Reallocations

open Heap

variable {ext : ℕ} {s : State} {h : Heap} {c : ℕ}

/-- In memory that holds a heap with full tags, the tags are exact and no two free chunks adjoin. -/
theorem Models.tagsExact (hm : Models s h) (hi : Inv True ext h) :
    s.TagsExact (h.chunks.map Chunk.addr) ∧ s.NoFreePair (h.chunks.map Chunk.addr) := by
  have hs := hi.shape
  have hr := hm.toRep
  have htags := tags_iff.mp hi.tags
  obtain ⟨pre, t, hL, ht, htop, -⟩ := hs.exists_top
  have htm : t ∈ h.chunks := by simp [hL]
  -- two neighbours on the walk are two neighbours of the row
  have hpair : ∀ pre a b post, h.chunks.map Chunk.addr = pre ++ a :: b :: post →
      (s.isPreviousInuse b = 0 ↔ s.isCurrentInuse a = 0) ∧ (s.isCurrentInuse a = 0 →
        s.load .previousSize b = s.chunkSize a ∧ s.isCurrentInuse b ≠ 0) := by
    intro pre a b post hab
    obtain ⟨pre', c, d, post', hL', rfl, rfl, hct⟩ := hs.neighbours hab
    have hc : c ∈ h.chunks := Shape.mem_chunks hL'
    have hd : d ∈ h.chunks := by simp [hL']
    obtain ⟨h1, h2⟩ := htags (pre' ++ [c]) d post' (by simp [hL'])
    rw [lastFree_concat, decide_eq_true_eq] at h1 h2
    have hfree : s.isCurrentInuse c.addr = 0 ↔ c.status = .free := by
      rw [hr.isCurrentInuse_eq_zero hs hc]
      cases hst : c.status <;> simp_all
    rw [hr.isPreviousInuse_eq_zero hs hd, hfree]
    refine ⟨⟨h1, fun hst => (h2 trivial hst).1⟩, fun hst => ⟨?_, ?_⟩⟩
    · rw [(hr.footer_eq hs hL' hst).1, hr.chunkSize hs hc]
    · rw [ne_eq, hr.isCurrentInuse_eq_zero hs hd, not_not]
      exact (h2 trivial hst).2
  refine ⟨⟨hm.heapChunks_eq hs, ?_, fun a ha => ?_, ?_, ?_, ?_, ?_⟩, ?_⟩
  · have h1 := hs.arena.brk_le
    have h2 := hs.arena.span
    rw [hr.memBrk]
    exact (by omega : h.brk < 2 ^ 64)
  · obtain ⟨d, hd, rfl⟩ := List.mem_map.mp ha
    have h1 := (hs.bounds hd).2
    rw [hr.chunkSize hs hd, hr.memBrk]
    exact (Nat.le_add_right _ 8).trans h1
  · rw [hm.top, htop]
    exact (hr.isCurrentInuse_eq_zero hs htm).mpr (by simp [ht])
  · obtain ⟨d, L, hd⟩ := List.exists_cons_of_ne_nil (List.ne_nil_of_mem htm)
    have hdm : d ∈ h.chunks := by simp [hd]
    have hfirst : d.addr = h.first := by
      have h1 := hs.tiles
      rw [hd] at h1
      exact h1.1
    rw [hr.firstChunk_eq hs, ← hfirst, ne_eq, hr.isPreviousInuse_eq_zero hs hdm]
    exact fun hp => Bool.false_ne_true ((htags [] d L hd).1 hp)
  · exact fun pre a b post hab => (hpair pre a b post hab).1
  · exact fun pre a b post hab ha => ((hpair pre a b post hab).2 ha).1
  · exact fun pre a b post hab ha => ((hpair pre a b post hab).2 ha).2

variable {L : List ℕ} {size : ℕ}

/-- **A growing reallocation fails no assertion** on the chunks around the block if and only if the
chunk of the block is not cramped. -/
theorem realloc_assertions_hold_iff (ht : s.TagsExact L) (hc : c ∈ L)
    (huse : s.isCurrentInuse c ≠ 0) (hlarger : s.chunkSize c < requestSize size) :
    ¬ Stops (Asserting.myRealloc ext (chunkToUserPointer c) size) s ↔
      ¬ s.Cramped c (requestSize size) := by
  refine not_congr (Growth.stops_myRealloc.trans ?_)
  rw [(ht.around hc huse).pointer, and_iff_right hlarger]
  exact stops_reallocChunkIsLarger_iff ht hc huse

/-- Four small blocks, of which the first and the third are freed. -/
theorem exists_run_twoGaps : ∃ y,
    Run EXTENSION_SIZE (Coalesces LARGEST_SIZE) (.blank 16)
      [.call (.malloc 24), .call (.malloc 24), .call (.malloc 24), .call (.malloc 24),
        .call (.free 0), .call (.free 1)] [32, 64, 96, 128, 0, 0] y ∧
    ∃ h, Models y.state h ∧ Inv True EXTENSION_SIZE h ∧ h.chunks = [⟨16, 24, .free, true⟩,
      ⟨48, 24, .inuse, false⟩, ⟨80, 24, .free, true⟩, ⟨112, 24, .inuse, false⟩,
      ⟨144, 39056, .top, true⟩] := by
  obtain ⟨-, ht⟩ := tracks_blank EXTENSION_SIZE (b := 16) (by decide) (by decide)
  obtain ⟨y, hrun, -⟩ := ht.exists_run (Coalesces LARGEST_SIZE) (N := LARGEST_SIZE)
    [.malloc 24, .malloc 24, .malloc 24, .malloc 24, .free 0, .free 1] extension_default (by decide)
    (by decide +kernel) fun y c hc hval => ⟨hval, by
      simp only [List.mem_cons, List.not_mem_nil, or_false] at hc
      rcases hc with rfl | rfl | rfl | rfl | rfl | rfl <;> exact not_false⟩
  obtain ⟨ht', hps⟩ := hrun.tracks ht extension_default (N := LARGEST_SIZE) (by decide)
    (fun _ _ h => h.1) fun _ _ _ h => h.2
  rw [hps] at hrun
  refine ⟨y, hrun, _, ht'.follows.models, ht'.good.inv, ?_⟩
  decide +kernel

/-- The last of the four blocks, before the end of the heap, can grow. -/
theorem realloc_assertions_hold_iff_twoGaps : ∃ y,
    Reachable EXTENSION_SIZE (Coalesces LARGEST_SIZE) y ∧
    (¬ Stops (Asserting.myRealloc EXTENSION_SIZE (chunkToUserPointer 112) 1000) y.state ↔
      ¬ y.state.Cramped 112 (requestSize 1000)) := by
  obtain ⟨y, hrun, h, hm, hi, hL⟩ := exists_run_twoGaps
  have hmem : (⟨112, 24, .inuse, false⟩ : Chunk) ∈ h.chunks := by simp [hL]
  refine ⟨y, ⟨_, _, _, (tracks_blank EXTENSION_SIZE (b := 16) (by decide) (by decide)).1, hrun⟩, ?_⟩
  refine realloc_assertions_hold_iff (hm.tagsExact hi).1 (List.mem_map_of_mem hmem) ?_ ?_
  · exact (hm.toRep.isCurrentInuse_eq_zero hi.shape hmem).not.mpr (by simp)
  · rw [hm.toRep.chunkSize hi.shape hmem]
    decide

/-- Between the two gaps, too small even together, the second block cannot. -/
theorem not_always_assertions_hold : ∃ y L,
    Reachable EXTENSION_SIZE (Coalesces LARGEST_SIZE) y ∧ y.state.TagsExact L ∧
    y.state.NoFreePair L ∧ 48 ∈ L ∧ y.state.isCurrentInuse 48 ≠ 0 ∧ 1000 ≤ LARGEST_SIZE ∧
    y.state.chunkSize 48 < requestSize 1000 ∧
    Stops (Asserting.myRealloc EXTENSION_SIZE (chunkToUserPointer 48) 1000) y.state := by
  obtain ⟨y, hrun, h, hm, hi, hL⟩ := exists_run_twoGaps
  obtain ⟨htags, hpair⟩ := hm.tagsExact hi
  have hs := hi.shape
  have hr := hm.toRep
  have hmem : (⟨48, 24, .inuse, false⟩ : Chunk) ∈ h.chunks := by simp [hL]
  have hbefore : (⟨16, 24, .free, true⟩ : Chunk) ∈ h.chunks := by simp [hL]
  have hafter : (⟨80, 24, .free, true⟩ : Chunk) ∈ h.chunks := by simp [hL]
  have hlist := List.mem_map_of_mem (f := Chunk.addr) hmem
  have huse : y.state.isCurrentInuse 48 ≠ 0 := (hr.isCurrentInuse_eq_zero hs hmem).not.mpr (by simp)
  have hlt : y.state.chunkSize 48 < requestSize 1000 := by
    rw [hr.chunkSize hs hmem]
    decide
  have hrow : h.chunks = [] ++ (⟨16, 24, .free, true⟩ : Chunk) :: ⟨48, 24, .inuse, false⟩ :: _ := hL
  have hprev : y.state.previousHeapChunk 48 = 16 := (hr.footer_eq hs hrow rfl).2
  have hnext : y.state.nextHeapChunk 48 = 80 := hr.nextHeapChunk hs hmem
  -- the chunk between the two gaps, too small with both
  refine ⟨y, _, ⟨_, _, _, (tracks_blank EXTENSION_SIZE (b := 16) (by decide) (by decide)).1, hrun⟩,
    htags, hpair, hlist, huse, by decide, hlt, ?_⟩
  refine Growth.stops_myRealloc.mpr ?_
  rw [(htags.around hlist huse).pointer, and_iff_right hlt]
  refine (stops_reallocChunkIsLarger_iff htags hlist huse).mpr ?_
  rw [State.Cramped, hprev, hnext]
  refine ⟨?_, ?_, ?_, ?_⟩
  · exact (hr.isPreviousInuse_eq_zero hs hmem).mpr rfl
  · exact (hr.isCurrentInuse_eq_zero hs hafter).mpr (by simp)
  · have h1 := hm.isEndOfHeap hs hafter
    rw [isEndOfHeap_apply] at h1
    exact fun h2 => by simp [h2] at h1
  · rw [hr.chunkSize hs hmem, hr.chunkSize hs hbefore, hr.chunkSize hs hafter]
    decide

end Reallocations

end Dlmalloc
