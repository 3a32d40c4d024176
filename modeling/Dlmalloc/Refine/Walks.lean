import Dlmalloc.Refine.TreeBin

/-!
# What the walks visit

The loops that walk down a tree in memory go along a path of it, so they visit no more nodes than it
is high: the insertion walk, the two descents to a leaf, and the two searches. The loop round the
huge list goes through its members once, up to the last one or to one of the size asked for.

The chunks that a loop visits are the ones it reads: in another state in which their records are the
same it does the same (`descendToLeafVisits_local` and the others). Only `find_best_chunk` reads
more, the sizes of the right children of the nodes on its path.
-/

namespace Dlmalloc

open DigitTree

/-! ### Steps of a run -/

section Steps

variable {α : Type} {s : State} {f : Field} {c v : ℕ}

/-- A load that has an outcome has the same one where the record is the same. -/
theorem load_bind_local {k : ℕ → M α} {r : α × State} (hrun : (load f c >>= k) s = some r) :
    k (s.load f c) s = some r ∧ ∀ s' : State, s'.load f c = s.load f c →
      (load f c >>= k) s' = k (s.load f c) s' := by
  obtain ⟨v, s₁, hload, hk⟩ := M.bind_eq_some.mp hrun
  obtain ⟨hp, rfl, rfl⟩ := load_eq_some hload
  exact ⟨hk, fun s' h => M.bind_of_run (load_of_eq s' h hp)⟩

/-- A run that begins with a load goes on with what the field holds. -/
theorem load_bind {k : ℕ → M α} {r : α × State} (hrun : (load f c >>= k) s = some r) :
    k (s.load f c) s = some r :=
  (load_bind_local hrun).1

theorem chunkSize_bind {k : ℕ → M α} : (chunkSize c >>= k) s = k (s.chunkSize c) s := rfl

theorem store_bind {k : Unit → M α} : (store f c v >>= k) s = k () (s.store f c v) := rfl

end Steps

/-! ### What the walks read -/

/-- The records of the chunks `l` are the same in both states. -/
def SameAt (l : List Addr) (s s' : State) : Prop :=
  ∀ a ∈ l, ∀ f : Field, s'.load f a = s.load f a

section Local

variable {s s' t : State} {c i fuel size best request start o : ℕ} {l visits : List ℕ}

theorem SameAt.head (h : SameAt (c :: l) s s') (f : Field) : s'.load f c = s.load f c :=
  h c List.mem_cons_self f

theorem SameAt.tail (h : SameAt (c :: l) s s') : SameAt l s s' :=
  fun a ha => h a (List.mem_cons_of_mem _ ha)

theorem SameAt.chunkSize (h : SameAt (c :: l) s s') : s'.chunkSize c = s.chunkSize c := by
  rw [State.chunkSize, h.head, State.chunkSize]

/-- A descent to a leaf reads the nodes it visits and nothing else. -/
theorem descendToLeafVisits_local
    (hrun : descendToLeafVisits i fuel c s = some ((o, visits), t)) (h : SameAt visits s s') :
    descendToLeafVisits i fuel c s' = some ((o, visits), s') := by
  induction fuel generalizing c o visits t with
  | zero => cases hrun
  | succ fuel ih =>
    rw [descendToLeafVisits] at hrun ⊢
    by_cases hc : c = NULL
    · rw [if_pos hc] at hrun ⊢
      obtain ⟨heq, -⟩ := M.pure_eq_some hrun
      rw [heq]
      rfl
    rw [if_neg hc] at hrun ⊢
    -- both children are read, at the node visited
    obtain ⟨hrun, hfirst⟩ := load_bind_local hrun
    obtain ⟨hrun, hsecond⟩ := load_bind_local hrun
    by_cases hsome : s.load (.child i) c ≠ NULL ∨ s.load (.child (1 - i)) c ≠ NULL
    · rw [if_pos hsome] at hrun
      obtain ⟨⟨leaf, l⟩, s₁, hrec, hret⟩ := M.bind_eq_some.mp hrun
      obtain ⟨rfl, rfl⟩ := Prod.mk.inj (M.pure_eq_some hret).1
      rw [hfirst s' (h.head _), hsecond s' (h.head _), if_pos hsome,
        M.bind_of_run (ih hrec h.tail)]
      rfl
    · rw [if_neg hsome] at hrun
      obtain ⟨rfl, rfl⟩ := Prod.mk.inj (M.pure_eq_some hrun).1
      rw [hfirst s' (h.head _), hsecond s' (h.head _), if_neg hsome]
      rfl

/-- The walk to the smallest chunk reads the nodes it visits and nothing else. -/
theorem smallestChunkLoopVisits_local
    (hrun : smallestChunkLoopVisits fuel c best size s = some ((o, visits), t))
    (h : SameAt visits s s') :
    smallestChunkLoopVisits fuel c best size s' = some ((o, visits), s') := by
  induction fuel generalizing c best size o visits t with
  | zero => cases hrun
  | succ fuel ih =>
    rw [smallestChunkLoopVisits] at hrun ⊢
    by_cases hc : c = NULL
    · rw [if_pos hc] at hrun ⊢
      obtain ⟨heq, -⟩ := M.pure_eq_some hrun
      rw [heq]
      rfl
    rw [if_neg hc] at hrun ⊢
    rw [chunkSize_bind] at hrun ⊢
    -- both children are read, at the node visited
    obtain ⟨hrun, hchild0⟩ := load_bind_local hrun
    obtain ⟨hrun, hchild1⟩ := load_bind_local hrun
    by_cases hsize : s.chunkSize c < size
    · rw [if_pos hsize] at hrun
      obtain ⟨⟨_, l⟩, s₁, hrec, hret⟩ := M.bind_eq_some.mp hrun
      obtain ⟨rfl, rfl⟩ := Prod.mk.inj (M.pure_eq_some hret).1
      rw [h.chunkSize, hchild0 s' (h.head _), hchild1 s' (h.head _), if_pos hsize,
        M.bind_of_run (ih hrec h.tail)]
      rfl
    · rw [if_neg hsize] at hrun
      obtain ⟨⟨_, l⟩, s₁, hrec, hret⟩ := M.bind_eq_some.mp hrun
      obtain ⟨rfl, rfl⟩ := Prod.mk.inj (M.pure_eq_some hret).1
      rw [h.chunkSize, hchild0 s' (h.head _), hchild1 s' (h.head _), if_neg hsize,
        M.bind_of_run (ih hrec h.tail)]
      rfl

/-- The loop round the huge list reads the members it visits and nothing else. -/
theorem hugeMallocLoopVisits_local
    (hrun : hugeMallocLoopVisits request start fuel c best size s = some ((o, visits), t))
    (h : SameAt visits s s') :
    hugeMallocLoopVisits request start fuel c best size s' = some ((o, visits), s') := by
  induction fuel generalizing c best size o visits t with
  | zero => cases hrun
  | succ fuel ih =>
    rw [hugeMallocLoopVisits] at hrun ⊢
    rw [chunkSize_bind] at hrun ⊢
    by_cases hfit : request ≤ s.chunkSize c ∧ s.chunkSize c < size
    · rw [if_pos hfit] at hrun
      by_cases heq : s.chunkSize c = request
      · -- a chunk of the size asked for ends the search
        rw [if_pos heq] at hrun
        obtain ⟨rfl, rfl⟩ := Prod.mk.inj (M.pure_eq_some hrun).1
        rw [h.chunkSize, if_pos hfit, if_pos heq]
        rfl
      rw [if_neg heq] at hrun
      obtain ⟨hrun, hnext⟩ := load_bind_local hrun
      by_cases hlast : s.load .next c = start
      · rw [if_pos hlast] at hrun
        obtain ⟨rfl, rfl⟩ := Prod.mk.inj (M.pure_eq_some hrun).1
        rw [h.chunkSize, if_pos hfit, if_neg heq, hnext s' (h.head _), if_pos hlast]
        rfl
      · rw [if_neg hlast] at hrun
        obtain ⟨⟨_, l⟩, s₁, hrec, hret⟩ := M.bind_eq_some.mp hrun
        obtain ⟨rfl, rfl⟩ := Prod.mk.inj (M.pure_eq_some hret).1
        rw [h.chunkSize, if_pos hfit, if_neg heq, hnext s' (h.head _), if_neg hlast,
          M.bind_of_run (ih hrec h.tail)]
        rfl
    · rw [if_neg hfit] at hrun
      obtain ⟨hrun, hnext⟩ := load_bind_local hrun
      by_cases hlast : s.load .next c = start
      · rw [if_pos hlast] at hrun
        obtain ⟨rfl, rfl⟩ := Prod.mk.inj (M.pure_eq_some hrun).1
        rw [h.chunkSize, if_neg hfit, hnext s' (h.head _), if_pos hlast]
        rfl
      · rw [if_neg hlast] at hrun
        obtain ⟨⟨_, l⟩, s₁, hrec, hret⟩ := M.bind_eq_some.mp hrun
        obtain ⟨rfl, rfl⟩ := Prod.mk.inj (M.pure_eq_some hret).1
        rw [h.chunkSize, if_neg hfit, hnext s' (h.head _), if_neg hlast,
          M.bind_of_run (ih hrec h.tail)]
        rfl

/-- The walk of `find_best_chunk` reads the nodes it visits, and the sizes of their right
children. -/
theorem findBestChunkLoopVisits_local
    (hrun : findBestChunkLoopVisits request fuel c best size s = some ((o, visits), t))
    (h : SameAt visits s s')
    (hsizes : ∀ a ∈ visits, s'.chunkSize (s.load .child1 a) = s.chunkSize (s.load .child1 a)) :
    findBestChunkLoopVisits request fuel c best size s' = some ((o, visits), s') := by
  induction fuel generalizing c best size o visits t with
  | zero => cases hrun
  | succ fuel ih =>
    rw [findBestChunkLoopVisits] at hrun ⊢
    by_cases hc : c = NULL
    · rw [if_pos hc] at hrun ⊢
      obtain ⟨heq, -⟩ := M.pure_eq_some hrun
      rw [heq]
      rfl
    rw [if_neg hc] at hrun ⊢
    obtain ⟨hrun, hshift⟩ := load_bind_local hrun
    rw [chunkSize_bind] at hrun
    by_cases heq : s.chunkSize c = request
    · rw [if_pos heq] at hrun
      obtain ⟨rfl, rfl⟩ := Prod.mk.inj (M.pure_eq_some hrun).1
      rw [hshift s' (h.head _), chunkSize_bind, h.chunkSize, if_pos heq]
      rfl
    rw [if_neg heq] at hrun
    -- the best chunk so far, before and after the child is looked at
    obtain ⟨best₁, size₁, h₁⟩ : ∃ best₁ size₁, (if s.chunkSize c < size ∧ request < s.chunkSize c
        then (c, s.chunkSize c) else (best, size)) = (best₁, size₁) := ⟨_, _, rfl⟩
    rw [h₁] at hrun
    obtain ⟨hrun, hchild1⟩ := load_bind_local hrun
    rw [chunkSize_bind] at hrun
    obtain ⟨best₂, size₂, h₂⟩ : ∃ best₂ size₂, (if request >>> s.load .shift c &&& 1 = 0 ∧
        s.load .child1 c ≠ NULL ∧ s.chunkSize (s.load .child1 c) < size₁
        then (s.load .child1 c, s.chunkSize (s.load .child1 c)) else (best₁, size₁)) =
        (best₂, size₂) := ⟨_, _, rfl⟩
    rw [h₂] at hrun
    obtain ⟨hrun, hchild⟩ := load_bind_local hrun
    obtain ⟨⟨_, l⟩, s₁, hrec, hret⟩ := M.bind_eq_some.mp hrun
    obtain ⟨rfl, rfl⟩ := Prod.mk.inj (M.pure_eq_some hret).1
    -- the same steps again
    rw [hshift s' (h.head _), chunkSize_bind, h.chunkSize, if_neg heq, h₁]
    refine (hchild1 s' (h.head _)).trans ?_
    rw [chunkSize_bind, hsizes c List.mem_cons_self, h₂]
    refine (hchild s' (h.head _)).trans ?_
    rw [M.bind_of_run (ih hrec h.tail fun a ha => hsizes a (List.mem_cons_of_mem _ ha))]
    rfl

/-- An insertion walk that ends in a hole reads the nodes it visits, the size of the new chunk, and
nothing else. -/
theorem insertLargeChunkLoopVisits_local {chunk parent p : ℕ}
    (hrun : insertLargeChunkLoopVisits chunk size fuel parent c s = some ((some p, visits), t))
    (h : SameAt visits s s') (hown : s'.chunkSize chunk = s.chunkSize chunk) :
    insertLargeChunkLoopVisits chunk size fuel parent c s' = some ((some p, visits), s') := by
  induction fuel generalizing c parent visits t with
  | zero => cases hrun
  | succ fuel ih =>
    rw [insertLargeChunkLoopVisits] at hrun ⊢
    by_cases hc : c = NULL
    · rw [if_pos hc] at hrun ⊢
      obtain ⟨heq, -⟩ := M.pure_eq_some hrun
      rw [heq]
      rfl
    rw [if_neg hc, chunkSize_bind, chunkSize_bind] at hrun ⊢
    by_cases heq : s.chunkSize c = s.chunkSize chunk
    · -- a chunk of the same size is joined, which is no hole
      rw [if_pos heq] at hrun
      exfalso
      repeat obtain ⟨_, _, -, hrun⟩ := M.bind_eq_some.mp hrun
      obtain ⟨hnone, -⟩ := Prod.mk.inj (M.pure_eq_some hrun).1
      cases hnone
    rw [if_neg heq] at hrun
    obtain ⟨hrun, hshift⟩ := load_bind_local hrun
    obtain ⟨hrun, hchild⟩ := load_bind_local hrun
    obtain ⟨⟨_, l⟩, s₁, hrec, hret⟩ := M.bind_eq_some.mp hrun
    obtain ⟨rfl, rfl⟩ := Prod.mk.inj (M.pure_eq_some hret).1
    rw [h.chunkSize, hown, if_neg heq, hshift s' (h.head _), hchild s' (h.head _),
      M.bind_of_run (ih hrec h.tail)]
    rfl

end Local

/-! ### Walks -/

section Walks

variable {X : Set Slot} {s s' : State} {n h par c size fuel i bound x : ℕ} {t : DigitTree ℕ}
  {o : Option ℕ} {visits : List ℕ}

/-- A tree in memory, in records that belong to the chunks `X`. -/
structure TreeIn (X : Set Slot) (s : State) (n h par : ℕ) (t : DigitTree ℕ) : Prop where
  spread : Spread X
  large : Large X (addrs t)
  rep : TreeRep s n h par t

theorem TreeIn.left {k a : ℕ} {rest : List ℕ} {l r : DigitTree ℕ}
    (ht : TreeIn X s n h par (.node k a rest l r)) : TreeIn X s n (h - 1) a l :=
  ⟨ht.spread, ht.large.mono fun x hx => by simp [hx], ht.rep.2.1⟩

theorem TreeIn.right {k a : ℕ} {rest : List ℕ} {l r : DigitTree ℕ}
    (ht : TreeIn X s n h par (.node k a rest l r)) : TreeIn X s n (h - 1) a r :=
  ⟨ht.spread, ht.large.mono fun x hx => by simp [hx], ht.rep.2.2⟩

theorem TreeIn.root_ne_NULL {k a : ℕ} {rest : List ℕ} {l r : DigitTree ℕ}
    (ht : TreeIn X s n h par (.node k a rest l r)) : a ≠ NULL :=
  (ht.large.ptr ht.spread (a := a) (by simp)).2.1

/-- A child of a node is the root of a subtree, and going on from there is going down. -/
theorem TreeIn.path_child {k a : ℕ} {rest : List ℕ} {l r : DigitTree ℕ}
    (ht : TreeIn X s n h par (.node k a rest l r)) (hi : i = 0 ∨ i = 1)
    (hl : s.load (.child i) a = root l → l.Path visits)
    (hr : s.load (.child i) a = root r → r.Path visits) :
    (DigitTree.node k a rest l r).Path (a :: visits) := by
  rcases hi with rfl | rfl
  · exact .left (hl ht.rep.1.child0)
  · exact .right (hr ht.rep.1.child1)

theorem and_one_cases (x : ℕ) : x &&& 1 = 0 ∨ x &&& 1 = 1 := by
  rw [Nat.and_one_is_mod]
  omega

/-- The insertion walk. The stores come after it. -/
theorem insertLargeChunkLoopVisits_path {parent : ℕ} (ht : TreeIn X s n h par t)
    (hrun : insertLargeChunkLoopVisits c size fuel parent (root t) s = some ((o, visits), s')) :
    t.Path visits := by
  induction t generalizing fuel parent h par o visits with
  | nil =>
    cases fuel with
    | zero => cases hrun
    | succ fuel =>
      rw [insertLargeChunkLoopVisits, root_nil, if_pos rfl] at hrun
      cases hrun
      exact .stop
  | node k a rest l r ihl ihr =>
    cases fuel with
    | zero => cases hrun
    | succ fuel =>
      rw [insertLargeChunkLoopVisits, root_node, if_neg ht.root_ne_NULL, chunkSize_bind,
        chunkSize_bind] at hrun
      by_cases hsize : s.chunkSize a = s.chunkSize c
      · -- the node of the size takes the chunk
        rw [if_pos hsize] at hrun
        repeat obtain ⟨_, _, -, hrun⟩ := M.bind_eq_some.mp hrun
        cases hrun
        exact .left .stop
      · rw [if_neg hsize] at hrun
        replace hrun := load_bind (load_bind hrun)
        obtain ⟨p, s₁, hrec, hrun⟩ := M.bind_eq_some.mp hrun
        cases hrun
        refine ht.path_child (i := (size >>> s.load .shift a) &&& 1) (and_one_cases _)
          (fun hl => ?_) fun hr => ?_
        · rw [hl] at hrec
          exact ihl ht.left hrec
        · rw [hr] at hrec
          exact ihr ht.right hrec

/-- The walk to the smallest chunk. -/
theorem smallestChunkLoopVisits_path {best : ℕ} (ht : TreeIn X s n h par t)
    (hrun : smallestChunkLoopVisits fuel (root t) best bound s = some ((x, visits), s')) :
    t.Path visits := by
  induction t generalizing fuel best bound h par x visits with
  | nil =>
    cases fuel with
    | zero => cases hrun
    | succ fuel =>
      rw [smallestChunkLoopVisits, root_nil, if_pos rfl] at hrun
      cases hrun
      exact .stop
  | node k a rest l r ihl ihr =>
    cases fuel with
    | zero => cases hrun
    | succ fuel =>
      rw [smallestChunkLoopVisits, root_node, if_neg ht.root_ne_NULL, chunkSize_bind] at hrun
      replace hrun := load_bind (load_bind hrun)
      -- whichever candidate is kept, the walk goes on with one of the children
      have hgo : ∀ b m, (smallestChunkLoopVisits fuel
            (if s.load .child0 a ≠ NULL then s.load .child0 a else s.load .child1 a) b m >>=
          fun p => pure (p.1, a :: p.2)) s = some ((x, visits), s') →
          (DigitTree.node k a rest l r).Path visits := by
        intro b m hgo
        obtain ⟨p, s₁, hrec, hgo⟩ := M.bind_eq_some.mp hgo
        cases hgo
        split_ifs at hrec with h0
        · rw [ht.rep.1.child0] at hrec
          exact .left (ihl ht.left hrec)
        · rw [ht.rep.1.child1] at hrec
          exact .right (ihr ht.right hrec)
      dsimp only at hrun
      by_cases hlt : s.chunkSize a < bound
      · rw [if_pos hlt] at hrun
        exact hgo _ _ hrun
      · rw [if_neg hlt] at hrun
        exact hgo _ _ hrun

/-- The walk down the tree of the request's own bin. -/
theorem findBestChunkLoopVisits_path {request best : ℕ} (ht : TreeIn X s n h par t)
    (hrun : findBestChunkLoopVisits request fuel (root t) best bound s = some ((x, visits), s')) :
    t.Path visits := by
  induction t generalizing fuel best bound h par x visits with
  | nil =>
    cases fuel with
    | zero => cases hrun
    | succ fuel =>
      rw [findBestChunkLoopVisits, root_nil, if_pos rfl] at hrun
      cases hrun
      exact .stop
  | node k a rest l r ihl ihr =>
    cases fuel with
    | zero => cases hrun
    | succ fuel =>
      rw [findBestChunkLoopVisits, root_node, if_neg ht.root_ne_NULL] at hrun
      replace hrun := load_bind hrun
      rw [chunkSize_bind] at hrun
      by_cases hsize : s.chunkSize a = request
      · rw [if_pos hsize] at hrun
        cases hrun
        exact .left .stop
      rw [if_neg hsize] at hrun
      -- which candidate is best does not matter for the path
      generalize (if s.chunkSize a < bound ∧ request < s.chunkSize a then (a, s.chunkSize a)
        else (best, bound)) = here at hrun
      obtain ⟨best', bound'⟩ := here
      replace hrun := load_bind hrun
      rw [chunkSize_bind] at hrun
      generalize (if (request >>> s.load .shift a) &&& 1 = 0 ∧ s.load .child1 a ≠ NULL ∧
        s.chunkSize (s.load .child1 a) < bound' then
          (s.load .child1 a, s.chunkSize (s.load .child1 a)) else (best', bound')) = side at hrun
      obtain ⟨best'', bound''⟩ := side
      replace hrun := load_bind hrun
      obtain ⟨p, s₁, hrec, hrun⟩ := M.bind_eq_some.mp hrun
      cases hrun
      -- the bit of the request says which child is next
      refine ht.path_child (i := (request >>> s.load .shift a) &&& 1) (and_one_cases _)
        (fun hl => ?_) fun hr => ?_
      · rw [hl] at hrec
        exact ihl ht.left hrec
      · rw [hr] at hrec
        exact ihr ht.right hrec

/-- The descent to a leaf. -/
theorem descendToLeafVisits_path (hi : i = 0 ∨ i = 1) (ht : TreeIn X s n h par t)
    (hrun : descendToLeafVisits i fuel (root t) s = some ((x, visits), s')) : t.Path visits := by
  induction t generalizing fuel h par x visits with
  | nil =>
    cases fuel with
    | zero => cases hrun
    | succ fuel =>
      rw [descendToLeafVisits, root_nil, if_pos rfl] at hrun
      cases hrun
      exact .stop
  | node k a rest l r ihl ihr =>
    cases fuel with
    | zero => cases hrun
    | succ fuel =>
      rw [descendToLeafVisits, root_node, if_neg ht.root_ne_NULL] at hrun
      replace hrun := load_bind (load_bind hrun)
      by_cases hchild : s.load (.child i) a ≠ NULL ∨ s.load (.child (1 - i)) a ≠ NULL
      · rw [if_pos hchild] at hrun
        obtain ⟨p, s₁, hrec, hrun⟩ := M.bind_eq_some.mp hrun
        cases hrun
        -- the first child there is
        split_ifs at hrec with hfirst
        · refine ht.path_child hi (fun hl => ?_) fun hr => ?_
          · rw [hl] at hrec
            exact ihl ht.left hrec
          · rw [hr] at hrec
            exact ihr ht.right hrec
        · refine ht.path_child (i := 1 - i) (by omega) (fun hl => ?_) fun hr => ?_
          · rw [hl] at hrec
            exact ihl ht.left hrec
          · rw [hr] at hrec
            exact ihr ht.right hrec
      · rw [if_neg hchild] at hrun
        cases hrun
        exact .left .stop

/-- It ends at a leaf, unless there is nothing to descend. -/
theorem descendToLeafVisits_leaf (hi : i = 0 ∨ i = 1)
    (hrun : descendToLeafVisits i fuel c s = some ((x, visits), s')) :
    s' = s ∧ (x = NULL ↔ c = NULL) ∧
      (x ≠ NULL → s.load .child0 x = NULL ∧ s.load .child1 x = NULL) := by
  induction fuel generalizing c x visits with
  | zero => cases hrun
  | succ fuel ih =>
    rw [descendToLeafVisits] at hrun
    by_cases hc : c = NULL
    · rw [if_pos hc] at hrun
      cases hrun
      exact ⟨rfl, by simp [hc], fun hx => absurd hc hx⟩
    rw [if_neg hc] at hrun
    replace hrun := load_bind (load_bind hrun)
    by_cases hchild : s.load (.child i) c ≠ NULL ∨ s.load (.child (1 - i)) c ≠ NULL
    · rw [if_pos hchild] at hrun
      obtain ⟨p, s₁, hrec, hrun⟩ := M.bind_eq_some.mp hrun
      cases hrun
      -- one of the two children is there, and the leaf is below it
      obtain ⟨hs, hnull, hleaf⟩ := ih hrec
      refine ⟨hs, ?_, hleaf⟩
      split_ifs at hnull with hfirst
      · simp only [hnull, hc, hfirst]
      · have hsecond := hchild.resolve_left hfirst
        simp only [hnull, hc, hsecond]
    · rw [if_neg hchild] at hrun
      cases hrun
      obtain ⟨h1, h2⟩ := not_or.mp hchild
      refine ⟨rfl, Iff.rfl, fun _ => ?_⟩
      rcases hi with rfl | rfl
      · exact ⟨not_not.mp h1, not_not.mp h2⟩
      · exact ⟨not_not.mp h2, not_not.mp h1⟩

/-- The loop round a list that leads from `c` through `l` and back to `start`. It stops early only
at a chunk of the size asked for. -/
theorem hugeMallocLoopVisits_visits {request start best : ℕ} {l : List ℕ}
    (hnext : List.IsChain (fun x y => s.load .next x = y) (c :: l ++ [start]))
    (hne : ∀ d ∈ l, d ≠ start)
    (hrun : hugeMallocLoopVisits request start fuel c best bound s = some ((x, visits), s')) :
    visits <+: c :: l ∧ (visits = c :: l ∨ s.chunkSize x = request ∧ visits.getLast? = some x) := by
  induction l generalizing c fuel best bound x visits with
  | nil =>
    cases fuel with
    | zero => cases hrun
    | succ fuel =>
      have hlast : s.load .next c = start := by simpa using hnext
      rw [hugeMallocLoopVisits, chunkSize_bind] at hrun
      have hone : visits = [c] := by
        split_ifs at hrun with h1 h2
        · cases hrun
          rfl
        all_goals
          replace hrun := load_bind hrun
          rw [if_pos hlast] at hrun
          cases hrun
          rfl
      rw [hone]
      exact ⟨List.prefix_rfl, .inl rfl⟩
  | cons d l ih =>
    cases fuel with
    | zero => cases hrun
    | succ fuel =>
      rw [List.cons_append, List.cons_append, List.isChain_cons_cons] at hnext
      have hd : ¬ s.load .next c = start := by
        rw [hnext.1]
        exact hne d List.mem_cons_self
      -- past a chunk of another size the loop goes on with the next member
      have hgo : ∀ b m, (hugeMallocLoopVisits request start fuel (s.load .next c) b m >>=
          fun p => pure (p.1, c :: p.2)) s = some ((x, visits), s') →
          visits <+: c :: d :: l ∧
            (visits = c :: d :: l ∨ s.chunkSize x = request ∧ visits.getLast? = some x) := by
        intro b m hgo
        obtain ⟨p, s₁, hrec, hgo⟩ := M.bind_eq_some.mp hgo
        cases hgo
        rw [hnext.1] at hrec
        obtain ⟨hpre, hall⟩ := ih hnext.2 (fun g hg => hne g (List.mem_cons_of_mem _ hg)) hrec
        refine ⟨List.cons_prefix_cons.mpr ⟨rfl, hpre⟩, hall.imp (fun h => by rw [h]) fun h => ?_⟩
        refine ⟨h.1, ?_⟩
        cases hp : p.2 with
        | nil => simp [hp] at h
        | cons e m =>
          rw [hp] at h
          rw [List.getLast?_cons_cons]
          exact h.2
      rw [hugeMallocLoopVisits, chunkSize_bind] at hrun
      split_ifs at hrun with h1 h2
      · cases hrun
        exact ⟨by simp, .inr ⟨h2, rfl⟩⟩
      all_goals
        replace hrun := load_bind hrun
        rw [if_neg hd] at hrun
        exact hgo _ _ hrun

/-! ### Insertion and removal -/

/-- The walk of an insertion goes down the bin of the chunk's size. -/
theorem insertLargeChunkVisits_path {k τ : ℕ} (hX : Spread X) (hL : Large X (c :: addrs t))
    (hd : (c :: addrs t).Nodup) (hcX : (c, k) ∈ X) (hck : s.chunkSize c = k)
    (hlarge : isLargeSize k) (hhuge : ¬ isHugeSize k) (hidx : largeRequestIndex k = n)
    (hb : BinTree s n t) (hrun : insertLargeChunkVisits c s = some ((τ, visits), s')) :
    t.Path visits := by
  have hX₀ : Spread {(c, k)} := hX.mono (Set.singleton_subset_iff.mpr hcX)
  have hb₁ := setOut_binTree hX hL hd hcX hlarge hb
  have htree : TreeIn X (setOut s n c) n (binLevel n) NO_PARENT_ROOT_NODE t :=
    ⟨hX, hL.mono fun x hx => List.mem_cons_of_mem _ hx, hb₁.2⟩
  have hck₀ : (clearTreeFields s c).chunkSize c = k :=
    ((clearTreeFields_links hlarge).chunkSize hX₀ rfl).trans hck
  unfold insertLargeChunkVisits at hrun
  rw [M.bind_of_run (isHugeChunk_apply s c), hck, if_neg (by simpa using hhuge), store_bind,
    store_bind, store_bind, store_bind, store_bind, store_bind, store_bind, ← clearTreeFields,
    chunkSize_bind, hck₀] at hrun
  dsimp only at hrun
  rw [hidx, store_bind, ← setOut, chunkSize_bind, M.bind_of_run (bin_apply (setOut s n c) n),
    hb₁.1] at hrun
  obtain ⟨p, s₂, hloop, hrun⟩ := M.bind_eq_some.mp hrun
  have hpath : t.Path p.2 := insertLargeChunkLoopVisits_path htree hloop
  obtain ⟨o, visits'⟩ := p
  -- what is written after the walk does not change what was visited
  have hvisits : visits = visits' := by
    cases o with
    | none =>
      cases hrun
      rfl
    | some parent =>
      dsimp only at hrun
      rw [store_bind] at hrun
      split_ifs at hrun
      all_goals
        repeat obtain ⟨_, _, -, hrun⟩ := M.bind_eq_some.mp hrun
        cases hrun
        rfl
  rw [hvisits]
  exact hpath

/-- The descents of a removal go down the subtrees of the chunk, and end at a leaf if there is
one. -/
theorem findReplacementVisits_paths {k a : ℕ} {l r : DigitTree ℕ} {left right rest : List ℕ}
    (ht : TreeIn X s n h par (.node k c rest l r))
    (hrun : findReplacementForLargeChunkVisits c s = some ((a, left, right), s')) :
    l.Path left ∧ r.Path right ∧ (a = NULL → l = .nil ∧ r = .nil) ∧
      (a ≠ NULL → s.load .child0 a = NULL ∧ s.load .child1 a = NULL) := by
  have hl0 := root_ne_NULL ht.left.spread ht.left.large
  have hr0 := root_ne_NULL ht.right.spread ht.right.large
  unfold findReplacementForLargeChunkVisits at hrun
  replace hrun := load_bind hrun
  rw [ht.rep.1.child0] at hrun
  obtain ⟨p, s₁, hdown, -⟩ := M.bind_eq_some.mp hrun
  obtain ⟨current, left'⟩ := p
  obtain ⟨hs₁, hnull, hleaf⟩ := descendToLeafVisits_leaf (.inr rfl) hdown
  rw [hs₁] at hdown
  have hleft := descendToLeafVisits_path (.inr rfl) ht.left hdown
  rw [M.bind_of_run hdown] at hrun
  -- no left subtree: the right one is searched as well
  by_cases hcur : current = NULL
  · dsimp only at hrun
    rw [if_pos hcur] at hrun
    replace hrun := load_bind hrun
    rw [ht.rep.1.child1] at hrun
    obtain ⟨q, s₂, hdown', -⟩ := M.bind_eq_some.mp hrun
    obtain ⟨leaf, right'⟩ := q
    obtain ⟨hs₂, hnull', hleaf'⟩ := descendToLeafVisits_leaf (.inl rfl) hdown'
    rw [hs₂] at hdown'
    have hright := descendToLeafVisits_path (.inl rfl) ht.right hdown'
    rw [M.bind_of_run hdown'] at hrun
    have hres : a = leaf ∧ left = left' ∧ right = right' := by
      dsimp only at hrun
      split_ifs at hrun
      · obtain ⟨u, s₃, -, hrun⟩ := M.bind_eq_some.mp hrun
        cases hrun
        exact ⟨rfl, rfl, rfl⟩
      · cases hrun
        exact ⟨rfl, rfl, rfl⟩
    obtain ⟨rfl, rfl, rfl⟩ := hres
    exact ⟨hleft, hright, fun ha => ⟨hl0.mp (hnull.mp hcur), hr0.mp (hnull'.mp ha)⟩, hleaf'⟩
  · dsimp only at hrun
    rw [if_neg hcur] at hrun
    obtain ⟨u, s₂, -, hrun⟩ := M.bind_eq_some.mp hrun
    cases hrun
    exact ⟨hleft, .stop, fun ha => absurd ha hcur, hleaf⟩

/-- The loops of the removal of a chunk alone in its list: the descents end at the leaf that takes
its place, and the last loop goes once round the list of that leaf. -/
theorem removeLargeSingleChunkVisits_paths {k τ a : ℕ} {l r : DigitTree ℕ} {K : List (Turn ℕ)}
    {v : RemovalVisits} (hX : Spread X) (hn : n < NUM_OF_BINS)
    (hL : Large X (addrs (plug K (.node k c [] l r))))
    (hd : (addrs (plug K (.node k c [] l r))).Nodup)
    (hi : Indexed s n (addrs (plug K (.node k c [] l r))))
    (hlen : (addrs (plug K (.node k c [] l r))).length ≤ MAX_HEAP)
    (hb : BinTree s n (plug K (.node k c [] l r)))
    (hrun : removeLargeSingleChunkVisits c s = some ((τ, a, v), s')) :
    l.Path v.left ∧ r.Path v.right ∧ (a = NULL → l = .nil ∧ r = .nil ∧ v.list = []) ∧
      (a ≠ NULL → s.load .child0 a = NULL ∧ s.load .child1 a = NULL ∧ (a :: v.list).Nodup ∧
        CircularList (s.load .next) (s.load .prev) (a :: v.list)) := by
  have htree : TreeIn X s n (binLevel n - K.length) (above K) (.node k c [] l r) :=
    ⟨hX, hL.mono fun x hx => addrs_plug.mem_iff.mpr (List.mem_append_left _ hx),
      (treeRep_plug.mp hb).2⟩
  unfold removeLargeSingleChunkVisits at hrun
  obtain ⟨p, s₁, hfind, -⟩ := M.bind_eq_some.mp hrun
  rw [M.bind_of_run hfind] at hrun
  obtain ⟨a', left, right⟩ := p
  obtain ⟨hleft, hright, hnone, hleaf⟩ := findReplacementVisits_paths htree hfind
  have hplain : findReplacementForLargeChunk c s = some (a', s₁) := by
    rw [← findReplacementForLargeChunkVisits_fst]
    exact M.map_eq_some.mpr ⟨_, hfind, rfl⟩
  dsimp only at hrun
  rcases (findReplacement_spec hX hn hL hd hi hlen hb).elim hplain with
    ⟨hl, hr, hnull, -⟩ | ⟨k', rest, l', r', hpull, ha0, hb₁, hdet, -, -⟩
  · -- there is no leaf below
    rw [if_pos hnull] at hrun
    obtain ⟨u, s₂, -, hrun⟩ := M.bind_eq_some.mp hrun
    cases hrun
    exact ⟨hleft, hright, fun _ => ⟨hl, hr, rfl⟩, fun h => absurd hnull h⟩
  · rw [if_neg ha0] at hrun
    replace hrun := load_bind hrun
    rw [store_bind] at hrun
    replace hrun := load_bind hrun
    -- the leaf and its list, where they were before
    obtain ⟨K', hK'⟩ := exists_plug_of_pull (j := k) (b := c) (s := []) hpull
    have hb' : BinTree s n (plug (K' ++ K) (.node k' a' rest .nil .nil)) := by
      rw [plug_append, ← hK']
      exact hb
    have hring := (treeRep_plug.mp hb').2.1.list
    have hnodup : (a' :: rest).Nodup := by
      rw [hK', ← plug_append] at hd
      have h1 := addrs_plug.nodup hd
      rw [addrs_node] at h1
      exact (List.nodup_append.mp (List.nodup_append.mp h1).1).1
    have hall : (addrs (plug K (.node k c [] l r))).Perm
        (c :: addrs (.node k' a' rest l' r') ++ ctxAddrs K) := by
      have hperm : (addrs (.node k' a' rest l' r')).Perm (addrs l ++ addrs r) := by
        rw [← hpull, addrs, addrs, addrs, ← List.map_append]
        exact entries_pull.map _
      refine addrs_plug.trans (List.Perm.append_right _ ?_)
      rw [addrs_node]
      exact hperm.symm.cons c
    rw [addrs_node] at hall
    have hrest : rest.length < MAX_HEAP := by
      have h1 := hall.length_eq
      simp only [List.cons_append, List.length_cons, List.length_append] at h1
      omega
    obtain ⟨-, -, s₃, hvisits, hnext, -⟩ := promote_run hX hn
      (hL.mono fun x hx => hall.mem_iff.mpr hx) (hall.nodup hd) hrest hb₁ hdet
    rw [hnext, M.bind_of_run hvisits] at hrun
    have hres : a = a' ∧ v = ⟨left, right, rest⟩ := by
      obtain ⟨u, t, -, hrun⟩ := M.bind_eq_some.mp hrun
      obtain ⟨u, t, -, hrun⟩ := M.bind_eq_some.mp hrun
      obtain ⟨u, t, -, hrun⟩ := M.bind_eq_some.mp hrun
      obtain ⟨u, t, -, hrun⟩ := M.bind_eq_some.mp hrun
      cases hrun
      exact ⟨rfl, rfl⟩
    obtain ⟨rfl, rfl⟩ := hres
    refine ⟨hleft, hright, fun h => absurd h ha0, fun _ => ?_⟩
    exact ⟨(hleaf ha0).1, (hleaf ha0).2, hnodup, hring⟩

end Walks

end Dlmalloc
