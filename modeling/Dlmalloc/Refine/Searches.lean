import Dlmalloc.Refine.BinOps

/-!
# The searches of the bins

The walks of `small_malloc`, `find_best_chunk` and `huge_malloc` read the bins and write nothing.
Each returns the chunk that its counterpart on the collections settles on, or `NULL` if that finds
none.
-/

namespace Dlmalloc

open DigitTree

section Searches

variable {X : Set Slot} {s : State} {B : Bins} {n h par r fuel last left : ℕ} {t : DigitTree ℕ}

/-- The walk to the smallest chunk is `leftmost`. -/
theorem smallestChunkLoop_run {best : Slot} (hX : Spread X) (hL : Large X (addrs t))
    (ht : TreeRep s n h par t) (hsz : Keyed s t) (hf : t.height < fuel) :
    smallestChunkLoop fuel (root t) best.1 best.2 s = some ((leftmost best t).1, s) := by
  induction t generalizing h par best fuel with
  | nil =>
    obtain ⟨fuel, rfl⟩ := Nat.exists_eq_succ_of_ne_zero (by omega : fuel ≠ 0)
    simp [smallestChunkLoop, leftmost]
  | node k a rest l r ihl ihr =>
    obtain ⟨fuel, rfl⟩ := Nat.exists_eq_succ_of_ne_zero (by omega : fuel ≠ 0)
    have ha0 : a ≠ NULL := (hL.ptr hX (a := a) (by simp)).2.1
    have hak : s.chunkSize a = k := hsz (a, k) (by simp [entries])
    have hLl : Large X (addrs l) := hL.mono fun x hx => by simp [hx]
    have hLr : Large X (addrs r) := hL.mono fun x hx => by simp [hx]
    have hl0 := root_ne_NULL hX hLl
    have hszl : Keyed s l := fun e he => hsz e (by simp [entries, he])
    have hszr : Keyed s r := fun e he => hsz e (by simp [entries, he])
    simp only [height] at hf
    have hl : ∀ b : Slot, smallestChunkLoop fuel (root l) b.1 b.2 s = some ((leftmost b l).1, s) :=
      fun b => ihl hLl ht.2.1 hszl (by omega)
    have hr : ∀ b : Slot, smallestChunkLoop fuel (root r) b.1 b.2 s = some ((leftmost b r).1, s) :=
      fun b => ihr hLr ht.2.2 hszr (by omega)
    have hc0 := ht.1.child0
    have hc1 := ht.1.child1
    -- the candidate at this node, and the child to go on with
    have hlp := isPtr_root hX hLl
    have hrp := isPtr_root hX hLr
    have hstep : smallestChunkLoop (fuel + 1) a best.1 best.2 s =
        smallestChunkLoop fuel (if root l ≠ NULL then root l else root r)
          (if k < best.2 then (a, k) else best).1 (if k < best.2 then (a, k) else best).2 s := by
      simp only [smallestChunkLoop, if_neg ha0, M.bind_apply, chunkSize_apply, load_apply,
        Option.bind_some, hak, hc0, hc1, hlp, hrp]
      split_ifs <;> rfl
    rw [root_node, hstep]
    cases l with
    | nil =>
      rw [root_nil, if_neg (by simp), hr, leftmost]
    | node k' a' rest' l' r' =>
      rw [if_pos fun h0 => by cases hl0.mp h0]
      exact hl _

/-- The walk down the tree of the request's own bin is `bestFit`. -/
theorem findBestChunkLoop_run {best : Option Slot} {bound : ℕ} (hX : Spread X)
    (hL : Large X (addrs t)) (ht : TreeRep s n h par t) (hsz : Keyed s t) (hf : t.height < fuel)
    (hh : t ≠ .nil → IsPtr h) : findBestChunkLoop r fuel (root t) (pointer best) bound s =
      some (pointer (t.bestFit r h best bound), s) := by
  induction t generalizing h par best bound fuel with
  | nil =>
    obtain ⟨fuel, rfl⟩ := Nat.exists_eq_succ_of_ne_zero (by omega : fuel ≠ 0)
    simp [findBestChunkLoop, bestFit]
  | node k a rest l u ihl ihr =>
    obtain ⟨fuel, rfl⟩ := Nat.exists_eq_succ_of_ne_zero (by omega : fuel ≠ 0)
    have ha0 : a ≠ NULL := (hL.ptr hX (a := a) (by simp)).2.1
    have hak : s.chunkSize a = k := hsz (a, k) (by simp [entries])
    have hLl : Large X (addrs l) := hL.mono fun x hx => by simp [hx]
    have hLr : Large X (addrs u) := hL.mono fun x hx => by simp [hx]
    have hszl : Keyed s l := fun e he => hsz e (by simp [entries, he])
    have hszr : Keyed s u := fun e he => hsz e (by simp [entries, he])
    have hlp := isPtr_root hX hLl
    have hrp := isPtr_root hX hLr
    have hh' : IsPtr (h - 1) := (Nat.sub_le h 1).trans_lt (hh (by simp))
    have hshift : s.load .shift a = h - 1 := ht.1.shift a List.mem_cons_self
    simp only [height] at hf
    have hl : ∀ b m, findBestChunkLoop r fuel (root l) (pointer b) m s =
        some (pointer (l.bestFit r (h - 1) b m), s) :=
      fun b m => ihl hLl ht.2.1 hszl (by omega) fun _ => hh'
    have hr : ∀ b m, findBestChunkLoop r fuel (root u) (pointer b) m s =
        some (pointer (u.bestFit r (h - 1) b m), s) :=
      fun b m => ihr hLr ht.2.2 hszr (by omega) fun _ => hh'
    have hc0 := ht.1.child0
    have hc1 := ht.1.child1
    rw [root_node, findBestChunkLoop, bestFit]
    rw [if_neg ha0, M.bind_of_run (load_of_eq s hshift hh')]
    simp only [M.bind_apply, chunkSize_apply, Option.bind_some, hak, digit_eq]
    by_cases hk : k = r
    · simp [hk]
    rw [if_neg hk, if_neg hk]
    -- the candidate at this node
    obtain ⟨here, hhere⟩ : ∃ here : Option Slot × ℕ,
        here = if k < bound ∧ r < k then (some (a, k), k) else (best, bound) := ⟨_, rfl⟩
    have hptr : (if k < bound ∧ r < k then (a, k) else (pointer best, bound)) =
        (pointer here.1, here.2) := by
      rw [hhere]
      split_ifs <;> rfl
    rw [← hhere, hptr, M.bind_of_run (load_of_eq s hc1 hrp)]
    simp only [M.bind_apply, chunkSize_apply, Option.bind_some]
    cases hb : r.testBit (h - 1)
    · -- to the left, past the right subtree
      have hside : (if false.toNat = 0 ∧ root u ≠ NULL ∧ s.chunkSize (root u) < here.2 then
          (root u, s.chunkSize (root u)) else (pointer here.1, here.2)) =
          (pointer (better here.1 here.2 u).1, (better here.1 here.2 u).2) := by
        cases u with
        | nil => simp [better]
        | node k' a' rest' l' r' =>
          have h0 : a' ≠ NULL := (hLr.ptr hX (a := a') (by simp)).2.1
          have hk' : s.chunkSize a' = k' := hszr (a', k') (by simp [entries])
          simp only [better, root_node, Bool.toNat_false, ne_eq, h0, not_false_eq_true, true_and,
            hk']
          split_ifs <;> rfl
      rw [hside]
      simpa [Field.child, hc0, hlp] using hl _ _
    · simpa [Field.child, hc1, hrp] using hr _ _

/-! ### The huge list -/

/-- The walk round the huge list, from any of its members on, is `Bins.hugeBest`. -/
theorem hugeMallocLoop_run {e : Slot} {l : List Slot} {start bound : ℕ} {best : Option Slot}
    (hsz : ∀ f ∈ e :: l, s.chunkSize f.1 = f.2)
    (hnext : List.IsChain (fun x y => s.load .next x = y) ((e :: l).map Prod.fst ++ [start]))
    (hne : ∀ f ∈ l, f.1 ≠ start) (hstart : IsPtr start) (hptr : ∀ f ∈ l, IsPtr f.1)
    (hf : l.length < fuel) : hugeMallocLoop r start fuel e.1 (pointer best) bound s =
      some (pointer (Bins.hugeBest r best bound (e :: l)), s) := by
  induction l generalizing e best bound fuel with
  | nil =>
    obtain ⟨fuel, rfl⟩ := Nat.exists_eq_succ_of_ne_zero (by omega : fuel ≠ 0)
    have he := hsz e List.mem_cons_self
    have hn : s.load .next e.1 = start := by simpa using hnext
    simp only [hugeMallocLoop, Bins.hugeBest, M.bind_apply, chunkSize_apply, Option.bind_some, he]
    split_ifs with h1 <;> simp [hn, hstart]
  | cons f l ih =>
    obtain ⟨fuel, rfl⟩ := Nat.exists_eq_succ_of_ne_zero (by omega : fuel ≠ 0)
    have he := hsz e List.mem_cons_self
    simp only [List.map_cons, List.cons_append, List.isChain_cons_cons] at hnext
    have hfs : f.1 ≠ start := hne f List.mem_cons_self
    have hfp : IsPtr f.1 := hptr f List.mem_cons_self
    -- the rest of the round, from whichever candidate
    have hrec : ∀ b m, hugeMallocLoop r start fuel f.1 (pointer b) m s =
        some (pointer (Bins.hugeBest r b m (f :: l)), s) := fun b m => ih
      (fun g hg => hsz g (List.mem_cons_of_mem _ hg)) (by simpa using hnext.2)
      (fun g hg => hne g (List.mem_cons_of_mem _ hg))
      (fun g hg => hptr g (List.mem_cons_of_mem _ hg)) (by simpa using hf)
    have hcand := hrec (some e) e.2
    rw [pointer_some] at hcand
    rw [hugeMallocLoop, Bins.hugeBest]
    simp only [M.bind_apply, chunkSize_apply, Option.bind_some, he]
    -- an exact fit ends the loop, a smaller fit replaces the candidate
    split_ifs with h1 h2
    · simp
    · simpa [hnext.1, hfs, hfp] using hcand
    · simpa [hnext.1, hfs, hfp] using hrec best bound

end Searches

end Dlmalloc
