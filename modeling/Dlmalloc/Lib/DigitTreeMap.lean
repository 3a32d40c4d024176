import Dlmalloc.Lib.DigitTree

/-!
# Renaming the values of a digit tree

The operations on digit trees look at keys only, except that a removal compares values. So they
commute with a renaming of the values (`DigitTree.map`), which for a removal has to be injective.
-/

namespace DigitTree

variable {α β : Type}

/-- The tree with its values renamed. -/
def map (f : α → β) : DigitTree α → DigitTree β
  | nil => nil
  | node k a rest l r => node k (f a) (rest.map f) (l.map f) (r.map f)

variable {f : α → β}

@[simp] theorem map_nil : map f nil = nil := rfl

@[simp] theorem map_node {k : ℕ} {a : α} {rest : List α} {l r : DigitTree α} :
    map f (node k a rest l r) = node k (f a) (rest.map f) (l.map f) (r.map f) := rfl

theorem map_id (t : DigitTree α) : t.map id = t := by
  induction t with
  | nil => rfl
  | node k a rest l r ihl ihr => rw [map_node, List.map_id, ihl, ihr, id]

theorem map_eq_nil_iff {t : DigitTree α} : t.map f = nil ↔ t = nil := by
  cases t <;> simp

theorem insert_map (k : ℕ) (a : α) (h : ℕ) (t : DigitTree α) :
    insert k (f a) h (t.map f) = (insert k a h t).map f := by
  induction t generalizing h with
  | nil => rfl
  | node k' b rest l r ihl ihr =>
    rw [map_node, insert, insert]
    split_ifs
    · rw [map_node, List.map_append]
      rfl
    · rw [map_node, ihr]
    · rw [map_node, ihl]

/-- The leaf taken out, renamed. -/
def mapLeaf (f : α → β) (x : ℕ × α × List α × DigitTree α) : ℕ × β × List β × DigitTree β :=
  (x.1, f x.2.1, x.2.2.1.map f, x.2.2.2.map f)

theorem popLeaf_map (b : Bool) (t : DigitTree α) :
    popLeaf b (t.map f) = (popLeaf b t).map (mapLeaf f) := by
  induction t with
  | nil => rfl
  | node k a rest l r ihl ihr =>
    rw [map_node, popLeaf, popLeaf, ihl, ihr]
    rcases popLeaf b l with _ | ⟨kl, al, restl, l'⟩ <;>
      rcases popLeaf b r with _ | ⟨kr, ar, restr, r'⟩
    · rfl
    · rfl
    · rfl
    · cases b <;> rfl

theorem pull_map (l r : DigitTree α) : pull (l.map f) (r.map f) = (pull l r).map f := by
  rw [pull, pull, popLeaf_map, popLeaf_map]
  rcases popLeaf true l with _ | ⟨kl, al, restl, l'⟩
  · rcases popLeaf false r with _ | ⟨kr, ar, restr, r'⟩ <;> rfl
  · rfl

section Remove

variable [DecidableEq α] [DecidableEq β]

theorem removeHere_map (hf : Function.Injective f) (a : α) (k : ℕ) (b : α) (rest : List α)
    (l r : DigitTree α) :
    removeHere (f a) k (f b) (rest.map f) (l.map f) (r.map f) =
      (removeHere a k b rest l r).map f := by
  unfold removeHere
  by_cases hab : b = a
  · rw [if_pos hab, if_pos (congrArg f hab)]
    cases rest with
    | nil => exact pull_map l r
    | cons c rest => rfl
  · rw [if_neg hab, if_neg (hf.ne hab), map_node, List.map_erase hf]

theorem remove_map (hf : Function.Injective f) (k : ℕ) (a : α) (h : ℕ) (t : DigitTree α) :
    remove k (f a) h (t.map f) = (remove k a h t).map f := by
  induction t generalizing h with
  | nil => rfl
  | node k' b rest l r ihl ihr =>
    rw [map_node, remove, remove]
    split_ifs
    · exact removeHere_map hf a k' b rest l r
    · rw [map_node, ihr]
    · rw [map_node, ihl]

end Remove

/-- A candidate renamed. -/
def mapEntry (f : α → β) (e : α × ℕ) : β × ℕ := (f e.1, e.2)

theorem better_map (best : Option (α × ℕ)) (bound : ℕ) (t : DigitTree α) :
    better (best.map (mapEntry f)) bound (t.map f) =
      ((better best bound t).1.map (mapEntry f), (better best bound t).2) := by
  cases t with
  | nil => rfl
  | node k a rest l r =>
    rw [map_node, better, better]
    split_ifs <;> rfl

theorem bestFit_map (req h : ℕ) (best : Option (α × ℕ)) (bound : ℕ) (t : DigitTree α) :
    bestFit req h (best.map (mapEntry f)) bound (t.map f) =
      (bestFit req h best bound t).map (mapEntry f) := by
  induction t generalizing h best bound with
  | nil => rfl
  | node k a rest l r ihl ihr =>
    rw [map_node, bestFit, bestFit]
    -- the candidate of the node itself
    have hhere : (if k < bound ∧ req < k then (some (f a, k), k)
        else (best.map (mapEntry f), bound)) =
        ((if k < bound ∧ req < k then (some (a, k), k) else (best, bound)).1.map (mapEntry f),
          (if k < bound ∧ req < k then (some (a, k), k) else (best, bound)).2) := by
      split_ifs <;> rfl
    by_cases hk : k = req
    · rw [if_pos hk, if_pos hk]
      rfl
    · rw [if_neg hk, if_neg hk]
      simp only [hhere]
      generalize (if k < bound ∧ req < k then (some (a, k), k) else (best, bound)) = here
      split_ifs
      · exact ihr _ _ _
      · rw [better_map]
        exact ihl _ _ _

theorem leftmost_map (best : α × ℕ) (t : DigitTree α) :
    leftmost (mapEntry f best) (t.map f) = mapEntry f (leftmost best t) := by
  induction t generalizing best with
  | nil => simp only [map_nil, leftmost]
  | node k a rest l r ihl ihr =>
    have hbest : (if k < (mapEntry f best).2 then (f a, k) else mapEntry f best) =
        mapEntry f (if k < best.2 then (a, k) else best) := by
      by_cases hk : k < best.2
      · rw [if_pos hk, if_pos (show k < (mapEntry f best).2 from hk)]
        rfl
      · rw [if_neg hk, if_neg (show ¬ k < (mapEntry f best).2 from hk)]
    cases l with
    | nil =>
      simp only [map_node, map_nil, leftmost, hbest]
      exact ihr _
    | node k' a' rest' l' r' =>
      have hleft := ihl (if k < best.2 then (a, k) else best)
      simp only [map_node, leftmost, hbest] at hleft ⊢
      exact hleft

end DigitTree
