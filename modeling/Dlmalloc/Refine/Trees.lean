import Dlmalloc.Lib.CircularList
import Dlmalloc.Lib.DigitTree
import Dlmalloc.Lib.Total
import Dlmalloc.Refine.Cells

/-!
# The tree bins

A large bin is a digit tree laid over the chunks it holds. A node is a circular list of chunks of
one size: its head carries the links to the parent and the children, the other members carry
`NO_PARENT_CIRCLE_NODE` (`NodeRep`). The root hangs on the bin.

* `TreeRep s n h par t` — memory holds the tree `t` of bin `n`, its root being at level `h` under
  the parent `par`;
* `CtxRep s n K x` — memory holds the context `K` in bin `n`, with `x` in its hole. The hole of the
  empty context is the bin itself.

`treeRep_plug` takes a bin apart at any node, and the edits are stated on the parts.
-/

namespace Dlmalloc

open DigitTree

/-! ### Representation -/

/-- The chunk at the root of a tree. -/
def root : DigitTree ℕ → Addr
  | .nil => NULL
  | .node _ a _ _ _ => a

@[simp] theorem root_nil : root .nil = NULL := rfl

@[simp] theorem root_node {k a : ℕ} {rest : List ℕ} {l r : DigitTree ℕ} :
    root (.node k a rest l r) = a := rfl

/-- The levels of the trees are small. -/
theorem level_lt {n d : ℕ} (hn : n < NUM_OF_BINS) (hd : d ≤ binLevel n) : d < 64 := by
  unfold NUM_OF_BINS at hn
  unfold binLevel at hd
  omega

theorem isPtr_level {n d : ℕ} (hn : n < NUM_OF_BINS) (hd : d ≤ binLevel n) : IsPtr d :=
  (level_lt hn hd).trans (by decide)

/-- A node of a tree of bin `n` at level `h`: the list of its chunks from the head `a` on, and the
links of the head. -/
structure NodeRep (s : State) (n h par a : ℕ) (rest : List ℕ) (lc rc : ℕ) : Prop where
  list : CircularList (s.load .next) (s.load .prev) (a :: rest)
  parent : s.load .parent a = par
  member : ∀ b ∈ rest, s.load .parent b = NO_PARENT_CIRCLE_NODE
  shift : ∀ b ∈ a :: rest, s.load .shift b = h - 1
  binNumber : ∀ b ∈ a :: rest, s.load .binNumber b = n
  child0 : s.load .child0 a = lc
  child1 : s.load .child1 a = rc

/-- The tree `t` of bin `n` in memory, its root being at level `h` under `par`. -/
def TreeRep (s : State) (n : ℕ) : ℕ → ℕ → DigitTree ℕ → Prop
  | _, _, .nil => True
  | h, par, .node _ a rest l r =>
    NodeRep s n h par a rest (root l) (root r) ∧ TreeRep s n (h - 1) a l ∧ TreeRep s n (h - 1) a r

/-- Bin `n` points to the tree `t`. -/
def BinTree (s : State) (n : ℕ) (t : DigitTree ℕ) : Prop :=
  s.bin n = root t ∧ TreeRep s n (binLevel n) NO_PARENT_ROOT_NODE t

/-- The parent of what is plugged into a context. -/
def above : List (Turn ℕ) → Addr
  | [] => NO_PARENT_ROOT_NODE
  | .left _ a _ _ :: _ => a
  | .right _ a _ _ :: _ => a

/-- The cell that holds the link to what is plugged into a context; the bin for the empty one. -/
def hole : List (Turn ℕ) → Option (Field × ℕ)
  | [] => none
  | .left _ a _ _ :: _ => some (.child0, a)
  | .right _ a _ _ :: _ => some (.child1, a)

/-- The context `K` of bin `n` in memory, with `x` in its hole. -/
def CtxRep (s : State) (n : ℕ) : List (Turn ℕ) → Addr → Prop
  | [], x => s.bin n = x
  | .left _ a rest r :: K, x =>
    NodeRep s n (binLevel n - K.length) (above K) a rest x (root r) ∧
      TreeRep s n (binLevel n - K.length - 1) a r ∧ CtxRep s n K a
  | .right _ a rest l :: K, x =>
    NodeRep s n (binLevel n - K.length) (above K) a rest (root l) x ∧
      TreeRep s n (binLevel n - K.length - 1) a l ∧ CtxRep s n K a

/-- A bin taken apart at a subtree. -/
theorem treeRep_plug {s : State} {n : ℕ} {K : List (Turn ℕ)} {t : DigitTree ℕ} :
    BinTree s n (plug K t) ↔
      CtxRep s n K (root t) ∧ TreeRep s n (binLevel n - K.length) (above K) t := by
  induction K generalizing t with
  | nil => exact Iff.rfl
  | cons T K ih =>
    have hlen : binLevel n - (T :: K).length = binLevel n - K.length - 1 := by
      rw [List.length_cons]
      omega
    rw [plug, ih, hlen]
    cases T <;> simp only [Turn.fill, TreeRep, CtxRep, root_node, above] <;> tauto

/-- The addresses in a tree, and in a context. -/
def addrs (t : DigitTree ℕ) : List ℕ := t.entries.map Prod.fst

def ctxAddrs (K : List (Turn ℕ)) : List ℕ := (K.flatMap Turn.entries).map Prod.fst

@[simp] theorem addrs_nil : addrs .nil = [] := rfl

@[simp] theorem addrs_node {k a : ℕ} {rest : List ℕ} {l r : DigitTree ℕ} :
    addrs (.node k a rest l r) = a :: rest ++ (addrs l ++ addrs r) := by
  simp [addrs, entries, Function.comp_def]

@[simp] theorem ctxAddrs_left {k a : ℕ} {rest : List ℕ} {r : DigitTree ℕ} {K : List (Turn ℕ)} :
    ctxAddrs (.left k a rest r :: K) = a :: rest ++ addrs r ++ ctxAddrs K := by
  simp [ctxAddrs, addrs, Turn.entries, Function.comp_def]

@[simp] theorem ctxAddrs_right {k a : ℕ} {rest : List ℕ} {l : DigitTree ℕ} {K : List (Turn ℕ)} :
    ctxAddrs (.right k a rest l :: K) = a :: rest ++ addrs l ++ ctxAddrs K := by
  simp [ctxAddrs, addrs, Turn.entries, Function.comp_def]

theorem addrs_plug {K : List (Turn ℕ)} {t : DigitTree ℕ} :
    (addrs (plug K t)).Perm (addrs t ++ ctxAddrs K) := by
  rw [addrs, addrs, ctxAddrs, ← List.map_append]
  exact entries_plug.map _

theorem root_mem {t : DigitTree ℕ} (ht : t ≠ .nil) : root t ∈ addrs t := by
  cases t with
  | nil => exact absurd rfl ht
  | node k a rest l r => simp

theorem above_mem {K : List (Turn ℕ)} (hK : K ≠ []) : above K ∈ ctxAddrs K := by
  rcases K with _ | ⟨⟨⟩ | ⟨⟩, K⟩
  · exact absurd rfl hK
  all_goals simp [above]

theorem hole_eq {K : List (Turn ℕ)} {f : Field} {a : ℕ} (h : hole K = some (f, a)) :
    a = above K ∧ K ≠ [] ∧ (f = .child0 ∨ f = .child1) := by
  rcases K with _ | ⟨⟨⟩ | ⟨⟩, K⟩
  · simp [hole] at h
  all_goals
    simp only [hole, Option.some.injEq, Prod.mk.injEq] at h
    obtain ⟨rfl, rfl⟩ := h
    simp [above]

/-! ### Frames -/

section Frames

variable {s s' : State} {n h par x x' a : ℕ} {rest : List ℕ} {lc rc : ℕ} {t : DigitTree ℕ}
  {K : List (Turn ℕ)}

theorem NodeRep.congr (hn : NodeRep s n h par a rest lc rc)
    (hc : ∀ b ∈ a :: rest, ∀ f : Field, 16 ≤ f.offset → s'.load f b = s.load f b) :
    NodeRep s' n h par a rest lc rc := by
  have ha : a ∈ a :: rest := List.mem_cons_self
  refine ⟨hn.list.congr (fun b hb => hc b hb _ (by decide)) (fun b hb => hc b hb _ (by decide)),
    ?_, fun b hb => ?_, fun b hb => ?_, fun b hb => ?_, ?_, ?_⟩
  · rw [hc a ha _ (by decide), hn.parent]
  · rw [hc b (List.mem_cons_of_mem _ hb) _ (by decide), hn.member b hb]
  · rw [hc b hb _ (by decide), hn.shift b hb]
  · rw [hc b hb _ (by decide), hn.binNumber b hb]
  · rw [hc a ha _ (by decide), hn.child0]
  · rw [hc a ha _ (by decide), hn.child1]

theorem TreeRep.congr (ht : TreeRep s n h par t)
    (hc : ∀ b ∈ addrs t, ∀ f : Field, 16 ≤ f.offset → s'.load f b = s.load f b) :
    TreeRep s' n h par t := by
  induction t generalizing h par with
  | nil => trivial
  | node k a rest l r ihl ihr =>
    simp only [addrs_node, List.mem_append] at hc
    exact ⟨ht.1.congr fun b hb => hc b (.inl hb), ihl ht.2.1 fun b hb => hc b (.inr (.inl hb)),
      ihr ht.2.2 fun b hb => hc b (.inr (.inr hb))⟩

theorem CtxRep.congr (hK : CtxRep s n K x) (hb : s'.bin n = s.bin n)
    (hc : ∀ b ∈ ctxAddrs K, ∀ f : Field, 16 ≤ f.offset → s'.load f b = s.load f b) :
    CtxRep s' n K x := by
  induction K generalizing x with
  | nil => exact hb.trans hK
  | cons T K ih =>
    cases T with
    | left k a rest r =>
      simp only [ctxAddrs_left, List.mem_append] at hc
      exact ⟨hK.1.congr fun b hb => hc b (.inl (.inl hb)),
        hK.2.1.congr fun b hb => hc b (.inl (.inr hb)), ih hK.2.2 fun b hb => hc b (.inr hb)⟩
    | right k a rest l =>
      simp only [ctxAddrs_right, List.mem_append] at hc
      exact ⟨hK.1.congr fun b hb => hc b (.inl (.inl hb)),
        hK.2.1.congr fun b hb => hc b (.inl (.inr hb)), ih hK.2.2 fun b hb => hc b (.inr hb)⟩

/-- A tree with a new parent. -/
theorem TreeRep.reparent {par' : ℕ} (ht : TreeRep s n h par t) (hd : (addrs t).Nodup)
    (hp : ∀ b ∈ addrs t, b = root t → s'.load .parent b = par')
    (hc : ∀ b ∈ addrs t, ∀ f : Field, 16 ≤ f.offset → ¬ (f = .parent ∧ b = root t) →
      s'.load f b = s.load f b) : TreeRep s' n h par' t := by
  cases t with
  | nil => trivial
  | node k a rest l r =>
    simp only [addrs_node, root_node] at hd hp hc
    have hne : ∀ b ∈ rest ++ (addrs l ++ addrs r), b ≠ a := by
      rintro b hb rfl
      exact (List.nodup_cons.mp hd).1 hb
    -- only the root has its `parent` rewritten
    have hc' : ∀ b ∈ rest ++ (addrs l ++ addrs r), ∀ f : Field, 16 ≤ f.offset →
        s'.load f b = s.load f b := fun b hb f hf =>
      hc b (List.mem_cons_of_mem _ hb) f hf fun h => hne b hb h.2
    have ha : a ∈ a :: rest ++ (addrs l ++ addrs r) := List.mem_cons_self
    have hn := ht.1
    refine ⟨⟨hn.list.congr (fun b hb => ?_) (fun b hb => ?_), hp a ha rfl, fun b hb => ?_,
      fun b hb => ?_, fun b hb => ?_, ?_, ?_⟩, ht.2.1.congr fun b hb => hc' b (by simp [hb]),
      ht.2.2.congr fun b hb => hc' b (by simp [hb])⟩
    · exact hc b (List.mem_append_left _ hb) _ (by decide) (by simp)
    · exact hc b (List.mem_append_left _ hb) _ (by decide) (by simp)
    · rw [hc' b (List.mem_append_left _ hb) _ (by decide), hn.member b hb]
    · rw [hc b (List.mem_append_left _ hb) _ (by decide) (by simp), hn.shift b hb]
    · rw [hc b (List.mem_append_left _ hb) _ (by decide) (by simp), hn.binNumber b hb]
    · rw [hc a ha _ (by decide) (by simp), hn.child0]
    · rw [hc a ha _ (by decide) (by simp), hn.child1]

/-- A context with something else in its hole. -/
theorem CtxRep.refill (hK : CtxRep s n K x) (hd : (ctxAddrs K).Nodup)
    (hb : s'.bin n = if K = [] then x' else s.bin n)
    (hc : ∀ b ∈ ctxAddrs K, ∀ f : Field, 16 ≤ f.offset →
      s'.load f b = if hole K = some (f, b) then x' else s.load f b) : CtxRep s' n K x' := by
  rcases K with _ | ⟨T, K⟩
  · rw [if_pos rfl] at hb
    exact hb
  · rw [if_neg (List.cons_ne_nil _ _)] at hb
    cases T with
    | left k a rest r =>
      simp only [ctxAddrs_left, hole, Option.some.injEq, Prod.mk.injEq] at hd hc
      -- the hole is `child0` of `a`, and every other field is as it was
      have hne : ∀ b ∈ rest ++ addrs r ++ ctxAddrs K, b ≠ a := by
        rintro b hb rfl
        exact (List.nodup_cons.mp hd).1 hb
      have hc' : ∀ b ∈ rest ++ addrs r ++ ctxAddrs K, ∀ f : Field, 16 ≤ f.offset →
          s'.load f b = s.load f b := fun b hb f hf => by
        rw [hc b (List.mem_cons_of_mem _ hb) f hf, if_neg fun h => hne b hb h.2.symm]
      have ha : ∀ f : Field, 16 ≤ f.offset → f ≠ .child0 → s'.load f a = s.load f a :=
        fun f hf h0 => by rw [hc a (by simp) f hf, if_neg fun h => h0 h.1.symm]
      have hl : ∀ b ∈ a :: rest, ∀ f : Field, 16 ≤ f.offset → f ≠ .child0 →
          s'.load f b = s.load f b := fun b hb f hf h0 => by
        rcases List.mem_cons.mp hb with rfl | hb
        · exact ha f hf h0
        · exact hc' b (by simp [hb]) f hf
      have hn := hK.1
      refine ⟨⟨hn.list.congr (fun b hb => hl b hb _ (by decide) (by simp))
        (fun b hb => hl b hb _ (by decide) (by simp)), ?_, fun b hb => ?_, fun b hb => ?_,
        fun b hb => ?_, ?_, ?_⟩, hK.2.1.congr fun b hb => hc' b (by simp [hb]),
        hK.2.2.congr hb fun b hb => hc' b (by simp [hb])⟩
      · rw [ha _ (by decide) (by simp), hn.parent]
      · rw [hc' b (by simp [hb]) _ (by decide), hn.member b hb]
      · rw [hl b hb _ (by decide) (by simp), hn.shift b hb]
      · rw [hl b hb _ (by decide) (by simp), hn.binNumber b hb]
      · rw [hc a (by simp) _ (by decide), if_pos ⟨rfl, rfl⟩]
      · rw [ha _ (by decide) (by simp), hn.child1]
    | right k a rest l =>
      simp only [ctxAddrs_right, hole, Option.some.injEq, Prod.mk.injEq] at hd hc
      -- the same on the other side
      have hne : ∀ b ∈ rest ++ addrs l ++ ctxAddrs K, b ≠ a := by
        rintro b hb rfl
        exact (List.nodup_cons.mp hd).1 hb
      have hc' : ∀ b ∈ rest ++ addrs l ++ ctxAddrs K, ∀ f : Field, 16 ≤ f.offset →
          s'.load f b = s.load f b := fun b hb f hf => by
        rw [hc b (List.mem_cons_of_mem _ hb) f hf, if_neg fun h => hne b hb h.2.symm]
      have ha : ∀ f : Field, 16 ≤ f.offset → f ≠ .child1 → s'.load f a = s.load f a :=
        fun f hf h0 => by rw [hc a (by simp) f hf, if_neg fun h => h0 h.1.symm]
      have hl : ∀ b ∈ a :: rest, ∀ f : Field, 16 ≤ f.offset → f ≠ .child1 →
          s'.load f b = s.load f b := fun b hb f hf h0 => by
        rcases List.mem_cons.mp hb with rfl | hb
        · exact ha f hf h0
        · exact hc' b (by simp [hb]) f hf
      have hn := hK.1
      refine ⟨⟨hn.list.congr (fun b hb => hl b hb _ (by decide) (by simp))
        (fun b hb => hl b hb _ (by decide) (by simp)), ?_, fun b hb => ?_, fun b hb => ?_,
        fun b hb => ?_, ?_, ?_⟩, hK.2.1.congr fun b hb => hc' b (by simp [hb]),
        hK.2.2.congr hb fun b hb => hc' b (by simp [hb])⟩
      · rw [ha _ (by decide) (by simp), hn.parent]
      · rw [hc' b (by simp [hb]) _ (by decide), hn.member b hb]
      · rw [hl b hb _ (by decide) (by simp), hn.shift b hb]
      · rw [hl b hb _ (by decide) (by simp), hn.binNumber b hb]
      · rw [ha _ (by decide) (by simp), hn.child0]
      · rw [hc a (by simp) _ (by decide), if_pos ⟨rfl, rfl⟩]

end Frames

end Dlmalloc
