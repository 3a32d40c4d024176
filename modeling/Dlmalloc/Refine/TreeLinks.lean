import Dlmalloc.Refine.Trees

/-!
# Tree surgery

What the link functions of the trees do to memory, as explicit states (`setHole`, `adopt`,
`rehook`), and what these states are to the cells (`load_setHole`, `load_adopt`, `load_rehook`).
`rehook_rep` is the one edit that both kinds of removal end with: a chunk takes the place of another
in its context, over the same children.
-/

namespace Dlmalloc

open DigitTree

/-- The chunks `es` are large ones of `X`. -/
def Large (X : Set Slot) (l : List ℕ) : Prop := ∀ a ∈ l, ∃ k, (a, k) ∈ X ∧ isLargeSize k

theorem Large.cell {X : Set Slot} {l : List ℕ} {a : ℕ} {f : Field} (hl : Large X l) (ha : a ∈ l)
    (hf : 16 ≤ f.offset) : Cell X f a := by
  obtain ⟨k, hk, hlarge⟩ := hl a ha
  exact cell_of_large hk hlarge hf

theorem Large.ptr {X : Set Slot} {l : List ℕ} {a : ℕ} (hX : Spread X) (hl : Large X l)
    (ha : a ∈ l) : IsPtr a ∧ a ≠ NULL ∧ a ≠ NO_PARENT_ROOT_NODE := by
  obtain ⟨k, hk, -⟩ := hl a ha
  have h1 := hX.below _ hk
  have h2 := hX.pos _ hk
  simp only [IsPtr, NULL, NO_PARENT_ROOT_NODE] at *
  omega

theorem Large.mono {X : Set Slot} {l m : List ℕ} (hl : Large X l) (h : m ⊆ l) : Large X m :=
  fun a ha => hl a (h ha)

theorem isPtr_root {X : Set Slot} {t : DigitTree ℕ} (hX : Spread X) (hl : Large X (addrs t)) :
    IsPtr (root t) := by
  cases t with
  | nil => exact isPtr_NULL
  | node k a rest l r => exact (hl.ptr hX (by simp)).1

theorem isPtr_above {X : Set Slot} {K : List (Turn ℕ)} (hX : Spread X)
    (hl : Large X (ctxAddrs K)) : IsPtr (above K) := by
  by_cases hK : K = []
  · subst hK
    exact Nat.one_lt_two_pow (by decide)
  · exact (hl.ptr hX (above_mem hK)).1

theorem root_ne_NULL {X : Set Slot} {t : DigitTree ℕ} (hX : Spread X) (hl : Large X (addrs t)) :
    root t = NULL ↔ t = .nil := by
  refine ⟨fun h => ?_, fun h => by rw [h]; rfl⟩
  by_contra ht
  exact (hl.ptr hX (root_mem ht)).2.1 h

/-- Trees are not touched by changes to the links of other chunks. -/
theorem BinTree.frame {X Y : Set Slot} {s s' : State} {n : ℕ} {t : DigitTree ℕ}
    (hb : BinTree s n t) (hX : Spread X)
    (hL : Large X (addrs t)) (hs : LinksOnly Y s s') (hY : Y ⊆ X)
    (hne : ∀ e ∈ Y, e.1 ∉ addrs t) (hbin : s'.bin n = s.bin n) : BinTree s' n t := by
  refine ⟨hbin.trans hb.1, hb.2.congr fun b hbt f hf => ?_⟩
  refine hs.load_cell hX hY (hL.cell hbt hf) fun e he h => ?_
  exact hne e he (h ▸ hbt)

/-! ### Links as states -/

/-- The state with `x` in the hole of the context `K` of bin `n`. -/
def setHole (s : State) (n : ℕ) (K : List (Turn ℕ)) (x : ℕ) : State :=
  match hole K with
  | none => s.setBin n x
  | some (f, a) => s.store f a x

/-- The state with `p` as the parent of `c`, if there is a `c`. -/
def adopt (s : State) (c p : ℕ) : State := if c = NULL then s else s.store .parent c p

/-- The state with `x` in the place of `c`: over the children `lc` and `rc` and in the context
`K`. -/
def rehook (s : State) (n : ℕ) (K : List (Turn ℕ)) (c x lc rc : ℕ) : State :=
  let s₁ := adopt (adopt ((s.store .child0 x lc).store .child1 x rc) lc x) rc x
  (adopt (setHole s₁ n K x) x (above K)).store .parent c NULL

section Links

variable {X : Set Slot} {s : State} {n c x p d lc rc : ℕ} {f : Field} {K : List (Turn ℕ)}
  {t l r : DigitTree ℕ}

theorem bin_setHole (hn : n < NUM_OF_BINS) :
    (setHole s n K x).bin n = if K = [] then x else s.bin n := by
  rcases K with _ | ⟨⟨⟩ | ⟨⟩, K⟩
  · exact State.bin_setBin_same hn
  all_goals simp [setHole, hole]

theorem bin_setHole_of_ne {m : ℕ} (hm : m ≠ n) : (setHole s n K x).bin m = s.bin m := by
  rcases K with _ | ⟨⟨⟩ | ⟨⟩, K⟩
  · exact State.bin_setBin_of_ne hm
  all_goals simp [setHole, hole]

@[simp] theorem bin_adopt {m : ℕ} : (adopt s c p).bin m = s.bin m := by
  unfold adopt
  split_ifs <;> simp

theorem load_setHole (hX : Spread X) (hK : Large X (ctxAddrs K)) (hx : IsPtr x)
    (hd : Cell X f d) :
    (setHole s n K x).load f d = if hole K = some (f, d) then x else s.load f d := by
  rcases hhole : hole K with _ | ⟨g, a⟩
  · simp [setHole, hhole]
  · obtain ⟨rfl, hne, hg⟩ := hole_eq hhole
    have hcell : Cell X g (above K) :=
      hK.cell (above_mem hne) (by rcases hg with rfl | rfl <;> decide)
    have hw : g ≠ .binNumber ∧ g ≠ .shift := by rcases hg with rfl | rfl <;> simp
    simp only [setHole, hhole, hX.load_store_ptr hcell hd hw.1 hw.2 hx, Option.some.injEq,
      Prod.mk.injEq]
    refine if_congr ⟨fun h => ⟨h.1.symm, h.2.symm⟩, fun h => ⟨h.1.symm, h.2.symm⟩⟩ rfl rfl

theorem load_adopt (hX : Spread X) (hc : c ≠ NULL → Cell X .parent c) (hp : IsPtr p)
    (hd : Cell X f d) :
    (adopt s c p).load f d = if f = .parent ∧ d = c ∧ c ≠ NULL then p else s.load f d := by
  unfold adopt
  split_ifs with h h' h'
  · exact absurd h h'.2.2
  · rfl
  · rw [hX.load_store_ptr (hc h) hd (by simp) (by simp) hp, if_pos ⟨h'.1, h'.2.1⟩]
  · rw [hX.load_store_ptr (hc h) hd (by simp) (by simp) hp, if_neg fun h'' => h' ⟨h''.1, h''.2, h⟩]

theorem LinksOnly.setHole {s' : State} (h : LinksOnly X s s') (hK : Large X (ctxAddrs K)) :
    LinksOnly X s (setHole s' n K x) := by
  rcases hhole : hole K with _ | ⟨g, a⟩
  · simp only [Dlmalloc.setHole, hhole]
    exact h.setBin
  · obtain ⟨rfl, hne, hg⟩ := hole_eq hhole
    simp only [Dlmalloc.setHole, hhole]
    exact h.store (hK.cell (above_mem hne) (by rcases hg with rfl | rfl <;> decide))

theorem LinksOnly.adopt {s' : State} (h : LinksOnly X s s') (hc : c ≠ NULL → Cell X .parent c) :
    LinksOnly X s (adopt s' c p) := by
  unfold Dlmalloc.adopt
  split_ifs with h0
  · exact h
  · exact h.store (hc h0)

/-! ### The link functions -/

/-- `link_chunk_with_parent` finds the hole of the context the chunk is in. -/
theorem linkChunkWithParent_run (hX : Spread X) (hK : Large X (ctxAddrs K))
    (hrep : CtxRep s n K c) (hc : Cell X .parent c) (hcK : c ∉ ctxAddrs K) (hc0 : c ≠ NULL)
    (hpar : s.load .parent c = above K) (hidx : largeRequestIndex (s.chunkSize c) = n)
    (hn : n < NUM_OF_BINS) (hx : IsPtr x) : linkChunkWithParent c x s =
      some ((), (adopt (setHole s n K x) x (above K)).store .parent c NULL) := by
  have hparent : (setHole s n K x).load .parent c = above K := by
    rw [load_setHole hX hK hx hc, hpar, if_neg]
    intro h
    obtain ⟨-, -, h' | h'⟩ := hole_eq h <;> cases h'
  have hptr : IsPtr (above K) := isPtr_above hX hK
  have hcptr : IsPtr c := by
    obtain ⟨k, hk, -⟩ := hc
    exact (hX.link_cells ⟨k, hk⟩).2.2.1
  have hlast : ∀ s' : State, s'.load .parent c = above K →
      (do
        if x ≠ NULL then store .parent x (← load .parent c)
        store .parent c NULL : M Unit) s' =
      some ((), (adopt s' x (above K)).store .parent c NULL) := fun s' h => by
    by_cases hx0 : x = NULL <;> simp [hx0, h, hptr, adopt]
  rcases K with _ | ⟨T, K⟩
  · -- the chunk is the root of the bin
    rw [linkChunkWithParent, M.bind_of_run (load_of_eq s hpar hptr)]
    dsimp only
    rw [above, if_pos rfl, M.bind_of_run (chunkSize_apply s c), hidx,
      M.bind_of_run (setBin_apply s x n hn)]
    exact hlast _ hparent
  · have habove : above (T :: K) ≠ NO_PARENT_ROOT_NODE :=
      (hK.ptr hX (above_mem (List.cons_ne_nil _ _))).2.2
    cases T with
    | left k a rest r =>
      simp only [above] at habove hpar hptr
      rw [linkChunkWithParent, M.bind_of_run (load_of_eq s hpar hptr)]
      dsimp only
      rw [if_neg habove, M.bind_of_run (load_of_eq s hrep.1.child0 hcptr)]
      simp only [if_true, M.bind_apply, store_apply, Option.bind_some]
      exact hlast _ hparent
    | right k a rest l =>
      simp only [above] at habove hpar hptr
      have hl : IsPtr (root l) := isPtr_root hX (hK.mono fun b hb => by simp [hb])
      have hne : root l ≠ c := by
        intro h
        by_cases hl : l = .nil
        · exact hc0 (by rw [← h, hl]; rfl)
        · exact hcK (by rw [← h]; simp [root_mem hl])
      rw [linkChunkWithParent, M.bind_of_run (load_of_eq s hpar hptr)]
      dsimp only
      rw [if_neg habove, M.bind_of_run (load_of_eq s hrep.1.child0 hl), if_neg hne,
        M.bind_of_run (load_of_eq s hrep.1.child1 hcptr)]
      simp only [if_true, M.bind_apply, store_apply, Option.bind_some]
      exact hlast _ hparent

/-- `link_children_with_parent` hands the children over. -/
theorem linkChildrenWithParent_run (hX : Spread X)
    (hc : Cell X .child1 c) (hx0 : Cell X .child0 x) (hx1 : Cell X .child1 x)
    (hl : IsPtr lc) (hr : IsPtr rc) (hcl : lc ≠ NULL → Cell X .parent lc) (hxp : IsPtr x)
    (h0 : s.load .child0 c = lc) (h1 : s.load .child1 c = rc) :
    linkChildrenWithParent c x s =
      some ((), adopt (adopt ((s.store .child0 x lc).store .child1 x rc) lc x) rc x) := by
  -- the loads of the code, in order
  have e1 : (s.store .child0 x lc).load .child1 c = rc := by
    simp [hX.load_store_ptr, hx0, hc, hl, h1]
  have e2 : ((s.store .child0 x lc).store .child1 x rc).load .child0 x = lc := by
    simp [hX.load_store_ptr, hx0, hx1, hl, hr]
  have e3 : ((s.store .child0 x lc).store .child1 x rc).load .child1 x = rc := by
    simp [hX.load_store_ptr, hx1, hr]
  have e4 : (adopt ((s.store .child0 x lc).store .child1 x rc) lc x).load .child1 x = rc := by
    rw [load_adopt hX hcl hxp hx1, if_neg (by simp), e3]
  have hlast : ∀ s' : State, s'.load .child1 x = rc →
      (do if (← load .child1 x) ≠ NULL then store .parent (← load .child1 x) x : M Unit) s' =
        some ((), adopt s' rc x) := fun s' h => by
    rw [M.bind_of_run (load_of_eq s' h hr)]
    by_cases hr0 : rc = NULL <;> simp [h, hr, hr0, adopt]
  have h3 := hlast _ e4
  rw [linkChildrenWithParent, M.bind_of_run (load_of_eq s h0 hl), M.bind_of_run (store_apply ..),
    M.bind_of_run (load_of_eq _ e1 hr), M.bind_of_run (store_apply ..),
    M.bind_of_run (load_of_eq _ e2 hl)]
  -- without a left child nothing is stored before the second test
  by_cases hl0 : lc = NULL
  · have hs : adopt ((s.store .child0 x lc).store .child1 x rc) lc x =
        (s.store .child0 x lc).store .child1 x rc := if_pos hl0
    rw [hs] at h3 ⊢
    rw [if_neg (not_not.mpr hl0)]
    exact h3
  · have hs : adopt ((s.store .child0 x lc).store .child1 x rc) lc x =
        ((s.store .child0 x lc).store .child1 x rc).store .parent lc x := if_neg hl0
    rw [hs] at h3 ⊢
    rw [if_pos hl0, M.bind_of_run (load_of_eq _ e2 hl), M.bind_of_run (store_apply ..)]
    exact h3

/-! ### A chunk in the place of another -/

theorem ne_root {b : ℕ} (hb : b ∉ addrs t) (h0 : b ≠ NULL) : b ≠ root t := by
  rintro rfl
  by_cases ht : t = .nil
  · exact h0 (by rw [ht]; rfl)
  · exact hb (root_mem ht)

theorem hole_ne {b : ℕ} (hb : b ∉ ctxAddrs K) : hole K ≠ some (f, b) := by
  intro h
  obtain ⟨rfl, hne, -⟩ := hole_eq h
  exact hb (above_mem hne)

theorem hole_field_ne {b : ℕ} (h0 : f ≠ .child0) (h1 : f ≠ .child1) : hole K ≠ some (f, b) := by
  intro h
  obtain ⟨-, -, hf⟩ := hole_eq h
  exact hf.elim h0 h1

theorem load_rehook (hX : Spread X) (hK : Large X (ctxAddrs K)) (hlt : Large X (addrs l))
    (hrt : Large X (addrs r)) (hc : Large X [c]) (hx : Large X [x]) (hd : Cell X f d) :
    (rehook s n K c x (root l) (root r)).load f d =
      if f = .parent ∧ d = c then NULL
      else if f = .parent ∧ d = x then above K
      else if hole K = some (f, d) then x
      else if f = .parent ∧ d = root r ∧ root r ≠ NULL then x
      else if f = .parent ∧ d = root l ∧ root l ≠ NULL then x
      else if f = .child1 ∧ d = x then root r
      else if f = .child0 ∧ d = x then root l
      else s.load f d := by
  have hcm : c ∈ [c] := List.mem_cons_self
  have hxm : x ∈ [x] := List.mem_cons_self
  have hx0 := (hx.ptr hX hxm).2.1
  have hxp := (hx.ptr hX hxm).1
  have hxc : x ≠ NULL → Cell X .parent x := fun _ => hx.cell hxm (by decide)
  have hroot : ∀ {t}, Large X (addrs t) → root t ≠ NULL → Cell X .parent (root t) :=
    fun {t} ht h => ht.cell (root_mem fun h' => h (by rw [h']; rfl)) (by decide)
  -- the stores of the code, last to first
  rw [rehook, hX.load_store_ptr (hc.cell hcm (by decide)) hd (by simp) (by simp) isPtr_NULL,
    load_adopt hX hxc (isPtr_above hX hK) hd, load_setHole hX hK hxp hd,
    load_adopt hX (hroot hrt) hxp hd, load_adopt hX (hroot hlt) hxp hd,
    hX.load_store_ptr (hx.cell hxm (by decide)) hd (by simp) (by simp) (isPtr_root hX hrt),
    hX.load_store_ptr (hx.cell hxm (by decide)) hd (by simp) (by simp) (isPtr_root hX hlt)]
  simp only [hx0, ne_eq, not_false_eq_true, and_true]

/-- What is known of a chunk `c` in its context and of a chunk `x` that is to take its place, at
the head of a list with the members `rest`. -/
structure Hookable (X : Set Slot) (s : State) (n : ℕ) (K : List (Turn ℕ)) (c x : ℕ)
    (rest : List ℕ) (l r : DigitTree ℕ) : Prop where
  large : Large X (c :: x :: rest ++ (addrs l ++ addrs r) ++ ctxAddrs K)
  nodup : (c :: x :: rest ++ (addrs l ++ addrs r) ++ ctxAddrs K).Nodup
  ctx : CtxRep s n K c
  parent : s.load .parent c = above K
  child0 : s.load .child0 c = root l
  child1 : s.load .child1 c = root r
  left : TreeRep s n (binLevel n - K.length - 1) c l
  right : TreeRep s n (binLevel n - K.length - 1) c r
  list : CircularList (s.load .next) (s.load .prev) (x :: rest)
  member : ∀ b ∈ rest, s.load .parent b = NO_PARENT_CIRCLE_NODE
  shift : ∀ b ∈ x :: rest, s.load .shift b = binLevel n - K.length - 1
  binNumber : ∀ b ∈ x :: rest, s.load .binNumber b = n

theorem Hookable.parts {rest : List ℕ} (h : Hookable X s n K c x rest l r) :
    Large X (ctxAddrs K) ∧ Large X (addrs l) ∧ Large X (addrs r) ∧ Large X [c] ∧ Large X [x] :=
  ⟨h.large.mono fun a ha => by simp [ha], h.large.mono fun a ha => by simp [ha],
    h.large.mono fun a ha => by simp [ha], h.large.mono (by simp), h.large.mono (by simp)⟩

/-- The two link calls at the end of a removal, run. -/
theorem Hookable.run {rest : List ℕ} (h : Hookable X s n K c x rest l r) (hX : Spread X)
    (hidx : largeRequestIndex (s.chunkSize c) = n) (hn : n < NUM_OF_BINS)
    (hcX : ∃ k, (c, k) ∈ X) :
    ∃ s₁, linkChildrenWithParent c x s = some ((), s₁) ∧
      linkChunkWithParent c x s₁ = some ((), rehook s n K c x (root l) (root r)) := by
  obtain ⟨hK, hl, hr, hc, hx⟩ := h.parts
  have hcm : c ∈ [c] := List.mem_cons_self
  have hxm : x ∈ [x] := List.mem_cons_self
  have hlc : root l ≠ NULL → Cell X .parent (root l) :=
    fun h' => hl.cell (root_mem fun h0 => h' (by rw [h0]; rfl)) (by decide)
  have hrc : root r ≠ NULL → Cell X .parent (root r) :=
    fun h' => hr.cell (root_mem fun h0 => h' (by rw [h0]; rfl)) (by decide)
  have hxp := (hx.ptr hX hxm).1
  have hc0 := (hc.ptr hX hcm).2.1
  refine ⟨_, linkChildrenWithParent_run hX (hc.cell hcm (by decide)) (hx.cell hxm (by decide))
    (hx.cell hxm (by decide)) (isPtr_root hX hl) (isPtr_root hX hr) hlc hxp h.child0 h.child1, ?_⟩
  have hcnot := h.nodup
  simp only [List.cons_append, List.nodup_cons, List.mem_cons, List.mem_append, not_or] at hcnot
  obtain ⟨⟨hcx, ⟨-, hcl, hcr⟩, hcK⟩, -⟩ := hcnot
  have hnd := (List.nodup_append.mp h.nodup).2.2
  -- the new links of the children do not show in the context or at `c`
  have hload : ∀ b ∈ c :: ctxAddrs K, ∀ f : Field, 16 ≤ f.offset →
      (adopt (adopt ((s.store .child0 x (root l)).store .child1 x (root r)) (root l) x)
        (root r) x).load f b = s.load f b := fun b hb f hf => by
    have hbL : b ∈ c :: x :: rest ++ (addrs l ++ addrs r) ++ ctxAddrs K := by
      rcases List.mem_cons.mp hb with rfl | hb <;> simp [*]
    have hbc := h.large.cell hbL hf
    have hb0 := (h.large.ptr hX hbL).2.1
    have hsep : b ≠ x ∧ b ∉ addrs l ∧ b ∉ addrs r := by
      rcases List.mem_cons.mp hb with rfl | hb
      · exact ⟨hcx, hcl, hcr⟩
      · exact ⟨fun h' => hnd x (by simp) b hb h'.symm, fun h' => hnd b (by simp [h']) b hb rfl,
          fun h' => hnd b (by simp [h']) b hb rfl⟩
    rw [load_adopt hX hrc hxp hbc, load_adopt hX hlc hxp hbc,
      hX.load_store_ptr (hx.cell hxm (by decide)) hbc (by simp) (by simp) (isPtr_root hX hr),
      hX.load_store_ptr (hx.cell hxm (by decide)) hbc (by simp) (by simp) (isPtr_root hX hl)]
    simp [hsep.1, ne_root hsep.2.1 hb0, ne_root hsep.2.2 hb0]
  refine linkChunkWithParent_run hX hK (h.ctx.congr (by simp)
    fun b hb f hf => hload b (List.mem_cons_of_mem _ hb) f hf) (hc.cell hcm (by decide)) hcK hc0
    ((hload c List.mem_cons_self _ (by decide)).trans h.parent) ?_ hn hxp
  obtain ⟨k, hk⟩ := hcX
  have hlinks : LinksOnly X s
      (adopt (adopt ((s.store .child0 x (root l)).store .child1 x (root r)) (root l) x)
        (root r) x) :=
    ((((LinksOnly.refl X s).store (hx.cell hxm (by decide))).store
      (hx.cell hxm (by decide))).adopt hlc).adopt hrc
  rw [hlinks.chunkSize hX hk]
  exact hidx

/-- **Rehooking**: the tree has `x` with its list where `c` was. -/
theorem Hookable.rep {rest : List ℕ} (h : Hookable X s n K c x rest l r) (hX : Spread X)
    (hn : n < NUM_OF_BINS) (k : ℕ) :
    BinTree (rehook s n K c x (root l) (root r)) n (plug K (.node k x rest l r)) := by
  obtain ⟨hK, hl, hr, hc, hx⟩ := h.parts
  have hload : ∀ b ∈ c :: x :: rest ++ (addrs l ++ addrs r) ++ ctxAddrs K, ∀ f : Field,
      16 ≤ f.offset → _ := fun b hb f hf =>
    load_rehook (s := s) (n := n) hX hK hl hr hc hx (h.large.cell hb hf)
  have h0 : ∀ b ∈ c :: x :: rest ++ (addrs l ++ addrs r) ++ ctxAddrs K, b ≠ NULL :=
    fun b hb => (h.large.ptr hX hb).2.1
  have hnd := h.nodup
  simp only [List.cons_append, List.nodup_cons, List.nodup_append, List.mem_cons, List.mem_append,
    not_or] at hnd
  obtain ⟨⟨hcx, ⟨hcrest, hcl, hcr⟩, hcK⟩, ⟨⟨hxrest, hxl, hxr⟩, hxK⟩, ⟨hrest, ⟨hdl, hdr, hlr⟩, hrt⟩,
    hdK, hall⟩ := hnd
  have hKsep : ∀ b ∈ ctxAddrs K, b ≠ c ∧ b ≠ x ∧ b ∉ addrs l ∧ b ∉ addrs r := fun b hb => by
    refine ⟨?_, ?_, fun h' => ?_, fun h' => ?_⟩
    · rintro rfl
      exact hcK hb
    · rintro rfl
      exact hxK hb
    · exact hall b (.inr (.inl h')) b hb rfl
    · exact hall b (.inr (.inr h')) b hb rfl
  have hrsep : ∀ b ∈ rest, b ≠ c ∧ b ≠ x ∧ b ∉ addrs l ∧ b ∉ addrs r ∧ b ∉ ctxAddrs K :=
      fun b hb => by
    refine ⟨?_, ?_, fun h' => ?_, fun h' => ?_, fun h' => ?_⟩
    · rintro rfl
      exact hcrest hb
    · rintro rfl
      exact hxrest hb
    · exact hrt b hb b (.inl h') rfl
    · exact hrt b hb b (.inr h') rfl
    · exact hall b (.inl hb) b h' rfl
  have hlsep : ∀ b ∈ addrs l, b ≠ c ∧ b ≠ x ∧ b ∉ addrs r ∧ b ∉ ctxAddrs K := fun b hb => by
    refine ⟨?_, ?_, fun h' => ?_, fun h' => ?_⟩
    · rintro rfl
      exact hcl hb
    · rintro rfl
      exact hxl hb
    · exact hlr b hb b h' rfl
    · exact hall b (.inr (.inl hb)) b h' rfl
  have hrsep' : ∀ b ∈ addrs r, b ≠ c ∧ b ≠ x ∧ b ∉ addrs l ∧ b ∉ ctxAddrs K := fun b hb => by
    refine ⟨?_, ?_, fun h' => ?_, fun h' => ?_⟩
    · rintro rfl
      exact hcr hb
    · rintro rfl
      exact hxr hb
    · exact hlr b h' b hb rfl
    · exact hall b (.inr (.inr hb)) b h' rfl
  -- the list of `x`, but for the links of its head
  have hmemb : ∀ b ∈ x :: rest, ∀ f : Field, 16 ≤ f.offset → f ≠ .parent → f ≠ .child0 →
      f ≠ .child1 → (rehook s n K c x (root l) (root r)).load f b = s.load f b :=
    fun b hb f hf h1 h2 h3 => by
      rw [hload b (by rcases List.mem_cons.mp hb with rfl | hb <;> simp [*]) f hf]
      simp [h1, h2, h3, hole_field_ne h2 h3]
  have hxall : x ∈ c :: x :: rest ++ (addrs l ++ addrs r) ++ ctxAddrs K := by simp
  rw [treeRep_plug]
  refine ⟨h.ctx.refill hdK ?_ fun b hb f hf => ?_, ⟨?_, ?_, fun b hb => ?_, fun b hb => ?_,
    fun b hb => ?_, ?_, ?_⟩, ?_, ?_⟩
  · simp [rehook, bin_setHole hn]
  · obtain ⟨h1, h2, h3, h4⟩ := hKsep b hb
    have hb' : b ∈ c :: x :: rest ++ (addrs l ++ addrs r) ++ ctxAddrs K := by simp [hb]
    rw [hload b hb' f hf]
    simp [h1, h2, ne_root h3 (h0 b hb'), ne_root h4 (h0 b hb')]
  · exact h.list.congr (fun b hb => hmemb b hb _ (by decide) (by simp) (by simp) (by simp))
      (fun b hb => hmemb b hb _ (by decide) (by simp) (by simp) (by simp))
  · rw [hload x hxall _ (by decide)]
    simp [Ne.symm hcx]
  · obtain ⟨h1, h2, h3, h4, -⟩ := hrsep b hb
    have hb' : b ∈ c :: x :: rest ++ (addrs l ++ addrs r) ++ ctxAddrs K := by simp [hb]
    rw [hload b hb' _ (by decide), ← h.member b hb]
    simp [h1, h2, hole_field_ne, ne_root h3 (h0 b hb'), ne_root h4 (h0 b hb')]
  · rw [hmemb b hb _ (by decide) (by simp) (by simp) (by simp), h.shift b hb]
  · rw [hmemb b hb _ (by decide) (by simp) (by simp) (by simp), h.binNumber b hb]
  · rw [hload x hxall _ (by decide)]
    simp [hole_ne hxK]
  · rw [hload x hxall _ (by decide)]
    simp [hole_ne hxK]
  · refine h.left.reparent hdl (fun b hb hbr => ?_) fun b hb f hf hne => ?_
    · obtain ⟨h1, h2, h3, h4⟩ := hlsep b hb
      have hb' : b ∈ c :: x :: rest ++ (addrs l ++ addrs r) ++ ctxAddrs K := by simp [hb]
      have hb0 := h0 b hb'
      rw [hload b hb' _ (by decide)]
      simp [h1, h2, hole_field_ne, ← hbr, hb0]
    · obtain ⟨h1, h2, h3, h4⟩ := hlsep b hb
      have hb' : b ∈ c :: x :: rest ++ (addrs l ++ addrs r) ++ ctxAddrs K := by simp [hb]
      have hpar : ¬ (f = .parent ∧ b = root l ∧ root l ≠ NULL) := fun h' => hne ⟨h'.1, h'.2.1⟩
      rw [hload b hb' f hf, if_neg hpar]
      simp [h1, h2, hole_ne h4, ne_root h3 (h0 b hb')]
  · refine h.right.reparent hdr (fun b hb hbr => ?_) fun b hb f hf hne => ?_
    · obtain ⟨h1, h2, h3, h4⟩ := hrsep' b hb
      have hb' : b ∈ c :: x :: rest ++ (addrs l ++ addrs r) ++ ctxAddrs K := by simp [hb]
      have hb0 := h0 b hb'
      rw [hload b hb' _ (by decide)]
      simp [h1, h2, hole_field_ne, ← hbr, hb0]
    · obtain ⟨h1, h2, h3, h4⟩ := hrsep' b hb
      have hb' : b ∈ c :: x :: rest ++ (addrs l ++ addrs r) ++ ctxAddrs K := by simp [hb]
      have hpar : ¬ (f = .parent ∧ b = root r ∧ root r ≠ NULL) := fun h' => hne ⟨h'.1, h'.2.1⟩
      rw [hload b hb' f hf, if_neg hpar]
      simp [h1, h2, hole_ne h4, ne_root h3 (h0 b hb')]

/-- What rehooking leaves alone. -/
theorem Hookable.links {rest : List ℕ} (h : Hookable X s n K c x rest l r) :
    LinksOnly X s (rehook s n K c x (root l) (root r)) ∧
      ∀ m, m ≠ n → (rehook s n K c x (root l) (root r)).bin m = s.bin m := by
  obtain ⟨hK, hl, hr, hc1, hx1⟩ := h.parts
  have hc : Cell X .parent c := hc1.cell (by simp) (by decide)
  have hx : ∀ f : Field, 16 ≤ f.offset → Cell X f x := fun f hf => hx1.cell (by simp) hf
  have hroot : ∀ {t}, Large X (addrs t) → root t ≠ NULL → Cell X .parent (root t) :=
    fun {t} ht h' => ht.cell (root_mem fun h0 => h' (by rw [h0]; rfl)) (by decide)
  refine ⟨?_, fun m hm => by simp [rehook, bin_setHole_of_ne hm]⟩
  exact (((((((LinksOnly.refl X s).store (hx _ (by decide))).store (hx _ (by decide))).adopt
    (hroot hl)).adopt (hroot hr)).setHole hK).adopt fun _ => hx _ (by decide)).store hc

end Links

end Dlmalloc
