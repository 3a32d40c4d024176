import Dlmalloc.Refine.TreeLinks

/-!
# Insertion into the tree bins

`insert_large_chunk` walks down the path of the chunk's size (`insertLargeChunkLoop_spec`). The walk
ends at a node of that size, whose list takes the chunk, or at a hole, which takes it as a new leaf
(`hang_run`). Either way the bin holds what `DigitTree.insert` says (`insertLargeChunk_spec`).
-/

namespace Dlmalloc

open DigitTree

/-- The digit the program computes is the one the trees branch on. -/
theorem digit_eq (k j : ℕ) : (k >>> j) &&& 1 = (k.testBit j).toNat := by
  rw [Nat.and_one_is_mod, Nat.shiftRight_eq_div_pow, Nat.toNat_testBit]

section Insert

variable {X : Set Slot} {s s' : State} {n c k p fuel : ℕ} {rest : List ℕ} {K : List (Turn ℕ)}
  {t : DigitTree ℕ}

/-- The walk for the size `k` has come down the turns `K` of bin `n`. -/
structure Walked (s : State) (n k : ℕ) (K : List (Turn ℕ)) : Prop where
  shift : K ≠ [] → s.load .shift (above K) = binLevel n - K.length
  deep : K ≠ [] → 3 ≤ binLevel n - K.length
  hole : K ≠ [] → hole K = some (.child ((k >>> (binLevel n - K.length)) &&& 1), above K)

theorem Walked.nil : Walked s n k [] :=
  ⟨fun h => absurd rfl h, fun h => absurd rfl h, fun h => absurd rfl h⟩

/-- A new chunk whose tree fields have been cleared. -/
structure Cleared (s : State) (n c : ℕ) : Prop where
  child0 : s.load .child0 c = NULL
  child1 : s.load .child1 c = NULL
  binNumber : s.load .binNumber c = n

/-- The sizes in the headers are the keys of the tree. -/
def Keyed (s : State) (t : DigitTree ℕ) : Prop := ∀ e ∈ t.entries, s.chunkSize e.1 = e.2

/-- A node of the chunk's own size takes it into its list, as the last member. -/
theorem joinList_run {b : ℕ} {l r : DigitTree ℕ} (hX : Spread X) (hn : n < NUM_OF_BINS)
    (hL : Large X (c :: addrs (plug K (.node k b rest l r))))
    (hd : (c :: addrs (plug K (.node k b rest l r))).Nodup)
    (hcl : Cleared s n c) (hb : BinTree s n (plug K (.node k b rest l r))) :
    ∃ s', (do
        store .parent c NO_PARENT_CIRCLE_NODE
        store .shift c (← load .shift b)
        store .next c b
        store .prev c (← load .prev b)
        store .next (← load .prev b) c
        store .prev b c
        return none : M (Option Addr)) s = some (none, s') ∧
      BinTree s' n (plug K (.node k b (rest ++ [c]) l r)) ∧ LinksOnly X s s' ∧
      ∀ m, s'.bin m = s.bin m := by
  have hperm := addrs_plug (K := K) (t := .node k b rest l r)
  rw [addrs_node] at hperm
  have hL' : Large X (c :: (b :: rest ++ (addrs l ++ addrs r) ++ ctxAddrs K)) :=
    hL.mono fun x hx => (hperm.cons c).mem_iff.mpr hx
  have hd' := (hperm.cons c).nodup hd
  obtain ⟨hctx, hnode, hl, hr⟩ := treeRep_plug.mp hb
  rw [List.nodup_cons] at hd'
  obtain ⟨hc, hd'⟩ := hd'
  have hdm : (b :: rest).Nodup := (List.nodup_append.mp (List.nodup_append.mp hd').1).1
  have hring := hnode.list
  generalize hz : s.load .prev b = z
  have hbm : b ∈ b :: rest := List.mem_cons_self
  have hzm : z ∈ b :: rest := hz ▸ hring.prev_mem hbm
  have hin : ∀ x ∈ b :: rest, x ∈ b :: rest ++ (addrs l ++ addrs r) ++ ctxAddrs K := fun x hx =>
    List.mem_append_left _ (List.mem_append_left _ hx)
  have hne : ∀ x ∈ b :: rest ++ (addrs l ++ addrs r) ++ ctxAddrs K, x ≠ c := by
    rintro x hx rfl
    exact hc hx
  have hcc : ∀ f : Field, 16 ≤ f.offset → Cell X f c := fun f hf => hL'.cell List.mem_cons_self hf
  have hcell : ∀ x ∈ b :: rest ++ (addrs l ++ addrs r) ++ ctxAddrs K, ∀ f : Field,
      16 ≤ f.offset → Cell X f x := fun x hx f hf => hL'.cell (List.mem_cons_of_mem _ hx) hf
  have hnp : IsPtr NO_PARENT_CIRCLE_NODE := isPtr_NULL
  have hcp : IsPtr c := (hL'.ptr hX List.mem_cons_self).1
  have hbp : IsPtr b := (hL'.ptr hX (List.mem_cons_of_mem _ (hin b hbm))).1
  have hzp : IsPtr z := (hL'.ptr hX (List.mem_cons_of_mem _ (hin z hzm))).1
  have hzc : z ≠ c := hne z (hin z hzm)
  have hbc : b ≠ c := hne b (hin b hbm)
  generalize hv : s.load .shift b = v
  have hlev : v ≤ binLevel n := by
    rw [← hv, hnode.shift b hbm]
    omega
  have hvp : IsPtr v := isPtr_level hn hlev
  have hv4 : v < 256 ^ Field.shift.width := (level_lt hn hlev).trans (by decide)
  set s₄ := (((s.store .parent c NO_PARENT_CIRCLE_NODE).store .shift c v).store .next c b).store
    .prev c z with hs₄
  have hload₄ : ∀ f d, Cell X f d → s₄.load f d = if f = .prev ∧ d = c then z
      else if f = .next ∧ d = c then b else if f = .shift ∧ d = c then v
      else if f = .parent ∧ d = c then NO_PARENT_CIRCLE_NODE else s.load f d := fun f d hfd => by
    rw [hs₄, hX.load_store_ptr (hcc _ (by decide)) hfd (by simp) (by simp) hzp,
      hX.load_store_ptr (hcc _ (by decide)) hfd (by simp) (by simp) hbp,
      hX.load_store (hcc _ (by decide)) hfd hv4,
      hX.load_store_ptr (hcc _ (by decide)) hfd (by simp) (by simp) hnp]
  set s₆ := (s₄.store .next z c).store .prev b c with hs₆
  have hrun : (do
        store .parent c NO_PARENT_CIRCLE_NODE
        store .shift c (← load .shift b)
        store .next c b
        store .prev c (← load .prev b)
        store .next (← load .prev b) c
        store .prev b c
        return none : M (Option Addr)) s = some (none, s₆) := by
    have e1 : (s.store .parent c NO_PARENT_CIRCLE_NODE).load .shift b = v := by
      rw [hX.load_store_ptr (hcc _ (by decide)) (hcell b (hin b hbm) _ (by decide)) (by simp)
        (by simp) hnp, if_neg (by simp), hv]
    have e2 : (((s.store .parent c NO_PARENT_CIRCLE_NODE).store .shift c v).store
        .next c b).load .prev b = z := by
      have hfd := hcell b (hin b hbm) .prev (by decide)
      rw [hX.load_store_ptr (hcc _ (by decide)) hfd (by simp) (by simp) hbp,
        hX.load_store (hcc _ (by decide)) hfd hv4,
        hX.load_store_ptr (hcc _ (by decide)) hfd (by simp) (by simp) hnp]
      simp [hz]
    have e3 : s₄.load .prev b = z := by
      rw [hload₄ _ _ (hcell b (hin b hbm) _ (by decide))]
      simp [hbc, hz]
    simp [e1, e2, hvp, hzp, ← hs₄, e3, ← hs₆]
  have hload : ∀ f d, Cell X f d → s₆.load f d = if f = .prev ∧ d = b then c
      else if f = .next ∧ d = z then c else s₄.load f d := fun f d hfd => by
    rw [hs₆, hX.load_store_ptr (hcell b (hin b hbm) _ (by decide)) hfd (by simp) (by simp) hcp,
      hX.load_store_ptr (hcell z (hin z hzm) _ (by decide)) hfd (by simp) (by simp) hcp]
  -- what the stores leave alone
  have hfield : ∀ x ∈ b :: rest ++ (addrs l ++ addrs r) ++ ctxAddrs K, ∀ f : Field,
      16 ≤ f.offset → f ≠ .next → f ≠ .prev → s₆.load f x = s.load f x := fun x hx f hf h1 h2 => by
    rw [hload f x (hcell x hx f hf), hload₄ f x (hcell x hx f hf)]
    simp [h1, h2, hne x hx]
  have hother : ∀ x ∈ (addrs l ++ addrs r) ++ ctxAddrs K, ∀ f : Field, 16 ≤ f.offset →
      s₆.load f x = s.load f x := fun x hx f hf => by
    have hxm : x ∉ b :: rest := by
      rw [List.append_assoc, List.nodup_append] at hd'
      exact fun h => hd'.2.2 x h x hx rfl
    have hx' : x ∈ b :: rest ++ (addrs l ++ addrs r) ++ ctxAddrs K := by
      rw [List.append_assoc]
      exact List.mem_append_right _ hx
    have hxb : x ≠ b := fun h => hxm (h ▸ hbm)
    have hxz : x ≠ z := fun h => hxm (h ▸ hzm)
    rw [hload f x (hcell x hx' f hf), hload₄ f x (hcell x hx' f hf)]
    simp [hxb, hxz, hne x hx']
  have hnew : ∀ f : Field, 16 ≤ f.offset → s₆.load f c = s₄.load f c := fun f hf => by
    rw [hload f c (hcc f hf), if_neg fun h => hbc h.2.symm, if_neg fun h => hzc h.2.symm]
  refine ⟨s₆, hrun, treeRep_plug.mpr ⟨hctx.congr rfl fun x hx => hother x (by simp [hx]),
    ⟨?_, ?_, fun x hx => ?_, fun x hx => ?_, fun x hx => ?_, ?_, ?_⟩,
    hl.congr fun x hx => hother x (by simp [hx]), hr.congr fun x hx => hother x (by simp [hx])⟩,
    ?_, fun m => rfl⟩
  · rw [← List.cons_append]
    refine hring.link_back hdm ?_ ?_ ?_ ?_ (fun x hx hxz => ?_) fun x hx hxb => ?_
    · rw [hnew _ (by decide), hload₄ _ _ (hcc _ (by decide))]
      simp
    · rw [hnew _ (by decide), hload₄ _ _ (hcc _ (by decide))]
      simp [hz]
    · rw [hz, hload _ _ (hcell z (hin z hzm) _ (by decide))]
      simp
    · rw [hload _ _ (hcell b (hin b hbm) _ (by decide))]
      simp
    · rw [hz] at hxz
      rw [hload _ _ (hcell x (hin x hx) _ (by decide)),
        hload₄ _ _ (hcell x (hin x hx) _ (by decide))]
      simp [hxz, hne x (hin x hx)]
    · rw [hload _ _ (hcell x (hin x hx) _ (by decide)),
        hload₄ _ _ (hcell x (hin x hx) _ (by decide))]
      simp [hxb, hne x (hin x hx)]
  · rw [hfield b (hin b hbm) _ (by decide) (by simp) (by simp), hnode.parent]
  · rcases List.mem_append.mp hx with hx | hx
    · rw [hfield x (hin x (List.mem_cons_of_mem _ hx)) _ (by decide) (by simp) (by simp),
        hnode.member x hx]
    · obtain rfl := List.mem_singleton.mp hx
      rw [hnew _ (by decide), hload₄ _ _ (hcc _ (by decide))]
      simp
  · rw [← List.cons_append] at hx
    rcases List.mem_append.mp hx with hx | hx
    · rw [hfield x (hin x hx) _ (by decide) (by simp) (by simp), hnode.shift x hx]
    · obtain rfl := List.mem_singleton.mp hx
      rw [hnew _ (by decide), hload₄ _ _ (hcc _ (by decide)), ← hnode.shift b hbm, hv]
      simp
  · rw [← List.cons_append] at hx
    rcases List.mem_append.mp hx with hx | hx
    · rw [hfield x (hin x hx) _ (by decide) (by simp) (by simp), hnode.binNumber x hx]
    · obtain rfl := List.mem_singleton.mp hx
      rw [hnew _ (by decide), hload₄ _ _ (hcc _ (by decide))]
      simp [hcl.binNumber]
  · rw [hfield b (hin b hbm) _ (by decide) (by simp) (by simp), hnode.child0]
  · rw [hfield b (hin b hbm) _ (by decide) (by simp) (by simp), hnode.child1]
  · exact ((((((LinksOnly.refl X s).store (hcc _ (by decide))).store (hcc _ (by decide))).store
      (hcc _ (by decide))).store (hcc _ (by decide))).store
      (hcell z (hin z hzm) _ (by decide))).store (hcell b (hin b hbm) _ (by decide))

/-- The walk ends in the list of a node of the chunk's size (`none`), or at the hole for a new leaf,
with nothing written. -/
theorem insertLargeChunkLoop_spec (hX : Spread X) (hn : n < NUM_OF_BINS)
    (hL : Large X (c :: addrs (plug K t)))
    (hd : (c :: addrs (plug K t)).Nodup) (hcl : Cleared s n c) (hck : s.chunkSize c = k)
    (hsz : Keyed s t) (hroute : t.Routed (binLevel n - K.length) p)
    (hk : k / 2 ^ (binLevel n - K.length) = p) (h8 : ∀ j ∈ t.keys, 2 ^ 3 ∣ j) (hk8 : 2 ^ 3 ∣ k)
    (hw : Walked s n k K) (hf : t.height < fuel) (hb : BinTree s n (plug K t)) :
    Returns (insertLargeChunkLoop c k fuel (above K) (root t)) s fun o s' =>
      o = none ∧ BinTree s' n (plug K (t.insert k c (binLevel n - K.length))) ∧
          LinksOnly X s s' ∧ (∀ m, s'.bin m = s.bin m) ∨
      ∃ K', o = some (above K') ∧ s' = s ∧ plug K' .nil = plug K t ∧ Walked s n k K' ∧
        plug K' (.node k c [] .nil .nil) = plug K (t.insert k c (binLevel n - K.length)) := by
  -- along the subtree that is left to walk, with the turns taken so far in `K`
  induction t generalizing K p fuel with
  | nil =>
    obtain ⟨fuel, rfl⟩ := Nat.exists_eq_succ_of_ne_zero (by omega : fuel ≠ 0)
    exact .intro (a := some (above K)) (t := s) (by simp [insertLargeChunkLoop])
      (.inr ⟨K, rfl, rfl, rfl, hw, rfl⟩)
  | node k' b rest l r ihl ihr =>
    obtain ⟨fuel, rfl⟩ := Nat.exists_eq_succ_of_ne_zero (by omega : fuel ≠ 0)
    have hbm : b ∈ c :: addrs (plug K (.node k' b rest l r)) :=
      List.mem_cons_of_mem _ (addrs_plug.mem_iff.mpr (by simp))
    have hb0 : b ≠ NULL := (hL.ptr hX hbm).2.1
    have hbk : s.chunkSize b = k' := hsz (b, k') (by simp [entries])
    have hnode := (treeRep_plug.mp hb).2.1
    have hshift := hnode.shift b List.mem_cons_self
    unfold insertLargeChunkLoop
    rw [root_node, if_neg hb0]
    refine Returns.bind_of_eq (chunkSize_apply s b) ?_
    refine Returns.bind_of_eq (chunkSize_apply s c) ?_
    rw [hbk, hck]
    by_cases hkk : k' = k
    · -- a node of the chunk's size: the chunk joins its list
      subst hkk
      obtain ⟨s', hrun, hbt, hlinks, hbins⟩ := joinList_run hX hn hL hd hcl hb
      rw [if_pos rfl]
      exact .intro hrun (.inl ⟨rfl, by simpa [DigitTree.insert] using hbt, hlinks, hbins⟩)
    · -- two sizes that differ, both multiples of 8, part above their lowest three digits
      have hlev : 3 < binLevel n - K.length :=
        level_gt (hk.trans hroute.1.symm) (Ne.symm hkk) hk8 (h8 k' (by simp [keys]))
      have hh : binLevel n - K.length ≠ 0 := by omega
      have hc := prefix_child hh hk
      have hlen : ∀ T : Turn ℕ, binLevel n - (T :: K).length = binLevel n - K.length - 1 := by
        intro T
        rw [List.length_cons]
        omega
      simp only [height] at hf
      rw [if_neg hkk]
      refine Returns.bind_of_eq (load_of_eq s hshift (isPtr_level hn (by omega))) ?_
      rw [digit_eq]
      have hchild : IsPtr (s.load (.child (k.testBit (binLevel n - K.length - 1)).toNat) b) := by
        have hsub : ∀ u ∈ [l, r], Large X (addrs u) := fun u hu => by
          refine hL.mono fun x hx => List.mem_cons_of_mem _ (addrs_plug.mem_iff.mpr ?_)
          rcases List.mem_pair.mp hu with rfl | rfl <;> simp [hx]
        cases k.testBit (binLevel n - K.length - 1)
        · exact hnode.child0 ▸ isPtr_root hX (hsub l (by simp))
        · exact hnode.child1 ▸ isPtr_root hX (hsub r (by simp))
      refine Returns.bind_of_eq (load_apply s _ b hchild) ?_
      -- the turn taken is the one of the digit that was read
      have hwalk : ∀ T : Turn ℕ, above (T :: K) = b →
          hole (T :: K) = some (.child (k.testBit (binLevel n - K.length - 1)).toNat, b) →
          Walked s n k (T :: K) := fun T h1 h2 => by
        refine ⟨fun _ => ?_, fun _ => ?_, fun _ => ?_⟩
        · rw [h1, hlen, hshift]
        · rw [hlen]
          omega
        · rw [h2, hlen, digit_eq, h1]
      cases hbit : k.testBit (binLevel n - K.length - 1)
      · rw [hbit] at hc hwalk
        have hins : plug K ((node k' b rest l r).insert k c (binLevel n - K.length)) =
            plug (.left k' b rest r :: K) (l.insert k c (binLevel n - K.length - 1)) := by
          simp [DigitTree.insert, hkk, hbit, plug, Turn.fill]
        have hrec := ihl (K := .left k' b rest r :: K) hL hd
          (fun e he => hsz e (by simp [entries, he])) (by rw [hlen]; exact hroute.2.2.1)
          (by rw [hlen]; exact hc)
          (fun j hj => h8 j (by simp [keys, hj])) (hwalk _ rfl rfl)
          (show l.height < fuel by omega) hb
        rw [hlen, ← hins] at hrec
        simpa [Field.child, hnode.child0, above, plug, Turn.fill] using hrec
      · rw [hbit] at hc hwalk
        have hins : plug K ((node k' b rest l r).insert k c (binLevel n - K.length)) =
            plug (.right k' b rest l :: K) (r.insert k c (binLevel n - K.length - 1)) := by
          simp [DigitTree.insert, hkk, hbit, plug, Turn.fill]
        have hrec := ihr (K := .right k' b rest l :: K) hL hd
          (fun e he => hsz e (by simp [entries, he])) (by rw [hlen]; exact hroute.2.2.2)
          (by rw [hlen]; exact hc)
          (fun j hj => h8 j (by simp [keys, hj])) (hwalk _ rfl rfl)
          (show r.height < fuel by omega) hb
        rw [hlen, ← hins] at hrec
        simpa [Field.child, hnode.child1, above, plug, Turn.fill] using hrec

/-- The loads of a state in which the chunk `c` hangs in the hole of `K` as a leaf. -/
def Hangs (X : Set Slot) (s s' : State) (n c : ℕ) (K : List (Turn ℕ)) : Prop :=
  (∀ f d, Cell X f d → s'.load f d = if f = .prev ∧ d = c then c
    else if f = .next ∧ d = c then c
    else if f = .shift ∧ d = c then binLevel n - K.length - 1
    else if hole K = some (f, d) then c
    else if f = .parent ∧ d = c then above K else s.load f d) ∧
  LinksOnly X s s' ∧ ∀ m, s'.bin m = if m = n ∧ K = [] then c else s.bin m

/-- The end of `insert_large_chunk`: a new leaf is hung in the hole the walk found. -/
theorem hang_run (hX : Spread X) (hn : n < NUM_OF_BINS) (hL : Large X (c :: ctxAddrs K))
    (hck : s.chunkSize c = k) (hlev : binLevel n = fastLog2 k - 1) (hlog : 2 ≤ fastLog2 k)
    (hlog' : fastLog2 k < 24) (hidx : largeRequestIndex k = n) (hcX : ∃ j, (c, j) ∈ X)
    (hw : Walked s n k K) (hcK : c ∉ ctxAddrs K) :
    Returns (do
      store .parent c (above K)
      let mut result := 0
      if above K = NO_PARENT_ROOT_NODE then
        store .shift c (sub64 (fastLog2 (← chunkSize c)) 2)
        setBin n c
        result := 2
      else
        store (.child ((k >>> (← load .shift (above K))) &&& 1)) (above K) c
        store .shift c (sub64 (← load .shift (above K)) 1)
        result := 1
      store .next c c
      store .prev c c
      return result : M ℕ) s fun _ s' => Hangs X s s' n c K := by
  obtain ⟨j, hj⟩ := hcX
  -- the chunk's own fields, and the pointers that are written
  have hcc : ∀ f : Field, 16 ≤ f.offset → Cell X f c := fun f hf => hL.cell List.mem_cons_self hf
  have hcp : IsPtr c := (hL.ptr hX List.mem_cons_self).1
  have hK : Large X (ctxAddrs K) := hL.mono fun x hx => List.mem_cons_of_mem _ hx
  have hap := isPtr_above hX hK
  have hlinks₁ : LinksOnly X s (s.store .parent c (above K)) :=
    (LinksOnly.refl X s).store (hcc _ (by decide))
  have hv4 : binLevel n - K.length - 1 < 256 ^ Field.shift.width := by
    simp only [Field.width]
    omega
  have hsz := hlinks₁.chunkSize hX hj
  by_cases hK0 : K = []
  · -- the bin was empty, and the leaf is its root
    subst hK0
    have hshift : sub64 (fastLog2 k) 2 = binLevel n - 1 := by
      simp only [sub64]
      omega
    rw [List.length_nil, Nat.sub_zero] at hv4
    have hsz' : (s.store .parent c NO_PARENT_ROOT_NODE).chunkSize c = k := hsz.trans hck
    refine .intro (a := 2) (t := ((((s.store .parent c (above [])).store .shift c
      (binLevel n - 1)).setBin n c).store .next c c).store .prev c c) ?_
      ⟨fun f d hfd => ?_, ?_, fun m => ?_⟩
    · simp [above, hsz', hshift, hn]
    · rw [hX.load_store_ptr (hcc _ (by decide)) hfd (by simp) (by simp) hcp,
        hX.load_store_ptr (hcc _ (by decide)) hfd (by simp) (by simp) hcp, State.load_setBin,
        hX.load_store (hcc _ (by decide)) hfd hv4,
        hX.load_store_ptr (hcc _ (by decide)) hfd (by simp) (by simp) hap]
      simp [hole, above]
    · exact ((((hlinks₁.store (hcc _ (by decide))).setBin).store (hcc _ (by decide))).store
        (hcc _ (by decide)))
    · by_cases hm : m = n
      · subst hm
        simp [State.bin_setBin_same hn]
      · simp [hm, State.bin_setBin_of_ne hm]
  · -- the leaf is a child of the last node on the path
    have ham := above_mem hK0
    have ha1 := (hK.ptr hX ham).2.2
    have hac : above K ≠ c := fun h => hcK (h ▸ ham)
    have hdeep := hw.deep hK0
    have hhole := hw.hole hK0
    obtain ⟨-, -, hf⟩ := hole_eq hhole
    generalize hg : Field.child ((k >>> (binLevel n - K.length)) &&& 1) = g at hhole hf
    have hgo : 16 ≤ g.offset ∧ g ≠ .binNumber ∧ g ≠ .shift := by rcases hf with rfl | rfl <;> decide
    have hgc : Cell X g (above K) := hK.cell ham hgo.1
    have hsc : Cell X .shift (above K) := hK.cell ham (by decide)
    -- the parent's shift is read twice, and the stores before do not touch it
    have e1 : (s.store .parent c (above K)).load .shift (above K) = binLevel n - K.length := by
      rw [hX.load_store_ptr (hcc _ (by decide)) hsc (by simp) (by simp) hap, if_neg (by simp),
        hw.shift hK0]
    have e2 : ((s.store .parent c (above K)).store g (above K) c).load .shift (above K) =
        binLevel n - K.length := by
      rw [hX.load_store_ptr hgc hsc hgo.2.1 hgo.2.2 hcp, if_neg fun h => hgo.2.2 h.1.symm, e1]
    have hshift : sub64 (binLevel n - K.length) 1 = binLevel n - K.length - 1 := by
      simp only [sub64]
      omega
    have hlevel : IsPtr (binLevel n - K.length) := isPtr_level hn (Nat.sub_le _ _)
    refine .intro (a := 1) (t := ((((s.store .parent c (above K)).store g (above K) c).store
      .shift c (binLevel n - K.length - 1)).store .next c c).store .prev c c) ?_
      ⟨fun f d hfd => ?_, ?_, fun m => ?_⟩
    · simp [ha1, e1, hlevel, hg, e2, hshift, -Nat.and_one_is_mod]
    · rw [hX.load_store_ptr (hcc _ (by decide)) hfd (by simp) (by simp) hcp,
        hX.load_store_ptr (hcc _ (by decide)) hfd (by simp) (by simp) hcp,
        hX.load_store (hcc _ (by decide)) hfd hv4,
        hX.load_store_ptr hgc hfd hgo.2.1 hgo.2.2 hcp,
        hX.load_store_ptr (hcc _ (by decide)) hfd (by simp) (by simp) hap]
      simp [hhole, eq_comm]
    · exact ((((hlinks₁.store hgc).store (hcc _ (by decide))).store (hcc _ (by decide))).store
        (hcc _ (by decide)))
    · simp [hK0]

/-- A bin in whose hole a cleared chunk hangs. -/
theorem Hangs.rep (h : Hangs X s s' n c K) (hL : Large X (c :: ctxAddrs K))
    (hd : (c :: ctxAddrs K).Nodup) (hcl : Cleared s n c) (hb : BinTree s n (plug K .nil)) :
    BinTree s' n (plug K (.node k c [] .nil .nil)) := by
  obtain ⟨hload, -, hbin⟩ := h
  obtain ⟨hcK, hdK⟩ := List.nodup_cons.mp hd
  have hnew : ∀ f : Field, 16 ≤ f.offset → s'.load f c = if f = .prev then c
      else if f = .next then c else if f = .shift then binLevel n - K.length - 1
      else if f = .parent then above K else s.load f c := fun f hf => by
    rw [hload f c (hL.cell List.mem_cons_self hf)]
    simp [hole_ne hcK]
  rw [treeRep_plug]
  -- the context is the old one with its hole filled, the new node its own ring
  refine ⟨(treeRep_plug.mp hb).1.refill hdK (by simp [hbin]) fun b hbK f hf => ?_,
    ⟨?_, ?_, by simp, fun b hb => ?_, fun b hb => ?_, ?_, ?_⟩, trivial, trivial⟩
  · have hbc : b ≠ c := fun h => hcK (h ▸ hbK)
    rw [hload f b (hL.cell (List.mem_cons_of_mem _ hbK) hf)]
    simp [hbc]
  · rw [CircularList.singleton_iff, hnew _ (by decide), hnew _ (by decide)]
    simp
  · rw [hnew _ (by decide)]
    simp
  · obtain rfl := List.mem_singleton.mp hb
    rw [hnew _ (by decide)]
    simp
  · obtain rfl := List.mem_singleton.mp hb
    rw [hnew _ (by decide)]
    simp [hcl.binNumber]
  · rw [hnew _ (by decide)]
    simp [hcl.child0]
  · rw [hnew _ (by decide)]
    simp [hcl.child1]

/-- The state with the tree fields of `c` cleared. -/
def clearTreeFields (s : State) (c : ℕ) : State :=
  ((((((s.store .child1 c NULL).store .child0 c NULL).store .parent c NULL).store
    .prev c NULL).store .next c NULL).store .shift c 0).store .binNumber c 0

/-- The state in which the insertion walk for `c` into bin `n` starts. -/
def setOut (s : State) (n c : ℕ) : State := (clearTreeFields s c).store .binNumber c n

theorem clearTreeFields_links (hlarge : isLargeSize k) :
    LinksOnly {(c, k)} s (clearTreeFields s c) := by
  have hcc : ∀ f : Field, 16 ≤ f.offset → Cell {(c, k)} f c := fun f hf =>
    cell_of_large (X := {(c, k)}) rfl hlarge hf
  exact (((((((LinksOnly.refl _ s).store (hcc _ (by decide))).store (hcc _ (by decide))).store
    (hcc _ (by decide))).store (hcc _ (by decide))).store (hcc _ (by decide))).store
    (hcc _ (by decide))).store (hcc _ (by decide))

theorem setOut_links (hlarge : isLargeSize k) : LinksOnly {(c, k)} s (setOut s n c) :=
  (clearTreeFields_links hlarge).store (cell_of_large (X := {(c, k)}) rfl hlarge (by decide))

theorem setOut_cleared (hn : n < NUM_OF_BINS) : Cleared (setOut s n c) n c := by
  have hn4 : n < 256 ^ Field.binNumber.width := hn.trans (by decide)
  refine ⟨?_, ?_, ?_⟩
  · simp [setOut, clearTreeFields, State.load_store_of_ne, State.load_store_same, NULL]
  · simp [setOut, clearTreeFields, State.load_store_of_ne, State.load_store_same, NULL]
  · rw [setOut, State.load_store_same, Nat.mod_eq_of_lt hn4]

/-- The bin is not touched by clearing the fields of a chunk that is not in it. -/
theorem setOut_binTree (hX : Spread X) (hL : Large X (c :: addrs t))
    (hd : (c :: addrs t).Nodup) (hcX : (c, k) ∈ X) (hlarge : isLargeSize k) (hb : BinTree s n t) :
    BinTree (setOut s n c) n t := by
  have hsub : ({(c, k)} : Set Slot) ⊆ X := by
    rintro e rfl
    exact hcX
  refine hb.frame hX (hL.mono fun x hx => List.mem_cons_of_mem _ hx)
    (setOut_links hlarge) hsub ?_ rfl
  rintro e rfl
  exact (List.nodup_cons.mp hd).1

/-- **Insertion** into a tree bin is insertion into its digit tree. -/
theorem insertLargeChunk_spec (hX : Spread X) (hn : n < NUM_OF_BINS)
    (hL : Large X (c :: addrs t)) (hd : (c :: addrs t).Nodup) (hcX : (c, k) ∈ X)
    (hsz : Keyed s t) (hck : s.chunkSize c = k) (hlarge : isLargeSize k) (hhuge : ¬ isHugeSize k)
    (hk8 : 8 ∣ k) (hidx : largeRequestIndex k = n)
    (hroute : t.Routed (binLevel n) (2 + n % 2)) (h8 : ∀ j ∈ t.keys, 8 ∣ j)
    (hf : t.height < MAX_HEAP) (hb : BinTree s n t) :
    Returns (insertLargeChunk c) s fun _ s' =>
      BinTree s' n (t.insert k c (binLevel n)) ∧ LinksOnly X s s' ∧
        ∀ m, m ≠ n → s'.bin m = s.bin m := by
  have hsub : ({(c, k)} : Set Slot) ⊆ X := by
    rintro e rfl
    exact hcX
  have hX₀ : Spread {(c, k)} := hX.mono hsub
  -- first the code sets out the fields of the chunk, which no node reads
  have hlinks₁ : LinksOnly {(c, k)} s (setOut s n c) := setOut_links hlarge
  have hck₁ : (setOut s n c).chunkSize c = k := (hlinks₁.chunkSize hX₀ rfl).trans hck
  have hcl : Cleared (setOut s n c) n c := setOut_cleared hn
  have hb₁ : BinTree (setOut s n c) n t :=
    setOut_binTree hX hL hd hcX hlarge hb
  have hsz₁ : Keyed (setOut s n c) t := fun e he => by
    obtain ⟨j, hj, -⟩ := hL e.1 (List.mem_cons_of_mem _ (List.mem_map_of_mem he))
    rw [(hlinks₁.mono hsub).chunkSize hX hj]
    exact hsz e he
  have hck₀ : (clearTreeFields s c).chunkSize c = k :=
    ((clearTreeFields_links hlarge).chunkSize hX₀ rfl).trans hck
  unfold insertLargeChunk
  refine Returns.bind_of_eq (isHugeChunk_apply s c) ?_
  rw [hck, if_neg (by simpa using hhuge)]
  refine Returns.bind_of_eq (store_apply s _ _ _) (Returns.bind_of_eq (store_apply _ _ _ _)
    (Returns.bind_of_eq (store_apply _ _ _ _) (Returns.bind_of_eq (store_apply _ _ _ _)
    (Returns.bind_of_eq (store_apply _ _ _ _) (Returns.bind_of_eq (store_apply _ _ _ _)
    (Returns.bind_of_eq (store_apply _ _ _ _) ?_))))))
  refine Returns.bind_of_eq (chunkSize_apply (clearTreeFields s c) c) ?_
  rw [hck₀, hidx]
  refine Returns.bind_of_eq (store_apply (clearTreeFields s c) _ _ _) ?_
  refine Returns.bind_of_eq (chunkSize_apply (setOut s n c) c) ?_
  rw [hck₁]
  refine Returns.bind_of_eq (bin_apply (setOut s n c) n) ?_
  have hpre := prefix_largeRequestIndex hlarge hk8
  rw [hidx] at hpre
  -- then the loop, from the root of the tree
  have hloop := insertLargeChunkLoop_spec (K := []) hX hn hL hd hcl hck₁ hsz₁
    hroute hpre h8 hk8 Walked.nil hf hb₁
  rw [hb₁.1]
  refine hloop.bind_of fun o s₂ ho => ?_
  -- it joined a list of equal size, or an empty place was found
  rcases ho with ⟨rfl, hbt, hlinks, hbins⟩ | ⟨K, rfl, rfl, hplug, hw, hins⟩
  · exact Returns.pure ⟨hbt, (hlinks₁.mono hsub).trans hlinks, fun m _ => hbins m⟩
  · have hperm : (addrs t).Perm (ctxAddrs K) := by
      have h' := addrs_plug (K := K) (t := .nil)
      rw [hplug] at h'
      exact h'
    have hL' : Large X (c :: ctxAddrs K) := hL.mono fun x hx => (hperm.cons c).mem_iff.mpr hx
    have hd' := (hperm.cons c).nodup hd
    have hlev := binLevel_largeRequestIndex (k := k)
    rw [hidx] at hlev
    have hlog := fastLog2_large hlarge hk8
    have hlog' := fastLog2_not_huge (k := k) (by rintro rfl; simp [isLargeSize] at hlarge) hhuge
    refine (hang_run hX hn hL' hck₁ hlev (by omega) hlog' hidx ⟨k, hcX⟩ hw
      (List.nodup_cons.mp hd').1).mono fun _ s' hh => ?_
    have hrep := hh.rep (k := k) hL' hd' hcl (by rw [hplug]; exact hb₁)
    rw [hins] at hrep
    exact ⟨hrep, (hlinks₁.mono hsub).trans hh.2.1, fun m hm => by
      rw [hh.2.2 m, if_neg fun h => hm h.1]
      rfl⟩

end Insert

end Dlmalloc
