import Dlmalloc.Machine.Walks
import Dlmalloc.Refine.TreeLinks

/-!
# Removal from the tree bins

`remove_large_chunk` takes a chunk out of the tree of its bin (`removeLargeChunk_spec`). A member of
a list of several chunks is unlinked, and if it was the head, the next one takes its place. A chunk
alone in its list is replaced by a leaf found below it, or by nothing.
-/

namespace Dlmalloc

open DigitTree

section Remove

variable {X : Set Slot} {s s' : State} {n h par c k a : ℕ} {rest : List ℕ} {K : List (Turn ℕ)}
  {t t' l r : DigitTree ℕ}

/-! ### Finding a replacement -/

theorem height_le_length : t.height ≤ (addrs t).length := by
  induction t with
  | nil => simp [height]
  | node k a rest l r ihl ihr =>
    simp only [height, addrs_node, List.length_append, List.length_cons]
    omega

/-- The walk down to a leaf, to the right (`children[1]` first) or to the left. -/
theorem descendToLeaf_run (q : Bool) (hX : Spread X) {fuel : ℕ} (hL : Large X (addrs t))
    (ht : TreeRep s n h par t) (hp : popLeaf q t = some (k, a, rest, t'))
    (hf : t.height ≤ fuel) :
    descendToLeaf (if q then 1 else 0) fuel (root t) s = some (a, s) := by
  induction t generalizing h par t' fuel with
  | nil => simp [popLeaf] at hp
  | node k' b rest' l r ihl ihr =>
    cases fuel with
    | zero => simp [height] at hf
    | succ fuel =>
      have hLl : Large X (addrs l) := hL.mono fun x hx => by simp [hx]
      have hLr : Large X (addrs r) := hL.mono fun x hx => by simp [hx]
      have hb0 : b ≠ NULL := (hL.ptr hX (a := b) (by simp)).2.1
      have hfl : l.height ≤ fuel := by simp only [height] at hf; omega
      have hfr : r.height ≤ fuel := by simp only [height] at hf; omega
      have hl0 := root_ne_NULL hX hLl
      have hr0 := root_ne_NULL hX hLr
      have hlp := isPtr_root hX hLl
      have hrp := isPtr_root hX hLr
      have hc0 := ht.1.child0
      have hc1 := ht.1.child1
      -- the code looks at the child of side `q` first, then at the other
      rcases hl : popLeaf q l with _ | ⟨kl, al, sl, l'⟩ <;>
        rcases hr : popLeaf q r with _ | ⟨kr, ar, sr, r'⟩ <;>
        simp only [popLeaf, hl, hr, Option.some.injEq, Prod.mk.injEq] at hp
      · obtain ⟨rfl, rfl, rfl, rfl⟩ := hp
        have hln := hl0.mpr (popLeaf_eq_none.mp hl)
        have hrn := hr0.mpr (popLeaf_eq_none.mp hr)
        cases q <;> simp [descendToLeaf, hb0, Field.child, hc0, hc1, hln, hrn]
      · obtain ⟨rfl, rfl, rfl, rfl⟩ := hp
        have hln := hl0.mpr (popLeaf_eq_none.mp hl)
        have hrn : root r ≠ NULL := fun h0 => by simp [hr0.mp h0, popLeaf] at hr
        have hrec := ihr hLr ht.2.2 hr hfr
        cases q <;> simpa [descendToLeaf, hb0, Field.child, hc0, hc1, hlp, hrp, hln, hrn] using hrec
      · obtain ⟨rfl, rfl, rfl, rfl⟩ := hp
        have hrn := hr0.mpr (popLeaf_eq_none.mp hr)
        have hln : root l ≠ NULL := fun h0 => by simp [hl0.mp h0, popLeaf] at hl
        have hrec := ihl hLl ht.2.1 hl hfl
        cases q <;> simpa [descendToLeaf, hb0, Field.child, hc0, hc1, hlp, hrp, hln, hrn] using hrec
      · have hln : root l ≠ NULL := fun h0 => by simp [hl0.mp h0, popLeaf] at hl
        have hrn : root r ≠ NULL := fun h0 => by simp [hr0.mp h0, popLeaf] at hr
        cases q
        · simp only [Bool.false_eq_true, if_false, Option.some.injEq, Prod.mk.injEq] at hp
          obtain ⟨rfl, rfl, rfl, rfl⟩ := hp
          have hrec := ihl hLl ht.2.1 hl hfl
          simpa [descendToLeaf, hb0, Field.child, hc0, hc1, hlp, hrp, hln, hrn] using hrec
        · simp only [if_true, Option.some.injEq, Prod.mk.injEq] at hp
          obtain ⟨rfl, rfl, rfl, rfl⟩ := hp
          have hrec := ihr hLr ht.2.2 hr hfr
          simpa [descendToLeaf, hb0, Field.child, hc0, hc1, hlp, hrp, hln, hrn] using hrec

theorem descendToLeaf_nil {i fuel : ℕ} (hf : fuel ≠ 0) :
    descendToLeaf i fuel NULL s = some (NULL, s) := by
  obtain ⟨fuel, rfl⟩ := Nat.exists_eq_succ_of_ne_zero hf
  simp [descendToLeaf]

/-- What is known of a leaf taken out of its tree: its list, and that it has no parent now. -/
structure Detached (s : State) (n a : ℕ) (rest : List ℕ) : Prop where
  list : CircularList (s.load .next) (s.load .prev) (a :: rest)
  parent : ∀ b ∈ a :: rest, s.load .parent b = NULL
  binNumber : ∀ b ∈ a :: rest, s.load .binNumber b = n

/-- The bin of every chunk of the list, by its size, is `n`. -/
def Indexed (s : State) (n : ℕ) (l : List ℕ) : Prop :=
  ∀ a ∈ l, largeRequestIndex (s.chunkSize a) = n

theorem Indexed.links {l m : List ℕ} (hi : Indexed s n l) (hX : Spread X) (hL : Large X l)
    (hs : LinksOnly X s s') (hm : m ⊆ l) : Indexed s' n m := fun a ha => by
  obtain ⟨k, hk, -⟩ := hL a (hm ha)
  rw [hs.chunkSize hX hk]
  exact hi a (hm ha)

/-- A leaf is cut off its parent. -/
theorem detach_run (hX : Spread X) (hn : n < NUM_OF_BINS)
    (hL : Large X (a :: rest ++ ctxAddrs K)) (hd : (a :: rest ++ ctxAddrs K).Nodup)
    (hi : Indexed s n [a]) (hb : BinTree s n (plug K (.node k a rest .nil .nil))) :
    ∃ s', linkChunkWithParent a NULL s = some ((), s') ∧ BinTree s' n (plug K .nil) ∧
      Detached s' n a rest ∧ LinksOnly X s s' ∧ ∀ m, m ≠ n → s'.bin m = s.bin m := by
  rw [treeRep_plug, root_node] at hb
  obtain ⟨hctx, hnode, -, -⟩ := hb
  have hK : Large X (ctxAddrs K) := hL.mono fun x hx => by simp [hx]
  have ha : Cell X .parent a := hL.cell (by simp) (by decide)
  obtain ⟨-, ha0, -⟩ := hL.ptr hX (a := a) (by simp)
  have hd' := hd
  simp only [List.cons_append, List.nodup_cons, List.nodup_append, List.mem_append, not_or] at hd'
  obtain ⟨⟨harest, haK⟩, -, hdK, hsep⟩ := hd'
  have hrun := linkChunkWithParent_run hX hK hctx ha haK ha0 hnode.parent
    (hi a List.mem_cons_self) hn isPtr_NULL
  -- the fields after the run: the hole and the parent of the leaf are cleared
  have hload : ∀ b ∈ a :: rest ++ ctxAddrs K, ∀ f : Field, 16 ≤ f.offset →
      ((adopt (setHole s n K NULL) NULL (above K)).store .parent a NULL).load f b =
        if f = .parent ∧ b = a then NULL else if hole K = some (f, b) then NULL
        else s.load f b := fun b hb f hf => by
    have hbc := hL.cell hb hf
    rw [hX.load_store_ptr ha hbc (by simp) (by simp) isPtr_NULL]
    simp only [adopt, if_true]
    rw [load_setHole hX hK isPtr_NULL hbc]
  have hrest : ∀ b ∈ rest, b ≠ a ∧ b ∉ ctxAddrs K := fun b hb => by
    refine ⟨?_, fun h' => hsep b hb b h' rfl⟩
    rintro rfl
    exact harest hb
  -- those of the detached list are its own
  have hown : ∀ b ∈ a :: rest, ∀ f : Field, 16 ≤ f.offset → f ≠ .parent →
      ((adopt (setHole s n K NULL) NULL (above K)).store .parent a NULL).load f b = s.load f b :=
    fun b hb f hf h1 => by
      have hbK : b ∉ ctxAddrs K := by
        rcases List.mem_cons.mp hb with rfl | hb
        · exact haK
        · exact (hrest b hb).2
      rw [hload b (List.mem_append_left _ hb) f hf]
      simp [h1, hole_ne hbK]
  refine ⟨_, hrun, treeRep_plug.mpr ⟨hctx.refill hdK ?_ fun b hb f hf => ?_, trivial⟩,
    ⟨?_, fun b hb => ?_, fun b hb => ?_⟩, ?_, fun m hm => by simp [bin_setHole_of_ne hm]⟩
  · simp [bin_setHole hn]
  · have hba : b ≠ a := by
      rintro rfl
      exact haK hb
    rw [hload b (by simp [hb]) f hf]
    simp [hba]
  · exact hnode.list.congr (fun b hb => hown b hb _ (by decide) (by simp))
      (fun b hb => hown b hb _ (by decide) (by simp))
  · rcases List.mem_cons.mp hb with rfl | hb
    · rw [hload _ (by simp) _ (by decide)]
      simp
    · rw [hload b (by simp [hb]) _ (by decide), if_neg (by simp [(hrest b hb).1]),
        if_neg (hole_ne (hrest b hb).2)]
      exact hnode.member b hb
  · rw [hown b hb _ (by decide) (by simp), hnode.binNumber b hb]
  · exact (((LinksOnly.refl X s).setHole hK).adopt fun h' => absurd rfl h').store ha

/-- `find_replacement_for_large_chunk` cuts a leaf off below the chunk, if there is one: the leaf
that `pull` puts in its place. -/
theorem findReplacement_spec (hX : Spread X) (hn : n < NUM_OF_BINS)
    (hL : Large X (addrs (plug K (.node k c rest l r))))
    (hd : (addrs (plug K (.node k c rest l r))).Nodup)
    (hi : Indexed s n (addrs (plug K (.node k c rest l r))))
    (hlen : (addrs (plug K (.node k c rest l r))).length ≤ MAX_HEAP)
    (hb : BinTree s n (plug K (.node k c rest l r))) :
    Returns (findReplacementForLargeChunk c) s fun a s' =>
      l = .nil ∧ r = .nil ∧ a = NULL ∧ s' = s ∨
      ∃ k' rest' l' r', pull l r = .node k' a rest' l' r' ∧ a ≠ NULL ∧
        BinTree s' n (plug K (.node k c rest l' r')) ∧ Detached s' n a rest' ∧
        LinksOnly X s s' ∧ ∀ m, m ≠ n → s'.bin m = s.bin m := by
  have hperm := addrs_plug (K := K) (t := .node k c rest l r)
  have hparts := (treeRep_plug.mp hb).2
  have hmem : ∀ {m : List ℕ}, m ⊆ addrs (.node k c rest l r) ++ ctxAddrs K →
      Large X m := fun hm => hL.mono fun x hx => hperm.mem_iff.mpr (hm hx)
  have hLl : Large X (addrs l) := hmem fun x hx => by simp [hx]
  have hLr : Large X (addrs r) := hmem fun x hx => by simp [hx]
  have hlen' := hperm.length_eq
  have hhl := height_le_length (t := l)
  have hhr := height_le_length (t := r)
  simp only [addrs_node, List.length_append, List.length_cons] at hlen'
  have hh : l.height ≤ MAX_HEAP ∧ r.height ≤ MAX_HEAP := by omega
  have hfuel : MAX_HEAP ≠ 0 := by decide
  have hlp := isPtr_root hX hLl
  have hrp := isPtr_root hX hLr
  -- the leaf is cut off below the turn from `c` to its left or right
  have hcut : ∀ (T : Turn ℕ) (t t' : DigitTree ℕ) (q : Bool) (k' a' : ℕ) (rest' : List ℕ),
      T.fill t = .node k c rest l r → popLeaf q t = some (k', a', rest', t') →
      a' ≠ NULL ∧ ∃ s', linkChunkWithParent a' NULL s = some ((), s') ∧
        BinTree s' n (plug K (T.fill t')) ∧ Detached s' n a' rest' ∧ LinksOnly X s s' ∧
        ∀ m, m ≠ n → s'.bin m = s.bin m := fun T t t' q k' a' rest' hT hp => by
    obtain ⟨K₁, rfl, rfl⟩ := popLeaf_plug hp
    have hplug : ∀ u, plug (K₁ ++ T :: K) u = plug K (T.fill (plug K₁ u)) := fun u => by
      rw [plug_append]
      rfl
    rw [← hT, ← hplug] at hb hL hd hi
    have hp' := addrs_plug (K := K₁ ++ T :: K) (t := .node k' a' rest' .nil .nil)
    have hnil : addrs (.node k' a' rest' .nil .nil) ++ ctxAddrs (K₁ ++ T :: K) =
        a' :: rest' ++ ctxAddrs (K₁ ++ T :: K) := by simp
    rw [hnil] at hp'
    have hL' : Large X (a' :: rest' ++ ctxAddrs (K₁ ++ T :: K)) :=
      hL.mono fun x hx => hp'.mem_iff.mpr hx
    obtain ⟨s', hrun, hbt, hdet, hlinks, hbins⟩ := detach_run hX hn hL' (hp'.nodup hd)
      (fun x hx => hi x (hp'.mem_iff.mpr (by simp at hx; simp [hx]))) hb
    rw [hplug] at hbt
    exact ⟨(hL'.ptr hX (a := a') (by simp)).2.1, s', hrun, hbt, hdet, hlinks, hbins⟩
  unfold findReplacementForLargeChunk
  refine Returns.bind_of_eq (load_of_eq s hparts.1.child0 hlp) ?_
  rcases hl : popLeaf true l with _ | ⟨kl, al, sl, l'⟩
  · have hln : l = .nil := popLeaf_eq_none.mp hl
    subst hln
    refine Returns.bind_of_eq (descendToLeaf_nil hfuel) ?_
    rcases hr : popLeaf false r with _ | ⟨kr, ar, sr, r'⟩
    · have hrn : r = .nil := popLeaf_eq_none.mp hr
      subst hrn
      refine .intro (a := NULL) (t := s) ?_ (.inl ⟨rfl, rfl, rfl, rfl⟩)
      have hrun := descendToLeaf_nil (s := s) (i := 0) hfuel
      simp [hparts.1.child1, hrun]
    · obtain ⟨h0, s', hrun, hrest⟩ := hcut (.right k c rest .nil) r r' false kr ar sr rfl hr
      have hwalk := descendToLeaf_run false hX hLr hparts.2.2 hr hh.2
      refine .intro (a := ar) (t := s') ?_
        (.inr ⟨kr, sr, .nil, r', by simp [pull, popLeaf, hr], h0, hrest⟩)
      simp only [Bool.false_eq_true, if_false] at hwalk
      simp [hparts.1.child1, hrp, hwalk, h0, hrun]
  · obtain ⟨h0, s', hrun, hrest⟩ := hcut (.left k c rest r) l l' true kl al sl rfl hl
    have hwalk := descendToLeaf_run true hX hLl hparts.2.1 hl hh.1
    refine Returns.bind_of_eq hwalk ?_
    refine .intro (a := al) (t := s') ?_ (.inr ⟨kl, sl, l', r, by simp [pull, hl], h0, hrest⟩)
    simp [h0, hrun]

/-! ### A chunk alone in its list -/

/-- The loop visits the members of the list after its head `a`, and gives the shift to them. -/
theorem copyShiftVisits_run (hX : Spread X) {g : ℕ → ℕ} {m : List ℕ} {v fuel b : ℕ}
    (hL : Large X m) (hc : Cell X .shift c) (hcm : c ∉ m) (ha : IsPtr a) (ham : a ∉ m)
    (hv4 : v < 256 ^ Field.shift.width) (hv : s.load .shift c = v)
    (hnx : ∀ x ∈ m, s.load .next x = g x) (hchain : List.IsChain (fun x y => g x = y) (m ++ [a]))
    (hb : b = (m ++ [a]).headD a) (hf : m.length < fuel) :
    ∃ s', copyShiftVisits c a fuel b s = some (m, s') ∧ LinksOnly X s s' ∧
      (∀ i, s'.bin i = s.bin i) ∧ ∀ f d, Cell X f d →
        s'.load f d = if f = .shift ∧ d ∈ m then v else s.load f d := by
  induction m generalizing s fuel b with
  | nil =>
    obtain ⟨fuel, rfl⟩ := Nat.exists_eq_succ_of_ne_zero (by omega : fuel ≠ 0)
    obtain rfl : b = a := hb
    exact ⟨s, by simp [copyShiftVisits], .refl X s, fun _ => rfl, by simp⟩
  | cons x m ih =>
    obtain ⟨fuel, rfl⟩ := Nat.exists_eq_succ_of_ne_zero (by omega : fuel ≠ 0)
    obtain rfl : b = x := hb
    have hba : b ≠ a := fun h => ham (h ▸ List.mem_cons_self)
    have hbc : c ≠ b := fun h => hcm (h ▸ List.mem_cons_self)
    have hbs : Cell X .shift b := hL.cell List.mem_cons_self (by decide)
    have hvp : IsPtr v := hv4.trans (by decide)
    -- one step writes one `shift`, and no link
    have hstore : ∀ f d, Cell X f d → (s.store .shift b v).load f d =
        if f = .shift ∧ d = b then v else s.load f d := fun f d hd => hX.load_store hbs hd hv4
    have hnext : (s.store .shift b v).load .next b = g b := by
      rw [hstore _ _ (hL.cell List.mem_cons_self (by decide)), if_neg (by simp)]
      exact hnx b List.mem_cons_self
    -- the next of `b` is the head of what is left, or the start
    have hhead : g b = (m ++ [a]).headD a := by
      cases m with
      | nil => simpa using hchain
      | cons y m =>
        simp only [List.cons_append, List.isChain_cons_cons] at hchain
        exact hchain.1
    have hptr : IsPtr (g b) := by
      rw [hhead]
      cases m with
      | nil => exact ha
      | cons y m => exact (hL.ptr hX (a := y) (by simp)).1
    have htail : List.IsChain (fun x y => g x = y) (m ++ [a]) := hchain.tail
    obtain ⟨s', hrun, hlinks, hbins, hload⟩ := ih (s := s.store .shift b v)
      (b := g b) (hL.mono (List.subset_cons_self _ _)) (fun h => hcm (List.mem_cons_of_mem _ h))
      (fun h => ham (List.mem_cons_of_mem _ h))
      (by rw [hstore _ _ hc, if_neg (by simp [hbc]), hv])
      (fun y hy => by
        rw [hstore _ _ (hL.cell (List.mem_cons_of_mem _ hy) (by decide)), if_neg (by simp)]
        exact hnx y (List.mem_cons_of_mem _ hy))
      htail hhead (show m.length < fuel by simp only [List.length_cons] at hf; omega)
    refine ⟨s', ?_, ((LinksOnly.refl X s).store hbs).trans hlinks, fun i => hbins i,
      fun f d hd => ?_⟩
    · simp [copyShiftVisits, hba, hv, hvp, hnext, hptr, hrun]
    · rw [hload f d hd, hstore f d hd]
      by_cases h1 : f = .shift <;> by_cases h2 : d = b <;> simp [h1, h2]

/-- The replacement `a`, cut off its old place, is given the shift and the parent of the chunk `c`
whose place it takes. -/
theorem promote_run (hX : Spread X) (hn : n < NUM_OF_BINS)
    (hL : Large X (c :: a :: rest ++ (addrs l ++ addrs r) ++ ctxAddrs K))
    (hd : (c :: a :: rest ++ (addrs l ++ addrs r) ++ ctxAddrs K).Nodup)
    (hlen : rest.length < MAX_HEAP) (hb : BinTree s n (plug K (.node k c [] l r)))
    (hdet : Detached s n a rest) :
    IsPtr (s.load .shift c) ∧ IsPtr (s.load .next a) ∧
    ∃ s₃, copyShiftVisits c a MAX_HEAP (s.load .next a) (s.store .shift a (s.load .shift c)) =
        some (rest, s₃) ∧
      (s.store .shift a (s.load .shift c)).load .next a = s.load .next a ∧
      s₃.load .parent c = above K ∧
      Hookable X (s₃.store .parent a (above K)) n K c a rest l r ∧
      LinksOnly X s (s₃.store .parent a (above K)) ∧ ∀ m, s₃.bin m = s.bin m := by
  obtain ⟨hctx, hnode, hl, hr⟩ := treeRep_plug.mp hb
  have hcell : ∀ b ∈ c :: a :: rest ++ (addrs l ++ addrs r) ++ ctxAddrs K, ∀ f : Field,
      16 ≤ f.offset → Cell X f b := fun b hb f hf => hL.cell hb hf
  have hca' : ∀ f : Field, 16 ≤ f.offset → Cell X f a := hcell a (by simp)
  have hcc : ∀ f : Field, 16 ≤ f.offset → Cell X f c := hcell c (by simp)
  have habove := isPtr_above hX (hL.mono (m := ctxAddrs K) fun x hx => by simp [hx])
  -- the list of `a` lies apart from all the rest
  have hsep : ∀ b ∈ c :: (addrs l ++ addrs r) ++ ctxAddrs K, b ∉ a :: rest := by
    simp only [List.cons_append, List.nodup_cons, List.nodup_append, List.mem_cons,
      List.mem_append, not_or] at hd ⊢
    obtain ⟨⟨h1, ⟨h2, -⟩, -⟩, ⟨⟨-, h3⟩, h4⟩, ⟨-, -, h5⟩, -, h6⟩ := hd
    rintro b (rfl | (hb | hb) | hb)
    · exact ⟨h1, h2⟩
    · exact ⟨fun h => h3.1 (h ▸ hb), fun h => h5 b h b (.inl hb) rfl⟩
    · exact ⟨fun h => h3.2 (h ▸ hb), fun h => h5 b h b (.inr hb) rfl⟩
    · exact ⟨fun h => h4 (h ▸ hb), fun h => h6 b (.inl h) b hb rfl⟩
  have hcm := hsep c (by simp)
  have hca : c ≠ a := fun h => hcm (h ▸ List.mem_cons_self)
  have har : a ∉ rest := by
    simp only [List.cons_append, List.nodup_cons, List.mem_append, not_or] at hd
    exact hd.2.1.1.1
  have hshift := hnode.shift c List.mem_cons_self
  have hv4 : binLevel n - K.length - 1 < 256 ^ Field.shift.width :=
    (level_lt hn (by omega)).trans (by decide)
  have hnextm := hdet.list.next_mem (List.mem_cons_self (a := a) (l := rest))
  have hnextp : IsPtr (s.load .next a) :=
    (hL.ptr hX (List.mem_append_left _ (List.mem_append_left _ (List.mem_cons_of_mem _ hnextm)))).1
  rw [hshift]
  have hload₂ : ∀ f d, Cell X f d → (s.store .shift a (binLevel n - K.length - 1)).load f d =
      if f = .shift ∧ d = a then binLevel n - K.length - 1 else s.load f d :=
    fun f d hd => hX.load_store (hca' _ (by decide)) hd hv4
  have hring : List.IsChain (Linked (s.load .next) (s.load .prev)) (a :: (rest ++ [a])) := hdet.list
  obtain ⟨s₃, hrun₃, hs₃, hbins₃, hload₃⟩ := copyShiftVisits_run (a := a) (m := rest)
    (g := s.load .next) (s := s.store .shift a (binLevel n - K.length - 1))
    (v := binLevel n - K.length - 1) (b := s.load .next a) hX
    (hL.mono fun x hx => by simp [hx]) (hcc _ (by decide))
    (fun h => hcm (List.mem_cons_of_mem _ h)) (hL.ptr hX (a := a) (by simp)).1 har hv4
    (by rw [hload₂ _ _ (hcc _ (by decide)), if_neg (by simp [hca]), hshift])
    (fun x hx => by rw [hload₂ _ _ (hcell x (by simp [hx]) _ (by decide)), if_neg (by simp)])
    (hring.tail.imp fun _ _ h => h.1)
    (by cases rest <;> exact (List.isChain_cons_cons.mp hring).1.1) hlen
  have hpar₃ : s₃.load .parent c = above K := by
    rw [hload₃ _ _ (hcc _ (by decide)), if_neg (by simp), hload₂ _ _ (hcc _ (by decide)),
      if_neg (by simp), hnode.parent]
  have hload : ∀ f d, Cell X f d → (s₃.store .parent a (above K)).load f d =
      if f = .parent ∧ d = a then above K
      else if f = .shift ∧ d ∈ a :: rest then binLevel n - K.length - 1
      else s.load f d := fun f d hd => by
    rw [hX.load_store_ptr (hca' _ (by decide)) hd (by simp) (by simp) habove, hload₃ f d hd,
      hload₂ f d hd]
    by_cases h1 : f = .shift <;> by_cases h2 : d = a <;> simp [h1, h2]
  have hown : ∀ b ∈ a :: rest, ∀ f : Field, 16 ≤ f.offset → f ≠ .parent → f ≠ .shift →
      (s₃.store .parent a (above K)).load f b = s.load f b := fun b hb f hf h1 h2 => by
    rw [hload f b (hcell b (List.mem_append_left _ (List.mem_append_left _
      (List.mem_cons_of_mem _ hb))) f hf), if_neg fun h => h1 h.1, if_neg fun h => h2 h.1]
  have hother : ∀ b ∈ c :: (addrs l ++ addrs r) ++ ctxAddrs K, ∀ f : Field, 16 ≤ f.offset →
      (s₃.store .parent a (above K)).load f b = s.load f b := fun b hb f hf => by
    have hba : b ≠ a := fun h => hsep b hb (h ▸ List.mem_cons_self)
    have hb' : b ∈ c :: a :: rest ++ (addrs l ++ addrs r) ++ ctxAddrs K := by
      simp only [List.cons_append, List.mem_cons, List.mem_append] at hb ⊢
      rcases hb with h | h | h <;> simp [h]
    rw [hload f b (hcell b hb' f hf), if_neg (by simp [hba]), if_neg fun h => hsep b hb h.2]
  refine ⟨isPtr_level hn (by omega), hnextp, s₃, hrun₃, ?_, hpar₃,
    ⟨hL, hd, hctx.congr ?_ fun b hb => hother b (by simp [hb]), ?_, ?_, ?_,
    hl.congr fun b hb => hother b (by simp [hb]), hr.congr fun b hb => hother b (by simp [hb]), ?_,
    fun b hb => ?_, fun b hb => ?_, fun b hb => ?_⟩, ?_, fun m => by simp [hbins₃]⟩
  · rw [hload₂ _ _ (hca' _ (by decide)), if_neg (by simp)]
  · simp [hbins₃]
  · rw [hother c (by simp) _ (by decide), hnode.parent]
  · rw [hother c (by simp) _ (by decide), hnode.child0]
  · rw [hother c (by simp) _ (by decide), hnode.child1]
  · exact hdet.list.congr (fun b hb => hown b hb _ (by decide) (by simp) (by simp))
      fun b hb => hown b hb _ (by decide) (by simp) (by simp)
  · have hba : b ≠ a := by
      rintro rfl
      exact har hb
    rw [hload _ _ (hcell b (by simp [hb]) _ (by decide)), if_neg (by simp [hba]),
      if_neg (by simp)]
    exact hdet.parent b (List.mem_cons_of_mem _ hb)
  · rw [hload _ _ (hcell b (List.mem_append_left _ (List.mem_append_left _
      (List.mem_cons_of_mem _ hb))) _ (by decide)), if_neg (by simp), if_pos ⟨rfl, hb⟩]
  · rw [hown b hb _ (by decide) (by simp) (by simp)]
    exact hdet.binNumber b hb
  · exact (((LinksOnly.refl X s).store (hca' _ (by decide))).trans hs₃).store (hca' _ (by decide))

theorem removeLargeSingleChunk_spec (hX : Spread X) (hn : n < NUM_OF_BINS)
    (hL : Large X (addrs (plug K (.node k c [] l r))))
    (hd : (addrs (plug K (.node k c [] l r))).Nodup)
    (hi : Indexed s n (addrs (plug K (.node k c [] l r))))
    (hlen : (addrs (plug K (.node k c [] l r))).length ≤ MAX_HEAP)
    (hb : BinTree s n (plug K (.node k c [] l r))) :
    Returns (removeLargeSingleChunk c) s fun _ s' =>
      BinTree s' n (plug K (pull l r)) ∧ LinksOnly X s s' ∧
        ∀ m, m ≠ n → s'.bin m = s.bin m := by
  have hall : (addrs (plug K (.node k c [] l r))).Perm
      (c :: addrs (pull l r) ++ ctxAddrs K) := by
    have hpull : (addrs (pull l r)).Perm (addrs l ++ addrs r) := by
      rw [addrs, addrs, addrs, ← List.map_append]
      exact entries_pull.map _
    refine addrs_plug.trans (List.Perm.append_right _ ?_)
    rw [addrs_node]
    exact hpull.symm.cons c
  have hL' : Large X (c :: addrs (pull l r) ++ ctxAddrs K) :=
    hL.mono fun x hx => hall.mem_iff.mpr hx
  have hd' := hall.nodup hd
  have hi' : Indexed s n [c] := fun x hx => hi x (hall.mem_iff.mpr (by simp at hx; simp [hx]))
  obtain ⟨kc, hkc, -⟩ := hL' c (by simp)
  unfold removeLargeSingleChunk
  refine (findReplacement_spec hX hn hL hd hi hlen hb).bind_of fun a s₁ hfound => ?_
  rcases hfound with ⟨rfl, rfl, rfl, rfl⟩ | ⟨k', rest, l', r', hp, ha0, hb₁, hdet, hs₁, hbins₁⟩
  · -- no replacement: the chunk is a leaf itself
    obtain ⟨s', hrun, hbt, -, hlinks, hbins⟩ := detach_run (K := K) (k := k) hX hn
      (hL'.mono (by simp [pull, popLeaf])) (by simpa [pull, popLeaf] using hd') hi' hb
    refine .intro (a := 1) (t := s') ?_ ⟨by simpa [pull, popLeaf] using hbt, hlinks, hbins⟩
    simp [hrun]
  · rw [hp] at hL' hd' hall ⊢
    have hlen' := hall.length_eq
    simp only [addrs_node, List.cons_append] at hL' hd' hlen'
    simp only [List.length_append, List.length_cons] at hlen'
    obtain ⟨hshiftp, hnextp, s₃, hvisits, hnext, hpar, hhook, hlinks₄, hbins₃⟩ :=
      promote_run hX hn hL' hd' (by omega) hb₁ hdet
    have hcopy := copyShift_of_visits hvisits
    have habove : IsPtr (above K) := isPtr_above hX (hL'.mono fun x hx => by simp [hx])
    obtain ⟨s₅, hrun₅, hrun₆⟩ := hhook.run hX (hi'.links hX (hL'.mono (by simp))
      (hs₁.trans hlinks₄) (List.Subset.refl _) c (by simp)) hn ⟨kc, hkc⟩
    obtain ⟨hlinks, hbins⟩ := hhook.links
    refine .intro (a := 0) ?_
      ⟨hhook.rep hX hn k', (hs₁.trans hlinks₄).trans hlinks, fun m hm => ?_⟩
    · simp [ha0, hshiftp, hnext, hnextp, hcopy, hpar, habove, hrun₅, hrun₆]
    · rw [hbins m hm, State.bin_store, hbins₃, hbins₁ m hm]

/-! ### A member of a longer list -/

theorem removeLargeLinkedListChunk_spec {b : ℕ} (hX : Spread X) (hn : n < NUM_OF_BINS)
    (hL : Large X (addrs (plug K (.node k b rest l r))))
    (hd : (addrs (plug K (.node k b rest l r))).Nodup)
    (hi : Indexed s n (addrs (plug K (.node k b rest l r))))
    (hc : c ∈ b :: rest) (hne : b :: rest ≠ [c])
    (hb : BinTree s n (plug K (.node k b rest l r))) :
    Returns (removeLargeLinkedListChunk c) s fun _ s' =>
      BinTree s' n (plug K (removeHere c k b rest l r)) ∧ LinksOnly X s s' ∧
        ∀ m, m ≠ n → s'.bin m = s.bin m := by
  have hperm := addrs_plug (K := K) (t := .node k b rest l r)
  rw [addrs_node] at hperm
  have hL' : Large X (b :: rest ++ (addrs l ++ addrs r) ++ ctxAddrs K) :=
    hL.mono fun x hx => hperm.mem_iff.mpr hx
  have hd' := hperm.nodup hd
  have hi' : Indexed s n [c] := fun x hx => by
    obtain rfl := List.mem_singleton.mp hx
    exact hi x (hperm.mem_iff.mpr (List.mem_append_left _ (List.mem_append_left _ hc)))
  obtain ⟨kc, hkc, -⟩ := hL' c (List.mem_append_left _ (List.mem_append_left _ hc))
  obtain ⟨hctx, hnode, hl, hr⟩ := treeRep_plug.mp hb
  have hdm : (b :: rest).Nodup := (List.nodup_append.mp (List.nodup_append.mp hd').1).1
  -- the neighbours of `c` in its list
  have hring := hnode.list
  generalize hx : s.load .next c = x
  generalize hp : s.load .prev c = p
  have hxm : x ∈ b :: rest := hx ▸ hring.next_mem hc
  have hpm : p ∈ b :: rest := hp ▸ hring.prev_mem hc
  have hxc : x ≠ c := fun h => by
    have h1 := hring.prev_eq_of_next_eq hc (hx.trans h)
    exact hne ((hring.alone_iff hdm hc).mp ⟨(hx.trans h).symm, h1.symm⟩)
  have hcell : ∀ y ∈ b :: rest, ∀ f : Field, 16 ≤ f.offset → Cell X f y := fun y hy f hf =>
    hL'.cell (List.mem_append_left _ (List.mem_append_left _ hy)) hf
  have hptr : ∀ y ∈ b :: rest, IsPtr y := fun y hy =>
    (hL'.ptr hX (List.mem_append_left _ (List.mem_append_left _ hy))).1
  set s₂ := (s.store .prev x p).store .next p x with hs₂
  have hprev : (s.store .prev x p).load .prev c = p := by
    rw [hX.load_store_ptr (hcell x hxm _ (by decide)) (hcell c hc _ (by decide)) (by simp)
      (by simp) (hptr p hpm), if_neg (by simp [hxc.symm]), hp]
  have hload : ∀ f d, Cell X f d → s₂.load f d = if f = .next ∧ d = p then x
      else if f = .prev ∧ d = x then p else s.load f d := fun f d hfd => by
    rw [hs₂, hX.load_store_ptr (hcell p hpm _ (by decide)) hfd (by simp) (by simp) (hptr x hxm),
      hX.load_store_ptr (hcell x hxm _ (by decide)) hfd (by simp) (by simp) (hptr p hpm)]
  have hfield : ∀ y ∈ b :: rest, ∀ f : Field, 16 ≤ f.offset → f ≠ .next → f ≠ .prev →
      s₂.load f y = s.load f y := fun y hy f hf h1 h2 => by
    rw [hload f y (hcell y hy f hf), if_neg fun h => h1 h.1, if_neg fun h => h2 h.1]
  have hother : ∀ y ∈ (addrs l ++ addrs r) ++ ctxAddrs K, ∀ f : Field, 16 ≤ f.offset →
      s₂.load f y = s.load f y := fun y hy f hf => by
    have hym : y ∉ b :: rest := by
      rw [List.append_assoc, List.nodup_append] at hd'
      exact fun h => hd'.2.2 y h y hy rfl
    have hyc : Cell X f y := hL'.cell (by
      rw [List.append_assoc]
      exact List.mem_append_right _ hy) hf
    have hyp : y ≠ p := fun h => hym (h ▸ hpm)
    have hyx : y ≠ x := fun h => hym (h ▸ hxm)
    rw [hload f y hyc, if_neg fun h => hyp h.2, if_neg fun h => hyx h.2]
  have hlinks₂ : LinksOnly X s s₂ :=
    ((LinksOnly.refl X s).store (hcell x hxm _ (by decide))).store (hcell p hpm _ (by decide))
  by_cases hbc : b = c
  · -- the head: the next member takes its place
    subst hbc
    cases rest with
    | nil => exact absurd rfl hne
    | cons y rest =>
      obtain rfl : y = x := by rw [← hx, hring.next_head]
      have hpar : s₂.load .parent b = above K := by
        rw [hfield b hc _ (by decide) (by simp) (by simp), hnode.parent]
      have hpar0 : above K ≠ NULL := by
        by_cases hK : K = []
        · rw [hK]
          decide
        · exact (hL'.ptr hX (List.mem_append_right _ (above_mem hK))).2.1
      have hhook : Hookable X s₂ n K b y rest l r := by
        refine ⟨hL', hd', hctx.congr rfl fun z hz => hother z (by simp [hz]), hpar, ?_, ?_,
          hl.congr fun z hz => hother z (by simp [hz]),
          hr.congr fun z hz => hother z (by simp [hz]), ?_, fun z hz => ?_, fun z hz => ?_,
          fun z hz => ?_⟩
        · rw [hfield b hc _ (by decide) (by simp) (by simp), hnode.child0]
        · rw [hfield b hc _ (by decide) (by simp) (by simp), hnode.child1]
        · refine hring.unlink_head hdm ?_ ?_ (fun z hz hzp => ?_) fun z hz hzx => ?_
          · rw [hp, hx, hload _ _ (hcell p hpm _ (by decide)), if_pos ⟨rfl, rfl⟩]
          · rw [hp, hx, hload _ _ (hcell _ hxm _ (by decide)), if_neg (by simp),
              if_pos ⟨rfl, rfl⟩]
          · rw [hp] at hzp
            simp [hload _ _ (hcell z (List.mem_cons_of_mem _ hz) .next (by decide)), hzp]
          · rw [hx] at hzx
            simp [hload _ _ (hcell z (List.mem_cons_of_mem _ hz) .prev (by decide)), hzx]
        · have hz' : z ∈ y :: rest := List.mem_cons_of_mem _ hz
          rw [hfield z (List.mem_cons_of_mem _ hz') _ (by decide) (by simp) (by simp),
            hnode.member z hz']
        · rw [hfield z (List.mem_cons_of_mem _ hz) _ (by decide) (by simp) (by simp),
            hnode.shift z (List.mem_cons_of_mem _ hz)]
        · rw [hfield z (List.mem_cons_of_mem _ hz) _ (by decide) (by simp) (by simp),
            hnode.binNumber z (List.mem_cons_of_mem _ hz)]
      obtain ⟨s₃, hrun₃, hrun₄⟩ := hhook.run hX
        (hi'.links hX (hL'.mono (by simp)) hlinks₂ (List.Subset.refl _) b (by simp)) hn ⟨kc, hkc⟩
      obtain ⟨hlinks, hbins⟩ := hhook.links
      refine .intro (a := 0) ?_ ⟨?_, hlinks₂.trans hlinks, fun m hm => by rw [hbins m hm]; rfl⟩
      · have habove : IsPtr (above K) := isPtr_above hX (hL'.mono fun z hz => by simp [hz])
        simp [removeLargeLinkedListChunk, hx, hp, hptr y hxm, hptr p hpm, hprev, ← hs₂, hpar,
          habove, hpar0, hrun₃, hrun₄]
      · simpa [removeHere] using hhook.rep hX hn k
  · -- another member: it carries no links of the tree
    have hcr : c ∈ rest := (List.mem_cons.mp hc).resolve_left fun h => hbc h.symm
    have hpar : s₂.load .parent c = NULL := by
      rw [hfield c hc _ (by decide) (by simp) (by simp), hnode.member c hcr]
      rfl
    have hsub : ∀ z ∈ b :: rest.erase c, z ∈ b :: rest := fun z hz => by
      rcases List.mem_cons.mp hz with rfl | hz
      · exact List.mem_cons_self
      · exact List.mem_cons_of_mem _ (List.mem_of_mem_erase hz)
    refine .intro (a := 0) (t := s₂) ?_ ⟨?_, hlinks₂, fun m _ => rfl⟩
    · simp [removeLargeLinkedListChunk, hx, hp, hptr x hxm, hptr p hpm, hprev, ← hs₂, hpar]
    · rw [removeHere.eq_def, if_neg hbc, treeRep_plug]
      refine ⟨hctx.congr rfl fun z hz => hother z (by simp [hz]), ⟨?_, ?_, fun z hz => ?_,
        fun z hz => ?_, fun z hz => ?_, ?_, ?_⟩,
        hl.congr fun z hz => hother z (by simp [hz]), hr.congr fun z hz => hother z (by simp [hz])⟩
      · have herase : (b :: rest).erase c = b :: rest.erase c := by
          rw [List.erase_cons_tail]
          simpa using hbc
        rw [← herase]
        have hpc : p ≠ c := fun h => by
          have h1 := hring.next_prev hc
          rw [hp, h, hx] at h1
          exact hxc h1
        refine hring.erase hdm hc ?_ ?_ (fun z hz hzc hzp => ?_) fun z hz hzc hzx => ?_
        · rw [hp, hx, hload _ _ (hcell p hpm _ (by decide)), if_pos ⟨rfl, rfl⟩]
        · rw [hp, hx, hload _ _ (hcell _ hxm _ (by decide)), if_neg (by simp),
            if_pos ⟨rfl, rfl⟩]
        · rw [hp] at hzp
          simp [hload _ _ (hcell z hz .next (by decide)), hzp]
        · rw [hx] at hzx
          simp [hload _ _ (hcell z hz .prev (by decide)), hzx]
      · rw [hfield b List.mem_cons_self _ (by decide) (by simp) (by simp), hnode.parent]
      · rw [hfield z (hsub z (List.mem_cons_of_mem _ hz)) _ (by decide) (by simp) (by simp),
          hnode.member z (List.mem_of_mem_erase hz)]
      · rw [hfield z (hsub z hz) _ (by decide) (by simp) (by simp), hnode.shift z (hsub z hz)]
      · rw [hfield z (hsub z hz) _ (by decide) (by simp) (by simp), hnode.binNumber z (hsub z hz)]
      · rw [hfield b List.mem_cons_self _ (by decide) (by simp) (by simp), hnode.child0]
      · rw [hfield b List.mem_cons_self _ (by decide) (by simp) (by simp), hnode.child1]

/-! ### Removal -/

/-- **Removal** from a tree bin is removal from its digit tree. -/
theorem removeLargeChunk_spec {p : ℕ} (hX : Spread X) (hn : n < NUM_OF_BINS)
    (hL : Large X (addrs t)) (hd : (addrs t).Nodup) (hi : Indexed s n (addrs t))
    (hlen : (addrs t).length ≤ MAX_HEAP) (hroute : t.Routed (binLevel n) p)
    (hkeys : t.keys.Nodup) (hc : (c, k) ∈ t.entries) (hcX : (c, k) ∈ X)
    (hhuge : ¬ isHugeSize (s.chunkSize c)) (hb : BinTree s n t) :
    Returns (removeLargeChunk c) s fun _ s' =>
      BinTree s' n (t.remove k c (binLevel n)) ∧ LinksOnly X s s' ∧
        ∀ m, m ≠ n → s'.bin m = s.bin m := by
  obtain ⟨K, b, rest, l, r, rfl, hmem, hrem⟩ := exists_focus hroute hkeys hc
  have hcaddr : c ∈ addrs (plug K (.node k b rest l r)) := List.mem_map_of_mem hc
  have hdrem : c ∉ addrs ((plug K (.node k b rest l r)).remove k c (binLevel n)) := by
    have h1 : (addrs (plug K (.node k b rest l r))).Perm
        (c :: addrs ((plug K (.node k b rest l r)).remove k c (binLevel n))) :=
      (entries_remove hroute hkeys hc).map Prod.fst
    exact (List.nodup_cons.mp (h1.nodup hd)).1
  have hLrem : Large X (addrs ((plug K (.node k b rest l r)).remove k c (binLevel n))) :=
    hL.mono fun x hx => by
      have h1 : (addrs (plug K (.node k b rest l r))).Perm
          (c :: addrs ((plug K (.node k b rest l r)).remove k c (binLevel n))) :=
        (entries_remove hroute hkeys hc).map Prod.fst
      exact h1.mem_iff.mpr (List.mem_cons_of_mem _ hx)
  have hring := (treeRep_plug.mp hb).2.1.list
  have hdm : (b :: rest).Nodup := by
    have h1 := addrs_plug.nodup hd
    rw [addrs_node] at h1
    exact (List.nodup_append.mp (List.nodup_append.mp h1).1).1
  -- either way the chunk leaves the tree; then its own fields are cleared
  have hclear : ∀ s₁ : State, BinTree s₁ n (plug K (removeHere c k b rest l r)) ∧
      LinksOnly X s s₁ ∧ (∀ m, m ≠ n → s₁.bin m = s.bin m) →
      Returns (do
        store .next c NULL
        store .prev c NULL
        store .parent c NULL
        store .child0 c NULL
        store .child1 c NULL
        store .binNumber c 0
        store .shift c 0
        return 0 : M ℕ) s₁ fun _ s' =>
          BinTree s' n ((plug K (.node k b rest l r)).remove k c (binLevel n)) ∧
            LinksOnly X s s' ∧ ∀ m, m ≠ n → s'.bin m = s.bin m := fun s₁ h₁ => by
    obtain ⟨hb₁, hlinks₁, hbins₁⟩ := h₁
    have hcell : ∀ f : Field, 16 ≤ f.offset → Cell {(c, k)} f c := fun f hf => by
      obtain ⟨k', hk', hlarge⟩ := hL c hcaddr
      have he := hX.eq_of_addr hcX hk' rfl
      obtain rfl : k = k' := congrArg Prod.snd he
      exact cell_of_large (X := {(c, k)}) rfl hlarge hf
    have hown : LinksOnly {(c, k)} s₁ (((((((s₁.store .next c NULL).store .prev c NULL).store
        .parent c NULL).store .child0 c NULL).store .child1 c NULL).store .binNumber c 0).store
        .shift c 0) :=
      (((((((LinksOnly.refl _ s₁).store (hcell _ (by decide))).store (hcell _ (by decide))).store
        (hcell _ (by decide))).store (hcell _ (by decide))).store (hcell _ (by decide))).store
        (hcell _ (by decide))).store (hcell _ (by decide))
    have hsub : ({(c, k)} : Set Slot) ⊆ X := by
      rintro e rfl
      exact hcX
    rw [← hrem] at hb₁
    refine .intro (a := 0) (by simp) ⟨hb₁.frame hX hLrem hown hsub ?_ rfl,
      hlinks₁.trans (hown.mono hsub), fun m hm => hbins₁ m hm⟩
    rintro e rfl
    exact hdrem
  have halone := hring.alone_iff hdm hmem
  unfold removeLargeChunk
  refine Returns.bind_of_eq (isHugeChunk_apply s c) ?_
  rw [if_neg (by simpa using hhuge)]
  have hptr : ∀ x ∈ b :: rest, IsPtr x := fun x hx => by
    refine (hL.ptr hX (addrs_plug.mem_iff.mpr ?_)).1
    rw [addrs_node]
    exact List.mem_append_left _ (List.mem_append_left _ hx)
  refine Returns.bind_of_eq (circularListIsLengthOne_apply s c (hptr _ (hring.next_mem hmem))
    (hptr _ (hring.prev_mem hmem))) ?_
  simp only [halone, decide_eq_true_eq]
  split_ifs with h1
  · obtain ⟨rfl, rfl⟩ := List.cons.inj h1
    have hpull : removeHere b k b [] l r = pull l r := by simp [removeHere]
    rw [hpull] at hclear
    exact (removeLargeSingleChunk_spec hX hn hL hd hi hlen hb).bind_of fun _ s₁ h₁ => hclear s₁ h₁
  · exact (removeLargeLinkedListChunk_spec hX hn hL hd hi hmem h1 hb).bind_of
      fun _ s₁ h₁ => hclear s₁ h₁

end Remove

end Dlmalloc
