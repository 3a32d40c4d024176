import Dlmalloc.Machine.Checker
import Dlmalloc.Refine.Free
import Dlmalloc.Refine.Observe

/-!
# The checker on a heap

What the functions of `my_checker.c` compute on memory that holds a heap. The tests of lists, trees
and pointers hold of everything in the bins, so all loops end, and of the assertions about a chunk
only the one about the `PREVIOUS_INUSE` bit behind a free chunk depends on the heap
(`Models.checkChunk_eq`).
-/

namespace Dlmalloc

open Heap DigitTree

/-! ### Assertions -/

section Check

variable {debug : Bool} {assertion : String} {α : Type} {f : Unit → Check α}

@[simp] theorem Check.assert_true : Check.assert debug assertion (some true) = pure () := by
  cases debug <;> rfl

@[simp] theorem Check.assert_release {test : Option Bool} :
    Check.assert false assertion test = pure () := rfl

theorem Check.assert_false : Check.assert true assertion (some false) = throw assertion := rfl

theorem Check.throw_bind : ((throw assertion : Check Unit) >>= f) = throw assertion := rfl

theorem Check.assert_of {p : Prop} [Decidable p] (h : p) :
    Check.assert debug assertion (some (decide p)) = pure () := by
  rw [decide_eq_true h]
  exact Check.assert_true

end Check

/-! ### Lists -/

section Lists

variable {s : State} {f : Field} {a b c chunk fuel : ℕ} {l m : List ℕ}

theorem countLinks_eq (hchain : List.IsChain (fun x y => s.load f x = y) (b :: (m ++ [c])))
    (hc : c ∉ m) (hf : m.length < fuel) :
    s.countLinks f c fuel (s.load f b) = some m.length := by
  induction m generalizing b fuel with
  | nil =>
    obtain ⟨fuel, rfl⟩ := Nat.exists_eq_succ_of_ne_zero (Nat.ne_zero_of_lt hf)
    have hb : s.load f b = c := by simpa using hchain
    rw [State.countLinks, if_pos hb]
    rfl
  | cons x m ih =>
    obtain ⟨fuel, rfl⟩ := Nat.exists_eq_succ_of_ne_zero (Nat.ne_zero_of_lt hf)
    obtain ⟨hb, htail⟩ := List.isChain_cons_cons.mp hchain
    have hxc : x ≠ c := fun h => hc (h ▸ List.mem_cons_self)
    have hrec := ih htail (fun h => hc (List.mem_cons_of_mem _ h)) (Nat.lt_of_succ_lt_succ hf)
    rw [State.countLinks, hb, if_neg hxc, hrec]
    rfl

/-- A circular list has as many members one way as the other. -/
theorem isCircularlyLinkedList_eq (hring : CircularList (s.load .next) (s.load .prev) (c :: l))
    (hd : (c :: l).Nodup) (hlen : l.length < MAX_HEAP) :
    s.isCircularlyLinkedList c = some true := by
  have hc : c ∉ l := (List.nodup_cons.mp hd).1
  have hchain : List.IsChain (Linked (s.load .next) (s.load .prev)) (c :: (l ++ [c])) := hring
  have hleft := countLinks_eq (hchain.imp fun _ _ hxy => hxy.1) hc hlen
  have hright := countLinks_eq (CircularList.back hring) (fun h => hc (List.mem_reverse.mp h))
    (hlen.trans_eq' l.length_reverse.symm)
  rw [State.isCircularlyLinkedList, hleft, hright]
  simp

theorem chunkNotInList_eq (hchain : List.IsChain (fun x y => s.load .next x = y) (b :: (m ++ [a])))
    (ha : a ∉ m) (hf : m.length < fuel) :
    s.chunkNotInList a chunk fuel (s.load .next b) = some (decide (chunk ∉ m)) := by
  induction m generalizing b fuel with
  | nil =>
    obtain ⟨fuel, rfl⟩ := Nat.exists_eq_succ_of_ne_zero (Nat.ne_zero_of_lt hf)
    have hb : s.load .next b = a := by simpa using hchain
    rw [State.chunkNotInList, if_pos hb]
    simp
  | cons x m ih =>
    obtain ⟨fuel, rfl⟩ := Nat.exists_eq_succ_of_ne_zero (Nat.ne_zero_of_lt hf)
    obtain ⟨hb, htail⟩ := List.isChain_cons_cons.mp hchain
    have hxa : x ≠ a := fun h => ha (h ▸ List.mem_cons_self)
    have hrec := ih htail (fun h => ha (List.mem_cons_of_mem _ h)) (Nat.lt_of_succ_lt_succ hf)
    rw [State.chunkNotInList, hb, if_neg hxa]
    by_cases hxc : x = chunk
    · simp [hxc]
    · rw [if_neg hxc, hrec]
      simp [Ne.symm hxc]

end Lists

/-! ### Trees -/

section Trees

variable {X : Set Slot} {s : State} {a c chunk n h par k fuel : ℕ} {t : DigitTree ℕ}

/-- `chunk_not_in_tree` says whether a chunk is in a tree, as a node or in a list of one. -/
theorem chunkNotInTree_eq (hX : Spread X) (hL : Large X (addrs t)) (hd : (addrs t).Nodup)
    (hlen : (addrs t).length ≤ MAX_HEAP) (ht : TreeRep s n h par t) (hf : t.height < fuel) :
    s.chunkNotInTree chunk fuel (root t) = some (decide (chunk ∉ addrs t)) := by
  induction t generalizing h par fuel with
  | nil =>
    obtain ⟨fuel, rfl⟩ := Nat.exists_eq_succ_of_ne_zero (Nat.ne_zero_of_lt hf)
    rw [State.chunkNotInTree, root_nil, if_pos rfl]
    simp
  | node k a rest l r ihl ihr =>
    obtain ⟨fuel, rfl⟩ := Nat.exists_eq_succ_of_ne_zero (Nat.ne_zero_of_lt hf)
    obtain ⟨hnode, hl, hr⟩ := ht
    have ha0 : a ≠ NULL := (hL.ptr hX (by simp)).2.1
    have hsubl : addrs l ⊆ addrs (.node k a rest l r) := fun x hx => by simp [hx]
    have hsubr : addrs r ⊆ addrs (.node k a rest l r) := fun x hx => by simp [hx]
    simp only [addrs_node, List.length_append, List.length_cons] at hlen
    rw [addrs_node] at hd
    have hdm : (a :: rest).Nodup := (List.nodup_append.mp hd).1
    have hdlr := (List.nodup_append.mp hd).2.1
    simp only [height] at hf
    have hlist : List.IsChain (Linked (s.load .next) (s.load .prev)) (a :: (rest ++ [a])) :=
      hnode.list
    -- the list of the node, then the two subtrees
    have hhere : s.chunkNotInList a chunk MAX_HEAP (s.load .next a) =
        some (decide (chunk ∉ rest)) :=
      chunkNotInList_eq (hlist.imp fun _ _ hxy => hxy.1) (List.nodup_cons.mp hdm).1 (by omega)
    have hleft := ihl (hL.mono hsubl) (List.nodup_append.mp hdlr).1 (by omega) hl
      (show l.height < fuel by omega)
    have hright := ihr (hL.mono hsubr) (List.nodup_append.mp hdlr).2.1 (by omega) hr
      (show r.height < fuel by omega)
    rw [State.chunkNotInTree, root_node, if_neg ha0]
    by_cases hac : a = chunk
    · simp [hac]
    rw [if_neg hac, hhere, hnode.child0, hnode.child1, hleft, hright]
    by_cases hrest : chunk ∈ rest
    · simp [hrest]
    by_cases hcl : chunk ∈ addrs l
    · simp [hrest, hcl]
    · simp [Ne.symm hac, hrest, hcl]

/-- The parent of a subtree is known to its root. -/
theorem TreeRep.parent (ht : TreeRep s n h par t) (h0 : root t ≠ NULL) :
    s.load .parent (root t) = par := by
  cases t with
  | nil => exact absurd rfl h0
  | node k a rest l r => exact ht.1.parent

/-- `is_valid_pointer_tree` holds of a tree. -/
theorem isValidPointerTree_eq (hX : Spread X) (hL : Large X (addrs t)) (hd : (addrs t).Nodup)
    (ht : TreeRep s n h par t) (hpar : par ∉ addrs t) (hf : t.height < fuel) :
    s.isValidPointerTree n fuel (root t) = some true := by
  induction t generalizing h par fuel with
  | nil =>
    obtain ⟨fuel, rfl⟩ := Nat.exists_eq_succ_of_ne_zero (Nat.ne_zero_of_lt hf)
    rw [State.isValidPointerTree, root_nil, if_pos rfl]
  | node k a rest l r ihl ihr =>
    obtain ⟨fuel, rfl⟩ := Nat.exists_eq_succ_of_ne_zero (Nat.ne_zero_of_lt hf)
    obtain ⟨hnode, hl, hr⟩ := ht
    have ha0 : a ≠ NULL := (hL.ptr hX (by simp)).2.1
    have hsubl : addrs l ⊆ addrs (.node k a rest l r) := fun x hx => by simp [hx]
    have hsubr : addrs r ⊆ addrs (.node k a rest l r) := fun x hx => by simp [hx]
    rw [addrs_node] at hd hpar
    simp only [List.cons_append, List.nodup_cons, List.mem_append, not_or] at hd
    obtain ⟨⟨-, hal, har⟩, hd⟩ := hd
    have hdlr := (List.nodup_append.mp hd).2.1
    have hlr := (List.nodup_append.mp hdlr).2.2
    simp only [height] at hf
    have hleft := ihl (hL.mono hsubl) (List.nodup_append.mp hdlr).1 hl hal
      (show l.height < fuel by omega)
    have hright := ihr (hL.mono hsubr) (List.nodup_append.mp hdlr).2.1 hr har
      (show r.height < fuel by omega)
    -- the node is not its own parent or child, and has not the same child twice
    have hloops : s.containsTreeLoops a = false := by
      rw [State.containsTreeLoops, decide_eq_false_iff_not, hnode.parent, hnode.child0,
        hnode.child1]
      rintro (hp | hp | hp | ⟨hp, h0⟩)
      · exact hpar (by simp [hp])
      · exact ne_root har ha0 hp
      · exact ne_root hal ha0 hp
      · have hl0 : l ≠ .nil := fun h => h0 (by rw [h]; rfl)
        have hr0 : r ≠ .nil := fun h => h0 (by rw [← hp, h]; rfl)
        exact hlr _ (root_mem hl0) _ (root_mem hr0) hp.symm
    have hchild : ∀ t, TreeRep s n (h - 1) a t →
        ¬ (root t ≠ NULL ∧ s.load .parent (root t) ≠ a) := fun t ht hp => hp.2 (ht.parent hp.1)
    rw [State.isValidPointerTree, root_node, if_neg ha0, hloops, if_neg Bool.false_ne_true,
      hnode.child0, hnode.child1, if_neg (hchild l hl), if_neg (hchild r hr),
      if_neg (not_not.mpr (hnode.binNumber a List.mem_cons_self)), hleft, hright]
    rfl

/-- `IS_VALID_LARGE_CHUNK` holds of the chunks in a tree. -/
theorem isValidLargeChunk_eq (ht : TreeBin s n t) (hc : (c, k) ∈ t.entries)
    (hfree : s.isCurrentInuse c = 0) : s.isValidLargeChunk c = true := by
  obtain ⟨K, b, rest, l, r, rfl, hmem, -⟩ := exists_focus ht.routed ht.distinct hc
  have hwf := ht.wellFormed
  have hnode := hwf.node K k b rest l r rfl
  have hptr : ∀ x ∈ b :: rest, x ≠ NULL := fun x hx =>
    (ht.large.ptr ht.spread (addrs_plug.mem_iff.mpr (List.mem_append_left _ (by
      rw [addrs_node]
      exact List.mem_append_left _ hx)))).2.1
  refine decide_eq_true ⟨hfree, hptr _ (hnode.list.next_mem hmem),
    hptr _ (hnode.list.prev_mem hmem), ?_⟩
  rcases List.mem_cons.mp hmem with rfl | hrest
  · rcases K with _ | ⟨T, K⟩
    · exact .inl hnode.parent
    -- the node above branches on the bit of the size at its shift
    refine .inr (.inr ?_)
    have hk : k ∈ (DigitTree.node k c rest l r).keys := by simp [keys]
    rw [hnode.size c hmem, hnode.parent, digit_eq]
    cases T with
    | left k' b' rest' r' =>
      have habove := hwf.node K k' b' rest' (.node k c rest l r) r' rfl
      rw [above, habove.left k hk]
      simp [Field.child, habove.child0]
    | right k' b' rest' l' =>
      have habove := hwf.node K k' b' rest' l' (.node k c rest l r) rfl
      rw [above, habove.right k hk]
      simp [Field.child, habove.child1]
  · exact .inr (.inl (hnode.member c hrest))

end Trees

/-! ### Bins -/

section Bins

variable {X : Set Slot} {s : State} {B : Bins} {e : Slot}

/-- A chunk in a bin is on a circular list of chunks in bins. -/
theorem Holds.ring (h : Holds X s B) (he : e ∈ B.binned) :
    ∃ l, CircularList (s.load .next) (s.load .prev) (e.1 :: l) ∧ (e.1 :: l).Nodup ∧
      l.length < MAX_HEAP ∧ ∀ a ∈ e.1 :: l, ∃ f ∈ B.binned, f.1 = a := by
  obtain ⟨h24, h8, hslot⟩ := h.sorted.mem_slots_binOf he
  obtain ⟨h2, hn⟩ := binOf_bounds h24 h8
  -- the list of the bin, or of a node of its tree
  have hlist : ∃ L, CircularList (s.load .next) (s.load .prev) L ∧ e.1 ∈ L ∧
      L.Subperm ((B.slots (binOf e.2)).map Prod.fst) := by
    have hmem : e.1 ∈ (B.slots (binOf e.2)).map Prod.fst := List.mem_map_of_mem hslot
    have hrep := h.bin _ h2 hn
    by_cases h32 : 32 ≤ binOf e.2
    · have ht := h.treeBin h32 hn
      rw [Bins.slots_large h32] at hslot ⊢
      obtain ⟨K, b, rest, l, r, hK, hb, -⟩ := exists_focus ht.routed ht.distinct hslot
      refine ⟨b :: rest, (ht.wellFormed.node K e.2 b rest l r hK).list, hb, ?_⟩
      have hperm := (entries_plug (K := K) (t := .node e.2 b rest l r)).map Prod.fst
      rw [← hK] at hperm
      refine List.Subperm.trans ?_ hperm.symm.subperm
      have hmap : ((b :: rest).map (·, e.2)).map Prod.fst = b :: rest := by
        rw [List.map_map]
        exact List.map_id _
      rw [entries, List.map_append, List.map_append, hmap]
      exact (List.sublist_append_of_sublist_left (List.sublist_append_left _ _)).subperm
    · refine ⟨_, ?_, hmem, List.Subperm.refl _⟩
      by_cases hh : binOf e.2 = HUGE_BIN
      · rw [hh, BinRep.huge, ← Bins.slots_huge] at hrep
        rw [hh]
        exact hrep.2
      · rw [BinRep.small hh (not_le.mp h32)] at hrep
        have hmap : ((B.small (binOf e.2)).map (·, 8 * binOf e.2)).map Prod.fst =
            B.small (binOf e.2) := by
          rw [List.map_map]
          exact List.map_id _
        rw [Bins.slots_small hh (not_le.mp h32), hmap]
        exact hrep.2
  obtain ⟨L, hring, hL, hsub⟩ := hlist
  obtain ⟨l, hl, hperm⟩ := hring.exists_cons hL
  have hnd := h.nodup_addrs hn
  have hlen := h.length_slots hn
  have hsubl := hperm.subperm.trans hsub
  refine ⟨l, hl, ?_, ?_, fun a ha => ?_⟩
  · obtain ⟨m, hm, hml⟩ := hsubl
    exact hm.nodup_iff.mp (hml.nodup hnd)
  · have hle := hsubl.length_le
    rw [List.length_cons, List.length_map] at hle
    omega
  · obtain ⟨f, hf, hfa⟩ := List.mem_map.mp (hsubl.subset ha)
    exact ⟨f, Bins.mem_binned.mpr ⟨_, hn, hf⟩, hfa⟩

end Bins

/-! ### The heap -/

section Heap

variable {full : Prop} {debug : Bool} {ext fuel : ℕ} {X : Multiset Slot} {h : Heap} {s : State}
  {c d : Chunk} {e : Slot} {pre post L : List Chunk}

/-- The checker begins where the heap does if the memory is aligned. -/
theorem Rep.checkedFrom_eq (hr : Rep s h) (hs : Shape ext X h) (h4 : 4 ∣ s.memStartBrk) :
    s.checkedFrom = h.first := by
  have h1 := hs.arena.first_aligned
  have h2 := hs.arena.start_le
  have h3 := hs.arena.first_lt
  have h5 := hs.arena.span
  have hlimit := hs.arena.limit_eq
  have hstart : memHeapLo s = h.start := hr.memStartBrk
  have hmod : h.start &&& 7 = h.start % 8 := Nat.and_two_pow_sub_one_eq_mod h.start 3
  have h4' : (4 : ℕ) ∣ h.start := hstart ▸ h4
  have hfirst : h.start + h.start % 8 = h.first := by omega
  rw [State.checkedFrom, hstart, hmod, add64_of_lt (by omega)]
  exact hfirst

/-- The search for a chunk goes through the row up to it. -/
theorem Rep.isValidChunkPointerLoop_eq (hr : Rep s h) (hs : Shape ext X h)
    (hL : h.chunks = pre ++ d :: post) (hc : c ∈ d :: post) (hf : post.length < fuel) :
    s.isValidChunkPointerLoop c.addr fuel d.addr = some true := by
  induction fuel generalizing pre d post with
  | zero => exact absurd hf (Nat.not_lt_zero _)
  | succ fuel ih =>
    have hdm : d ∈ h.chunks := Shape.mem_chunks hL
    rw [State.isValidChunkPointerLoop]
    by_cases hdc : d.addr = c.addr
    · rw [if_pos hdc]
    rcases List.mem_cons.mp hc with rfl | hpost
    · exact absurd rfl hdc
    -- the chunk lies behind, so the loop does not stop short of it
    have hle := (hs.tiles_of hL).around.2 c hpost
    have hlt : ¬ c.addr < d.addr := by
      simp only [Chunk.next] at hle
      omega
    rw [if_neg hdc, if_neg hlt, hr.nextHeapChunk hs hdm]
    cases post with
    | nil => cases hpost
    | cons x post =>
      have hx : x.addr = d.next := (tiles_mid.mp (hs.tiles_of hL)).2.1
      rw [← hx]
      exact ih (hL.trans (by simp : pre ++ d :: x :: post = (pre ++ [d]) ++ x :: post)) hpost
        (Nat.lt_of_succ_lt_succ hf)

theorem Heap.Shape.length_lt (hs : Shape ext X h) : h.chunks.length < MAX_HEAP := by
  have h1 := hs.tiles.length_le
  have h2 := hs.arena.brk_le
  have h3 := hs.arena.limit_eq
  have h4 := hs.arena.start_le
  have h5 : MAX_HEAP = 52428800 := rfl
  omega

theorem Heap.Shape.exists_first (hs : Shape ext X h) :
    ∃ d L, h.chunks = d :: L ∧ d.addr = h.first := by
  obtain ⟨pre, t, hL, -⟩ := hs.exists_top
  have ht := hs.tiles
  rw [hL] at ht
  cases pre with
  | nil => exact ⟨t, [], hL, ht.1⟩
  | cons d pre => exact ⟨d, pre ++ [t], hL, ht.1⟩

/-- `is_valid_chunk_pointer` holds of the chunks. -/
theorem Rep.isValidChunkPointer_eq (hr : Rep s h) (hs : Shape ext X h) (h4 : 4 ∣ s.memStartBrk)
    (hc : c ∈ h.chunks) : s.isValidChunkPointer c.addr = some true := by
  obtain ⟨d, L, hL, hd⟩ := hs.exists_first
  have hlen := hs.length_lt
  rw [hL, List.length_cons] at hlen
  rw [State.isValidChunkPointer, hr.checkedFrom_eq hs h4, ← hd]
  exact hr.isValidChunkPointerLoop_eq hs (show h.chunks = [] ++ d :: L from hL) (hL ▸ hc) (by omega)

/-- What the checker asserts of the chunks in bins holds. -/
theorem Rep.checkBinned_eq (hr : Rep s h) (hs : Shape ext X h) (h4 : 4 ∣ s.memStartBrk)
    (he : e ∈ h.bins.binned) : s.checkBinned debug e.1 = pure () := by
  have hholds := hr.holds hs
  obtain ⟨l, hring, hnd, hlen, hmem⟩ := hholds.ring he
  -- the members of the list are chunks of the heap, and so are not `NULL`
  have hchunk : ∀ a ∈ e.1 :: l, ∃ c ∈ h.chunks, c.addr = a ∧ c.status = .free := fun a ha => by
    obtain ⟨f, hf, rfl⟩ := hmem a ha
    obtain ⟨pre, c, post, hL, hc, hst⟩ := hs.mem_free (.inr hf)
    exact ⟨c, Shape.mem_chunks hL, congrArg Prod.fst hc, hst⟩
  have hvalid : ∀ a ∈ e.1 :: l, s.isValidChunkPointer a = some true := fun a ha => by
    obtain ⟨c, hc, rfl, -⟩ := hchunk a ha
    exact hr.isValidChunkPointer_eq hs h4 hc
  have hnull : ∀ a ∈ e.1 :: l, a ≠ NULL := fun a ha => by
    obtain ⟨c, hc, rfl, -⟩ := hchunk a ha
    have hfirst := hs.first_pos
    have hle := (hs.bounds hc).1
    exact (show c.addr ≠ 0 by omega)
  have hfree : s.isCurrentInuse e.1 = 0 := by
    obtain ⟨c, hc, hce, hst⟩ := hchunk e.1 List.mem_cons_self
    rw [← hce]
    exact (hr.isCurrentInuse_eq_zero hs hc).mpr (by simp [hst])
  have hnext := hring.next_mem List.mem_cons_self
  have hprev := hring.prev_mem List.mem_cons_self
  rw [State.checkBinned, isCircularlyLinkedList_eq hring hnd hlen, hvalid _ hnext, hvalid _ hprev,
    hvalid _ List.mem_cons_self, hholds.sized e (hholds.mem e he)]
  split_ifs with hlarge hsmall
  · -- a chunk in a tree
    obtain ⟨-, h8, hslot⟩ := hs.sorted.mem_slots_binOf he
    have hbounds := largeRequestIndex_bounds hlarge.1 hlarge.2 h8
    have hbin : binOf e.2 = largeRequestIndex e.2 := by
      rw [binOf, if_neg hlarge.2, if_pos hlarge.1]
    rw [hbin, Bins.slots_large hbounds.1] at hslot
    rw [isValidLargeChunk_eq (hholds.treeBin hbounds.1 hbounds.2) hslot hfree]
    simp
  · -- a huge chunk
    simp
  · -- a small chunk
    have hlinks : s.isValidSmallChunk e.1 = true :=
      decide_eq_true ⟨hfree, hnull _ hnext, hnull _ hprev⟩
    rw [hlinks]
    simp

/-- The `PREVIOUS_INUSE` bit of `d` is clear if the chunk `c` before it is free. -/
def Marked (c d : Chunk) : Prop := c.status = .free → d.pinuse = false

instance (c d : Chunk) : Decidable (Marked c d) :=
  inferInstanceAs (Decidable (c.status = .free → d.pinuse = false))

/-- Of the assertions about two neighbours, the first of which is not the end of the heap, one
depends on the heap. -/
theorem Models.checkTags_eq (hm : Models s h) (hi : Inv full ext h)
    (hL : h.chunks = pre ++ c :: d :: post) (hc : c.status ≠ .top) :
    s.checkTags debug c.addr =
      Check.assert debug PREVIOUS_FREE_ASSERTION (some (decide (Marked c d))) := by
  have hr := hm.toRep
  have hs := hi.shape
  have hcm : c ∈ h.chunks := Shape.mem_chunks hL
  have hdm : d ∈ h.chunks := by simp [hL]
  have hd : d.addr = c.next := (tiles_mid.mp (hs.tiles_of hL)).2.1
  rw [State.checkTags, hr.nextHeapChunk hs hcm, ← hd]
  by_cases hst : c.status = .free
  · obtain ⟨hsize, hback⟩ := hr.footer_eq hs hL hst
    have hmarked : Marked c d ↔ s.isPreviousInuse d.addr = 0 := by
      rw [hr.isPreviousInuse_eq_zero hs hdm]
      exact ⟨fun h => h hst, fun h _ => h⟩
    rw [if_pos ((hr.isCurrentInuse_eq_zero hs hcm).mpr (by simp [hst])), hback, hsize,
      hr.chunkSize hs hcm, Check.assert_of rfl, Check.assert_of rfl, decide_eq_decide.mpr hmarked]
    rw [pure_bind, pure_bind]
  · -- the chunk before `d` is in use, so that its bit is set
    have huse : c.status = .inuse := by
      cases h : c.status <;> simp_all
    have hbit : d.pinuse = true := by
      have htags : Tags full false ((pre ++ [c]) ++ d :: post) := by
        rw [List.append_assoc]
        exact hL ▸ hi.tags
      by_contra hp
      have hlast := (tags_mid.mp htags).2.1.1 (by simpa using hp)
      rw [lastFree_concat, huse] at hlast
      cases hlast
    have hne : s.isPreviousInuse d.addr ≠ 0 :=
      (hr.isPreviousInuse_eq_zero hs hdm).not.mpr (by simp [hbit])
    have hmarked : Marked c d := fun h => absurd h hst
    rw [if_neg ((hr.isCurrentInuse_eq_zero hs hcm).not.mpr (by simp [huse])),
      Check.assert_of hne, Check.assert_of hmarked]

/-- The body of the loop at a chunk `c` before `d`. -/
theorem Models.checkChunk_eq (hm : Models s h) (hi : Inv full ext h) (h4 : 4 ∣ s.memStartBrk)
    (hL : h.chunks = pre ++ c :: d :: post) (hc : c.status ≠ .top) :
    s.checkChunk debug c.addr =
      Check.assert debug PREVIOUS_FREE_ASSERTION (some (decide (Marked c d))) := by
  have hr := hm.toRep
  have hs := hi.shape
  have hcm : c ∈ h.chunks := Shape.mem_chunks hL
  have hword : 4 < s.load .currentSize c.addr := by
    have hleast := (hs.sizes c hcm).least hc
    rw [(hr.headers c hcm).word, Chunk.word]
    omega
  -- a free chunk other than the victim is in a bin
  have hbinned : c.addr ≠ s.bin VICTIM_BIN ∧ s.isCurrentInuse c.addr = 0 →
      s.checkBinned debug c.addr = pure () := by
    rintro ⟨hvictim, huse⟩
    have hst : c.status = .free := by
      have hne := (hr.isCurrentInuse_eq_zero hs hcm).mp huse
      cases h : c.status <;> simp_all
    have hmem : c.slot ∈ h.bins.victimSlot + h.bins.binned := by
      rw [hs.account]
      exact mem_freeSlots.mpr ⟨c, hcm, hst, rfl⟩
    rcases Multiset.mem_add.mp hmem with hv | hb
    · rw [Bins.mem_victimSlot] at hv
      rw [hm.victim, hv] at hvictim
      exact absurd rfl hvictim
    · have hslot : s.checkBinned debug c.slot.1 = pure () := hr.checkBinned_eq hs h4 hb
      exact hslot
  rw [State.checkChunk, hm.checkTags_eq hi hL hc, Check.assert_of hword]
  by_cases hcond : c.addr ≠ s.bin VICTIM_BIN ∧ s.isCurrentInuse c.addr = 0
  · rw [if_pos hcond, hbinned hcond]
    simp
  · rw [if_neg hcond]
    simp

/-! ### The loops -/

/-- The loop ends at the end of the heap. -/
theorem Models.checkHeap_top (hm : Models s h) (hs : Shape ext X h)
    (hL : h.chunks = pre ++ [c]) (hf : 0 < fuel) :
    s.checkHeap debug fuel c.addr = pure (s.bin END_OF_HEAP_BIN) := by
  obtain ⟨fuel, rfl⟩ := Nat.exists_eq_succ_of_ne_zero (Nat.ne_of_gt hf)
  obtain ⟨pre', t, hLt, -, htop, -⟩ := hs.exists_top
  have hct : c = t := List.head_eq_of_cons_eq (List.append_inj' (hL.symm.trans hLt) rfl).2
  have haddr : c.addr = s.bin END_OF_HEAP_BIN := by
    rw [hm.top, htop, hct]
    rfl
  rw [State.checkHeap, if_pos haddr, haddr]

/-- One round of the loop. -/
theorem Models.checkHeap_next (hm : Models s h) (hi : Inv full ext h) (h4 : 4 ∣ s.memStartBrk)
    (hL : h.chunks = pre ++ c :: d :: post) :
    s.checkHeap debug (fuel + 1) c.addr =
      (do
        Check.assert debug PREVIOUS_FREE_ASSERTION (some (decide (Marked c d)))
        s.checkHeap debug fuel d.addr) := by
  have hs := hi.shape
  have hcm : c ∈ h.chunks := Shape.mem_chunks hL
  have hc : c.status ≠ .top := hs.ne_top hL
  obtain ⟨pre', t, hLt, ht, htop, -⟩ := hs.exists_top
  have haddr : c.addr ≠ s.bin END_OF_HEAP_BIN := by
    rw [hm.top, htop]
    intro he
    have hct := hs.tiles.eq_of_addr_eq hcm (by simp [hLt] : t ∈ h.chunks) he
    exact hc (hct ▸ ht)
  have hd : d.addr = c.next := (tiles_mid.mp (hs.tiles_of hL)).2.1
  rw [State.checkHeap, if_neg haddr, hm.checkChunk_eq hi h4 hL hc,
    hm.toRep.nextHeapChunk hs hcm, hd]

/-- The loop through a heap whose free chunks are all marked, or without assertions. -/
theorem Models.checkHeap_eq (hm : Models s h) (hi : Inv full ext h) (h4 : 4 ∣ s.memStartBrk)
    (hL : h.chunks = pre ++ c :: post) (hf : post.length < fuel)
    (hmarked : debug = true → List.IsChain Marked (c :: post)) :
    s.checkHeap debug fuel c.addr = pure (s.bin END_OF_HEAP_BIN) := by
  induction post generalizing pre c fuel with
  | nil => exact hm.checkHeap_top hi.shape hL (Nat.zero_lt_of_lt hf)
  | cons d post ih =>
    obtain ⟨fuel, rfl⟩ := Nat.exists_eq_succ_of_ne_zero (Nat.ne_zero_of_lt hf)
    have hpass : Check.assert debug PREVIOUS_FREE_ASSERTION (some (decide (Marked c d))) =
        pure () := by
      cases debug with
      | false => rfl
      | true => exact Check.assert_of (List.isChain_cons_cons.mp (hmarked rfl)).1
    rw [hm.checkHeap_next hi h4 hL, hpass, pure_bind]
    exact ih (hL.trans (by simp : pre ++ c :: d :: post = (pre ++ [c]) ++ d :: post))
      (Nat.lt_of_succ_lt_succ hf) fun hdebug => (List.isChain_cons_cons.mp (hmarked hdebug)).2

/-- The loop stops behind the first free chunk that is not marked. -/
theorem Models.checkHeap_throw (hm : Models s h) (hi : Inv full ext h) (h4 : 4 ∣ s.memStartBrk)
    (hL : h.chunks = pre ++ c :: post) (hf : post.length < fuel)
    (hmarked : ¬ List.IsChain Marked (c :: post)) :
    s.checkHeap true fuel c.addr = throw PREVIOUS_FREE_ASSERTION := by
  induction post generalizing pre c fuel with
  | nil => exact absurd (List.isChain_singleton c) hmarked
  | cons d post ih =>
    obtain ⟨fuel, rfl⟩ := Nat.exists_eq_succ_of_ne_zero (Nat.ne_zero_of_lt hf)
    rw [hm.checkHeap_next hi h4 hL]
    by_cases hcd : Marked c d
    · rw [Check.assert_of hcd, pure_bind]
      refine ih (hL.trans (by simp : pre ++ c :: d :: post = (pre ++ [c]) ++ d :: post))
        (Nat.lt_of_succ_lt_succ hf) fun hrest => ?_
      exact hmarked (List.isChain_cons_cons.mpr ⟨hcd, hrest⟩)
    · rw [decide_eq_false hcd, Check.assert_false]
      exact Check.throw_bind

/-- `is_valid_pointer_tree` holds of the large bins. -/
theorem Rep.checkTrees_eq (hr : Rep s h) (hs : Shape ext X h) {is : List ℕ}
    (his : ∀ i ∈ is, 32 ≤ i ∧ i < NUM_OF_BINS) : s.checkTrees debug is = pure () := by
  induction is with
  | nil => rfl
  | cons i is ih =>
    obtain ⟨h32, hn⟩ := his i List.mem_cons_self
    have hb := (hr.holds hs).treeBin h32 hn
    have hroot : NO_PARENT_ROOT_NODE ∉ addrs (h.bins.large i) := fun hmem =>
      (hb.large.ptr hb.spread hmem).2.2 rfl
    have hvalid : s.isValidPointerTree i MAX_HEAP (s.bin i) = some true := by
      rw [hb.tree.1]
      exact isValidPointerTree_eq hb.spread hb.large hb.nodup_addrs hb.tree.2 hroot hb.height_lt
    rw [State.checkTrees, hvalid, Check.assert_true, pure_bind]
    exact ih fun j hj => his j (List.mem_cons_of_mem _ hj)

end Heap

end Dlmalloc
