import Dlmalloc.Refine.Searches

/-!
# A large bin

`TreeBin s n t` — bin `n` points to the tree `t`, which is routed by the sizes of its chunks, and
these do not overlap. Insertion and removal of a chunk keep it, whatever the other bins hold.
`TreeBin.wellFormed` says what this is at every node, in terms of the fields of the source: on the
path `K` from the root a node has the shift `FAST_LOG2 - 2 - K.length`, which is never less than 2.
-/

namespace Dlmalloc

open DigitTree

/-- Bin `n` in memory is the digit tree `t`. -/
structure TreeBin (s : State) (n : ℕ) (t : DigitTree ℕ) : Prop where
  tree : BinTree s n t
  routed : t.Routed (binLevel n) (2 + n % 2)
  distinct : t.keys.Nodup
  keyed : Keyed s t
  size : ∀ e ∈ t.entries, isLargeSize e.2 ∧ ¬ isHugeSize e.2 ∧ 8 ∣ e.2 ∧ largeRequestIndex e.2 = n
  spread : Spread {e | e ∈ t.entries}
  nodup : t.entries.Nodup
  few : t.entries.length < MAX_HEAP

/-- The large bins of `B` in memory. -/
def TreeBins (s : State) (B : Bins) : Prop :=
  ∀ n, 32 ≤ n → n < NUM_OF_BINS → TreeBin s n (B.large n)

/-- What holds at the node of bin `n` with the chunks `a :: rest` of size `k` and the subtrees `l`
and `r`, at the end of the path `K` from the root. -/
structure WellFormedNode (s : State) (n : ℕ) (K : List (Turn ℕ)) (k a : ℕ) (rest : List ℕ)
    (l r : DigitTree ℕ) : Prop where
  /-- All chunks of the node have its size, and the size is one of bin `n`. -/
  size : ∀ b ∈ a :: rest, s.chunkSize b = k
  large : isLargeSize k ∧ ¬ isHugeSize k ∧ 8 ∣ k
  index : largeRequestIndex k = n
  /-- They are a doubly linked circular list, and only the head has a parent. -/
  list : CircularList (s.load .next) (s.load .prev) (a :: rest)
  parent : s.load .parent a = above K
  member : ∀ b ∈ rest, s.load .parent b = NO_PARENT_CIRCLE_NODE
  child0 : s.load .child0 a = root l
  child1 : s.load .child1 a = root r
  binNumber : ∀ b ∈ a :: rest, s.load .binNumber b = n
  /-- The shift goes down by one from level to level, to no less than 2. -/
  shift : ∀ b ∈ a :: rest, s.load .shift b + 2 + K.length = fastLog2 k
  least : 2 ≤ s.load .shift a
  /-- The sizes below agree with that of the node above the shift, and are on the side of their bit
  at the shift. -/
  agree : ∀ j ∈ l.keys ++ r.keys, j >>> (s.load .shift a + 1) = k >>> (s.load .shift a + 1)
  left : ∀ j ∈ l.keys, j.testBit (s.load .shift a) = false
  right : ∀ j ∈ r.keys, j.testBit (s.load .shift a) = true

/-- Bin `n` holds the tree `t`, and every node of it is as it should be. The parent of the root is
`NO_PARENT_ROOT_NODE` (`above []`). -/
structure WellFormed (s : State) (n : ℕ) (t : DigitTree ℕ) : Prop where
  root : s.bin n = root t
  node : ∀ K k a rest l r, t = plug K (.node k a rest l r) → WellFormedNode s n K k a rest l r
  distinct : t.keys.Nodup

section TreeBin

variable {X : Set Slot} {s s' : State} {B : Bins} {n m c k a : ℕ} {t l r : DigitTree ℕ} {e : Slot}
  {K : List (Turn ℕ)} {rest : List ℕ}

/-! ### Reading a bin -/

theorem TreeBin.nodup_addrs (h : TreeBin s n t) : (addrs t).Nodup :=
  (List.nodup_map_iff_inj_on h.nodup).mpr fun _ hx _ hy hxy => h.spread.eq_of_addr hx hy hxy

theorem TreeBin.large (h : TreeBin s n t) : Large {e | e ∈ t.entries} (addrs t) := fun b hb => by
  obtain ⟨e, he, rfl⟩ := List.mem_map.mp hb
  exact ⟨e.2, he, (h.size e he).1⟩

theorem TreeBin.indexed (h : TreeBin s n t) : Indexed s n (addrs t) := fun b hb => by
  obtain ⟨e, he, rfl⟩ := List.mem_map.mp hb
  rw [h.keyed e he]
  exact (h.size e he).2.2.2

theorem TreeBin.aligned (h : TreeBin s n t) {j : ℕ} (hj : j ∈ t.keys) : 8 ∣ j := by
  obtain ⟨b, hb⟩ := exists_mem_entries hj
  exact (h.size _ hb).2.2.1

/-- A tree of a bin has as many levels as its sizes have digits below the ones they share and above
those that are always clear. -/
theorem TreeBin.height_le (h : TreeBin s n t) : t.height ≤ binLevel n - 2 := by
  by_cases ht : t = nil
  · simp [ht, height]
  obtain ⟨e, he⟩ := List.exists_mem_of_ne_nil _ (entries_eq_nil_iff.not.mpr ht)
  obtain ⟨hl, -, h8, hidx⟩ := h.size e he
  have hlog := fastLog2_large hl h8
  have hlevel := binLevel_largeRequestIndex (k := e.2)
  rw [hidx] at hlevel
  have := h.routed.height_le (g := 3) h.distinct (fun j hj => h.aligned hj) (by omega)
  omega

/-- A request for the bin is routed into it. -/
theorem prefix_of_index {r : ℕ} (hr : isLargeSize r) (h8 : 8 ∣ r) (hidx : largeRequestIndex r = n) :
    r / 2 ^ binLevel n = 2 + n % 2 := by
  rw [← hidx]
  exact prefix_largeRequestIndex hr h8

theorem TreeBin.height_lt (h : TreeBin s n t) : t.height < MAX_HEAP := by
  have h1 := height_le_length (t := t)
  rw [addrs, List.length_map] at h1
  exact h1.trans_lt h.few

/-- The bins of the allocator are such trees. -/
theorem Holds.treeBin (h : Holds X s B) (h32 : 32 ≤ n) (hn : n < NUM_OF_BINS) :
    TreeBin s n (B.large n) := by
  have hslots : B.slots n = (B.large n).entries := Bins.slots_large h32
  have hmem : ∀ e ∈ (B.large n).entries, e ∈ X := fun e he =>
    h.mem_slots hn (by rw [hslots]; exact he)
  refine ⟨(BinRep.large h32).mp (h.bin n (by omega) hn), h.sorted.routed n h32 hn,
    h.sorted.distinct n h32 hn, fun e he => h.sized e (hmem e he), fun e he => ?_,
    h.spread.mono hmem, ?_, ?_⟩
  · exact h.sorted.large_of_slots h32 hn (by rw [hslots]; exact he)
  · rw [← hslots]
    exact h.nodup_slots hn
  · rw [← hslots]
    exact h.length_slots hn

theorem Holds.treeBins (h : Holds X s B) : TreeBins s B := fun _ h32 hn => h.treeBin h32 hn

/-- What a large bin is at each of its nodes. -/
theorem TreeBin.wellFormed (h : TreeBin s n t) : WellFormed s n t := by
  refine ⟨h.tree.1, fun K k a rest l r ht => ?_, h.distinct⟩
  subst ht
  obtain ⟨-, hnode, -, -⟩ := treeRep_plug.mp h.tree
  obtain ⟨p, hp, -⟩ := h.routed.plug
  have hentries : ∀ b ∈ a :: rest, (b, k) ∈ (plug K (.node k a rest l r)).entries := fun b hb => by
    refine entries_plug.mem_iff.mpr (List.mem_append_left _ ?_)
    rw [entries]
    exact List.mem_append_left _ (List.mem_map_of_mem hb)
  have hsize : ∀ b ∈ a :: rest, s.chunkSize b = k := fun b hb => by
    have hk := h.keyed
    unfold Keyed at hk
    exact hk (b, k) (hentries b hb)
  obtain ⟨hl, hh, h8, hidx⟩ := h.size _ (hentries a List.mem_cons_self)
  have hlevel : binLevel n = fastLog2 k - 1 := by rw [← hidx, binLevel_largeRequestIndex]
  have hlog := fastLog2_large hl h8
  -- the path is no longer than the tree is high
  have hdepth : K.length + 1 ≤ binLevel n - 2 := by
    rcases height_plug_ge (K := K) (t := .node k a rest l r) with hge | hnil
    · have := h.height_le
      simp only [height] at hge
      omega
    · cases hnil
  have hshift : ∀ b ∈ a :: rest, s.load .shift b = binLevel n - K.length - 1 := hnode.shift
  have ha := hshift a List.mem_cons_self
  have hup : s.load .shift a + 1 = binLevel n - K.length := by omega
  refine ⟨hsize, ⟨hl, hh, h8⟩, hidx, hnode.list, hnode.parent,
    hnode.member, hnode.child0, hnode.child1, hnode.binNumber, fun b hb => ?_, by omega,
    fun j hj => ?_, fun j hj => ?_, fun j hj => ?_⟩
  · have := hshift b hb
    omega
  · rw [hup, Nat.shiftRight_eq_div_pow, Nat.shiftRight_eq_div_pow,
      hp.leading j (by simpa [keys] using .inr (List.mem_append.mp hj)), hp.1]
  · rw [ha]
    exact hp.digit_left hj
  · rw [ha]
    exact hp.digit_right hj

/-! ### Searches -/

/-- The walk to the smallest chunk of a bin, with fuel for as many nodes as the tree is high. -/
theorem TreeBin.smallestChunk_run (h : TreeBin s n t) (best : Slot) {fuel : ℕ}
    (hf : t.height < fuel) :
    smallestChunkLoop fuel (root t) best.1 best.2 s = some ((leftmost best t).1, s) :=
  smallestChunkLoop_run h.spread h.large h.tree.2 h.keyed hf

/-- A bin that holds a chunk has a small level. -/
theorem TreeBin.isPtr_binLevel (h : TreeBin s n t) (ht : t ≠ .nil) : IsPtr (binLevel n) := by
  obtain ⟨e, he⟩ := List.exists_mem_of_ne_nil _ (mt entries_eq_nil_iff.mp ht)
  obtain ⟨hlarge, hhuge, -, rfl⟩ := h.size e he
  have hpos : e.2 ≠ 0 := by
    rintro h0
    rw [h0] at hlarge
    simp [isLargeSize] at hlarge
  have hlog := fastLog2_not_huge hpos hhuge
  rw [binLevel_largeRequestIndex]
  exact (show fastLog2 e.2 - 1 < 24 by omega).trans (by decide)

/-- The walk down the request's own bin. -/
theorem TreeBin.findBest_run (h : TreeBin s n t) (r bound : ℕ) {fuel : ℕ} (hf : t.height < fuel) :
    findBestChunkLoop r fuel (s.bin n) NULL bound s =
      some (pointer (t.bestFit r (binLevel n) none bound), s) := by
  rw [h.tree.1, ← pointer_none]
  exact findBestChunkLoop_run h.spread h.large h.tree.2 h.keyed hf h.isPtr_binLevel

/-- A bin is empty if and only if its pointer is `NULL`. -/
theorem TreeBin.bin_eq_null (h : TreeBin s n t) : s.bin n = NULL ↔ t = nil := by
  rw [h.tree.1]
  exact root_ne_NULL h.spread h.large

theorem TreeBins.bin_eq (h : TreeBins s B) (h32 : 32 ≤ n) : s.bin n = root (B.tree n) := by
  unfold Bins.tree
  split_ifs with h64
  · exact (h n h32 h64).tree.1
  · simp [State.bin, h64]

/-- The scan of the large bins is `Bins.scanLarge`. -/
theorem scanLargeBins_run {last left : ℕ} (h : TreeBins s B) (hn : 31 ≤ n) :
    scanLargeBins last left n s = some (pointer (B.scanLarge last left n), s) := by
  induction left generalizing n with
  | zero => simp [scanLargeBins, Bins.scanLarge]
  | succ left ih =>
    rw [scanLargeBins, Bins.scanLarge, M.ite_apply]
    split_ifs with hlast
    · rw [M.bind_apply, bin_apply, Option.bind_some, h.bin_eq (by omega)]
      -- an empty bin reads as `NULL`
      cases htree : B.tree (n + 1) with
      | nil => simpa using ih (by omega)
      | node k a rest l r =>
        have h64 : n + 1 < NUM_OF_BINS := by
          by_contra h64
          simp [Bins.tree, h64] at htree
        have hb := h (n + 1) (by omega) h64
        rw [Bins.tree, if_pos h64] at htree
        rw [htree] at hb
        have ha0 : a ≠ NULL := (hb.large.ptr hb.spread (a := a) (by simp)).2.1
        have hak : s.chunkSize a = k := hb.keyed (a, k) (by simp [entries])
        dsimp only
        rw [root_node, if_pos ha0, M.bind_apply, chunkSize_apply, Option.bind_some, hak]
        exact hb.smallestChunk_run (a, k) hb.height_lt
    · simp

theorem findBestChunk_run {r : ℕ} (h : TreeBins s B) (hr : isLargeSize r) (hh : ¬ isHugeSize r)
    (h8 : 8 ∣ r) : findBestChunk r s = some (pointer (B.findBest r), s) := by
  obtain ⟨h32, h64⟩ := largeRequestIndex_bounds hr hh h8
  have hb := h _ h32 h64
  have hbound : 2 * r % 2 ^ 64 = 2 * r := by
    have : r ≤ 16777215 := not_lt.mp hh
    omega
  have htree : B.tree (largeRequestIndex r) = B.large (largeRequestIndex r) := if_pos h64
  rw [findBestChunk]
  simp only [M.bind_apply, bin_apply, Option.bind_some, hbound, hb.findBest_run _ _ hb.height_lt]
  rw [Bins.findBest, htree]
  cases hfit : (B.large (largeRequestIndex r)).bestFit r (binLevel (largeRequestIndex r)) none
      (2 * r) with
  -- no fit in the own bin: the scan behind it
  | none =>
    have hscan : scanLargeBins 64 LARGE_BIN_SEARCH_MAX (largeRequestIndex r) s =
        some (pointer (B.scanLarge 64 LARGE_BIN_SEARCH_MAX (largeRequestIndex r)), s) :=
      scanLargeBins_run h (by omega)
    simpa using hscan
  | some e =>
    have hmem := bestFit_mem hb.routed (prefix_of_index hr h8 rfl) (by omega) hfit
    have he0 : e.1 ≠ NULL := (hb.spread.link_cells ⟨e.2, hmem.1⟩).2.2.2
    simp [he0]

/-! ### Edits -/

/-- Sizes, links and the root as before. -/
theorem TreeBin.congr (h : TreeBin s n t) (hbin : s'.bin n = s.bin n)
    (hsize : ∀ e ∈ t.entries, s'.chunkSize e.1 = s.chunkSize e.1)
    (hlink : ∀ e ∈ t.entries, ∀ f : Field, 16 ≤ f.offset → s'.load f e.1 = s.load f e.1) :
    TreeBin s' n t := by
  refine ⟨⟨hbin.trans h.tree.1, h.tree.2.congr fun b hb f hf => ?_⟩, h.routed, h.distinct,
    fun e he => (hsize e he).trans (h.keyed e he), h.size, h.spread, h.nodup, h.few⟩
  obtain ⟨e, he, rfl⟩ := List.mem_map.mp hb
  exact hlink e he f hf

/-- Another bin is not touched by changes to the links of chunks apart from its own. -/
theorem TreeBin.frame {Y : Set Slot} (h : TreeBin s n t) (hbin : s'.bin n = s.bin n)
    (hs : LinksOnly Y s s') (hX : Spread X) (hY : Y ⊆ X) (hsub : ∀ e ∈ t.entries, e ∈ X)
    (hne : ∀ e ∈ t.entries, e ∉ Y) : TreeBin s' n t := by
  have hne' : ∀ e ∈ t.entries, ∀ g ∈ Y, g.1 ≠ e.1 := fun e he g hg hge =>
    hne e he (hX.eq_of_addr (hY hg) (hsub e he) hge ▸ hg)
  refine h.congr hbin (fun e he => ?_) fun e he f hf => ?_
  · rw [State.chunkSize, State.chunkSize, hs.load fun x hx1 hx2 g hg hint => ?_]
    obtain ⟨h1, h2⟩ := hint
    simp only [Field.offset, Field.width] at hx1 hx2
    rcases hX.apart g (hY hg) e (hsub e he) with rfl | h' | h'
    · exact hne' g he g hg rfl
    · omega
    · have := hX.least e (hsub e he)
      omega
  · exact hs.load_cell hX hY (cell_of_large (hsub e he) (h.size e he).1 hf) (hne' e he)

/-- **Insertion** into a bin. -/
theorem TreeBin.insert (h : TreeBin s n t) (hn : n < NUM_OF_BINS)
    (hX : Spread {f | f = (c, k) ∨ f ∈ t.entries}) (hc : (c, k) ∉ t.entries)
    (hck : s.chunkSize c = k) (hl : isLargeSize k) (hh : ¬ isHugeSize k) (h8 : 8 ∣ k)
    (hidx : largeRequestIndex k = n) (hroom : t.entries.length + 1 < MAX_HEAP) :
    Returns (insertLargeChunk c) s fun _ s' => TreeBin s' n (t.insert k c (binLevel n)) ∧
      LinksOnly {f | f = (c, k) ∨ f ∈ t.entries} s s' ∧ ∀ m, m ≠ n → s'.bin m = s.bin m := by
  have hperm := entries_insert k c (binLevel n) t
  -- no chunk of the tree lies where the new one does
  have hca : c ∉ addrs t := fun hmem => by
    obtain ⟨f, hf, hfc⟩ := List.mem_map.mp hmem
    exact hc (hX.eq_of_addr (.inr hf) (f := (c, k)) (.inl rfl) hfc ▸ hf)
  have hpre := prefix_of_index hl h8 hidx
  have hL : Large {f | f = (c, k) ∨ f ∈ t.entries} (c :: addrs t) := fun b hb => by
    rcases List.mem_cons.mp hb with rfl | hb
    · exact ⟨k, .inl rfl, hl⟩
    · obtain ⟨j, hj, hj'⟩ := h.large b hb
      exact ⟨j, .inr hj, hj'⟩
  refine (insertLargeChunk_spec hX hn hL (List.nodup_cons.mpr ⟨hca, h.nodup_addrs⟩) (.inl rfl)
    h.keyed hck hl hh h8 hidx h.routed (fun j hj => h.aligned hj) h.height_lt h.tree).mono
    fun _ s' hpost => ?_
  obtain ⟨ht, hs, hbins⟩ := hpost
  refine ⟨?_, hs, hbins⟩
  have hmem : ∀ f ∈ (t.insert k c (binLevel n)).entries, f = (c, k) ∨ f ∈ t.entries :=
    fun f hf => List.mem_cons.mp (hperm.mem_iff.mp hf)
  refine ⟨ht, routed_insert h.routed hpre, nodup_keys_insert h.routed hpre h.distinct,
    fun f hf => ?_, fun f hf => ?_, hX.mono hmem,
    hperm.symm.nodup (List.nodup_cons.mpr ⟨hc, h.nodup⟩), ?_⟩
  · rw [hs.chunkSize hX (hmem f hf)]
    rcases hmem f hf with rfl | hf
    · exact hck
    · exact h.keyed f hf
  · rcases hmem f hf with rfl | hf
    · exact ⟨hl, hh, h8, hidx⟩
    · exact h.size f hf
  · rw [hperm.length_eq, List.length_cons]
    exact hroom

/-- **Removal** from a bin. -/
theorem TreeBin.remove (h : TreeBin s n t) (hn : n < NUM_OF_BINS) (hc : (c, k) ∈ t.entries) :
    Returns (removeLargeChunk c) s fun _ s' => TreeBin s' n (t.remove k c (binLevel n)) ∧
      LinksOnly {f | f ∈ t.entries} s s' ∧ ∀ m, m ≠ n → s'.bin m = s.bin m := by
  have hperm := entries_remove h.routed h.distinct hc
  -- a chunk of a tree is not huge, so the code goes on to the tree
  have hhuge : ¬ isHugeSize (s.chunkSize c) := by
    rw [h.keyed _ hc]
    exact (h.size _ hc).2.1
  refine (removeLargeChunk_spec h.spread hn h.large h.nodup_addrs h.indexed
    (by rw [addrs, List.length_map]; exact h.few.le) h.routed h.distinct hc hc hhuge h.tree).mono
    fun _ s' hpost => ?_
  obtain ⟨ht, hs, hbins⟩ := hpost
  refine ⟨?_, hs, hbins⟩
  have hmem : ∀ f ∈ (t.remove k c (binLevel n)).entries, f ∈ t.entries :=
    fun f hf => hperm.mem_iff.mpr (List.mem_cons_of_mem _ hf)
  refine ⟨ht, routed_remove h.routed h.distinct hc, nodup_keys_remove h.routed h.distinct hc,
    fun f hf => ?_, fun f hf => h.size f (hmem f hf), h.spread.mono hmem,
    (List.nodup_cons.mp (hperm.nodup h.nodup)).2, ?_⟩
  · rw [hs.chunkSize h.spread (hmem f hf)]
    exact h.keyed f (hmem f hf)
  · have h1 := hperm.length_eq
    have h2 := h.few
    rw [List.length_cons] at h1
    omega

end TreeBin

end Dlmalloc
