import Dlmalloc.Properties.Search
import Dlmalloc.Refine.Walks

/-!
# The loops end

No loop that follows links runs for ever. The walks down a tree visit `FAST_LOG2 - 3` nodes at most,
and the loops round a list visit its members once (`loops_end`).

The searches start between calls, but insertions and removals also happen in the middle of one: a
deallocation takes the neighbours out of their bins before it inserts the merged chunk. `Underway`
are the states that come up on the way, and the walks also end wherever memory holds a heap at all
(`Rep.walksEnd`).
-/

namespace Dlmalloc

open DigitTree

/-- `S` are the chunks in the large bins, with their sizes. -/
structure Contents (s : State) (S : Multiset Slot) : Prop where
  large : ∀ e ∈ S, 32 ≤ largeRequestIndex e.2 ∧ largeRequestIndex e.2 < NUM_OF_BINS
  bin : ∀ n, 32 ≤ n → n < NUM_OF_BINS → ∃ L, s.binMembers n = some L ∧
    ofBin n S = (L.map fun c => (c, s.chunkSize c) : List Slot)

/-- The large bins, and the sizes and links of the chunks `S`, are as before. The flags of these
chunks may have changed, and all the rest of memory. -/
structure Undisturbed (S : Multiset Slot) (s s' : State) : Prop where
  size : ∀ e ∈ S, s'.chunkSize e.1 = s.chunkSize e.1
  link : ∀ e ∈ S, ∀ f : Field, 16 ≤ f.offset → s'.load f e.1 = s.load f e.1
  bin : ∀ n, 32 ≤ n → n < NUM_OF_BINS → s'.bin n = s.bin n
  memStartBrk : s'.memStartBrk = s.memStartBrk
  memMaxAddr : s'.memMaxAddr = s.memMaxAddr

/-- A state on the way through a call from `y`, with the chunks `S` in the large bins: some have
been inserted and some removed, and other things have been written in between. -/
inductive Underway (y : System) : State → Multiset Slot → Prop
  | start {S : Multiset Slot} : Contents y.state S → Underway y y.state S
  | insert {s s' : State} {S : Multiset Slot} {c : Addr} {τ : ℕ} : Underway y s S →
      Insertable s S c → insertLargeChunk c s = some (τ, s') →
      Underway y s' ((c, s.chunkSize c) ::ₘ S)
  | remove {s s' : State} {S : Multiset Slot} {e : Slot} {τ : ℕ} : Underway y s (e ::ₘ S) →
      removeLargeChunk e.1 s = some (τ, s') → Underway y s' S
  | other {s s' : State} {S : Multiset Slot} : Underway y s S → Undisturbed S s s' →
      Underway y s' S

/-- The walks down the large bins, with `S` in them. -/
structure WalksEnd (s : State) (S : Multiset Slot) : Prop where
  /-- The walk of an insertion. The new chunk's shift is one less than that of its parent. -/
  insertion : ∀ c, Insertable s S c → ∃ τ visits s',
    insertLargeChunkVisits c s = some ((τ, visits), s') ∧
      visits.length ≤ fastLog2 (s.chunkSize c) - 3 ∧ (∀ a ∈ visits, 2 ≤ s.load .shift a) ∧
      2 ≤ s'.load .shift c
  /-- The walk down the request's own bin. -/
  best : ∀ r, isLargeSize r → ¬ isHugeSize r → 8 ∣ r → ∃ best visits,
    findBestChunkLoopVisits r MAX_HEAP (s.bin (largeRequestIndex r)) NULL (2 * r % 2 ^ 64) s =
        some ((best, visits), s) ∧
      visits.length ≤ fastLog2 r - 3 ∧ ∀ a ∈ visits, 2 ≤ s.load .shift a
  /-- The walk to the smallest chunk of a bin. -/
  smallest : ∀ n, 32 ≤ n → n < NUM_OF_BINS → s.bin n ≠ NULL → ∃ best visits,
    smallestChunkLoopVisits MAX_HEAP (s.bin n) (s.bin n) (s.chunkSize (s.bin n)) s =
        some ((best, visits), s) ∧
      (∀ k, isLargeSize k → 8 ∣ k → largeRequestIndex k = n → visits.length ≤ fastLog2 k - 3) ∧
      ∀ a ∈ visits, 2 ≤ s.load .shift a
  /-- The removal of a chunk alone in its list. The descents find the leaf `a` below it, if there is
  one, and the last loop visits the other chunks of the list of `a`. -/
  removal : ∀ e ∈ S, s.load .next e.1 = e.1 → s.load .prev e.1 = e.1 → ∃ τ a v s',
    removeLargeSingleChunkVisits e.1 s = some ((τ, a, v), s') ∧
      v.left.length ≤ fastLog2 e.2 - 3 ∧ v.right.length ≤ fastLog2 e.2 - 3 ∧
      (a = NULL → s.load .child0 e.1 = NULL ∧ s.load .child1 e.1 = NULL ∧ v.list = []) ∧
      (a ≠ NULL → s.load .child0 a = NULL ∧ s.load .child1 a = NULL ∧ (a :: v.list).Nodup ∧
        CircularList (s.load .next) (s.load .prev) (a :: v.list))

/-- The loop round the huge list visits its members once, and stops early only at a chunk of the
size asked for. -/
def HugeLoopEnds (s : State) : Prop := ∀ r, s.bin HUGE_BIN ≠ NULL → ∃ best visits l,
  hugeMallocLoopVisits r (s.bin HUGE_BIN) MAX_HEAP (s.bin HUGE_BIN) NULL (2 ^ 64 - 1) s =
      some ((best, visits), s) ∧
    CircularList (s.load .next) (s.load .prev) l ∧ l.Nodup ∧ l.head? = some (s.bin HUGE_BIN) ∧
    visits <+: l ∧ (visits = l ∨ s.chunkSize best = r ∧ visits.getLast? = some best)

section Loops

variable {full : Prop} {ext lo n k c r : ℕ} {X : Multiset Slot} {h : Heap} {s s' : State}
  {S : Multiset Slot} {e : Slot} {t : DigitTree ℕ} {visits : List ℕ} {y : System}

/-! ### The states on the way -/

/-- In a heap the contents of the large bins are the chunks of their trees. -/
theorem Contents.trees (hS : Contents s S) (hB : TreeBins s h.bins) (h32 : 32 ≤ n)
    (hn : n < NUM_OF_BINS) : ofBin n S = ((h.bins.large n).entries : Multiset Slot) := by
  obtain ⟨L, hL, hbin⟩ := hS.bin n h32 hn
  have ht := hB n h32 hn
  obtain rfl := Option.some.inj ((ht.binMembers_eq h32).symm.trans hL)
  rw [hbin, addrs, List.map_map]
  have hid : ∀ e ∈ (h.bins.large n).entries,
      ((fun c => (c, s.chunkSize c)) ∘ Prod.fst) e = id e := fun e he => by
    have hk := ht.keyed e he
    exact Prod.ext rfl hk
  rw [List.map_congr_left hid, List.map_id]

/-- The large bins of a heap are as a run of insertions and removals leaves them. -/
theorem Rep.planted (hr : Rep s h) (hs : Heap.Shape ext X h) (hS : Contents s S) :
    Planted h.start s S := by
  have hH := hr.holds hs
  have hB := hH.treeBins
  have htrees : ∀ n, 32 ≤ n → n < NUM_OF_BINS →
      ofBin n S = ((h.bins.large n).entries : Multiset Slot) := fun n => hS.trees hB
  -- a chunk of `S` is one of the bin of its size
  have hmem : ∀ e ∈ S, ∃ n, 32 ≤ n ∧ n < NUM_OF_BINS ∧ e ∈ (h.bins.large n).entries :=
    fun e he => by
      obtain ⟨h32, hn⟩ := hS.large e he
      refine ⟨_, h32, hn, ?_⟩
      rw [← Multiset.mem_coe, ← htrees _ h32 hn]
      exact Multiset.mem_filter.mpr ⟨he, rfl⟩
  have hfree : ∀ e ∈ S, e ∈ Free h.chunks := fun e he => by
    obtain ⟨n, h32, hn, hen⟩ := hmem e he
    exact hH.mem_slots hn (by rwa [Bins.slots_large h32])
  have harena := hs.arena
  have hheap : MAX_HEAP = 52428800 := rfl
  have hlimit := harena.limit_eq
  have hspan := harena.span
  refine ⟨hr.memStartBrk, hr.memMaxAddr.trans hlimit, harena.start_pos, by omega, fun e he => ?_,
    fun e he => ?_, fun e he f hf => hH.spread.apart e (hfree e he) f (hfree f hf), ?_,
    fun n h32 hn => ⟨_, hB n h32 hn, (htrees n h32 hn).symm⟩⟩
  · obtain ⟨n, h32, hn, hen⟩ := hmem e he
    obtain ⟨h1, h2, h3, -⟩ := (hB n h32 hn).size e hen
    exact ⟨h1, h2, h3⟩
  · obtain ⟨d, hd, -, rfl⟩ := mem_freeSlots.mp (hfree e he)
    have hb := hs.bounds hd
    have h1 := harena.start_le
    have h2 := harena.brk_le
    refine ⟨hs.addr_aligned hd, h1.trans hb.1, ?_⟩
    have hnext : d.addr + d.size + 8 = d.next := rfl
    simp only [Chunk.slot]
    omega
  · -- a chunk is in its bin once, so it is in `S` once
    refine Multiset.nodup_iff_count_le_one.mpr fun e => ?_
    by_cases he : e ∈ S
    · obtain ⟨h32, hn⟩ := hS.large e he
      have hcount : S.count e = (ofBin (largeRequestIndex e.2) S).count e :=
        (Multiset.count_filter_of_pos (p := fun f : Slot => largeRequestIndex f.2 =
          largeRequestIndex e.2) rfl).symm
      rw [hcount, htrees _ h32 hn]
      exact Multiset.nodup_iff_count_le_one.mp (Multiset.coe_nodup.mpr (hB _ h32 hn).nodup) e
    · rw [Multiset.count_eq_zero_of_notMem he]
      exact Nat.zero_le 1

/-- There are contents to start with. -/
theorem Rep.exists_contents (hr : Rep s h) (hs : Heap.Shape ext X h) :
    ∃ S, Contents s S := by
  have hH := hr.holds hs
  have hB := hH.treeBins
  -- a chunk of a large size is in the bin of its size
  have hslots : ∀ e ∈ h.bins.binned, isLargeSize e.2 ∧ ¬ isHugeSize e.2 →
      32 ≤ largeRequestIndex e.2 ∧ largeRequestIndex e.2 < NUM_OF_BINS ∧
        e ∈ (h.bins.large (largeRequestIndex e.2)).entries := fun e he hl => by
    obtain ⟨-, h8, hmem⟩ := hs.sorted.mem_slots_binOf he
    obtain ⟨h32, h64⟩ := largeRequestIndex_bounds hl.1 hl.2 h8
    rw [binOf, if_neg hl.2, if_pos hl.1, Bins.slots_large h32] at hmem
    exact ⟨h32, h64, hmem⟩
  refine ⟨h.bins.binned.filter fun e => isLargeSize e.2 ∧ ¬ isHugeSize e.2,
    fun e he => ?_, fun n h32 hn => ⟨_, (hB n h32 hn).binMembers_eq h32, ?_⟩⟩
  · obtain ⟨he, hl⟩ := Multiset.mem_filter.mp he
    obtain ⟨h1, h2, -⟩ := hslots e he hl
    exact ⟨h1, h2⟩
  · have hid : (addrs (h.bins.large n)).map (fun c => (c, s.chunkSize c)) =
        (h.bins.large n).entries := by
      rw [addrs, List.map_map]
      refine (List.map_congr_left fun e he => ?_).trans (List.map_id _)
      exact Prod.ext rfl ((hB n h32 hn).keyed e he)
    rw [hid]
    refine (Multiset.Nodup.ext ((hH.nodup.filter _).filter _)
      (Multiset.coe_nodup.mpr (hB n h32 hn).nodup)).mpr fun e => ?_
    rw [Multiset.mem_filter, Multiset.mem_filter, Multiset.mem_coe]
    constructor
    · rintro ⟨⟨he, hl⟩, rfl⟩
      exact (hslots e he hl).2.2
    · intro he
      obtain ⟨h1, h2, -, h3⟩ := (hB n h32 hn).size e he
      refine ⟨⟨Bins.mem_binned.mpr ⟨n, hn, ?_⟩, h1, h2⟩, h3⟩
      rwa [Bins.slots_large h32]

theorem Planted.undisturbed (h : Planted lo s S) (hu : Undisturbed S s s') : Planted lo s' S := by
  refine ⟨hu.memStartBrk.trans h.start, hu.memMaxAddr.trans h.max, h.pos, h.span, h.large, h.inside,
    h.apart, h.nodup, fun n h32 hn => ?_⟩
  obtain ⟨t, ht, hS⟩ := h.bin n h32 hn
  exact ⟨t, ht.congr (hu.bin n h32 hn) (fun e he => hu.size e (mem_of_ofBin hS he).1)
    fun e he => hu.link e (mem_of_ofBin hS he).1, hS⟩

theorem Underway.planted (hy : Reachable EXTENSION_SIZE (Sized LARGEST_SIZE) y)
    (h : Underway y s S) : ∃ lo, Planted lo s S := by
  induction h with
  | start hS =>
    obtain ⟨σ, ht⟩ := hy.tracks_default
    exact ⟨_, ht.follows.models.toRep.planted ht.good.inv.shape hS⟩
  | insert _ hc hrun ih =>
    obtain ⟨lo, ih⟩ := ih
    exact ⟨lo, (ih.insert hc).elim hrun⟩
  | remove _ hrun ih =>
    obtain ⟨lo, ih⟩ := ih
    exact ⟨lo, ih.remove.elim hrun⟩
  | other _ hu ih =>
    obtain ⟨lo, ih⟩ := ih
    exact ⟨lo, ih.undisturbed hu⟩

/-! ### The loops -/

/-- The bound on the nodes of a path, by any of the sizes of the bin. -/
theorem TreeBin.path_length (ht : TreeBin s n t) (hk : isLargeSize k) (h8 : 8 ∣ k)
    (hidx : largeRequestIndex k = n) (hp : t.Path visits) : visits.length ≤ fastLog2 k - 3 := by
  have hlevel := binLevel_largeRequestIndex (k := k)
  rw [hidx] at hlevel
  have hlog := fastLog2_large hk h8
  calc visits.length ≤ t.height := hp.length_le
    _ ≤ binLevel n - 2 := ht.height_le
    _ = fastLog2 k - 3 := by omega

theorem TreeBin.path_shift (ht : TreeBin s n t) (hp : t.Path visits) :
    ∀ a ∈ visits, 2 ≤ s.load .shift a := by
  intro a ha
  obtain ⟨K, k, rest, l, r, hplug⟩ := hp.exists_plug ha
  exact (ht.wellFormed.node K k a rest l r hplug).least

theorem TreeBin.treeIn (ht : TreeBin s n t) :
    TreeIn {e | e ∈ t.entries} s n (binLevel n) NO_PARENT_ROOT_NODE t :=
  ⟨ht.spread, ht.large, ht.tree.2⟩

theorem Planted.insertion (h : Planted lo s S) (hc : Insertable s S c) : ∃ τ visits s',
    insertLargeChunkVisits c s = some ((τ, visits), s') ∧
      visits.length ≤ fastLog2 (s.chunkSize c) - 3 ∧ (∀ a ∈ visits, 2 ≤ s.load .shift a) ∧
      2 ≤ s'.load .shift c := by
  obtain ⟨k, hk⟩ : ∃ k, k = s.chunkSize c := ⟨_, rfl⟩
  obtain ⟨hX, hnew, -⟩ := h.spread_cons hc
  obtain ⟨τ, s', hrun, hp'⟩ := h.insert hc
  have hl := hc.large
  have hh := hc.notHuge
  have h8 := s.dvd_chunkSize c
  rw [← hk] at hX hnew hl hh h8 hp' ⊢
  obtain ⟨h32, h64⟩ := largeRequestIndex_bounds hl hh h8
  obtain ⟨t, ht, hS⟩ := h.bin _ h32 h64
  obtain ⟨p, hvisits, rfl⟩ := M.map_eq_some.mp ((congrFun insertLargeChunkVisits_fst s).trans hrun)
  -- the walk goes down the tree of the bin before
  have hX' : Spread {f | f = (c, k) ∨ f ∈ t.entries} := hX.mono fun f hf =>
    Multiset.mem_cons.mpr (hf.imp_right fun hf => (mem_of_ofBin hS hf).1)
  have hL : Large {f | f = (c, k) ∨ f ∈ t.entries} (c :: addrs t) := fun b hb => by
    rcases List.mem_cons.mp hb with rfl | hb
    · exact ⟨k, .inl rfl, hl⟩
    · obtain ⟨j, hj, hj'⟩ := ht.large b hb
      exact ⟨j, .inr hj, hj'⟩
  have hca : c ∉ addrs t := fun hmem => by
    obtain ⟨f, hf, hfc⟩ := List.mem_map.mp hmem
    have heq := hX'.eq_of_addr (.inr hf) (f := (c, k)) (.inl rfl) hfc
    exact hnew (heq ▸ (mem_of_ofBin hS hf).1)
  have hpath := insertLargeChunkVisits_path hX' hL (List.nodup_cons.mpr ⟨hca, ht.nodup_addrs⟩)
    (.inl rfl) hk.symm hl hh rfl ht.tree hvisits
  -- in the tree after it the chunk is in a node like the others
  obtain ⟨u, hu, hSu⟩ := hp'.bin _ h32 h64
  have hcu : (c, k) ∈ u.entries := by
    rw [← Multiset.mem_coe, hSu]
    exact Multiset.mem_filter.mpr ⟨Multiset.mem_cons_self _ _, rfl⟩
  obtain ⟨K, b, rest, l, r, hplug, hmem, -⟩ := exists_focus hu.routed hu.distinct hcu
  have hnode := hu.wellFormed.node K k b rest l r hplug
  have hshift : s'.load .shift c = s'.load .shift b := by
    have h1 := hnode.shift c hmem
    have h2 := hnode.shift b List.mem_cons_self
    omega
  refine ⟨p.1, p.2, s', hvisits, ht.path_length hl h8 rfl hpath, ht.path_shift hpath, ?_⟩
  rw [hshift]
  exact hnode.least

theorem Planted.removal (h : Planted lo s S) (he : e ∈ S) (hnext : s.load .next e.1 = e.1)
    (hprev : s.load .prev e.1 = e.1) : ∃ τ a v s',
    removeLargeSingleChunkVisits e.1 s = some ((τ, a, v), s') ∧
      v.left.length ≤ fastLog2 e.2 - 3 ∧ v.right.length ≤ fastLog2 e.2 - 3 ∧
      (a = NULL → s.load .child0 e.1 = NULL ∧ s.load .child1 e.1 = NULL ∧ v.list = []) ∧
      (a ≠ NULL → s.load .child0 a = NULL ∧ s.load .child1 a = NULL ∧ (a :: v.list).Nodup ∧
        CircularList (s.load .next) (s.load .prev) (a :: v.list)) := by
  obtain ⟨hl, hh, h8⟩ := h.large e he
  obtain ⟨h32, h64⟩ := largeRequestIndex_bounds hl hh h8
  obtain ⟨t, ht, hS⟩ := h.bin _ h32 h64
  have het : (e.1, e.2) ∈ t.entries := by
    rw [← Multiset.mem_coe, hS]
    exact Multiset.mem_filter.mpr ⟨he, rfl⟩
  obtain ⟨K, b, rest, l, r, rfl, hmem, -⟩ := exists_focus ht.routed ht.distinct het
  have hdm : (b :: rest).Nodup := by
    have h1 := addrs_plug.nodup ht.nodup_addrs
    rw [addrs_node] at h1
    exact (List.nodup_append.mp (List.nodup_append.mp h1).1).1
  -- a chunk linked to itself is the only one of its node
  have hring := (treeRep_plug.mp ht.tree).2.1.list
  have hone := (hring.alone_iff hdm hmem).mp ⟨hnext.symm, hprev.symm⟩
  obtain ⟨rfl, rfl⟩ := List.cons.inj hone
  have hlen : (addrs (plug K (.node e.2 e.1 [] l r))).length ≤ MAX_HEAP := by
    rw [addrs, List.length_map]
    exact ht.few.le
  obtain ⟨τ, s', hrun, -⟩ := removeLargeSingleChunk_spec ht.spread h64 ht.large ht.nodup_addrs
    ht.indexed hlen ht.tree
  obtain ⟨p, hvisits, -⟩ := M.map_eq_some.mp
    ((congrFun removeLargeSingleChunkVisits_fst s).trans hrun)
  obtain ⟨τ', a, v⟩ := p
  obtain ⟨hleft, hright, hnone, hleaf⟩ := removeLargeSingleChunkVisits_paths ht.spread h64 ht.large
    ht.nodup_addrs ht.indexed hlen ht.tree hvisits
  -- the descents start below the node
  have hheight : l.height + 1 ≤ fastLog2 e.2 - 3 ∧ r.height + 1 ≤ fastLog2 e.2 - 3 := by
    have h1 := ht.height_le
    have hlevel := binLevel_largeRequestIndex (k := e.2)
    rcases height_plug_ge (K := K) (t := .node e.2 e.1 [] l r) with hge | hnil
    · simp only [height] at hge
      omega
    · cases hnil
  have hchild := (treeRep_plug.mp ht.tree).2.1
  refine ⟨τ', a, v, s', hvisits, ?_, ?_, fun ha => ?_, hleaf⟩
  · exact hleft.length_le.trans (Nat.le_of_succ_le hheight.1)
  · exact hright.length_le.trans (Nat.le_of_succ_le hheight.2)
  · obtain ⟨rfl, rfl, hv⟩ := hnone ha
    exact ⟨hchild.child0, hchild.child1, hv⟩

theorem Planted.walksEnd (h : Planted lo s S) : WalksEnd s S := by
  refine ⟨fun c hc => h.insertion hc, fun r hl hh h8 => ?_, fun n h32 hn hbin => ?_,
    fun e he hnext hprev => h.removal he hnext hprev⟩
  · obtain ⟨h32, h64⟩ := largeRequestIndex_bounds hl hh h8
    obtain ⟨t, ht, -⟩ := h.bin _ h32 h64
    have hrun := ht.findBest_run r (2 * r % 2 ^ 64) ht.height_lt
    obtain ⟨p, hvisits, -⟩ := M.map_eq_some.mp
      ((congrFun findBestChunkLoopVisits_fst s).trans hrun)
    obtain ⟨best, visits⟩ := p
    -- the nodes visited lie on one path, whose length the levels bound
    have hpath : t.Path visits := by
      rw [ht.tree.1] at hvisits
      exact findBestChunkLoopVisits_path ht.treeIn hvisits
    exact ⟨best, visits, hvisits, ht.path_length hl h8 rfl hpath, ht.path_shift hpath⟩
  · obtain ⟨t, ht, -⟩ := h.bin n h32 hn
    have hrun := ht.smallestChunk_run (s.bin n, s.chunkSize (s.bin n)) ht.height_lt
    rw [← ht.tree.1] at hrun
    obtain ⟨p, hvisits, -⟩ := M.map_eq_some.mp
      ((congrFun smallestChunkLoopVisits_fst s).trans hrun)
    obtain ⟨best, visits⟩ := p
    have hdown : smallestChunkLoopVisits MAX_HEAP (root t) (s.bin n) (s.chunkSize (s.bin n)) s =
        some ((best, visits), s) := by
      rw [← ht.tree.1]
      exact hvisits
    have hpath : t.Path visits := smallestChunkLoopVisits_path ht.treeIn hdown
    exact ⟨best, visits, hvisits, fun k hl h8 hidx => ht.path_length hl h8 hidx hpath,
      ht.path_shift hpath⟩

/-- The calls insert and remove chunks in states that hold some heap in this sense
(`Rep.insertChunk_spec`, `Rep.removeChunkOrVictim_spec`), also where the first bin does not point to
its end yet. In all of these the walks end. -/
theorem Rep.walksEnd (hr : Rep s h) (hs : Heap.Shape ext X h) :
    ∃ S, Contents s S ∧ WalksEnd s S := by
  obtain ⟨S, hS⟩ := hr.exists_contents hs
  exact ⟨S, hS, (hr.planted hs hS).walksEnd⟩

theorem Models.hugeLoopEnds (hm : Models s h) (hs : Heap.Shape ext X h) : HugeLoopEnds s := by
  intro r hbin
  have hH := hm.toRep.holds hs
  have hrep := BinRep.huge.mp (hm.bin HUGE_BIN (by decide) (by decide))
  have hslots : h.bins.slots HUGE_BIN = h.bins.huge := Bins.slots_huge
  have hnd := hH.nodup_addrs (n := HUGE_BIN) (by decide)
  have hlen := hH.length_slots (n := HUGE_BIN) (by decide)
  have hmem : ∀ f ∈ h.bins.huge, f ∈ _ := fun f hf =>
    hH.mem_slots (n := HUGE_BIN) (by decide) (by rwa [hslots])
  have hkeyed : ∀ f ∈ h.bins.huge, s.chunkSize f.1 = f.2 := fun f hf => hH.sized f (hmem f hf)
  have hptr : ∀ f ∈ h.bins.huge, IsPtr f.1 := fun f hf =>
    (hH.spread.link_cells ⟨f.2, hmem f hf⟩).2.2.1
  rw [hslots] at hnd hlen
  -- the loop starts at the head of the ring and comes back to it
  cases hl : h.bins.huge with
  | nil =>
    rw [hl] at hrep
    exact absurd hrep.1 hbin
  | cons f l =>
    rw [hl] at hrep hnd hlen hkeyed hptr
    have hstart : s.bin HUGE_BIN = f.1 := hrep.1
    have hring : CircularList (s.load .next) (s.load .prev) ((f :: l).map Prod.fst) := hrep.2
    have hnext : List.IsChain (fun x y => s.load .next x = y)
        ((f :: l).map Prod.fst ++ [f.1]) := List.IsChain.imp (fun _ _ h => h.1) hring
    have hne : ∀ d ∈ l.map Prod.fst, d ≠ f.1 := fun d hd hdf =>
      (List.nodup_cons.mp hnd).1 (hdf ▸ hd)
    have hrun : hugeMallocLoop r f.1 MAX_HEAP f.1 (pointer none) (2 ^ 64 - 1) s =
        some (pointer (Bins.hugeBest r none (2 ^ 64 - 1) (f :: l)), s) :=
      hugeMallocLoop_run hkeyed hnext (fun g hg => hne g.1 (List.mem_map_of_mem hg))
        (hptr f List.mem_cons_self) (fun g hg => hptr g (List.mem_cons_of_mem _ hg))
        (Nat.lt_of_succ_lt hlen)
    obtain ⟨p, hvisits, -⟩ := M.map_eq_some.mp
      ((congrFun hugeMallocLoopVisits_fst s).trans hrun)
    obtain ⟨best, visits⟩ := p
    obtain ⟨hpre, hall⟩ := hugeMallocLoopVisits_visits hnext hne hvisits
    rw [hstart]
    exact ⟨best, visits, (f :: l).map Prod.fst, hvisits, hring, hnd, rfl, hpre, hall⟩

end Loops

variable {y : System}

/-- In every reachable state, and in every state that comes up on the way through a call, the loops
visit no more than they should, and end. -/
theorem loops_end (hy : Reachable EXTENSION_SIZE (Sized LARGEST_SIZE) y) :
    HugeLoopEnds y.state ∧ (∃ S, Contents y.state S) ∧ ∀ s S, Underway y s S → WalksEnd s S := by
  obtain ⟨σ, ht⟩ := hy.tracks_default
  have hm := ht.follows.models
  have hs := ht.good.inv.shape
  refine ⟨hm.hugeLoopEnds hs, hm.toRep.exists_contents hs, fun s S hS => ?_⟩
  obtain ⟨lo, hp⟩ := hS.planted hy
  exact hp.walksEnd

/-- With a chunk in the huge list and two in a tree. -/
theorem loops_end_stocked : ∃ y S, Reachable EXTENSION_SIZE (Sized LARGEST_SIZE) y ∧
    y.state.bin HUGE_BIN ≠ NULL ∧ HugeLoopEnds y.state ∧ Contents y.state S ∧
    ofBin 38 S = {(17000056, 3000), (17003096, 2600)} ∧ WalksEnd y.state S := by
  obtain ⟨y, hreach, hy⟩ := exists_stocked
  obtain ⟨hhuge, ⟨S, hS⟩, hwalks⟩ := loops_end hreach
  have hB := (hy.follows.models.toRep.holds hy.good.inv.shape).treeBins
  have hbin := BinRep.huge.mp (hy.follows.models.bin HUGE_BIN (by decide) (by decide))
  refine ⟨y, S, hreach, ?_, hhuge, hS, ?_, hwalks _ _ (.start hS)⟩
  · have hlist : stockedSession.heap.bins.huge = [(16, 17000000)] := by
      decide +kernel
    rw [hlist] at hbin
    rw [hbin.1]
    decide
  · rw [hS.trees hB (by decide) (by decide)]
    decide +kernel

end Dlmalloc
