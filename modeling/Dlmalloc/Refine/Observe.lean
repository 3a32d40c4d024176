import Dlmalloc.Machine.System
import Dlmalloc.Refine.Rep
import Dlmalloc.Refine.TreeBin

/-!
# Reading the heap

What the macros and the traversals of the bins read off memory that holds a heap: the headers are
those of the row, the walk along `NEXT_HEAP_CHUNK` goes through the row and stops at its end, and
every bin holds what it is said to hold. In particular every traversal ends.
-/

namespace Dlmalloc

open Heap DigitTree

section Headers

variable {ext : ℕ} {X : Multiset Slot} {h : Heap} {s : State} {c d p : Chunk}
  {pre post L : List Chunk}

theorem Rep.chunkSize (hr : Rep s h) (hs : Shape ext X h) (hc : c ∈ h.chunks) :
    s.chunkSize c.addr = c.size :=
  (hs.fits hc).chunkSize (hr.headers c hc).word

theorem Rep.isCurrentInuse_eq_zero (hr : Rep s h) (hs : Shape ext X h) (hc : c ∈ h.chunks) :
    s.isCurrentInuse c.addr = 0 ↔ c.status ≠ .inuse := by
  have h1 := (hs.fits hc).currentFree (hr.headers c hc).word
  exact decide_eq_decide.mp h1

theorem Rep.isPreviousInuse_eq_zero (hr : Rep s h) (hs : Shape ext X h) (hc : c ∈ h.chunks) :
    s.isPreviousInuse c.addr = 0 ↔ c.pinuse = false := by
  have h1 := (hs.fits hc).previousFree (hr.headers c hc).word
  cases hp : c.pinuse <;> simpa [hp] using h1

theorem Rep.nextHeapChunk (hr : Rep s h) (hs : Shape ext X h) (hc : c ∈ h.chunks) :
    s.nextHeapChunk c.addr = c.next :=
  (hs.fits hc).nextHeapChunk (hr.headers c hc).word

/-- Behind a free chunk stand its size and the way back to it. -/
theorem Rep.footer_eq (hr : Rep s h) (hs : Shape ext X h) (hL : h.chunks = pre ++ c :: d :: post)
    (hc : c.status = .free) :
    s.load .previousSize d.addr = c.size ∧ s.previousHeapChunk d.addr = c.addr := by
  have hcm := Shape.mem_chunks hL
  have hd : d.addr = c.next := (tiles_mid.mp (hs.tiles_of hL)).2.1
  refine ⟨?_, (hr.headers c hcm).previousHeapChunk (hs.fits hcm) hc hd⟩
  rw [hd, (hr.headers c hcm).footer hc]

/-- The walk from any chunk of the row. -/
theorem Models.heapWalk_eq (hm : Models s h) (hs : Shape ext X h) {fuel : ℕ}
    (hL : h.chunks = pre ++ c :: post) (hfuel : post.length < fuel) :
    s.heapWalk fuel c.addr = some ((c :: post).map Chunk.addr) := by
  induction fuel generalizing pre c post with
  | zero => simp at hfuel
  | succ fuel ih =>
    have hcm : c ∈ h.chunks := Shape.mem_chunks hL
    obtain ⟨pre', t, hLt, ht, htop, -⟩ := hs.exists_top
    have htm : t ∈ h.chunks := by simp [hLt]
    have hbin : s.bin END_OF_HEAP_BIN = t.addr := by rw [hm.top, htop]; rfl
    rw [State.heapWalk, hbin]
    cases post with
    -- the last chunk is the end of the heap, where the walk stops
    | nil =>
      have hct : c = t := by
        have h1 := hL.symm.trans hLt
        exact List.head_eq_of_cons_eq (List.append_inj' h1 rfl).2
      rw [if_pos (congrArg Chunk.addr hct), List.map_cons, List.map_nil]
    -- a chunk before others is not the end of the heap
    | cons d post =>
      have hne : c.addr ≠ t.addr := fun he => by
        have h1 := hs.tiles.eq_of_addr_eq hcm htm he
        have h2 := hs.topLast
        rw [hL, topLast_append] at h2
        exact h2.2.1 (h1 ▸ ht)
      have hd : d.addr = c.next := (tiles_mid.mp (hs.tiles_of hL)).2.1
      have hL' : h.chunks = (pre ++ [c]) ++ d :: post := by rw [hL]; simp
      rw [if_neg hne, hm.toRep.nextHeapChunk hs hcm, ← hd,
        ih hL' (by simpa using hfuel), Option.map_some, List.map_cons, List.map_cons,
        List.map_cons]

/-- The first chunk is where the heap begins. -/
theorem Rep.firstChunk_eq (hr : Rep s h) (hs : Shape ext X h) : s.firstChunk = h.first := by
  have h1 := hs.arena.first_aligned
  have h2 := hs.arena.start_le
  have h3 := hs.arena.first_lt
  have h4 := hs.arena.limit_eq
  have h5 := hs.arena.span
  have hheap : MAX_HEAP = 52428800 := rfl
  have h6 : (h.start + 7) / 8 * 8 = h.first := by omega
  rw [State.firstChunk, hr.memStartBrk, ALIGN_eq, add64_of_lt (by omega)]
  exact h6

/-- **The walk along the heap** goes through the row of chunks and ends. -/
theorem Models.heapChunks_eq (hm : Models s h) (hs : Shape ext X h) :
    s.heapChunks = some (h.chunks.map Chunk.addr) := by
  have hlen := hs.tiles.length_le
  have h1 := hs.arena.limit_eq
  have h2 := hs.arena.brk_le
  have h3 := hs.arena.start_le
  obtain ⟨c, L, hL⟩ : ∃ c L, h.chunks = c :: L := by
    obtain ⟨pre, t, hLt, -⟩ := hs.exists_top
    cases pre with
    | nil => exact ⟨t, [], hLt⟩
    | cons x pre => exact ⟨x, pre ++ [t], hLt⟩
  have hfirst : c.addr = h.first := by
    have h4 := hs.tiles
    rw [hL] at h4
    exact h4.1
  rw [State.heapChunks, hm.toRep.firstChunk_eq hs, ← hfirst, hL]
  refine hm.heapWalk_eq hs (show h.chunks = [] ++ c :: L from hL) ?_
  rw [hL, List.length_cons] at hlen
  simp only [MAX_HEAP] at *
  omega

end Headers

/-! ### The bins -/

section Bins

variable {ext n : ℕ} {X : Multiset Slot} {h : Heap} {s : State}

/-- A circular list read from any member on, up to the member before the head. -/
theorem ringMembers_eq {a c : ℕ} {l₁ l₂ : List ℕ} {fuel : ℕ}
    (hring : CircularList (s.load .next) (s.load .prev) (a :: l₁))
    (hnd : (a :: l₁).Nodup) {pre : List ℕ} (hl : a :: l₁ = pre ++ c :: l₂)
    (hfuel : l₂.length < fuel) : s.ringMembers a fuel c = some (c :: l₂) := by
  induction fuel generalizing pre c l₂ with
  | zero => simp at hfuel
  | succ fuel ih =>
    rw [State.ringMembers]
    cases l₂ with
    -- the last member points back to the head
    | nil =>
      have hlast : s.load .next c = a := by
        have h1 : CircularList (s.load .next) (s.load .prev) (pre ++ [c]) := hl ▸ hring
        have h2 := CircularList.next_last h1
        simp only [← hl, List.head_cons] at h2
        exact h2
      rw [if_pos hlast]
    -- a member behind is not the head, as none occurs twice
    | cons d l₂ =>
      have hnext : s.load .next c = d := by
        have h1 : CircularList (s.load .next) (s.load .prev) (pre ++ c :: d :: l₂) := hl ▸ hring
        exact (CircularList.rotate h1).next_head
      have hne : d ≠ a := by
        rintro rfl
        cases pre with
        | nil =>
          obtain ⟨rfl, rfl⟩ := List.cons.inj hl
          simp at hnd
        | cons x pre =>
          obtain ⟨rfl, rfl⟩ := List.cons.inj hl
          simp at hnd
      have hl' : a :: l₁ = (pre ++ [c]) ++ d :: l₂ := by rw [hl]; simp
      rw [hnext, if_neg hne, ih hl' (by simpa using hfuel), Option.map_some]

/-- A tree read from its root. -/
theorem treeMembers_eq {t : DigitTree ℕ} {k par fuel : ℕ} (ht : TreeRep s n k par t)
    (hnd : (addrs t).Nodup) (h0 : ∀ a ∈ addrs t, a ≠ NULL) (hfuel : (addrs t).length < fuel)
    (hmax : (addrs t).length < MAX_HEAP) : s.treeMembers fuel (root t) = some (addrs t) := by
  induction t generalizing k par fuel with
  | nil =>
    obtain ⟨fuel, rfl⟩ := Nat.exists_eq_succ_of_ne_zero (Nat.ne_of_gt hfuel)
    rw [State.treeMembers, if_pos root_nil, addrs_nil]
  | node key a rest l r ihl ihr =>
    obtain ⟨fuel, rfl⟩ := Nat.exists_eq_succ_of_ne_zero (Nat.ne_zero_of_lt hfuel)
    obtain ⟨hnode, hl, hr⟩ := ht
    simp only [addrs_node, List.nodup_append, List.mem_append, List.length_append,
      List.length_cons] at hnd h0 hfuel hmax
    have ha : a ≠ NULL := h0 a (by simp)
    -- the ring of the node, then the two subtrees
    have hring : s.ringMembers a MAX_HEAP a = some (a :: rest) :=
      ringMembers_eq hnode.list hnd.1 (show a :: rest = [] ++ a :: rest from rfl) (by omega)
    have hleft := ihl hl hnd.2.1.1 (fun b hb => h0 b (by simp [hb]))
      (show (addrs l).length < fuel by omega) (by omega)
    have hright := ihr hr hnd.2.1.2.1 (fun b hb => h0 b (by simp [hb]))
      (show (addrs r).length < fuel by omega) (by omega)
    rw [State.treeMembers, root_node, if_neg ha, hring, hnode.child0, hnode.child1, hleft, hright,
      addrs_node]
    rfl

/-- The pointer of an empty bin. -/
theorem Rep.bin_eq_null (hr : Rep s h) (h2 : 2 ≤ n) (hn : n < NUM_OF_BINS)
    (hempty : h.bins.slots n = []) : s.bin n = NULL := by
  have hrep := hr.bin n h2 hn
  unfold BinRep at hrep
  split_ifs at hrep with hhuge hsmall
  · rw [Bins.slots, if_pos hhuge] at hempty
    rw [hrep.1, hempty]
    rfl
  · rw [Bins.slots_small hhuge hsmall, List.map_eq_nil_iff] at hempty
    rw [hrep.1, hempty]
    rfl
  · rw [Bins.slots_large (by omega)] at hempty
    cases ht : h.bins.large n with
    | nil =>
      rw [hrep.1, ht]
      rfl
    | node k a rest l r =>
      rw [ht] at hempty
      simp [entries] at hempty

/-- The members of a large bin are those of its tree. -/
theorem TreeBin.binMembers_eq {t : DigitTree ℕ} (hb : TreeBin s n t) (h32 : 32 ≤ n) :
    s.binMembers n = some (addrs t) := by
  have hlen : (addrs t).length < MAX_HEAP := by
    rw [addrs, List.length_map]
    exact hb.few
  have hpos : ∀ a ∈ addrs t, a ≠ NULL := fun a ha => (hb.large.ptr hb.spread ha).2.1
  have htree : s.bin n = root t ∧ TreeRep s n (binLevel n) NO_PARENT_ROOT_NODE t := hb.tree
  rw [State.binMembers]
  split_ifs with hnull hlt
  · rw [hb.bin_eq_null.mp hnull, addrs_nil]
  · unfold HUGE_BIN at hlt
    omega
  · omega
  · rw [htree.1]
    exact treeMembers_eq htree.2 hb.nodup_addrs hpos hlen hlen

/-- **What a bin holds** is found in it, and the traversal ends. -/
theorem Models.binMembers_eq (hm : Models s h) (hs : Shape ext X h) (h2 : 2 ≤ n)
    (hn : n < NUM_OF_BINS) : s.binMembers n = some ((h.bins.slots n).map Prod.fst) := by
  have hholds := hm.toRep.holds hs
  have hrep := hm.bin n h2 hn
  have hnd := hholds.nodup_addrs hn
  have hlen := hholds.length_slots hn
  have hpos : ∀ a ∈ (h.bins.slots n).map Prod.fst, a ≠ NULL := fun a ha => by
    obtain ⟨e, he, rfl⟩ := List.mem_map.mp ha
    have := hholds.spread.pos e (hholds.mem_slots hn he)
    simp only [NULL]
    omega
  -- the bins with a ring
  have hlist : ∀ l : List ℕ, l = (h.bins.slots n).map Prod.fst → ListRep s n l → n < 32 →
      s.binMembers n = some l := by
    rintro l rfl ⟨hbin, hring⟩ hn32
    cases hl : (h.bins.slots n).map Prod.fst with
    | nil =>
      rw [hl] at hbin
      rw [State.binMembers, if_pos (c := s.bin n = NULL) hbin]
    | cons a l =>
      rw [hl] at hbin hring hnd hpos
      have ha : s.bin n = a := hbin
      have hlen' : l.length < MAX_HEAP := by
        have := congrArg List.length hl
        simp only [List.length_map, List.length_cons] at this
        omega
      rw [State.binMembers, ha, if_neg (hpos a List.mem_cons_self),
        if_neg (by unfold HUGE_BIN; omega), if_pos hn32]
      exact ringMembers_eq hring hnd (show a :: l = [] ++ a :: l from rfl) hlen'
  unfold BinRep at hrep
  split_ifs at hrep with hhuge hsmall
  · refine (hlist _ ?_ hrep (by unfold HUGE_BIN at hhuge; omega)).trans ?_ <;>
      rw [Bins.slots, if_pos hhuge]
  · refine (hlist _ ?_ hrep hsmall).trans ?_ <;>
      rw [Bins.slots_small hhuge hsmall, List.map_map] <;> simp [Function.comp_def]
  · -- the bins with a tree
    have h32 : 32 ≤ n := by omega
    rw [(hholds.treeBin h32 hn).binMembers_eq h32, Bins.slots_large h32, addrs]

/-- The first two bins hold the end of the heap and the victim. -/
theorem Models.binMembers_top (hm : Models s h) (hs : Shape ext X h) :
    s.binMembers END_OF_HEAP_BIN = some [h.top.1] := by
  obtain ⟨pre, t, hL, -, htop, -⟩ := hs.exists_top
  have h1 := (hs.bounds (c := t) (by simp [hL])).1
  have h2 := hs.first_pos
  have ht0 : t.addr ≠ 0 := by omega
  have h0 : s.bin END_OF_HEAP_BIN ≠ NULL := by
    rw [hm.top, htop]
    exact ht0
  rw [State.binMembers, if_neg h0, if_pos (by decide), hm.top]

theorem Models.binMembers_victim (hm : Models s h) (hs : Shape ext (h.bins.victimSlot + X) h) :
    s.binMembers VICTIM_BIN = some (h.bins.victim.toList.map Prod.fst) := by
  rw [State.binMembers, hm.victim]
  cases hv : h.bins.victim with
  | none => rfl
  | some v =>
    obtain ⟨pre, c, post, hL, hc, -⟩ := hs.mem_free (e := v)
      (.inl (Multiset.mem_add.mpr (.inl (Bins.mem_victimSlot.mpr hv))))
    have h1 := (hs.bounds (Shape.mem_chunks hL)).1
    have h2 := hs.first_pos
    have h0 : v.1 ≠ NULL := by
      rw [← hc]
      simp only [Chunk.slot, NULL]
      omega
    rw [pointer_some, if_neg h0, if_pos (by decide)]
    rfl

end Bins

end Dlmalloc
