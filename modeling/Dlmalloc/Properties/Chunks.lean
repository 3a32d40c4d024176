import Dlmalloc.Refine.System

/-!
# The chunks of the heap

What the headers and the bins look like in every state reached from a fresh start by calls on live
blocks: the chunks tile the heap and their boundary tags are sound (`heap_tiled`), and every free
chunk is in exactly one bin, the one of its size (`free_chunks_binned`).
-/

namespace Dlmalloc

open Heap

section Chunks

variable {full : Prop} {ext n : ℕ} {y : System} {σ : Session} {h : Heap} {s : State}
  {X : Multiset Slot} {c : Chunk} {a b : Addr} {pre post : List Addr}

/-- The chunks of the heap that satisfy a test of their address. -/
theorem filter_addr {p : Addr → Bool} {L : List Chunk} :
    (L.map Chunk.addr).filter p = (L.filter fun c => p c.addr).map Chunk.addr := by
  rw [List.filter_map]
  rfl

/-- The chunks in use are those of the live blocks. -/
theorem Tracks.live_chunks (ht : Tracks full ext y σ) :
    ((σ.heap.chunks.map Chunk.addr).filter fun a => decide (y.state.isCurrentInuse a ≠ 0)).Perm
      (y.live.map fun b => userPointerToChunk b.ptr) := by
  have hs := ht.good.inv.shape
  have hm := ht.follows.models
  obtain ⟨U, hU, hcov⟩ := ht.good.covers
  have hflag : ∀ c ∈ σ.heap.chunks, decide (y.state.isCurrentInuse c.addr ≠ 0) =
      decide (c.status = .inuse) := fun c hc =>
    decide_eq_decide.mpr ((hm.toRep.isCurrentInuse_eq_zero hs hc).not.trans not_not)
  -- the live blocks, in the order they were given
  have hptr : y.live.map (fun b => userPointerToChunk b.ptr) = U.map Prod.fst := by
    rw [ht.follows.live]
    have hmem : ∀ e ∈ U, userPointerToChunk (e.1 + 16) = e.1 := fun e he => by
      have he' : e ∈ σ.heap.used := by
        rw [← hU]
        exact Multiset.mem_coe.mpr he
      obtain ⟨c, hc, -, rfl⟩ := mem_usedSlots.mp he'
      exact (hs.ptr hc).1
    clear hU
    generalize σ.live = live at hcov
    induction hcov with
    | nil => rfl
    | cons hbe _ ih =>
      rw [List.map_cons, List.map_cons, ih fun e he => hmem e (List.mem_cons_of_mem _ he), hbe.1,
        hmem _ List.mem_cons_self]
  rw [hptr, filter_addr, List.filter_congr hflag]
  -- the chunks in use, in the order of the heap
  have hperm : ((σ.heap.chunks.filter (·.status = .inuse)).map Chunk.slot).Perm U :=
    (Multiset.coe_eq_coe.mp hU).symm
  have h1 := hperm.map Prod.fst
  rwa [List.map_map] at h1

/-- Two neighbours in the row. -/
theorem Rep.tag_sound (hr : Rep s h) (hi : Inv full ext h)
    (hL : h.chunks.map Chunk.addr = pre ++ a :: b :: post) (hb : s.isPreviousInuse b = 0) :
    s.isCurrentInuse a = 0 ∧ s.load .previousSize b = s.chunkSize a ∧
      s.previousHeapChunk b = a := by
  have hs := hi.shape
  obtain ⟨pre', L₁, hL', -, h₁⟩ := List.map_eq_append_iff.mp hL
  obtain ⟨c, L₂, rfl, rfl, h₂⟩ := List.map_eq_cons_iff.mp h₁
  obtain ⟨d, post', rfl, rfl, -⟩ := List.map_eq_cons_iff.mp h₂
  have hc : c ∈ h.chunks := Shape.mem_chunks hL'
  have hd : d ∈ h.chunks := by simp [hL']
  have htag := (hr.isPreviousInuse_eq_zero hs hd).mp hb
  have hfree : c.status = .free := by
    have h1 := hi.tags
    rw [hL', tags_mid] at h1
    exact of_decide_eq_true (h1.2.2.1 htag)
  obtain ⟨h1, h2⟩ := hr.footer_eq hs hL' hfree
  exact ⟨(hr.isCurrentInuse_eq_zero hs hc).mpr (by simp [hfree]),
    h1.trans (hr.chunkSize hs hc).symm, h2⟩

/-- What each bin holds. -/
def Heap.members (h : Heap) (n : ℕ) : List Addr :=
  if n = END_OF_HEAP_BIN then [h.top.1]
  else if n = VICTIM_BIN then h.bins.victim.toList.map Prod.fst
  else (h.bins.slots n).map Prod.fst

theorem Models.members_of_shape (hm : Models s h) (hs : Shape ext (h.bins.victimSlot + X) h)
    (hn : n < NUM_OF_BINS) : s.binMembers n = some (h.members n) := by
  unfold Heap.members
  split_ifs with h0 h1
  · rw [h0, hm.binMembers_top hs]
  · rw [h1, hm.binMembers_victim hs]
  · unfold END_OF_HEAP_BIN at h0
    unfold VICTIM_BIN at h1
    exact hm.binMembers_eq hs (by omega) hn

theorem Models.members_eq (hm : Models s h) (hi : Inv full ext h) (hn : n < NUM_OF_BINS) :
    s.binMembers n = some (h.members n) :=
  hm.members_of_shape (X := 0) (by rw [add_zero]; exact hi.shape) hn

/-- What is held outside the end of the heap is a free chunk. -/
theorem Heap.Shape.mem_members (hs : Shape ext h.bins.victimSlot h) (hn : n < NUM_OF_BINS)
    (ha : a ∈ h.members n) : ∃ c ∈ h.chunks, c.addr = a ∧
      if n = END_OF_HEAP_BIN then c.status = .top
      else if n = VICTIM_BIN then h.bins.victim = some c.slot ∧ c.status = .free
      else c.slot ∈ h.bins.slots n ∧ c.status = .free := by
  unfold Heap.members at ha
  split_ifs at ha ⊢ with h0 h1
  · obtain rfl := List.mem_singleton.mp ha
    obtain ⟨pre, t, hL, ht, htop, -⟩ := hs.exists_top
    exact ⟨t, by simp [hL], by rw [htop]; rfl, ht⟩
  · obtain ⟨v, hv, rfl⟩ := List.mem_map.mp ha
    have hv' : h.bins.victim = some v := Option.mem_toList.mp hv
    obtain ⟨pre, c, post, hL, rfl, hst⟩ := hs.mem_free (.inl (Bins.mem_victimSlot.mpr hv'))
    exact ⟨c, Shape.mem_chunks hL, rfl, hv', hst⟩
  · obtain ⟨e, he, rfl⟩ := List.mem_map.mp ha
    obtain ⟨pre, c, post, hL, rfl, hst⟩ := hs.mem_free (.inr (Bins.mem_binned.mpr ⟨n, hn, he⟩))
    exact ⟨c, Shape.mem_chunks hL, rfl, he, hst⟩

/-- No chunk is held twice by one bin. -/
theorem Heap.Shape.nodup_members (hs : Shape ext h.bins.victimSlot h) (hn : n < NUM_OF_BINS) :
    (h.members n).Nodup := by
  unfold Heap.members
  split_ifs with h0 h1
  · exact List.nodup_singleton _
  · cases h.bins.victim <;> simp
  · have hnd : (h.bins.slots n).Nodup := Multiset.coe_nodup.mp
      (Multiset.nodup_of_le (Bins.slots_le_binned hn) (Multiset.nodup_add.mp hs.nodup).2.1)
    refine (List.nodup_map_iff_inj_on hnd).mpr fun e he f hf hef => ?_
    have hmem : ∀ g ∈ h.bins.slots n, g ∈ {e | e ∈ freeSlots h.chunks} := fun g hg => by
      show g ∈ freeSlots h.chunks
      rw [← hs.account]
      exact Multiset.mem_add.mpr (.inr (Bins.mem_binned.mpr ⟨n, hn, hg⟩))
    exact hs.spread.eq_of_addr (hmem e he) (hmem f hf) hef

/-- A free chunk is held in one place. -/
theorem Heap.Shape.exists_unique_member (hs : Shape ext h.bins.victimSlot h) (hc : c ∈ h.chunks)
    (hst : c.status ≠ .inuse) : ∃! n, n < NUM_OF_BINS ∧ c.addr ∈ h.members n := by
  -- a member of a bin is the chunk at its address
  have hmem : ∀ n, n < NUM_OF_BINS → c.addr ∈ h.members n →
      if n = END_OF_HEAP_BIN then c.status = .top
      else if n = VICTIM_BIN then h.bins.victim = some c.slot ∧ c.status = .free
      else c.slot ∈ h.bins.slots n ∧ c.status = .free := fun n hn hmem => by
    obtain ⟨d, hd, hdc, h1⟩ := hs.mem_members hn hmem
    obtain rfl := hs.tiles.eq_of_addr_eq hd hc hdc
    exact h1
  have hcases : c.status = .top ∨ c.status = .free := by
    cases h1 : c.status <;> simp_all
  rcases hcases with htop | hfree
  · refine ⟨END_OF_HEAP_BIN, ⟨by decide, ?_⟩, fun n hn' => ?_⟩
    · rw [Heap.members, if_pos rfl, (hs.top_eq hc htop).1]
      exact List.mem_singleton.mpr rfl
    · obtain ⟨hn, hn'⟩ := hn'
      have h1 := hmem n hn hn'
      split_ifs at h1 with h0 h2
      · exact h0
      · simp [htop] at h1
      · simp [htop] at h1
  · have hacc : c.slot ∈ h.bins.victimSlot + h.bins.binned := by
      rw [hs.account]
      exact mem_freeSlots.mpr ⟨c, hc, hfree, rfl⟩
    rcases Multiset.mem_add.mp hacc with hv | hb
    · have hv' := Bins.mem_victimSlot.mp hv
      refine ⟨VICTIM_BIN, ⟨by decide, ?_⟩, fun n hn' => ?_⟩
      · rw [Heap.members, if_neg (by decide), if_pos rfl, hv']
        exact List.mem_singleton.mpr rfl
      · obtain ⟨hn, hn'⟩ := hn'
        have h1 := hmem n hn hn'
        split_ifs at h1 with h0 h2
        · simp [hfree] at h1
        · exact h2
        · have hbin : c.slot ∈ h.bins.binned := Bins.mem_binned.mpr ⟨n, hn, h1.1⟩
          exact absurd hbin (Multiset.disjoint_left.mp (Multiset.nodup_add.mp hs.nodup).2.2 hv)
    · obtain ⟨m, hm, hmem'⟩ := Bins.mem_binned.mp hb
      have hsz := hs.sorted.size m hm _ hmem'
      have h2m : 2 ≤ m := hsz.2.2 ▸ (binOf_bounds hsz.1 hsz.2.1).1
      refine ⟨m, ⟨hm, ?_⟩, fun n hn' => ?_⟩
      · unfold Heap.members END_OF_HEAP_BIN VICTIM_BIN
        rw [if_neg (by omega), if_neg (by omega)]
        exact List.mem_map_of_mem (f := Prod.fst) hmem'
      · obtain ⟨hn, hn'⟩ := hn'
        have h1 := hmem n hn hn'
        split_ifs at h1 with h0 h2
        · simp [hfree] at h1
        · have hvs := Bins.mem_victimSlot.mpr h1.1
          exact absurd hb (Multiset.disjoint_left.mp (Multiset.nodup_add.mp hs.nodup).2.2 hvs)
        · exact (hs.sorted.size n hn _ h1.1).2.2.symm.trans hsz.2.2

end Chunks

variable {y : System}

/-- The walk along the heap ends; its chunks have good sizes, those in use are the live blocks, and
the boundary tags are sound. -/
theorem heap_tiled (hy : Reachable EXTENSION_SIZE (Sized LARGEST_SIZE) y) :
    ∃ L, y.state.heapChunks = some L ∧ L.getLast? = some (y.state.bin END_OF_HEAP_BIN) ∧
      (∀ a ∈ L, 8 ∣ y.state.chunkSize a ∧ 24 ≤ y.state.chunkSize a) ∧
      (L.filter fun a => decide (y.state.isCurrentInuse a ≠ 0)).Perm
        (y.live.map fun b => userPointerToChunk b.ptr) ∧
      y.state.isPreviousInuse y.state.firstChunk ≠ 0 ∧
      (∀ pre a b post, L = pre ++ a :: b :: post → y.state.isPreviousInuse b = 0 →
        y.state.isCurrentInuse a = 0 ∧ y.state.load .previousSize b = y.state.chunkSize a ∧
        y.state.previousHeapChunk b = a) ∧
      y.state.nextHeapChunk (y.state.bin END_OF_HEAP_BIN) + 8 = y.state.memBrk := by
  obtain ⟨σ, ht⟩ := hy.tracks_default
  have hm := ht.follows.models
  have hi := ht.good.inv
  have hs := hi.shape
  obtain ⟨pre, t, hL, hst, htop, hbrk⟩ := hs.exists_top
  have htm : t ∈ σ.heap.chunks := by simp [hL]
  have hbin : y.state.bin END_OF_HEAP_BIN = t.addr := by rw [hm.top, htop]; rfl
  refine ⟨_, hm.heapChunks_eq hs, ?_, fun a ha => ?_, ht.live_chunks, ?_,
    fun pre a b post => hm.toRep.tag_sound hi, ?_⟩
  · -- the walk ends at the end of the heap
    rw [hbin, hL, List.map_append, List.map_singleton, List.getLast?_concat]
  · -- the sizes
    obtain ⟨c, hc, rfl⟩ := List.mem_map.mp ha
    have hsz := hs.sizes c hc
    rw [hm.toRep.chunkSize hs hc]
    refine ⟨hsz.aligned, ?_⟩
    by_cases hc' : c.status = .top
    · exact hsz.topLeast hc'
    · exact hsz.least hc'
  · -- nothing free before the first chunk
    obtain ⟨c, L, hcL⟩ : ∃ c L, σ.heap.chunks = c :: L :=
      List.exists_cons_of_ne_nil (by rw [hL]; simp)
    have hcm : c ∈ σ.heap.chunks := by simp [hcL]
    have h1 := hs.tiles
    have h2 := hi.tags
    rw [hcL] at h1 h2
    rw [hm.toRep.firstChunk_eq hs, ← h1.1, ne_eq, hm.toRep.isPreviousInuse_eq_zero hs hcm]
    exact fun hp => Bool.false_ne_true (h2.1 hp)
  · -- the last chunk ends eight bytes before the break
    rw [hbin, hm.toRep.nextHeapChunk hs htm, hm.memBrk]
    exact hbrk

theorem heap_tiled_busy : ∃ y, Run EXTENSION_SIZE (Sized LARGEST_SIZE) (.blank 16)
      (busyCalls.map .call) busyPointers y ∧ y.state.heapChunks = some busyChunks ∧
    busyChunks.getLast? = some (y.state.bin END_OF_HEAP_BIN) ∧
    (∀ a ∈ busyChunks, 8 ∣ y.state.chunkSize a ∧ 24 ≤ y.state.chunkSize a) ∧
    (busyChunks.filter fun a => decide (y.state.isCurrentInuse a ≠ 0)).Perm
      [1024, 1088, 4128, 16] ∧
    y.state.isPreviousInuse y.state.firstChunk ≠ 0 ∧
    (∀ pre a b post, busyChunks = pre ++ a :: b :: post → y.state.isPreviousInuse b = 0 →
      y.state.isCurrentInuse a = 0 ∧ y.state.load .previousSize b = y.state.chunkSize a ∧
      y.state.previousHeapChunk b = a) ∧
    y.state.nextHeapChunk (y.state.bin END_OF_HEAP_BIN) + 8 = y.state.memBrk := by
  obtain ⟨y, hst, hrun, hlive, hy⟩ := exists_run_busy (Sized LARGEST_SIZE) fun _ _ _ h => h
  obtain ⟨L, hL, hlast, hsizes, hused, hfirst, htags, hend⟩ := heap_tiled ⟨_, _, _, hst, hrun⟩
  obtain rfl := Option.some.inj (hy.heapChunks_busy.symm.trans hL)
  rw [hlive] at hused
  exact ⟨y, hrun, hL, hlast, hsizes, hused, hfirst, htags, hend⟩

/-- Every free chunk is in exactly one bin, that of its size, or the victim, or the end of the heap;
and the bins hold nothing else, and nothing twice. -/
theorem free_chunks_binned (hy : Reachable EXTENSION_SIZE (Sized LARGEST_SIZE) y) :
    ∃ (L : List Addr) (M : ℕ → List Addr), y.state.heapChunks = some L ∧
      (∀ n < NUM_OF_BINS, y.state.binMembers n = some (M n) ∧ (M n).Nodup ∧
        ∀ a ∈ M n, a ∈ L ∧ y.state.isCurrentInuse a = 0 ∧
          (2 ≤ n → n = binOf (y.state.chunkSize a))) ∧
      ∀ a ∈ L, y.state.isCurrentInuse a = 0 → ∃! n, n < NUM_OF_BINS ∧ a ∈ M n := by
  obtain ⟨σ, ht⟩ := hy.tracks_default
  have hm := ht.follows.models
  have hi := ht.good.inv
  have hs := hi.shape
  refine ⟨_, σ.heap.members, hm.heapChunks_eq hs, fun n hn => ⟨hm.members_eq hi hn,
    hs.nodup_members hn, fun a ha => ?_⟩, fun a ha hfree => ?_⟩
  · -- a member of a bin
    obtain ⟨c, hc, rfl, hst⟩ := hs.mem_members hn ha
    refine ⟨List.mem_map_of_mem hc, (hm.toRep.isCurrentInuse_eq_zero hs hc).mpr fun hu => ?_,
      fun h2 => ?_⟩
    · split_ifs at hst <;> simp_all
    · unfold END_OF_HEAP_BIN VICTIM_BIN at hst
      rw [if_neg (by omega), if_neg (by omega)] at hst
      rw [hm.toRep.chunkSize hs hc]
      exact (hs.sorted.size n hn _ hst.1).2.2.symm
  · -- a free chunk of the walk
    obtain ⟨c, hc, rfl⟩ := List.mem_map.mp ha
    have hst := (hm.toRep.isCurrentInuse_eq_zero hs hc).mp hfree
    exact hs.exists_unique_member hc hst

/-- The victim, a small bin, a large one and the end of the heap hold a chunk each. -/
theorem free_chunks_binned_busy : ∃ (y : System) (M : ℕ → List Addr),
    Run EXTENSION_SIZE (Sized LARGEST_SIZE) (.blank 16) (busyCalls.map .call) busyPointers y ∧
    y.state.heapChunks = some busyChunks ∧
    (M END_OF_HEAP_BIN = [4160] ∧ M VICTIM_BIN = [424] ∧ M 3 = [1056] ∧ M 38 = [1120]) ∧
    (∀ n < NUM_OF_BINS, y.state.binMembers n = some (M n) ∧ (M n).Nodup ∧
      ∀ a ∈ M n, a ∈ busyChunks ∧ y.state.isCurrentInuse a = 0 ∧
        (2 ≤ n → n = binOf (y.state.chunkSize a))) ∧
    ∀ a ∈ busyChunks, y.state.isCurrentInuse a = 0 → ∃! n, n < NUM_OF_BINS ∧ a ∈ M n := by
  obtain ⟨y, hst, hrun, hlive, hy⟩ := exists_run_busy (Sized LARGEST_SIZE) fun _ _ _ h => h
  obtain ⟨L, M, hL, hbins, hfree⟩ := free_chunks_binned ⟨_, _, _, hst, hrun⟩
  obtain rfl := Option.some.inj (hy.heapChunks_busy.symm.trans hL)
  have hM : ∀ n < NUM_OF_BINS, M n = busySession.heap.members n := fun n hn =>
    Option.some.inj ((hbins n hn).1.symm.trans (hy.follows.models.members_eq hy.good.inv hn))
  refine ⟨y, M, hrun, hL, ⟨(hM _ (by decide)).trans ?_, (hM _ (by decide)).trans ?_,
    (hM _ (by decide)).trans ?_, (hM _ (by decide)).trans ?_⟩, hbins, hfree⟩ <;> decide +kernel

end Dlmalloc
