import Dlmalloc.Refine.System

/-!
# The blocks of the user

What a user of the allocator may rely on, in every state reached from a fresh start by calls on live
blocks: a block returned is aligned, inside the heap and apart from all others
(`call_returns_block`); no call touches the contents of other blocks, and a block that is
reallocated keeps its contents (`call_preserves_contents`); a call that fails changes nothing
(`failed_call_changes_nothing`); and what the calls return depends on the calls alone
(`outcomes_independent_of_contents`).
-/

namespace Dlmalloc

open Heap

section Live

variable {full : Prop} {ext : ℕ} {y : System} {σ : Session} {j k : ℕ} {a b : Block}

/-- A live block is aligned and inside the heap. -/
theorem Tracks.live_inside (ht : Tracks full ext y σ) (ha : y.live[j]? = some a) :
    8 ∣ a.ptr ∧ memHeapLo y.state ≤ a.ptr ∧ a.ptr + a.size ≤ memHeapHi y.state + 1 := by
  have hs := ht.good.inv.shape
  have hm := ht.follows.models
  obtain ⟨c, hc, -, hptr, hsize, -⟩ := ht.good.chunk (ht.follows.live ▸ ha)
  obtain ⟨h1, h2⟩ := hs.bounds hc
  have h3 := hs.addr_aligned hc
  have h4 := hs.arena.start_le
  have h5 := hs.arena.brk_le
  have h6 := hs.arena.span
  have h7 := hs.first_pos
  simp only [Chunk.next] at h2
  have hlo : memHeapLo y.state = σ.heap.start := hm.memStartBrk
  have hhi : memHeapHi y.state = σ.heap.brk - 1 := by
    rw [memHeapHi, hm.memBrk, sub64_of_le (by omega) (by omega)]
  have hpos : 8 ∣ c.addr + 16 ∧ σ.heap.start ≤ c.addr + 16 ∧
      c.addr + 16 + a.size ≤ σ.heap.brk - 1 + 1 := ⟨by omega, by omega, by omega⟩
  rw [hlo, hhi, hptr]
  exact hpos

/-- Two live blocks do not overlap. -/
theorem Tracks.live_apart (ht : Tracks full ext y σ) (ha : y.live[j]? = some a)
    (hb : y.live[k]? = some b) (hjk : j ≠ k) :
    a.ptr + a.size ≤ b.ptr ∨ b.ptr + b.size ≤ a.ptr := by
  rw [ht.follows.live] at ha hb
  obtain ⟨c, hc, -, hcptr, hcsize, U, hU, hcov, hj⟩ := ht.good.chunk ha
  obtain ⟨e, hk, heptr, hesize⟩ := forall₂_getElem? hcov hb
  have hmem : e ∈ σ.heap.used := by
    rw [← hU]
    exact Multiset.mem_coe.mpr (List.mem_of_getElem? hk)
  obtain ⟨d, hd, -, rfl⟩ := mem_usedSlots.mp hmem
  have hne := ht.good.slot_ne hU hj hk hjk
  -- the chunks of two live blocks lie apart
  have hapart : c.addr + 16 + a.size ≤ d.addr + 16 ∨ d.addr + 16 + b.size ≤ c.addr + 16 := by
    simp only [Chunk.slot] at hesize
    rcases ht.good.inv.shape.tiles.apart hc hd with rfl | h' | h'
    · exact absurd rfl hne
    all_goals
      simp only [Chunk.next] at h'
      omega
  rw [hcptr, heptr]
  exact hapart

end Live

/-- A block that a call returns is live after it. -/
theorem Call.live_of_returned {c : Call} {ext size : ℕ} {y y' : System} {p : Addr}
    (hrun : c.run ext y = some (p, y')) (hsize : c.asks = some size) (hp : p ≠ NULL) :
    ∃ j : ℕ, y'.live[j]? = some ⟨p, size⟩ := by
  cases c with
  | malloc n =>
    obtain rfl := Option.some.inj hsize
    obtain ⟨⟨q, s'⟩, -, he⟩ := Option.map_eq_some_iff.mp hrun
    obtain ⟨rfl, rfl⟩ := Prod.mk.inj he
    exact ⟨y.live.length, by simp [hp]⟩
  | realloc i n =>
    obtain rfl := Option.some.inj hsize
    obtain ⟨b, hb, hmap⟩ := Option.bind_eq_some_iff.mp hrun
    obtain ⟨⟨q, s'⟩, -, he⟩ := Option.map_eq_some_iff.mp hmap
    obtain ⟨rfl, rfl⟩ := Prod.mk.inj he
    have hi : i < y.live.length := (List.getElem?_eq_some_iff.mp hb).1
    exact ⟨i, by simp [hp, hi]⟩
  | free i => cases hsize

variable {y y' : System} {c : Call} {p : Addr}

/-- Every call returns. A block it returns is aligned, inside the heap, and apart from every other
live block. -/
theorem call_returns_block (hy : Reachable EXTENSION_SIZE (Sized LARGEST_SIZE) y)
    (hc : c.Valid LARGEST_SIZE y.live) :
    ∃ p y', c.run EXTENSION_SIZE y = some (p, y') ∧
      ∀ size, c.asks = some size → p ≠ NULL →
        8 ∣ p ∧ memHeapLo y'.state ≤ p ∧ p + size ≤ memHeapHi y'.state + 1 ∧
        ∃ j : ℕ, y'.live[j]? = some ⟨p, size⟩ ∧ ∀ k b, k ≠ j → y'.live[k]? = some b →
          p + size ≤ b.ptr ∨ b.ptr + b.size ≤ p := by
  obtain ⟨σ, ht⟩ := hy.tracks_default
  obtain ⟨y', hrun, ht', -⟩ := ht.call extension_default (by decide) hc
  refine ⟨_, y', hrun, fun size hsize hp => ?_⟩
  obtain ⟨j, hj⟩ := c.live_of_returned hrun hsize hp
  obtain ⟨h1, h2, h3⟩ := ht'.live_inside hj
  exact ⟨h1, h2, h3, j, hj, fun k b hk hb => ht'.live_apart hj hb hk.symm⟩

/-- A block is cut off the victim, between blocks that are live. -/
theorem call_returns_block_busy : ∃ y y', Run EXTENSION_SIZE (Sized LARGEST_SIZE) (.blank 16)
      (busyCalls.map .call) busyPointers y ∧ y.live = busyLive ∧
    (Call.malloc 500).run EXTENSION_SIZE y = some (440, y') ∧
    8 ∣ 440 ∧ memHeapLo y'.state ≤ 440 ∧ 440 + 500 ≤ memHeapHi y'.state + 1 ∧
    ∃ j : ℕ, y'.live[j]? = some ⟨440, 500⟩ ∧ ∀ k b, k ≠ j → y'.live[k]? = some b →
      440 + 500 ≤ b.ptr ∨ b.ptr + b.size ≤ 440 := by
  obtain ⟨y, hst, hrun, hlive, hy⟩ := exists_run_busy (Sized LARGEST_SIZE) fun _ _ _ h => h
  have hc : (Call.malloc 500).Valid LARGEST_SIZE y.live := by
    rw [hlive]
    decide
  obtain ⟨p, y', hcall, hblock⟩ := call_returns_block ⟨_, _, _, hst, hrun⟩ hc
  obtain ⟨_, hcall', -⟩ := hy.call extension_default (by decide) hc
  obtain ⟨rfl, -⟩ := Prod.mk.inj (Option.some.inj (hcall.symm.trans hcall'))
  have hp : (busySession.call EXTENSION_SIZE (.malloc 500)).1 = 440 := by
    decide +kernel
  rw [hp] at hcall hblock
  exact ⟨y, y', hrun, hlive, hcall, hblock 500 rfl (by decide)⟩

/-- No call touches the contents of a live block it does not name, and a block that is reallocated
brings its contents along. -/
theorem call_preserves_contents (hy : Reachable EXTENSION_SIZE (Sized LARGEST_SIZE) y)
    (hc : c.Valid LARGEST_SIZE y.live) :
    ∃ p y', c.run EXTENSION_SIZE y = some (p, y') ∧
      (∀ j b, y.live[j]? = some b → ¬ c.Names j →
        ∀ k < b.size, y'.state.mem (b.ptr + k) = y.state.mem (b.ptr + k)) ∧
      ∀ i size b, c = .realloc i size → y.live[i]? = some b → p ≠ NULL →
        ∀ k < min b.size size, y'.state.mem (p + k) = y.state.mem (b.ptr + k) := by
  obtain ⟨σ, ht⟩ := hy.tracks_default
  obtain ⟨y', hrun, -, heff⟩ := ht.call extension_default (by decide) hc
  exact ⟨_, y', hrun, heff.others, fun i size b hi hb hp k hk =>
    heff.moved i size b hi hb hp k (lt_min_iff.mp hk).1 (lt_min_iff.mp hk).2⟩

/-- A block with two bytes written to it is moved over both of its free neighbours, and the bytes
move along. Those of the other blocks stay, also of the one that was written to. -/
theorem call_preserves_contents_moved : ∃ y p y',
    Run EXTENSION_SIZE (Sized LARGEST_SIZE) (.blank 16)
      (busyCalls.map .call ++ [.write 0 0 7] ++ [.write 0 23 9] ++ [.write 3 5 11]) busyPointers y ∧
    y.live = [⟨1040, 24⟩, ⟨1104, 24⟩, ⟨4144, 24⟩, ⟨32, 400⟩] ∧
    (Call.realloc 0 600).run EXTENSION_SIZE y = some (p, y') ∧ p = 440 ∧
    y'.live = [⟨440, 600⟩, ⟨1104, 24⟩, ⟨4144, 24⟩, ⟨32, 400⟩] ∧
    (∀ k < 24, y'.state.mem (440 + k) = y.state.mem (1040 + k)) ∧
    (y'.state.mem 440).val = 7 ∧ (y'.state.mem 463).val = 9 ∧
    (∀ k < 24, y'.state.mem (1104 + k) = y.state.mem (1104 + k)) ∧
    (∀ k < 24, y'.state.mem (4144 + k) = y.state.mem (4144 + k)) ∧
    (∀ k < 400, y'.state.mem (32 + k) = y.state.mem (32 + k)) ∧ (y'.state.mem 37).val = 11 := by
  obtain ⟨z, hst, hrun, hlive, hz⟩ := exists_run_busy (Sized LARGEST_SIZE) fun _ _ _ h => h
  have h0 : z.live[0]? = some ⟨1040, 24⟩ := by
    rw [hlive]
    rfl
  have h3 : z.live[3]? = some ⟨32, 400⟩ := by
    rw [hlive]
    rfl
  -- the three bytes
  have hrun' := ((hrun.write (v := 7) h0 (k := 0) (by decide)).write (v := 9) h0 (k := 23)
    (by decide)).write (v := 11) h3 (k := 5) (by decide)
  have hy := ((hz.follows.write (v := 7) hz.good h0 (k := 0) (by decide)).write (v := 9) hz.good h0
    (k := 23) (by decide)).write (v := 11) hz.good h3 (k := 5) (by decide)
  have hmem : ∀ y, y = ((z.write 1040 7).write 1063 9).write 37 11 →
      (y.state.mem 1040).val = 7 ∧ (y.state.mem 1063).val = 9 ∧ (y.state.mem 37).val = 11 := by
    rintro _ rfl
    exact ⟨rfl, rfl, rfl⟩
  generalize hw : ((z.write _ _).write _ _).write _ _ = y at hrun' hy
  replace hmem := hmem y hw.symm
  have hylive : y.live = busyLive := by
    rw [← hw]
    exact hlive
  -- the call, and what the theorem says of it
  have hc : (Call.realloc 0 600).Valid LARGEST_SIZE y.live := by
    rw [hylive]
    decide
  have hreach : Reachable EXTENSION_SIZE (Sized LARGEST_SIZE) y := ⟨_, _, _, hst, hrun'⟩
  obtain ⟨p, y', hcall, hothers, hmoved⟩ := call_preserves_contents hreach hc
  obtain ⟨y₁, hcall₁, ht₁, -⟩ := (Tracks.mk hy hz.good).call extension_default (N := LARGEST_SIZE)
    (by decide) hc
  obtain ⟨hp, rfl⟩ := Prod.mk.inj (Option.some.inj (hcall.symm.trans hcall₁))
  have hlive' : y'.live = [⟨440, 600⟩, ⟨1104, 24⟩, ⟨4144, 24⟩, ⟨32, 400⟩] := by
    rw [ht₁.follows.live]
    decide +kernel
  replace hp : p = 440 := by
    rw [hp]
    decide +kernel
  subst hp
  have hkept : ∀ (j : ℕ) b, busyLive[j]? = some b → j ≠ 0 →
      ∀ k < b.size, y'.state.mem (b.ptr + k) = y.state.mem (b.ptr + k) := fun j b hb hj =>
    hothers j b (by rw [hylive, hb]) hj
  have hown : ∀ k < 24, y'.state.mem (440 + k) = y.state.mem (1040 + k) := fun k hk =>
    hmoved 0 600 ⟨1040, 24⟩ rfl (by rw [hylive]; rfl) (by decide) k (by simpa using by omega)
  have h32 := hkept 3 _ rfl (by decide)
  exact ⟨y, 440, y', hrun', hylive, hcall, rfl, hlive', hown,
    (congrArg Byte.val (hown 0 (by decide))).trans hmem.1,
    (congrArg Byte.val (hown 23 (by decide))).trans hmem.2.1, hkept 1 _ rfl (by decide),
    hkept 2 _ rfl (by decide), h32, (congrArg Byte.val (h32 5 (by decide))).trans hmem.2.2⟩

/-- An allocation or a reallocation that fails leaves the state as it was: every bin, every byte of
memory, the break, and the live blocks. -/
theorem failed_call_changes_nothing (hy : Reachable EXTENSION_SIZE (Sized LARGEST_SIZE) y)
    (hc : c.Valid LARGEST_SIZE y.live) (halloc : ∀ i, c ≠ .free i)
    (hrun : c.run EXTENSION_SIZE y = some (NULL, y')) : y' = y := by
  obtain ⟨σ, ht⟩ := hy.tracks_default
  obtain ⟨y₁, hrun₁, -, heff⟩ := ht.call extension_default (by decide) hc
  obtain ⟨hp, rfl⟩ := Prod.mk.inj (Option.some.inj (hrun.symm.trans hrun₁))
  exact heff.failed halloc hp.symm

theorem failed_call_changes_nothing_busy : ∃ y y', Run EXTENSION_SIZE (Sized LARGEST_SIZE)
      (.blank 16) (busyCalls.map .call) busyPointers y ∧
    (Call.realloc 3 60000000).run EXTENSION_SIZE y = some (NULL, y') ∧ y' = y := by
  obtain ⟨y, hst, hrun, hlive, hy⟩ := exists_run_busy (Sized LARGEST_SIZE) fun _ _ _ h => h
  have hc : (Call.realloc 3 60000000).Valid LARGEST_SIZE y.live := by
    rw [hlive]
    decide
  obtain ⟨y', hcall, -⟩ := hy.call extension_default (by decide) hc
  have hnull : (busySession.call EXTENSION_SIZE (.realloc 3 60000000)).1 = NULL := by
    decide +kernel
  rw [hnull] at hcall
  exact ⟨y, y', hrun, hcall, failed_call_changes_nothing ⟨_, _, _, hst, hrun⟩ hc
    (fun _ => by simp) hcall⟩

/-- Two runs that make the same calls get the same pointers, whatever memory holds at the start and
whatever the user writes into the blocks. The heap is laid out in the same way, and the bins hold
the same chunks in the same order. No stale byte is ever taken for a link, a field of a tree or the
size of the chunk before: such a load has no outcome, but a third run, in which all bytes of the
live blocks are stale before every call, gets the same pointers, and the next call returns, the same
pointer from every one of these states. -/
theorem outcomes_independent_of_contents {y₁ y₂ z₁ z₂ : System} {es₁ es₂ : List Event}
    {ps₁ ps₂ : List Addr} (h₁ : Started y₁) (h₂ : Started y₂)
    (hbase : y₁.state.memStartBrk = y₂.state.memStartBrk)
    (hrun₁ : Run EXTENSION_SIZE (Sized LARGEST_SIZE) y₁ es₁ ps₁ z₁)
    (hrun₂ : Run EXTENSION_SIZE (Sized LARGEST_SIZE) y₂ es₂ ps₂ z₂)
    (hcalls : calls es₁ = calls es₂) :
    ps₁ = ps₂ ∧ z₁.state.heapChunks = z₂.state.heapChunks ∧
      (∀ n < NUM_OF_BINS, z₁.state.binMembers n = z₂.state.binMembers n) ∧
      ∃ z₃, runSpoiled EXTENSION_SIZE (calls es₁) y₁ = some (ps₁, z₃) ∧
        ∀ c : Call, c.Valid LARGEST_SIZE z₁.live → ∃ p, ∀ z ∈ [z₁, z₂, z₃, z₃.spoiled],
          ∃ z', c.run EXTENSION_SIZE z = some (p, z') := by
  obtain ⟨b₁, hb₁, h0, hspan, hf₁⟩ := h₁.follows
  obtain ⟨b₂, hb₂, -, -, hf₂⟩ := h₂.follows
  obtain rfl : b₁ = b₂ := hb₁.symm.trans (hbase.trans hb₂)
  have hg : (Session.initial b₁).Good False EXTENSION_SIZE :=
    (Session.good_initial h0 hspan).weaken fun _ => trivial
  have hval : ∀ (y : System) (c : Call), Sized LARGEST_SIZE y c → c.Valid LARGEST_SIZE y.live :=
    fun _ _ h => h
  have hvalid := hrun₁.valid ⟨hf₁, hg⟩ extension_default (by decide) hval
  -- the session of the calls is the same in all the runs
  obtain ⟨ht₁, rfl⟩ := hrun₁.tracks ⟨hf₁, hg⟩ extension_default (by decide) hval False.elim
  obtain ⟨ht₂, rfl⟩ := hrun₂.tracks ⟨hf₂, hg⟩ extension_default (by decide) hval False.elim
  obtain ⟨z₃, hrun₃, hf₃⟩ := (Tracks.mk hf₁ hg).runSpoiled extension_default (by decide) hvalid
  rw [← hcalls] at ht₂ ⊢
  have hm₁ := ht₁.follows.models
  have hm₂ := ht₂.follows.models
  have hs := ht₁.good.inv.shape
  refine ⟨rfl, by rw [hm₁.heapChunks_eq hs, hm₂.heapChunks_eq hs], fun n hn => ?_, z₃, hrun₃,
    fun c hc => ?_⟩
  · rcases Nat.lt_or_ge n 2 with h2 | h2
    · obtain rfl | rfl : n = END_OF_HEAP_BIN ∨ n = VICTIM_BIN := by
        unfold END_OF_HEAP_BIN VICTIM_BIN
        omega
      · exact (hm₁.binMembers_top hs).trans (hm₂.binMembers_top hs).symm
      · rw [← add_zero (Bins.victimSlot _)] at hs
        exact (hm₁.binMembers_victim hs).trans (hm₂.binMembers_victim hs).symm
    · rw [hm₁.binMembers_eq hs h2 hn, hm₂.binMembers_eq hs h2 hn]
  · -- each of the four states follows that session
    generalize (Session.run EXTENSION_SIZE (calls es₁) (.initial b₁)).2 = σ at ht₁ ht₂ hf₃
    refine ⟨(σ.call EXTENSION_SIZE c).1, fun z hz => ?_⟩
    have hz' : Follows z σ := by
      simp only [List.mem_cons, List.not_mem_nil, or_false] at hz
      rcases hz with rfl | rfl | rfl | rfl
      · exact ht₁.follows
      · exact ht₂.follows
      · exact hf₃
      · exact hf₃.spoiled ht₁.good
    have hlive : z.live = z₁.live := hz'.live.trans ht₁.follows.live.symm
    obtain ⟨z', hrun, -⟩ := hz'.call ht₁.good extension_default (by decide) (hlive ▸ hc)
    exact ⟨z', hrun⟩

/-- Two blocks are written to in one run and none in the other, and the next call moves a block. -/
theorem outcomes_independent_of_contents_busy : ∃ z₁ z₂ z₃,
    Run EXTENSION_SIZE (Sized LARGEST_SIZE) (.blank 16)
      (busyCalls.map .call ++ [.write 0 3 7] ++ [.write 3 399 255]) busyPointers z₁ ∧
    Run EXTENSION_SIZE (Sized LARGEST_SIZE) (.blank 16) (busyCalls.map .call) busyPointers z₂ ∧
    z₁.live = busyLive ∧ z₁.state.heapChunks = z₂.state.heapChunks ∧
    (∀ n < NUM_OF_BINS, z₁.state.binMembers n = z₂.state.binMembers n) ∧
    runSpoiled EXTENSION_SIZE busyCalls (.blank 16) = some (busyPointers, z₃) ∧
    ∀ z ∈ [z₁, z₂, z₃, z₃.spoiled],
      ∃ z', (Call.realloc 0 600).run EXTENSION_SIZE z = some (440, z') := by
  obtain ⟨z₂, hst, hrun₂, hlive, hz⟩ := exists_run_busy (Sized LARGEST_SIZE) fun _ _ _ h => h
  have h0 : z₂.live[0]? = some ⟨1040, 24⟩ := by
    rw [hlive]
    rfl
  have h3 : z₂.live[3]? = some ⟨32, 400⟩ := by
    rw [hlive]
    rfl
  have hrun₁ := (hrun₂.write (v := 7) h0 (k := 3) (by decide)).write (v := 255) h3 (k := 399)
    (by decide)
  obtain ⟨-, hheap, hbins, z₃, hrun₃, hnext⟩ :=
    outcomes_independent_of_contents hst hst rfl hrun₁ hrun₂ (by decide)
  obtain ⟨p, hp⟩ := hnext (.realloc 0 600) (by
    show Call.Valid LARGEST_SIZE z₂.live _
    rw [hlive]
    decide)
  -- the pointer is the one of the session
  have hc : (Call.realloc 0 600).Valid LARGEST_SIZE z₂.live := by
    rw [hlive]
    decide
  obtain ⟨z', hcall⟩ := hp z₂ (by simp)
  obtain ⟨_, hcall', -⟩ := hz.call extension_default (by decide) hc
  obtain ⟨rfl, -⟩ := Prod.mk.inj (Option.some.inj (hcall.symm.trans hcall'))
  have h440 : (busySession.call EXTENSION_SIZE (.realloc 0 600)).1 = 440 := by
    decide +kernel
  rw [h440] at hp
  exact ⟨_, z₂, z₃, hrun₁, hrun₂, hlive, hheap, hbins, hrun₃, hp⟩

end Dlmalloc
