import Dlmalloc.Machine.System
import Dlmalloc.Refine.TreeBin

/-!
# The large bins as a store

The large bins on their own, under any sequence of `insert_large_chunk` and `remove_large_chunk`
(`TreeRun`). They hold the chunks that were inserted and not yet removed, each in the bin of its
size, and every bin is a well-formed tree all along (`tree_bins_hold_contents`).
-/

namespace Dlmalloc

open DigitTree

/-- `c` is a chunk that can be inserted: its size is large and not huge, and it lies in the
simulated heap, apart from the chunks `S` in the bins. -/
structure Insertable (s : State) (S : Multiset Slot) (c : Addr) : Prop where
  large : isLargeSize (s.chunkSize c)
  notHuge : ¬ isHugeSize (s.chunkSize c)
  aligned : 8 ∣ c
  inside : s.memStartBrk ≤ c ∧ c + s.chunkSize c + 8 ≤ s.memMaxAddr
  apart : ∀ e ∈ S, c + s.chunkSize c + 8 ≤ e.1 ∨ e.1 + e.2 + 8 ≤ c

/-- The records of the chunks `S` and the large bins are as before. -/
structure Untouched (S : Multiset Slot) (s s' : State) : Prop where
  load : ∀ e ∈ S, ∀ f : Field, f ≠ .previousSize → s'.load f e.1 = s.load f e.1
  bin : ∀ n, 32 ≤ n → n < NUM_OF_BINS → s'.bin n = s.bin n
  memStartBrk : s'.memStartBrk = s.memStartBrk
  memMaxAddr : s'.memMaxAddr = s.memMaxAddr

/-- The state `s` is reached from empty large bins by insertions and removals, and `S` are the
chunks inserted and not yet removed, with their sizes. In between, everything may change but the
chunks in the bins. -/
inductive TreeRun : State → Multiset Slot → Prop
  | empty {s : State} : s.memStartBrk ≠ NULL → s.memMaxAddr = s.memStartBrk + MAX_HEAP →
      s.memMaxAddr < 2 ^ 64 → (∀ n, 32 ≤ n → n < NUM_OF_BINS → s.bin n = NULL) → TreeRun s 0
  | insert {s s' : State} {S : Multiset Slot} {c : Addr} {r : ℕ} : TreeRun s S →
      Insertable s S c → insertLargeChunk c s = some (r, s') →
      TreeRun s' ((c, s.chunkSize c) ::ₘ S)
  | remove {s s' : State} {S : Multiset Slot} {e : Slot} {r : ℕ} : TreeRun s (e ::ₘ S) →
      removeLargeChunk e.1 s = some (r, s') → TreeRun s' S
  | other {s s' : State} {S : Multiset Slot} : TreeRun s S → Untouched S s s' → TreeRun s' S

/-- The chunks among `S` that belong in the large bin `n`. -/
def ofBin (n : ℕ) (S : Multiset Slot) : Multiset Slot := S.filter fun e => largeRequestIndex e.2 = n

/-- The invariant of a run, in a heap that starts at `lo`. -/
structure Planted (lo : ℕ) (s : State) (S : Multiset Slot) : Prop where
  start : s.memStartBrk = lo
  max : s.memMaxAddr = lo + MAX_HEAP
  pos : 0 < lo
  span : lo + MAX_HEAP < 2 ^ 64
  large : ∀ e ∈ S, isLargeSize e.2 ∧ ¬ isHugeSize e.2 ∧ 8 ∣ e.2
  inside : ∀ e ∈ S, 8 ∣ e.1 ∧ lo ≤ e.1 ∧ e.1 + e.2 + 8 ≤ lo + MAX_HEAP
  apart : ∀ e ∈ S, ∀ f ∈ S, e = f ∨ e.1 + e.2 + 8 ≤ f.1 ∨ f.1 + f.2 + 8 ≤ e.1
  nodup : S.Nodup
  bin : ∀ n, 32 ≤ n → n < NUM_OF_BINS → ∃ t, TreeBin s n t ∧ (t.entries : Multiset Slot) = ofBin n S

section Planted

variable {s s' : State} {S : Multiset Slot} {e : Slot} {c n lo : ℕ} {t : DigitTree ℕ}

theorem ofBin_cons_of_eq (h : largeRequestIndex e.2 = n) : ofBin n (e ::ₘ S) = e ::ₘ ofBin n S :=
  Multiset.filter_cons_of_pos S h

theorem ofBin_cons_of_ne (h : largeRequestIndex e.2 ≠ n) : ofBin n (e ::ₘ S) = ofBin n S :=
  Multiset.filter_cons_of_neg S h

/-- The chunks of a bin are some of them. -/
theorem mem_of_ofBin (ht : (t.entries : Multiset Slot) = ofBin n S) (he : e ∈ t.entries) :
    e ∈ S ∧ largeRequestIndex e.2 = n := by
  rw [← Multiset.mem_coe, ht] at he
  exact Multiset.mem_filter.mp he

theorem State.dvd_chunkSize (s : State) (c : ℕ) : 8 ∣ s.chunkSize c := by
  rw [State.chunkSize, safeSize_eq State.isPtr_load_currentSize]
  exact Nat.dvd_mul_left _ _

theorem Planted.spread (h : Planted lo s S) : Spread {e | e ∈ S} := by
  have h0 := h.pos
  have hspan := h.span
  refine ⟨h.apart, fun e he => ?_, fun e he => ?_, fun e he => ?_⟩
  · have h1 : 249 < e.2 := (h.large e he).1
    exact le_trans (by decide) h1.le
  · obtain ⟨h1, h2, -⟩ := h.inside e he
    omega
  · obtain ⟨-, -, h2⟩ := h.inside e he
    omega

/-- There are fewer chunks than bytes they can begin at. -/
theorem Planted.card_lt (h : Planted lo s S) : S.card + 1 < MAX_HEAP := by
  have hheap : MAX_HEAP = 52428800 := rfl
  have hin : ∀ e ∈ S, lo ≤ e.1 ∧ e.1 + 257 < lo + MAX_HEAP := fun e he => by
    obtain ⟨-, h1, h2⟩ := h.inside e he
    have h3 : 249 < e.2 := (h.large e he).1
    omega
  have hnd : (S.map fun e => e.1 - lo).Nodup :=
    Multiset.Nodup.map_on (fun e he f hf (hef : e.1 - lo = f.1 - lo) => by
      obtain ⟨h1, -⟩ := hin e he
      obtain ⟨h2, -⟩ := hin f hf
      exact h.spread.eq_of_addr he hf (by omega)) h.nodup
  have hsub : (S.map fun e => e.1 - lo) ≤ Multiset.range (MAX_HEAP - 257) := by
    refine (Multiset.le_iff_subset hnd).mpr fun x hx => ?_
    obtain ⟨e, he, rfl⟩ := Multiset.mem_map.mp hx
    obtain ⟨h1, h2⟩ := hin e he
    exact Multiset.mem_range.mpr (by omega)
  have hcard := Multiset.card_le_card hsub
  rw [Multiset.card_map, Multiset.card_range] at hcard
  omega

theorem Planted.untouched (h : Planted lo s S) (hu : Untouched S s s') : Planted lo s' S := by
  refine ⟨hu.memStartBrk.trans h.start, hu.memMaxAddr.trans h.max, h.pos, h.span, h.large, h.inside,
    h.apart, h.nodup, fun n h32 hn => ?_⟩
  obtain ⟨t, ht, hS⟩ := h.bin n h32 hn
  refine ⟨t, ht.congr (hu.bin n h32 hn) (fun e he => ?_) fun e he f hf => ?_, hS⟩
  · rw [State.chunkSize, hu.load e (mem_of_ofBin hS he).1 _ (by simp), State.chunkSize]
  · refine hu.load e (mem_of_ofBin hS he).1 f ?_
    rintro rfl
    simp [Field.offset] at hf

/-- The chunks with another one that can be inserted. -/
theorem Planted.spread_cons (h : Planted lo s S) (hc : Insertable s S c) :
    Spread {e | e ∈ (c, s.chunkSize c) ::ₘ S} ∧ (c, s.chunkSize c) ∉ S ∧ lo ≤ c ∧
      c + s.chunkSize c + 8 ≤ lo + MAX_HEAP := by
  obtain ⟨hin1, hin2⟩ := hc.inside
  rw [h.start] at hin1
  rw [h.max] at hin2
  have hs := h.spread
  have h249 : 249 < s.chunkSize c := hc.large
  have hpos : 8 ≤ c := Nat.le_of_dvd (h.pos.trans_le hin1) hc.aligned
  refine ⟨⟨fun e he f hf => ?_, fun e he => ?_, fun e he => ?_, fun e he => ?_⟩, fun hmem => ?_,
    hin1, hin2⟩
  · -- the new chunk lies apart from the planted ones
    rcases Multiset.mem_cons.mp he with rfl | he <;> rcases Multiset.mem_cons.mp hf with rfl | hf
    · exact .inl rfl
    · exact .inr (hc.apart f hf)
    · exact .inr (hc.apart e he).symm
    · exact hs.apart e he f hf
  · rcases Multiset.mem_cons.mp he with rfl | he
    · exact le_trans (by decide) h249.le
    · exact hs.least e he
  · rcases Multiset.mem_cons.mp he with rfl | he
    · exact hpos
    · exact hs.pos e he
  · rcases Multiset.mem_cons.mp he with rfl | he
    · exact hin2.trans_lt h.span
    · exact hs.below e he
  · have hlt : c < c + s.chunkSize c + 8 := Nat.lt_of_lt_of_le (Nat.lt_add_of_pos_right (by decide))
      (Nat.add_le_add_right (Nat.le_add_right c (s.chunkSize c)) 8)
    rcases hc.apart _ hmem with h' | h' <;> exact absurd hlt (not_lt.mpr h')

theorem Planted.insert (h : Planted lo s S) (hc : Insertable s S c) :
    Returns (insertLargeChunk c) s fun _ s' => Planted lo s' ((c, s.chunkSize c) ::ₘ S) := by
  obtain ⟨hX, hnew, hin⟩ := h.spread_cons hc
  obtain ⟨k, hk⟩ : ∃ k, k = s.chunkSize c := ⟨_, rfl⟩
  have hl := hc.large
  have hh := hc.notHuge
  have h8 := s.dvd_chunkSize c
  rw [← hk] at hX hnew hin hl hh h8 ⊢
  obtain ⟨h32, h64⟩ := largeRequestIndex_bounds hl hh h8
  obtain ⟨t, ht, hS⟩ := h.bin _ h32 h64
  have hsub : {f | f = (c, k) ∨ f ∈ t.entries} ⊆ {e | e ∈ (c, k) ::ₘ S} := fun f hf =>
    Multiset.mem_cons.mpr (hf.imp_right fun hf => (mem_of_ofBin hS hf).1)
  have hlen : t.entries.length + 1 < MAX_HEAP := by
    have h1 : (ofBin (largeRequestIndex k) S).card ≤ S.card :=
      Multiset.card_le_card (Multiset.filter_le _ S)
    rw [← hS, Multiset.coe_card] at h1
    exact (Nat.add_le_add_right h1 1).trans_lt h.card_lt
  -- the tree of its class gets it, and the other trees are framed off
  refine (ht.insert h64 (hX.mono hsub) (fun hmem => hnew (mem_of_ofBin hS hmem).1) hk.symm hl
    hh h8 rfl hlen).mono fun _ s' hpost => ?_
  obtain ⟨ht', hs, hbins⟩ := hpost
  refine ⟨hs.memStartBrk.trans h.start, hs.memMaxAddr.trans h.max, h.pos, h.span, fun e he => ?_,
    fun e he => ?_, hX.apart, Multiset.nodup_cons.mpr ⟨hnew, h.nodup⟩, fun n hn32 hn => ?_⟩
  · rcases Multiset.mem_cons.mp he with rfl | he
    · exact ⟨hl, hh, h8⟩
    · exact h.large e he
  · rcases Multiset.mem_cons.mp he with rfl | he
    · exact ⟨hc.aligned, hin⟩
    · exact h.inside e he
  · by_cases hne : n = largeRequestIndex k
    · subst hne
      refine ⟨_, ht', ?_⟩
      rw [ofBin_cons_of_eq (e := (c, k)) rfl, ← hS, Multiset.cons_coe]
      exact Multiset.coe_eq_coe.mpr (entries_insert _ _ _ _)
    · obtain ⟨u, hu, hSu⟩ := h.bin n hn32 hn
      refine ⟨u, hu.frame (hbins n hne) hs hX hsub (fun e he => ?_) fun e he => ?_, ?_⟩
      · exact Multiset.mem_cons_of_mem (mem_of_ofBin hSu he).1
      · obtain ⟨he1, he2⟩ := mem_of_ofBin hSu he
        rintro (rfl | he')
        · exact hnew he1
        · exact hne (he2.symm.trans (mem_of_ofBin hS he').2)
      · rw [hSu, ofBin_cons_of_ne (Ne.symm hne)]

theorem Planted.remove (h : Planted lo s (e ::ₘ S)) :
    Returns (removeLargeChunk e.1) s fun _ s' => Planted lo s' S := by
  have hmem : e ∈ e ::ₘ S := Multiset.mem_cons_self e S
  obtain ⟨hl, hh, h8⟩ := h.large e hmem
  obtain ⟨h32, h64⟩ := largeRequestIndex_bounds hl hh h8
  obtain ⟨t, ht, hS⟩ := h.bin _ h32 h64
  obtain ⟨heS, hnd⟩ := Multiset.nodup_cons.mp h.nodup
  have het : e ∈ t.entries := by
    rw [← Multiset.mem_coe, hS]
    exact Multiset.mem_filter.mpr ⟨hmem, rfl⟩
  have hsub : {f | f ∈ t.entries} ⊆ {f | f ∈ e ::ₘ S} := fun f hf => (mem_of_ofBin hS hf).1
  have hcons : ∀ f ∈ S, f ∈ e ::ₘ S := fun f hf => Multiset.mem_cons_of_mem hf
  -- the tree of its class loses it, and the other trees are framed off
  refine (ht.remove h64 (c := e.1) (k := e.2) het).mono fun _ s' hpost => ?_
  obtain ⟨ht', hs, hbins⟩ := hpost
  refine ⟨hs.memStartBrk.trans h.start, hs.memMaxAddr.trans h.max, h.pos, h.span,
    fun f hf => h.large f (hcons f hf), fun f hf => h.inside f (hcons f hf),
    fun f hf g hg => h.apart f (hcons f hf) g (hcons g hg), hnd, fun n hn32 hn => ?_⟩
  by_cases hne : n = largeRequestIndex e.2
  · subst hne
    refine ⟨_, ht', ?_⟩
    have hperm := Multiset.coe_eq_coe.mpr (entries_remove ht.routed ht.distinct het)
    rw [hS, ofBin_cons_of_eq rfl, ← Multiset.cons_coe] at hperm
    exact ((Multiset.cons_inj_right e).mp hperm).symm
  · obtain ⟨u, hu, hSu⟩ := h.bin n hn32 hn
    refine ⟨u, hu.frame (hbins n hne) hs h.spread hsub (fun f hf => ?_) fun f hf hf' => ?_, ?_⟩
    · exact (mem_of_ofBin hSu hf).1
    · exact hne ((mem_of_ofBin hSu hf).2.symm.trans (mem_of_ofBin hS hf').2)
    · rw [hSu, ofBin_cons_of_ne (Ne.symm hne)]

theorem treeBin_nil (h : s.bin n = NULL) : TreeBin s n .nil := by
  refine ⟨⟨h, trivial⟩, routed_nil, List.nodup_nil, by simp [Keyed, entries], by simp [entries], ?_,
    List.nodup_nil, by decide⟩
  constructor <;> simp [entries]

/-- A run keeps the invariant. -/
theorem TreeRun.planted (h : TreeRun s S) : ∃ lo, Planted lo s S := by
  induction h with
  | @empty s h0 hmax hspan hbins =>
    refine ⟨s.memStartBrk, rfl, hmax, Nat.pos_of_ne_zero h0, hmax ▸ hspan, by simp, by simp,
      by simp, Multiset.nodup_zero, fun n h32 hn => ⟨.nil, treeBin_nil (hbins n h32 hn), rfl⟩⟩
  | insert _ hc hrun ih =>
    obtain ⟨lo, ih⟩ := ih
    exact ⟨lo, (ih.insert hc).elim hrun⟩
  | remove _ hrun ih =>
    obtain ⟨lo, ih⟩ := ih
    exact ⟨lo, ih.remove.elim hrun⟩
  | other _ hu ih =>
    obtain ⟨lo, ih⟩ := ih
    exact ⟨lo, ih.untouched hu⟩

/-- The bins of a run, all at once. -/
theorem Planted.treeBins (h : Planted lo s S) : ∃ B : Bins, TreeBins s B ∧
    ∀ n, 32 ≤ n → n < NUM_OF_BINS → ((B.large n).entries : Multiset Slot) = ofBin n S := by
  classical
  choose f hf using h.bin
  refine ⟨{ Bins.empty with large := fun n =>
    if hn : 32 ≤ n ∧ n < NUM_OF_BINS then f n hn.1 hn.2 else .nil }, fun n h32 hn => ?_,
    fun n h32 hn => ?_⟩
  · dsimp only
    rw [dif_pos ⟨h32, hn⟩]
    exact (hf n h32 hn).1
  · dsimp only
    rw [dif_pos ⟨h32, hn⟩]
    exact (hf n h32 hn).2

/-- The state after an action, or the state before it if the action does not return. -/
def after {α : Type} (x : M α) (s : State) : State := ((x s).map Prod.snd).getD s

theorem TreeRun.insert_after {k : ℕ} (h : TreeRun s S) (hk : s.chunkSize c = k)
    (hc : Insertable s S c) : TreeRun (after (insertLargeChunk c) s) ((c, k) ::ₘ S) := by
  obtain ⟨lo, hp⟩ := h.planted
  obtain ⟨r, s', hrun, -⟩ := hp.insert hc
  subst hk
  rw [after, hrun]
  exact h.insert hc hrun

theorem TreeRun.remove_after (h : TreeRun s (e ::ₘ S)) :
    TreeRun (after (removeLargeChunk e.1) s) S := by
  obtain ⟨lo, hp⟩ := h.planted
  obtain ⟨r, s', hrun, -⟩ := hp.remove
  rw [after, hrun]
  exact h.remove hrun

end Planted

/-- Three chunks of one bin, of the sizes 256, 376 and 320, inserted in this order: the second is on
the right of the first, and the third on the left of the second. -/
def threeChunks : State :=
  after (insertLargeChunk 664) (after (insertLargeChunk 280) (after (insertLargeChunk 16)
    ((((State.blank 16).store .currentSize 16 256).store .currentSize 280 376).store
      .currentSize 664 320)))

theorem treeRun_threeChunks :
    TreeRun threeChunks ((664, 320) ::ₘ (280, 376) ::ₘ (16, 256) ::ₘ 0) := by
  have h0 : TreeRun ((((State.blank 16).store .currentSize 16 256).store .currentSize 280 376).store
      .currentSize 664 320) 0 :=
    .empty (by decide) rfl (by decide) fun _ _ _ => by simp [State.bin, State.blank]
  have h1 := h0.insert_after (c := 16) (k := 256) (by decide +kernel)
    ⟨by decide +kernel, by decide +kernel, by decide, by decide +kernel, by decide⟩
  have h2 := h1.insert_after (c := 280) (k := 376) (by decide +kernel)
    ⟨by decide +kernel, by decide +kernel, by decide, by decide +kernel, by decide +kernel⟩
  exact h2.insert_after (c := 664) (k := 320) (by decide +kernel)
    ⟨by decide +kernel, by decide +kernel, by decide, by decide +kernel, by decide +kernel⟩

variable {s : State} {S : Multiset Slot}

/-- After any sequence of insertions and removals every large bin is a well-formed tree of the
chunks of its sizes that were inserted and not yet removed, and the next call returns. -/
theorem tree_bins_hold_contents (h : TreeRun s S) :
    (∀ n, 32 ≤ n → n < NUM_OF_BINS → ∃ t : DigitTree Addr, WellFormed s n t ∧
      (t.entries : Multiset Slot) = ofBin n S) ∧
    (∀ c, Insertable s S c → ∃ r s', insertLargeChunk c s = some (r, s')) ∧
    ∀ e ∈ S, ∃ r s', removeLargeChunk e.1 s = some (r, s') := by
  obtain ⟨lo, hp⟩ := h.planted
  refine ⟨fun n h32 hn => ?_, fun c hc => ?_, fun e he => ?_⟩
  · obtain ⟨t, ht, hS⟩ := hp.bin n h32 hn
    exact ⟨t, ht.wellFormed, hS⟩
  · obtain ⟨r, s', hrun, -⟩ := hp.insert hc
    exact ⟨r, s', hrun⟩
  · obtain ⟨S', rfl⟩ := Multiset.exists_cons_of_mem he
    obtain ⟨r, s', hrun, -⟩ := hp.remove
    exact ⟨r, s', hrun⟩

/-- With the root of three chunks removed. -/
theorem tree_bins_hold_contents_removed :
    (∀ n, 32 ≤ n → n < NUM_OF_BINS → ∃ t : DigitTree Addr,
      WellFormed (after (removeLargeChunk 16) threeChunks) n t ∧
      (t.entries : Multiset Slot) = ofBin n ((664, 320) ::ₘ (280, 376) ::ₘ 0)) ∧
    (∀ c, Insertable (after (removeLargeChunk 16) threeChunks) ((664, 320) ::ₘ (280, 376) ::ₘ 0) c →
      ∃ r s', insertLargeChunk c (after (removeLargeChunk 16) threeChunks) = some (r, s')) ∧
    ∀ e ∈ ((664, 320) ::ₘ (280, 376) ::ₘ 0 : Multiset Slot),
      ∃ r s', removeLargeChunk e.1 (after (removeLargeChunk 16) threeChunks) = some (r, s') := by
  have hroot : ((664, 320) ::ₘ (280, 376) ::ₘ (16, 256) ::ₘ 0 : Multiset Slot) =
      (16, 256) ::ₘ (664, 320) ::ₘ (280, 376) ::ₘ 0 := by decide
  exact tree_bins_hold_contents (hroot ▸ treeRun_threeChunks).remove_after

end Dlmalloc
