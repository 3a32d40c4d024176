import Dlmalloc.Refine.Lists
import Dlmalloc.Refine.TreeInsert
import Dlmalloc.Refine.TreeRemove

/-!
# The bins in memory

`Holds X s B` — memory holds the bins `B`, all of whose chunks are among the free chunks `X`.
`insert_chunk` and `remove_chunk_or_victim` keep it, and do to the bins what `Bins.insert` and
`Bins.remove` say. They write to link fields of free chunks only.
-/

namespace Dlmalloc

open DigitTree

/-- Memory holds bin `n`. -/
def BinRep (s : State) (B : Bins) (n : ℕ) : Prop :=
  if n = HUGE_BIN then ListRep s n (B.huge.map Prod.fst)
  else if n < 32 then ListRep s n (B.small n)
  else BinTree s n (B.large n)

/-- The pointer to a chunk there may be. -/
def pointer (e : Option Slot) : Addr := e.elim NULL Prod.fst

@[simp] theorem pointer_none : pointer none = NULL := rfl
@[simp] theorem pointer_some {e : Slot} : pointer (some e) = e.1 := rfl

/-- Memory holds the bins `B`, and their chunks are among the free chunks `X`. -/
structure Holds (X : Set Slot) (s : State) (B : Bins) : Prop where
  spread : Spread X
  sized : ∀ e ∈ X, s.chunkSize e.1 = e.2
  sorted : B.Sorted
  mem : ∀ e ∈ B.binned, e ∈ X
  nodup : B.binned.Nodup
  few : B.binned.card < MAX_HEAP
  victim : s.bin VICTIM_BIN = pointer B.victim
  bin : ∀ n, 2 ≤ n → n < NUM_OF_BINS → BinRep s B n

section Bins

variable {X Y : Set Slot} {s s' : State} {B B' : Bins} {e f : Slot} {m n : ℕ}

theorem BinRep.huge : BinRep s B HUGE_BIN ↔ ListRep s HUGE_BIN (B.huge.map Prod.fst) := by
  rw [BinRep, if_pos rfl]

theorem BinRep.small (h2 : n ≠ HUGE_BIN) (hn : n < 32) :
    BinRep s B n ↔ ListRep s n (B.small n) := by
  rw [BinRep, if_neg h2, if_pos hn]

theorem BinRep.large (hn : 32 ≤ n) : BinRep s B n ↔ BinTree s n (B.large n) := by
  rw [BinRep, if_neg (by unfold HUGE_BIN; omega), if_neg (by omega)]

theorem BinRep.insert_of_ne (hm : m ≠ binOf e.2) : BinRep s (B.insert e) m ↔ BinRep s B m := by
  unfold Bins.insert
  unfold binOf at hm
  split_ifs at hm ⊢ with hh hl
  · simp only [BinRep, if_neg hm]
  · simp only [BinRep, Function.update_of_ne hm]
  · simp only [BinRep, Function.update_of_ne hm]

theorem BinRep.unbin_of_ne (hm : m ≠ binOf e.2) : BinRep s (B.unbin e) m ↔ BinRep s B m := by
  unfold Bins.unbin
  unfold binOf at hm
  split_ifs at hm ⊢ with hh hl
  · simp only [BinRep, if_neg hm]
  · simp only [BinRep, Function.update_of_ne hm]
  · simp only [BinRep, Function.update_of_ne hm]

theorem ListRep.congr {l : List ℕ} (hr : ListRep s n l) (hb : s'.bin n = s.bin n)
    (hc : ∀ a ∈ l, s'.load .next a = s.load .next a ∧ s'.load .prev a = s.load .prev a) :
    ListRep s' n l :=
  ⟨hb.trans hr.1, hr.2.congr (fun a ha => (hc a ha).1) fun a ha => (hc a ha).2⟩

theorem BinRep.of_load (hr : BinRep s B n) (hload : ∀ f a, s'.load f a = s.load f a)
    (hb : s'.bin n = s.bin n) : BinRep s' B n := by
  unfold BinRep at hr ⊢
  split_ifs at hr ⊢
  · exact hr.congr hb fun _ _ => ⟨hload _ _, hload _ _⟩
  · exact hr.congr hb fun _ _ => ⟨hload _ _, hload _ _⟩
  · exact ⟨hb.trans hr.1, hr.2.congr fun _ _ _ _ => hload _ _⟩

theorem map_fst_erase {l : List Slot} (hl : ∀ f ∈ l, f.1 = e.1 → f = e) :
    (l.map Prod.fst).erase e.1 = (l.erase e).map Prod.fst := by
  induction l with
  | nil => rfl
  | cons f l ih =>
    by_cases hf : f = e
    · simp [hf]
    · have hf1 : f.1 ≠ e.1 := fun h => hf (hl f List.mem_cons_self h)
      rw [List.erase_cons_tail (by simpa using hf), List.map_cons, List.map_cons,
        List.erase_cons_tail (by simpa using hf1), ih fun g hg => hl g (List.mem_cons_of_mem _ hg)]

namespace Holds

theorem mem_slots (h : Holds X s B) (hn : n < NUM_OF_BINS) (he : e ∈ B.slots n) : e ∈ X :=
  h.mem e (Bins.mem_binned.mpr ⟨n, hn, he⟩)

theorem nodup_slots (h : Holds X s B) (hn : n < NUM_OF_BINS) : (B.slots n).Nodup :=
  Multiset.coe_nodup.mp (Multiset.nodup_of_le (Bins.slots_le_binned hn) h.nodup)

theorem length_slots (h : Holds X s B) (hn : n < NUM_OF_BINS) : (B.slots n).length < MAX_HEAP :=
  (Multiset.card_le_card (Bins.slots_le_binned hn)).trans_lt h.few

/-- The addresses in a bin are distinct. -/
theorem nodup_addrs (h : Holds X s B) (hn : n < NUM_OF_BINS) :
    ((B.slots n).map Prod.fst).Nodup :=
  (List.nodup_map_iff_inj_on (h.nodup_slots hn)).mpr fun _ hx _ hy hxy =>
    h.spread.eq_of_addr (h.mem_slots hn hx) (h.mem_slots hn hy) hxy

theorem large_slots (h : Holds X s B) (h32 : 32 ≤ n) (hn : n < NUM_OF_BINS) :
    Large {f | f ∈ B.slots n} (addrs (B.large n)) := fun a ha => by
  rw [addrs, ← Bins.slots_large h32] at ha
  obtain ⟨f, hf, rfl⟩ := List.mem_map.mp ha
  exact ⟨f.2, hf, (h.sorted.large_of_slots h32 hn hf).1⟩

/-- A bin whose cells are as before. -/
theorem congr (h : Holds X s B) (h2 : 2 ≤ n) (hn : n < NUM_OF_BINS)
    (hcell : ∀ e ∈ B.slots n, ∀ f : Field, Cell X f e.1 → s'.load f e.1 = s.load f e.1)
    (hb : s'.bin n = s.bin n) : BinRep s' B n := by
  have hr := h.bin n h2 hn
  have hlist : ∀ e ∈ B.slots n,
      s'.load .next e.1 = s.load .next e.1 ∧ s'.load .prev e.1 = s.load .prev e.1 := fun e he =>
    ⟨hcell e he _ (h.spread.cell_next (h.mem_slots hn he)),
      hcell e he _ (h.spread.cell_prev (h.mem_slots hn he))⟩
  -- by the shape of the bin: the ring of huge chunks, a ring of one size, or a tree
  by_cases hh : n = HUGE_BIN
  · subst hh
    rw [BinRep.huge] at hr ⊢
    refine hr.congr hb fun a ha => ?_
    rw [← Bins.slots_huge] at ha
    obtain ⟨e, he, rfl⟩ := List.mem_map.mp ha
    exact hlist e he
  · by_cases h32 : n < 32
    · rw [BinRep.small hh h32] at hr ⊢
      refine hr.congr hb fun a ha => hlist (a, 8 * n) ?_
      rw [Bins.slots_small hh h32]
      exact List.mem_map_of_mem ha
    · rw [BinRep.large (not_lt.mp h32)] at hr ⊢
      have hl := h.large_slots (not_lt.mp h32) hn
      refine ⟨hb.trans hr.1, hr.2.congr fun a ha f hf => ?_⟩
      have ha' := ha
      rw [addrs, ← Bins.slots_large (not_lt.mp h32)] at ha'
      obtain ⟨e, he, rfl⟩ := List.mem_map.mp ha'
      exact hcell e he f ((hl.cell ha hf).mono fun x hx => h.mem_slots hn hx)

/-- A bin is not touched by changes to the links of chunks that are not in it. -/
theorem frame (h : Holds X s B) (h2 : 2 ≤ n) (hn : n < NUM_OF_BINS) (hs : LinksOnly Y s s')
    (hY : Y ⊆ X) (hne : ∀ f ∈ Y, f ∉ B.slots n) (hb : s'.bin n = s.bin n) : BinRep s' B n :=
  h.congr h2 hn (fun _ he _ hf => hs.load_cell h.spread hY hf fun g hg hge =>
    hne g hg (h.spread.eq_of_addr (hY hg) (h.mem_slots hn he) hge ▸ he)) hb

/-- An edit of the bin of `e`, in memory and in the bins. -/
theorem of_edit (h : Holds X s B) (he : e ∈ X) (h24 : 24 ≤ e.2) (h8 : 8 ∣ e.2)
    (hs : LinksOnly {f | f = e ∨ f ∈ B.slots (binOf e.2)} s s')
    (hbins : ∀ m, m ≠ binOf e.2 → s'.bin m = s.bin m) (hrep : BinRep s' B' (binOf e.2))
    (hother : ∀ m, m ≠ binOf e.2 → (BinRep s' B' m ↔ BinRep s' B m)) (hsorted : B'.Sorted)
    (hmem : ∀ f ∈ B'.binned, f ∈ X) (hnd : B'.binned.Nodup) (hfew : B'.binned.card < MAX_HEAP)
    (hv : B'.victim = B.victim) :
    Holds X s' B' ∧ LinksOnly X s s' ∧ s'.bin END_OF_HEAP_BIN = s.bin END_OF_HEAP_BIN := by
  obtain ⟨h2, h64⟩ := binOf_bounds h24 h8
  have hY : {f | f = e ∨ f ∈ B.slots (binOf e.2)} ⊆ X := by
    rintro f (rfl | hf)
    · exact he
    · exact h.mem_slots h64 hf
  have hX := hs.mono hY
  -- what was touched is in no other bin
  have hne : ∀ m, m < NUM_OF_BINS → m ≠ binOf e.2 → ∀ f, f = e ∨ f ∈ B.slots (binOf e.2) →
      f ∉ B.slots m := by
    rintro m hm hne f hf hfm
    have h1 := (h.sorted.size m hm f hfm).2.2
    rcases hf with rfl | hf
    · exact hne h1.symm
    · exact hne (h1.symm.trans (h.sorted.size _ h64 f hf).2.2)
  have hsmall : END_OF_HEAP_BIN ≠ binOf e.2 ∧ VICTIM_BIN ≠ binOf e.2 := by
    unfold END_OF_HEAP_BIN VICTIM_BIN
    omega
  refine ⟨⟨h.spread, fun f hf => (hX.chunkSize h.spread hf).trans (h.sized f hf), hsorted, hmem,
    hnd, hfew, ?_, fun m hm2 hm64 => ?_⟩, hX, hbins _ hsmall.1⟩
  · rw [hbins _ hsmall.2, h.victim, hv]
  · by_cases hm : m = binOf e.2
    · subst hm
      exact hrep
    · exact (hother m hm).mpr (h.frame hm2 hm64 hs hY (hne m hm64 hm) (hbins m hm))

/-! ### Insertion -/

theorem insertIntoList_run (h : Holds X s B) (he : e ∈ X) (hne : e ∉ B.binned)
    (hn : n < NUM_OF_BINS) (hr : ListRep s n ((B.slots n).map Prod.fst)) :
    Returns (insertIntoList n e.1) s fun _ s' =>
      ListRep s' n (e.1 :: (B.slots n).map Prod.fst) ∧
        LinksOnly {f | f = e ∨ f ∈ B.slots n} s s' ∧ ∀ m, m ≠ n → s'.bin m = s.bin m := by
  have hY : {f | f = e ∨ f ∈ B.slots n} ⊆ X := by
    rintro f (rfl | hf)
    · exact he
    · exact h.mem_slots hn hf
  refine insertIntoList_spec (h.spread.mono hY) hn hr (fun a ha => ?_) (h.nodup_addrs hn)
    ⟨e.2, .inl rfl⟩ fun hmem => ?_
  · obtain ⟨f, hf, rfl⟩ := List.mem_map.mp ha
    exact ⟨f.2, .inr hf⟩
  · obtain ⟨f, hf, hfe⟩ := List.mem_map.mp hmem
    obtain rfl := h.spread.eq_of_addr (h.mem_slots hn hf) he hfe
    exact hne (Bins.mem_binned.mpr ⟨n, hn, hf⟩)

/-- **Insertion** of a free chunk that is in no bin. -/
theorem insertChunk_spec (h : Holds X s B) (he : e ∈ X) (h24 : 24 ≤ e.2) (h8 : 8 ∣ e.2)
    (hne : e ∉ B.binned) (hroom : B.binned.card + 1 < MAX_HEAP) :
    Returns (insertChunk e.1) s fun _ s' => Holds X s' (B.insert e) ∧ LinksOnly X s s' ∧
      s'.bin END_OF_HEAP_BIN = s.bin END_OF_HEAP_BIN := by
  obtain ⟨h2, h64⟩ := binOf_bounds h24 h8
  have hrep := h.bin _ h2 h64
  have hsize := h.sized e he
  have hrun : Returns (insertChunk e.1) s fun _ s' => BinRep s' (B.insert e) (binOf e.2) ∧
      LinksOnly {f | f = e ∨ f ∈ B.slots (binOf e.2)} s s' ∧
      ∀ m, m ≠ binOf e.2 → s'.bin m = s.bin m := by
    unfold insertChunk
    refine Returns.bind_of_eq (isLargeChunk_apply s e.1) ?_
    rw [hsize]
    by_cases hl : isLargeSize e.2
    · rw [if_pos (by simpa using hl)]
      by_cases hh : isHugeSize e.2
      · -- a huge chunk goes to the huge list
        have hbin : binOf e.2 = HUGE_BIN := by rw [binOf, if_pos hh]
        rw [hbin] at hrep h64 ⊢
        rw [BinRep.huge, ← Bins.slots_huge] at hrep
        unfold insertLargeChunk
        refine Returns.bind_of_eq (isHugeChunk_apply s e.1) ?_
        rw [hsize, if_pos (by simpa using hh)]
        refine (h.insertIntoList_run he hne h64 hrep).mono fun _ s' hpost => ?_
        obtain ⟨h1, h2, h3⟩ := hpost
        refine ⟨?_, h2, h3⟩
        rw [BinRep.huge]
        simpa [Bins.insert, hh, Bins.slots_huge] using h1
      · have hbin : binOf e.2 = largeRequestIndex e.2 := by rw [binOf, if_neg hh, if_pos hl]
        obtain ⟨h32, -⟩ := largeRequestIndex_bounds hl hh h8
        rw [hbin] at hrep h64 ⊢
        rw [BinRep.large h32] at hrep
        have hY : {f | f = e ∨ f ∈ B.slots (largeRequestIndex e.2)} ⊆ X := by
          rintro f (rfl | hf)
          · exact he
          · exact h.mem_slots h64 hf
        have hlarge := h.large_slots h32 h64
        have hlen := h.length_slots h64
        have hnd := h.nodup_addrs h64
        rw [Bins.slots_large h32] at hlen hnd
        have hheight := height_le_length (t := B.large (largeRequestIndex e.2))
        rw [addrs, List.length_map] at hheight
        refine (insertLargeChunk_spec (h.spread.mono hY) h64 ?_ ?_ (.inl rfl)
          (fun f hf => h.sized f (h.mem_slots h64 ?_)) hsize hl hh h8 rfl
          (h.sorted.routed _ h32 h64) (fun j hj => ?_) (hheight.trans_lt hlen) hrep).mono
            fun _ s' hpost => ⟨?_, hpost.2⟩
        · intro a ha
          rcases List.mem_cons.mp ha with rfl | ha
          · exact ⟨e.2, .inl rfl, hl⟩
          · obtain ⟨k, hk, hk'⟩ := hlarge a ha
            exact ⟨k, .inr hk, hk'⟩
        · refine List.nodup_cons.mpr ⟨fun hmem => ?_, hnd⟩
          rw [addrs, ← Bins.slots_large h32] at hmem
          obtain ⟨f, hf, hfe⟩ := List.mem_map.mp hmem
          obtain rfl := h.spread.eq_of_addr (h.mem_slots h64 hf) he hfe
          exact hne (Bins.mem_binned.mpr ⟨_, h64, hf⟩)
        · rwa [Bins.slots_large h32]
        · obtain ⟨a, ha⟩ := exists_mem_entries hj
          rw [← Bins.slots_large h32] at ha
          exact (h.sorted.size _ h64 _ ha).2.1
        · rw [BinRep.large h32]
          simpa [Bins.insert, hh, hl] using hpost.1
    · -- a small list
      rw [if_neg (by simpa using hl)]
      have hh : ¬ isHugeSize e.2 := fun hh => hl (by
        have hh' : 16777215 < e.2 := hh
        show 249 < e.2
        omega)
      have hbin : binOf e.2 = smallRequestIndex e.2 := by rw [binOf, if_neg hh, if_neg hl]
      obtain ⟨h3, h32⟩ := smallRequestIndex_bounds hl h24
      have hn2 : smallRequestIndex e.2 ≠ HUGE_BIN := by
        unfold HUGE_BIN
        omega
      rw [hbin] at hrep h64 ⊢
      have hmap : (B.slots (smallRequestIndex e.2)).map Prod.fst =
          B.small (smallRequestIndex e.2) := by
        simp [Bins.slots_small hn2 h32, Function.comp_def]
      rw [BinRep.small hn2 h32, ← hmap] at hrep
      unfold insertSmallChunk
      refine Returns.bind_of_eq (chunkSize_apply s e.1) ?_
      rw [hsize]
      refine (h.insertIntoList_run he hne h64 hrep).mono fun _ s' hpost => ?_
      obtain ⟨h1, h2, h3⟩ := hpost
      refine ⟨?_, h2, h3⟩
      rw [BinRep.small hn2 h32]
      simpa [Bins.insert, hh, hl, hmap] using h1
  refine hrun.mono fun _ s' hpost => h.of_edit he h24 h8 hpost.2.1 hpost.2.2 hpost.1
    (fun m hm => BinRep.insert_of_ne hm) (Bins.sorted_insert h.sorted h24 h8) (fun f hf => ?_) ?_ ?_
    Bins.victim_insert
  · rw [Bins.binned_insert h24 h8, Multiset.mem_cons] at hf
    rcases hf with rfl | hf
    · exact he
    · exact h.mem f hf
  · rw [Bins.binned_insert h24 h8]
    exact Multiset.nodup_cons.mpr ⟨hne, h.nodup⟩
  · rw [Bins.binned_insert h24 h8, Multiset.card_cons]
    exact hroom

/-! ### Removal -/

theorem removeFromList_run (h : Holds X s B) (he : e ∈ B.slots n) (hn : n < NUM_OF_BINS)
    (hr : ListRep s n ((B.slots n).map Prod.fst)) :
    Returns (removeFromList n e.1) s fun _ s' =>
      ListRep s' n (((B.slots n).map Prod.fst).erase e.1) ∧
        LinksOnly {f | f = e ∨ f ∈ B.slots n} s s' ∧ ∀ m, m ≠ n → s'.bin m = s.bin m := by
  have hY : {f | f = e ∨ f ∈ B.slots n} ⊆ X := by
    rintro f (rfl | hf)
    · exact h.mem_slots hn he
    · exact h.mem_slots hn hf
  refine removeFromList_spec (h.spread.mono hY) hn hr (fun a ha => ?_) (h.nodup_addrs hn)
    (List.mem_map_of_mem he)
  obtain ⟨f, hf, rfl⟩ := List.mem_map.mp ha
  exact ⟨f.2, .inr hf⟩

/-- **Removal** of a chunk from the bin of its size. -/
theorem removeChunk_spec (h : Holds X s B) (he : e ∈ B.binned) :
    Returns (removeChunk e.1) s fun _ s' => Holds X s' (B.unbin e) ∧ LinksOnly X s s' ∧
      s'.bin END_OF_HEAP_BIN = s.bin END_OF_HEAP_BIN := by
  obtain ⟨h24, h8, heb⟩ := h.sorted.mem_slots_binOf he
  obtain ⟨h2, h64⟩ := binOf_bounds h24 h8
  have heX : e ∈ X := h.mem_slots h64 heb
  have hrep := h.bin _ h2 h64
  have hsize := h.sized e heX
  -- what happens to the chunk's own bin, by its kind
  have hrun : Returns (removeChunk e.1) s fun _ s' => BinRep s' (B.unbin e) (binOf e.2) ∧
      LinksOnly {f | f = e ∨ f ∈ B.slots (binOf e.2)} s s' ∧
      ∀ m, m ≠ binOf e.2 → s'.bin m = s.bin m := by
    unfold removeChunk
    refine Returns.bind_of_eq (isLargeChunk_apply s e.1) ?_
    rw [hsize]
    by_cases hl : isLargeSize e.2
    · rw [if_pos (by simpa using hl)]
      by_cases hh : isHugeSize e.2
      · -- the huge list, which `remove_large_chunk` hands on to `remove_huge_chunk`
        have hbin : binOf e.2 = HUGE_BIN := by rw [binOf, if_pos hh]
        rw [hbin] at hrep h64 heb ⊢
        rw [BinRep.huge, ← Bins.slots_huge] at hrep
        unfold removeLargeChunk
        refine Returns.bind_of_eq (isHugeChunk_apply s e.1) ?_
        rw [hsize, if_pos (by simpa using hh)]
        refine (h.removeFromList_run heb h64 hrep).mono fun _ s' hpost => ?_
        obtain ⟨h1, h2, h3⟩ := hpost
        refine ⟨?_, h2, h3⟩
        rw [BinRep.huge]
        rw [map_fst_erase fun f hf hfe => h.spread.eq_of_addr (h.mem_slots h64 hf) heX hfe,
          Bins.slots_huge] at h1
        simpa [Bins.unbin, hh] using h1
      · -- a tree
        have hbin : binOf e.2 = largeRequestIndex e.2 := by rw [binOf, if_neg hh, if_pos hl]
        obtain ⟨h32, -⟩ := largeRequestIndex_bounds hl hh h8
        rw [hbin] at hrep h64 heb ⊢
        rw [BinRep.large h32] at hrep
        have hY : {f | f = e ∨ f ∈ B.slots (largeRequestIndex e.2)} ⊆ X := by
          rintro f (rfl | hf)
          · exact heX
          · exact h.mem_slots h64 hf
        have hlarge := h.large_slots h32 h64
        have hlen := h.length_slots h64
        have hnd := h.nodup_addrs h64
        have hin := heb
        rw [Bins.slots_large h32] at hlen hnd hin
        refine (removeLargeChunk_spec (h.spread.mono hY) h64 (fun a ha => ?_) hnd (fun a ha => ?_)
          (by rw [addrs, List.length_map]; exact hlen.le) (h.sorted.routed _ h32 h64)
          (h.sorted.distinct _ h32 h64) hin (.inl rfl) (by rw [hsize]; exact hh) hrep).mono
          fun _ s' hpost => ⟨?_, hpost.2⟩
        · obtain ⟨k, hk, hk'⟩ := hlarge a ha
          exact ⟨k, .inr hk, hk'⟩
        · rw [addrs, ← Bins.slots_large h32] at ha
          obtain ⟨f, hf, rfl⟩ := List.mem_map.mp ha
          rw [h.sized f (h.mem_slots h64 hf)]
          exact (h.sorted.large_of_slots h32 h64 hf).2.2.2
        · rw [BinRep.large h32]
          simpa [Bins.unbin, hh, hl] using hpost.1
    · rw [if_neg (by simpa using hl)]
      have hh : ¬ isHugeSize e.2 := fun hh => hl (by
        have hh' : 16777215 < e.2 := hh
        show 249 < e.2
        omega)
      have hbin : binOf e.2 = smallRequestIndex e.2 := by rw [binOf, if_neg hh, if_neg hl]
      obtain ⟨h3, h32⟩ := smallRequestIndex_bounds hl h24
      have hn2 : smallRequestIndex e.2 ≠ HUGE_BIN := by
        unfold HUGE_BIN
        omega
      rw [hbin] at hrep h64 heb ⊢
      have hmap : (B.slots (smallRequestIndex e.2)).map Prod.fst =
          B.small (smallRequestIndex e.2) := by
        simp [Bins.slots_small hn2 h32, Function.comp_def]
      rw [BinRep.small hn2 h32, ← hmap] at hrep
      unfold removeSmallChunk
      refine Returns.bind_of_eq (chunkSize_apply s e.1) ?_
      rw [hsize]
      refine (h.removeFromList_run heb h64 hrep).mono fun _ s' hpost => ?_
      obtain ⟨h1, h2, h3⟩ := hpost
      refine ⟨?_, h2, h3⟩
      rw [BinRep.small hn2 h32]
      simpa [Bins.unbin, hh, hl, hmap] using h1
  -- the other bins are as they were
  have hbinned := Bins.binned_unbin h.sorted he
  have hle : (B.unbin e).binned ≤ B.binned := hbinned ▸ Multiset.le_cons_self _ _
  refine hrun.mono fun _ s' hpost => h.of_edit heX h24 h8 hpost.2.1 hpost.2.2 hpost.1
    (fun m hm => BinRep.unbin_of_ne hm) (Bins.sorted_unbin h.sorted he)
    (fun f hf => h.mem f (Multiset.mem_of_le hle hf)) (Multiset.nodup_of_le hle h.nodup)
    ((Multiset.card_le_card hle).trans_lt h.few) Bins.victim_unbin

/-- Another victim, or none. -/
theorem set_victim {v : Option Slot} (h : Holds X s B) :
    Holds X (s.setBin VICTIM_BIN (pointer v)) { B with victim := v } where
  spread := h.spread
  sized := fun e he => by
    rw [State.chunkSize, State.load_setBin]
    exact h.sized e he
  sorted := h.sorted.of_victim
  mem := h.mem
  nodup := h.nodup
  few := h.few
  victim := State.bin_setBin_same (by decide)
  bin := fun n h2 hn => (h.bin n h2 hn).of_load (fun _ _ => State.load_setBin)
    (State.bin_setBin_of_ne (by unfold VICTIM_BIN; omega))

/-- **Removal** of a chunk held, the victim or another one. -/
theorem removeChunkOrVictim_spec (h : Holds X s B) (he : e ∈ B.held)
    (hvX : ∀ v, B.victim = some v → v ∈ X) :
    Returns (removeChunkOrVictim e.1) s fun _ s' => Holds X s' (B.remove e) ∧ LinksOnly X s s' ∧
      s'.bin END_OF_HEAP_BIN = s.bin END_OF_HEAP_BIN := by
  have heX : e ∈ X := by
    rcases Multiset.mem_add.mp he with he | he
    · exact hvX e (Bins.mem_victimSlot.mp he)
    · exact h.mem e he
  have hpos := h.spread.pos e heX
  -- the code compares addresses, and chunks apart have different ones
  have hiff : e.1 = s.bin VICTIM_BIN ↔ B.victim = some e := by
    rw [h.victim]
    cases hv : B.victim with
    | none =>
      simp only [pointer_none, NULL, reduceCtorEq, iff_false]
      omega
    | some v =>
      rw [pointer_some, Option.some.injEq]
      exact ⟨fun heq => h.spread.eq_of_addr (hvX v hv) heX heq.symm, fun heq => by rw [heq]⟩
  unfold removeChunkOrVictim
  refine Returns.bind_of_eq (bin_apply s VICTIM_BIN) ?_
  by_cases hv : B.victim = some e
  · rw [if_pos (hiff.mpr hv), Bins.remove, if_pos hv]
    refine .intro (setBin_apply s _ _ victimBin_lt) ⟨h.set_victim (v := none),
      (LinksOnly.refl X s).setBin, State.bin_setBin_of_ne (by decide)⟩
  · rw [if_neg fun h' => hv (hiff.mp h'), Bins.remove, if_neg hv]
    exact (h.removeChunk_spec (Bins.mem_binned_of_held he hv)).bind_of fun _ s' hs => .pure hs

end Holds

end Bins

end Dlmalloc
