import Dlmalloc.Abstract.Reclaim
import Dlmalloc.Properties.Coalescing

/-!
# Reclamation

In every state reached without a shrinking `my_realloc` that splits: blocks may be freed in any
order with the same outcome, and all of them together leave one chunk (`frees_in_any_order`); a
block that is freed right after its allocation leaves the heap as it was (`free_after_malloc`).
-/

namespace Dlmalloc

open Heap

/-- `my_free` for one pointer after the other. -/
def freeAll : List Addr → M Unit
  | [] => pure ()
  | p :: ps => do
    myFree p
    freeAll ps

/-- The same chunks with the same headers, the same end of the heap and the same victim; and every
bin holds the same chunks, in whatever order. -/
structure SameLayout (s₁ s₂ : State) : Prop where
  chunks : ∃ L, s₁.heapChunks = some L ∧ s₂.heapChunks = some L ∧
    ∀ a ∈ L, s₁.load .currentSize a = s₂.load .currentSize a
  top : s₁.bin END_OF_HEAP_BIN = s₂.bin END_OF_HEAP_BIN
  victim : s₁.bin VICTIM_BIN = s₂.bin VICTIM_BIN
  bins : ∀ n < NUM_OF_BINS, ∃ M₁ M₂, s₁.binMembers n = some M₁ ∧ s₂.binMembers n = some M₂ ∧
    M₁.Perm M₂

/-- A call that does not split a block. -/
def Undivided (N : ℕ) (y : System) (c : Call) : Prop := Sized N y c ∧ ¬ c.Splits y

section Layout

variable {full : Prop} {ext n : ℕ} {h h₁ h₂ : Heap} {s s₁ s₂ : State} {y : System} {σ : Session}

/-- Sorted bins that hold the same chunks hold the same in each bin. -/
theorem Bins.Sorted.slots_perm {B B' : Bins} (hs : B.Sorted) (hs' : B'.Sorted)
    (heq : B.binned = B'.binned) (hnd : B.binned.Nodup) (hn : n < NUM_OF_BINS) :
    (B.slots n).Perm (B'.slots n) := by
  have hmem : ∀ {A : Bins}, A.Sorted → ∀ e, e ∈ A.slots n ↔ e ∈ A.binned ∧ binOf e.2 = n := by
    intro A hA e
    constructor
    · exact fun he => ⟨Bins.mem_binned.mpr ⟨n, hn, he⟩, (hA.size n hn e he).2.2⟩
    · rintro ⟨he, rfl⟩
      exact (hA.mem_slots_binOf he).2.2
  have hnd' : ∀ {A : Bins}, A.binned.Nodup → (A.slots n).Nodup := fun h =>
    Multiset.coe_nodup.mp (Multiset.nodup_of_le (Bins.slots_le_binned hn) h)
  refine (List.perm_ext_iff_of_nodup (hnd' hnd) (hnd' (heq ▸ hnd))).mpr fun e => ?_
  rw [hmem hs, hmem hs', heq]

/-- Heaps with the same row and the same victim are laid out in the same way. -/
theorem sameLayout_of (hm₁ : Models s₁ h₁) (hm₂ : Models s₂ h₂) (j : Inv full ext h₁)
    (hi₂ : Inv full ext h₂) (hL : h₁.chunks = h₂.chunks) (hv : h₁.bins.victim = h₂.bins.victim) :
    SameLayout s₁ s₂ := by
  have hs₁ := j.shape
  have hs₂ := hi₂.shape
  have htop : h₁.top = h₂.top := by rw [top, top, hL]
  -- equal rows and equal victims leave the same chunks to the bins
  have hbinned : h₁.bins.binned = h₂.bins.binned := by
    have h3 := hs₁.account
    have h4 := hs₂.account
    rw [Bins.victimSlot, hv, hL, ← h4, Bins.victimSlot] at h3
    exact (Multiset.add_right_inj).mp h3
  refine ⟨⟨_, hm₁.heapChunks_eq hs₁, hL ▸ hm₂.heapChunks_eq hs₂, fun a ha => ?_⟩, ?_, ?_,
    fun n hn => ⟨_, _, hm₁.members_eq j hn, hm₂.members_eq hi₂ hn, ?_⟩⟩
  · obtain ⟨c, hc, rfl⟩ := List.mem_map.mp ha
    rw [(hm₁.headers c hc).word, (hm₂.headers c (hL ▸ hc)).word]
  · rw [hm₁.top, hm₂.top, htop]
  · rw [hm₁.victim, hm₂.victim, hv]
  · unfold Heap.members
    rw [htop, hv]
    split_ifs
    · exact .refl _
    · exact .refl _
    · exact (Bins.Sorted.slots_perm hs₁.sorted hs₂.sorted hbinned
        (Multiset.nodup_add.mp hs₁.nodup).2.1 hn).map _

/-- Deallocations in memory are those on the row. -/
theorem freeAll_spec {es : List Slot} (hm : Models s h) (hi : Inv True ext h)
    (hes : (es : Multiset Slot) ≤ h.used) : Returns (freeAll (es.map fun e => e.1 + 16)) s
      fun _ s' => Models s' (h.freeAll (es.map Prod.fst)) := by
  induction es generalizing s h with
  | nil => exact .pure hm
  | cons e es ih =>
    have hmem : e ∈ h.used := Multiset.mem_of_le hes (by simp)
    obtain ⟨c, hc, hst, rfl⟩ := mem_usedSlots.mp hmem
    obtain ⟨hi', -, hused⟩ := free_spec hi hc hst
    have hes' : (es : Multiset Slot) ≤ (h.free c.addr).used := by
      rw [hused, ← Multiset.cons_coe] at hes
      exact (Multiset.cons_le_cons_iff _).mp hes
    exact (myFree_spec hm hi hc hst).bind_of fun _ s' hpost => ih hpost.1 hi' hes'

/-- Pointers to distinct live blocks are those of distinct chunks in use. -/
theorem Tracks.slots_of_ptrs (ht : Tracks full ext y σ) {ps : List Addr} (hnd : ps.Nodup)
    (hps : ∀ p ∈ ps, p ∈ y.live.map Block.ptr) : ∃ es : List Slot,
      (es : Multiset Slot) ≤ σ.heap.used ∧ ps = es.map fun e => e.1 + 16 := by
  have hslot : ∀ p ∈ ps, ∃ e ∈ σ.heap.used, p = e.1 + 16 := fun p hp => by
    obtain ⟨b, hb, rfl⟩ := List.mem_map.mp (hps p hp)
    obtain ⟨j, hj⟩ := List.mem_iff_getElem?.mp hb
    obtain ⟨c, hc, hst, hptr, -⟩ := ht.good.chunk (ht.follows.live ▸ hj)
    exact ⟨c.slot, mem_usedSlots.mpr ⟨c, hc, hst, rfl⟩, hptr⟩
  obtain ⟨es, hes, rfl⟩ : ∃ es : List Slot, (∀ e ∈ es, e ∈ σ.heap.used) ∧
      ps = es.map fun e => e.1 + 16 := by
    clear hnd hps
    induction ps with
    | nil => exact ⟨[], by simp, rfl⟩
    | cons p ps ih =>
      obtain ⟨e, he, rfl⟩ := hslot p List.mem_cons_self
      obtain ⟨es, hes, rfl⟩ := ih fun q hq => hslot q (List.mem_cons_of_mem _ hq)
      exact ⟨e :: es, List.forall_mem_cons.mpr ⟨he, hes⟩, rfl⟩
  refine ⟨es, (Multiset.le_iff_subset (Multiset.coe_nodup.mpr hnd.of_map)).mpr fun e he => ?_, rfl⟩
  exact hes e he

/-- Pointers in another order are those of the same chunks. -/
theorem Heap.Shape.slots_eq_of_perm {X : Multiset Slot} {es es' : List Slot} (hs : Shape ext X h)
    (hes : (es : Multiset Slot) ≤ h.used) (hes' : (es' : Multiset Slot) ≤ h.used)
    (hperm : (es'.map fun e => e.1 + 16).Perm (es.map fun e => e.1 + 16)) :
    (es' : Multiset Slot) = es := by
  have hnd := hs.tiles.nodup_usedSlots
  have hsub : ∀ {l l' : List Slot}, (l : Multiset Slot) ≤ h.used → (l' : Multiset Slot) ≤ h.used →
      (l.map fun e => e.1 + 16).Perm (l'.map fun e => e.1 + 16) → ∀ e ∈ l, e ∈ l' := by
    intro l l' hl hl' hp e he
    have h1 : e.1 + 16 ∈ l'.map fun e => e.1 + 16 := hp.mem_iff.mp (List.mem_map_of_mem he)
    obtain ⟨f, hf, hfe⟩ := List.mem_map.mp h1
    obtain ⟨c, hc, -, rfl⟩ := mem_usedSlots.mp (Multiset.mem_of_le hl (Multiset.mem_coe.mpr he))
    obtain ⟨d, hd, -, rfl⟩ := mem_usedSlots.mp (Multiset.mem_of_le hl' (Multiset.mem_coe.mpr hf))
    have haddr : d.addr = c.addr := Nat.add_right_cancel hfe
    rwa [← hs.tiles.eq_of_addr_eq hd hc haddr]
  refine (Multiset.Nodup.ext (Multiset.nodup_of_le hes' hnd) (Multiset.nodup_of_le hes hnd)).mpr
    fun e => ⟨hsub hes' hes hperm e, hsub hes hes' hperm.symm e⟩

/-- Without chunks in use there is one chunk, and the bins are empty. -/
theorem Models.of_no_used (hm : Models s h) (hi : Inv True ext h) (hu : h.used = 0) :
    s.heapChunks = some [s.firstChunk] ∧ s.bin END_OF_HEAP_BIN = s.firstChunk ∧
      ∀ n, 1 ≤ n → n < NUM_OF_BINS → s.bin n = NULL := by
  have hs := hi.shape
  have hrow := row_of_no_used hs.tiles hs.topLast hi.tags hu
  -- the one chunk is the end of the heap, so nothing is binned
  have hfree : h.bins.victimSlot + h.bins.binned = 0 := by
    rw [hs.account, hrow]
    rfl
  have hnone : ∀ e, e ∉ h.bins.victimSlot + h.bins.binned := fun e => by
    rw [hfree]
    exact Multiset.notMem_zero e
  refine ⟨?_, ?_, fun n h1 hn => ?_⟩
  · rw [hm.heapChunks_eq hs, hm.toRep.firstChunk_eq hs, hrow]
    rfl
  · rw [hm.top, hm.toRep.firstChunk_eq hs, Heap.top, hrow]
    rfl
  · rcases h1.eq_or_lt with rfl | h2
    · refine hm.victim.trans ?_
      cases hvic : h.bins.victim with
      | none => rfl
      | some v =>
        exact absurd (Multiset.mem_add.mpr (.inl (Bins.mem_victimSlot.mpr hvic))) (hnone v)
    · have hslots : h.bins.slots n = [] := by
        refine List.eq_nil_iff_forall_not_mem.mpr fun e he => ?_
        exact hnone e (Multiset.mem_add.mpr (.inr (Bins.mem_binned.mpr ⟨n, hn, he⟩)))
      exact hm.toRep.bin_eq_null h2 hn hslots

/-- The victim and the bins hold the free chunks, the end of the heap apart. -/
theorem Models.held_iff (hm : Models s h) (hi : Inv full ext h) {a : Addr} :
    (∃ n M, 1 ≤ n ∧ n < NUM_OF_BINS ∧ s.binMembers n = some M ∧ a ∈ M) ↔
      ∃ c ∈ h.chunks, c.addr = a ∧ c.status = .free := by
  constructor
  · rintro ⟨n, M, h1, hn, hM, ha⟩
    obtain rfl := Option.some.inj ((hm.members_eq hi hn).symm.trans hM)
    obtain ⟨c, hc, hca, hst⟩ := hi.shape.mem_members hn ha
    refine ⟨c, hc, hca, ?_⟩
    rw [if_neg (by unfold END_OF_HEAP_BIN; omega)] at hst
    split_ifs at hst
    · exact hst.2
    · exact hst.2
  · rintro ⟨c, hc, rfl, hst⟩
    obtain ⟨n, ⟨hn, hmem⟩, -⟩ := hi.shape.exists_unique_member hc (by simp [hst])
    refine ⟨n, _, Nat.one_le_iff_ne_zero.mpr fun h0 => ?_, hn, hm.members_eq hi hn, hmem⟩
    obtain ⟨d, hd, hdc, htop⟩ := hi.shape.mem_members hn hmem
    rw [if_pos (show n = END_OF_HEAP_BIN from h0)] at htop
    rw [hi.shape.tiles.eq_of_addr_eq hd hc hdc, hst] at htop
    cases htop

end Layout

variable {y y' : System} {ps qs : List Addr}

theorem Reachable.tracks_undivided (hy : Reachable EXTENSION_SIZE (Undivided LARGEST_SIZE) y) :
    ∃ σ, Tracks True EXTENSION_SIZE y σ :=
  hy.tracks extension_default (N := LARGEST_SIZE) (by decide) (fun _ _ h => h.1)
    fun _ _ _ h hb => h.2 hb.splits

/-- Freeing some live blocks in two orders leads to the same layout. -/
theorem frees_in_any_order (hy : Reachable EXTENSION_SIZE (Undivided LARGEST_SIZE) y)
    (hnd : ps.Nodup) (hps : ∀ p ∈ ps, p ∈ y.live.map Block.ptr) (hqs : qs.Perm ps) :
    ∃ s₁ s₂, freeAll ps y.state = some ((), s₁) ∧ freeAll qs y.state = some ((), s₂) ∧
      SameLayout s₁ s₂ ∧ (ps.length = y.live.length →
        s₁.heapChunks = some [s₁.firstChunk] ∧ s₁.bin END_OF_HEAP_BIN = s₁.firstChunk ∧
        ∀ n, 1 ≤ n → n < NUM_OF_BINS → s₁.bin n = NULL) := by
  obtain ⟨σ, ht⟩ := hy.tracks_undivided
  have hm := ht.follows.models
  have hi := ht.good.inv
  obtain ⟨es, hes, rfl⟩ := ht.slots_of_ptrs hnd hps
  obtain ⟨es', hes', rfl⟩ := ht.slots_of_ptrs (hqs.nodup_iff.mpr hnd)
    fun p hp => hps p (hqs.mem_iff.mp hp)
  have heq := hi.shape.slots_eq_of_perm hes hes' hqs
  obtain ⟨⟨⟩, s₁, hrun₁, hm₁⟩ := freeAll_spec hm hi hes
  obtain ⟨⟨⟩, s₂, hrun₂, hm₂⟩ := freeAll_spec hm hi hes'
  obtain ⟨j, hu₁, hv₁, -, hf₁, hb₁⟩ := hi.freeAll hes
  obtain ⟨hi₂, hu₂, hv₂, -, hf₂, hb₂⟩ := hi.freeAll hes'
  -- both orders leave the same chunks in use
  have hused : (σ.heap.freeAll (es.map Prod.fst)).used =
      (σ.heap.freeAll (es'.map Prod.fst)).used := by
    rw [hu₁, heq] at hu₂
    exact Multiset.add_right_inj.mp hu₂
  have ht₁ := j.shape.tiles
  have ht₂ := hi₂.shape.tiles
  rw [hf₁, hb₁] at ht₁
  rw [hf₂, hb₂] at ht₂
  have hL := row_unique ht₁ ht₂ j.shape.topLast hi₂.shape.topLast j.tags hi₂.tags hused
  have hvic : (σ.heap.freeAll (es.map Prod.fst)).bins.victim =
      (σ.heap.freeAll (es'.map Prod.fst)).bins.victim := by
    refine Option.ext fun v => ?_
    rw [hv₁, hv₂]
    simp only [← Multiset.mem_coe, heq]
  refine ⟨s₁, s₂, hrun₁, hrun₂, sameLayout_of hm₁ hm₂ j hi₂ hL hvic, fun hlen => ?_⟩
  refine hm₁.of_no_used j ?_
  have hall : (es : Multiset Slot) = σ.heap.used := by
    obtain ⟨U, hU, hcov⟩ := ht.good.covers
    refine Multiset.eq_of_le_of_card_le hes ?_
    rw [← hU, Multiset.coe_card, Multiset.coe_card, ← hcov.length_eq, ← ht.follows.live, ← hlen,
      List.length_map]
  rw [hall] at hu₁
  exact add_eq_left.mp hu₁.symm

theorem frees_in_any_order_blank : ∃ y ps, Run EXTENSION_SIZE (Undivided LARGEST_SIZE) (.blank 16)
    [.call (.malloc 100), .call (.malloc 24), .call (.malloc 3000)] ps y ∧
    ∃ s₁ s₂, freeAll [32, 144] y.state = some ((), s₁) ∧ freeAll [144, 32] y.state = some ((), s₂) ∧
      SameLayout s₁ s₂ := by
  obtain ⟨hst, ht⟩ := tracks_blank EXTENSION_SIZE (b := 16) (by decide) (by decide)
  obtain ⟨y, hrun, hy⟩ := ht.exists_run (Undivided LARGEST_SIZE) (N := LARGEST_SIZE)
    [.malloc 100, .malloc 24, .malloc 3000] extension_default (by decide)
    (by decide +kernel) (fun y c hc hv => ⟨hv, by
      simp only [List.mem_cons, List.not_mem_nil, or_false] at hc
      rcases hc with rfl | rfl | rfl <;> exact fun h => h⟩)
  have hlive : y.live = [⟨32, 100⟩, ⟨144, 24⟩, ⟨176, 3000⟩] := by
    rw [hy.follows.live]
    decide +kernel
  obtain ⟨s₁, s₂, h₁, h₂, hsame, -⟩ := frees_in_any_order
    ⟨_, _, _, hst, hrun⟩ (show [32, 144].Nodup by decide) (by rw [hlive]; decide)
    (show [144, 32].Perm [32, 144] by decide)
  exact ⟨y, _, hrun, s₁, s₂, h₁, h₂, hsame⟩

/-- What is left of an allocation after the block is freed at once: nothing but the bytes by which
the end of the heap has grown. -/
structure Restored (s s' : State) : Prop where
  chunks : ∃ L, s.heapChunks = some L ∧ s'.heapChunks = some L ∧
    ∀ a ∈ L, a ≠ s.bin END_OF_HEAP_BIN → s'.load .currentSize a = s.load .currentSize a
  top : s'.bin END_OF_HEAP_BIN = s.bin END_OF_HEAP_BIN
  grown : s.memBrk ≤ s'.memBrk ∧ s'.load .currentSize (s.bin END_OF_HEAP_BIN) =
    s.load .currentSize (s.bin END_OF_HEAP_BIN) + (s'.memBrk - s.memBrk)
  held : ∀ a, (∃ n M, 1 ≤ n ∧ n < NUM_OF_BINS ∧ s'.binMembers n = some M ∧ a ∈ M) ↔
    ∃ n M, 1 ≤ n ∧ n < NUM_OF_BINS ∧ s.binMembers n = some M ∧ a ∈ M

theorem restored_of {ext d : ℕ} {h g : Heap} {s s' : State} (hm : Models s h) (hm' : Models s' g)
    (hi : Inv True ext h) (hi' : Inv True ext g) (hext : Extends h g) (hd : g.brk - h.brk = d)
    (hL : g.chunks = (h.extend d).chunks) : Restored s s' := by
  have hs := hi.shape
  have hs' := hi'.shape
  have hbrk := hext.brk
  have h8 : 8 ∣ d := by
    have h1 := hs.brk_aligned
    have h2 := hs'.brk_aligned
    omega
  have hroom : h.brk + d ≤ h.limit := by
    have h1 := hs'.arena.brk_le
    rw [hext.limit] at h1
    omega
  obtain ⟨-, pre, t, hst, htop, hLt, hLt'⟩ := hs.extend h8 hroom
  rw [← hL] at hLt'
  -- the two rows differ in the size of the last chunk only
  have haddr : g.chunks.map Chunk.addr = h.chunks.map Chunk.addr := by simp [hLt, hLt']
  have htm : t ∈ h.chunks := by simp [hLt]
  have htm' : { t with size := t.size + d } ∈ g.chunks := by simp [hLt']
  have hbin : s.bin END_OF_HEAP_BIN = t.addr := by rw [hm.top, htop]; rfl
  have hgtop : g.top.1 = t.addr := congrArg Prod.fst (hs'.top_eq htm' hst).1
  refine ⟨⟨_, hm.heapChunks_eq hs, haddr ▸ hm'.heapChunks_eq hs', fun a ha hne => ?_⟩, ?_,
    ⟨?_, ?_⟩, fun a => ?_⟩
  · -- the headers before the end of the heap
    obtain ⟨c, hc, rfl⟩ := List.mem_map.mp ha
    have hct : c ≠ t := fun h0 => hne (by rw [hbin, h0])
    have hcpre : c ∈ pre := by
      rw [hLt, List.mem_append, List.mem_singleton] at hc
      exact hc.resolve_right hct
    rw [(hm.headers c hc).word, (hm'.headers c (by simp [hLt', hcpre])).word]
  · rw [hm'.top, hgtop, hbin]
  · rw [hm.memBrk, hm'.memBrk]
    exact hbrk
  · -- the end of the heap has grown by what the break moved
    rw [hbin, (hm.headers t htm).word, (hm'.headers _ htm').word, hm.memBrk, hm'.memBrk, hd]
    simp only [Chunk.word, Chunk.flags]
    omega
  · -- the chunks that the bins and the victim hold
    rw [hm.held_iff hi, hm'.held_iff hi']
    simp only [hLt, hLt', List.mem_append, List.mem_singleton, or_and_right, exists_or,
      exists_eq_left, hst]

/-- A block that is freed right after it was allocated leaves the heap as it was. -/
theorem free_after_malloc (hy : Reachable EXTENSION_SIZE (Undivided LARGEST_SIZE) y) {size : ℕ}
    (hsize : size ≤ LARGEST_SIZE) : ∃ p s', myMalloc EXTENSION_SIZE size y.state = some (p, s') ∧
      (p ≠ NULL → ∃ s'', myFree p s' = some ((), s'') ∧ Restored y.state s'') := by
  obtain ⟨σ, ht⟩ := hy.tracks_undivided
  have hm := ht.follows.models
  have hi := ht.good.inv
  have hbound := requestSize_bound extension_default (N := LARGEST_SIZE) (by decide) hsize
  obtain ⟨p, s', hrun, hans⟩ := myMalloc_spec size hm hi extension_default hbound
  refine ⟨p, s', hrun, fun hp => ?_⟩
  -- served or not
  cases ho : if size = 0 then none else σ.heap.malloc EXTENSION_SIZE (requestSize size) with
  | none =>
    rw [ho] at hans
    exact absurd hans.1 hp
  | some o =>
    obtain ⟨a, h'⟩ := o
    rw [ho] at hans
    obtain ⟨rfl, hm', -⟩ := hans
    split_ifs at ho with h0
    obtain ⟨hi', -, n, -, hused⟩ :=
      malloc_spec hi extension_default (request_requestSize size) ho
    obtain ⟨hi'', hext, hL⟩ := free_malloc hi extension_default (request_requestSize size) ho
    -- the block just given is a chunk in use, so it can be freed
    have hmem : (a, n) ∈ h'.used := by
      rw [hused]
      exact Multiset.mem_cons_self _ _
    obtain ⟨c, hc, hst, hslot⟩ := mem_usedSlots.mp hmem
    obtain rfl : c.addr = a := congrArg Prod.fst hslot
    obtain ⟨⟨⟩, s'', hrun'', hm'', -⟩ := myFree_spec hm' hi' hc hst
    exact ⟨s'', hrun'', restored_of hm hm'' hi hi'' hext rfl hL⟩

/-- The block is cut off the victim. -/
theorem free_after_malloc_busy : ∃ y s' s'', Run EXTENSION_SIZE (Undivided LARGEST_SIZE) (.blank 16)
      (busyCalls.map .call) busyPointers y ∧ y.live = busyLive ∧
    myMalloc EXTENSION_SIZE 500 y.state = some (440, s') ∧ myFree 440 s' = some ((), s'') ∧
    Restored y.state s'' := by
  obtain ⟨y, hst, hrun, hlive, hy⟩ := exists_run_busy (Undivided LARGEST_SIZE) fun _ _ hc hv =>
    ⟨hv, not_splits_busy hc⟩
  obtain ⟨p, s', hmalloc, hfree⟩ := free_after_malloc ⟨_, _, _, hst, hrun⟩
    (show 500 ≤ LARGEST_SIZE by decide)
  -- the pointer is the one of the session
  obtain ⟨y', hcall, -⟩ := hy.call (c := .malloc 500) (N := LARGEST_SIZE) extension_default
    (by decide) (show 500 ≤ LARGEST_SIZE by decide)
  have hp : (busySession.call EXTENSION_SIZE (.malloc 500)).1 = 440 := by
    decide +kernel
  rw [hp, Call.run, hmalloc] at hcall
  obtain ⟨rfl, -⟩ := Prod.mk.inj (Option.some.inj hcall)
  obtain ⟨s'', hfreed, hrestored⟩ := hfree (by decide)
  exact ⟨y, s', s'', hrun, hlive, hmalloc, hfreed, hrestored⟩

end Dlmalloc
