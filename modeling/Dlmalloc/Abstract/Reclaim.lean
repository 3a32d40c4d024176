import Dlmalloc.Abstract.Coalesced
import Dlmalloc.Abstract.Free
import Dlmalloc.Abstract.Malloc

/-!
# What deallocation leaves behind

In a fully coalesced heap the row after some blocks were freed does not depend on the order, since
it is determined by the blocks left (`row_unique`). Nor does the victim: it is lost as soon as a
neighbour is freed, and not otherwise (`victim_freeAll`). An allocation that is freed at once leaves
the row as it was, but for the bytes the heap was extended by (`free_malloc`).
-/

namespace Dlmalloc

namespace Heap

/-- Two chunks lie next to each other. -/
def Adjacent (e f : Slot) : Prop := e.1 + e.2 + 8 = f.1 ∨ f.1 + f.2 + 8 = e.1

instance (e f : Slot) : Decidable (Adjacent e f) := inferInstanceAs (Decidable (_ ∨ _))

/-- Free the blocks in the chunks at the addresses given, one after the other. -/
def freeAll (as : List ℕ) (h : Heap) : Heap := as.foldl (fun h a => h.free a) h

section Free

variable {full : Prop} {ext a r : ℕ} {h h' : Heap} {c d : Chunk} {e v : Slot}
  {pre post : List Chunk}

/-- Deallocation leaves the bounds of the heap as they are. -/
theorem bounds_free : (h.free a).start = h.start ∧ (h.free a).first = h.first ∧
    (h.free a).brk = h.brk ∧ (h.free a).limit = h.limit := by
  -- the two steps edit the row and the bins only
  have hsettle : ∀ (e : Slot) (g : Heap), (g.settle e).start = g.start ∧
      (g.settle e).first = g.first ∧ (g.settle e).brk = g.brk ∧ (g.settle e).limit = g.limit := by
    intro e g
    unfold settle
    split
    · exact ⟨rfl, rfl, rfl, rfl⟩
    · split <;> exact ⟨rfl, rfl, rfl, rfl⟩
  have hprev : ∀ (c : Chunk) (g : Heap), (coalescePrevious c g).2.start = g.start ∧
      (coalescePrevious c g).2.first = g.first ∧ (coalescePrevious c g).2.brk = g.brk ∧
      (coalescePrevious c g).2.limit = g.limit := by
    intro c g
    unfold coalescePrevious
    split
    · exact ⟨rfl, rfl, rfl, rfl⟩
    · split <;> exact ⟨rfl, rfl, rfl, rfl⟩
  unfold free
  split
  · exact ⟨rfl, rfl, rfl, rfl⟩
  · next c _ =>
    obtain ⟨h1, h2, h3, h4⟩ := hprev { c with status := .free } (h.release c)
    obtain ⟨g1, g2, g3, g4⟩ := hsettle (coalescePrevious { c with status := .free } (h.release c)).1
      (coalescePrevious { c with status := .free } (h.release c)).2
    exact ⟨g1.trans h1, g2.trans h2, g3.trans h3, g4.trans h4⟩

/-- The victim is a free chunk of the row. -/
theorem Inv.victim_mem (hi : Inv full ext h) (hv : h.bins.victim = some v) :
    ∃ x ∈ h.chunks, x.status = .free ∧ x.slot = v := by
  obtain ⟨pre, x, post, hL, hx, hst⟩ := hi.shape.mem_free (.inl (Bins.mem_victimSlot.mpr hv))
  exact ⟨x, Shape.mem_chunks hL, hst, hx⟩

theorem Bins.victim_remove {B : Bins} :
    (B.remove e).victim = some v ↔ B.victim = some v ∧ v ≠ e := by
  unfold Bins.remove
  split_ifs with hv
  · rw [hv]
    simp only [Option.some.injEq, false_iff]
    rintro ⟨rfl, h⟩
    exact h rfl
  · rw [Bins.victim_unbin]
    refine ⟨fun h => ⟨h, ?_⟩, And.left⟩
    rintro rfl
    exact hv h

/-- The chunk that ends where `c` begins. -/
theorem Shape.eq_last {X : Multiset Slot} {x p : Chunk} (hs : Shape ext X h)
    (hL : h.chunks = pre ++ p :: c :: post) (hx : x ∈ h.chunks) (hnext : x.next = c.addr) :
    x = p := by
  have hp : p ∈ h.chunks := Shape.mem_chunks hL
  have h1 : c.addr = p.next := (tiles_mid.mp (hs.tiles_of hL)).2.1
  exact hs.tiles.eq_of_next_eq hx hp (hnext.trans h1)

/-- Merging with the chunk before loses the victim if it was that chunk. -/
theorem Inv.victim_coalescePrevious (hi : Inv True ext h) (hL : h.chunks = pre ++ c :: post)
    (hc : c.status = .inuse) :
    (coalescePrevious { c with status := .free } (h.release c)).2.bins.victim = some v ↔
      h.bins.victim = some v ∧ v.1 + v.2 + 8 ≠ c.addr := by
  have hs := hi.shape
  have htags := hi.tags
  rw [hL, tags_mid] at htags
  obtain ⟨d, post', rfl, -⟩ := hs.exists_next hL (by simp [hc])
  obtain ⟨heq, hs'⟩ := release_eq hs hL hc
  -- a victim that ends at `c` is the chunk before it
  have hlast : ∀ v, h.bins.victim = some v → v.1 + v.2 + 8 = c.addr →
      ∃ pre' p, pre = pre' ++ [p] ∧ p.status = .free ∧ p.slot = v := by
    intro v hv hend
    obtain ⟨x, hx, hst, rfl⟩ := hi.victim_mem hv
    rcases List.eq_nil_or_concat pre with rfl | ⟨pre', p, rfl⟩
    · have h1 := hs.bounds hx
      have h2 := hs.tiles
      rw [hL] at h2
      have h3 : c.addr = h.first := h2.1
      simp only [Chunk.slot] at hend
      omega
    · rw [List.concat_eq_append] at hL ⊢
      have hL' : h.chunks = pre' ++ p :: c :: d :: post' := by simp [hL]
      have hxp := hs.eq_last hL' hx (by simpa [Chunk.next, Chunk.slot] using hend)
      exact ⟨pre', p, rfl, hxp ▸ hst, by rw [hxp]⟩
  unfold coalescePrevious
  cases hp : c.pinuse with
  | true =>
    rw [if_pos rfl]
    show h.bins.victim = some v ↔ _
    refine ⟨fun hv => ⟨hv, fun hend => ?_⟩, And.left⟩
    obtain ⟨pre', p, rfl, hst, -⟩ := hlast v hv hend
    have h2 := (htags.2.1.2 trivial (by rw [lastFree_concat]; simp [hst])).1
    rw [hp] at h2
    cases h2
  | false =>
    obtain ⟨pre', p, rfl, hfree⟩ := exists_of_lastFree (htags.2.1.1 hp)
    have hL1 : (h.release c).chunks = pre' ++ p :: { c with status := .free } ::
        { d with pinuse := false } :: post' := by
      rw [heq]
      simp
    have hbefore : chunkBefore (h.release c).chunks c.addr = some p :=
      hs'.chunkBefore (c := { c with status := .free }) hL1
    have hend : p.slot.1 + p.slot.2 + 8 = c.addr := by
      have hL' : h.chunks = pre' ++ p :: c :: d :: post' := by simp [hL]
      exact (tiles_mid.mp (hs.tiles_of hL')).2.1.symm
    rw [if_neg (by simp), hbefore]
    show (h.bins.remove p.slot).victim = some v ↔ _
    rw [Bins.victim_remove]
    refine and_congr_right fun hv => not_congr ⟨fun h0 => h0 ▸ hend, fun h0 => ?_⟩
    obtain ⟨pre₂, q, hq, -, rfl⟩ := hlast v hv h0
    rw [List.head_eq_of_cons_eq (List.append_inj' hq rfl).2]

/-- **The victim after a deallocation** is lost if it was a neighbour. -/
theorem Inv.victim_free (hi : Inv True ext h) (hc : c ∈ h.chunks) (hst : c.status = .inuse) :
    (h.free c.addr).bins.victim = some v ↔ h.bins.victim = some v ∧ ¬ Adjacent v c.slot := by
  obtain ⟨pre, post, hL⟩ := List.append_of_mem hc
  obtain ⟨d, post', rfl, hd⟩ := hi.shape.exists_next hL (by simp [hst])
  obtain ⟨pre', f, h₁, hl, heq, -, -⟩ := coalescePrevious_spec hi hL hst
  have hvic := hi.victim_coalescePrevious (v := v) hL hst
  rw [heq] at hvic
  have hfree : h.free c.addr = h₁.settle f.slot := by
    rw [free, hi.shape.chunkAt hc]
    simp only [heq]
  have hdm : d ∈ h.chunks := by simp [hL]
  -- a victim that begins behind `c` is the chunk there, and free
  have hsettle : (h₁.settle f.slot).bins.victim = some v ↔
      h₁.bins.victim = some v ∧ v.1 ≠ d.addr := by
    have hvd : h₁.bins.victim = some v → v.1 = d.addr →
        v = d.slot ∧ d.status = .free := fun hv h0 => by
      have hmem : v ∈ freeSlots h₁.chunks := by
        rw [← hl.shape.account, Multiset.mem_add, Multiset.mem_cons]
        exact .inl (.inr (Bins.mem_victimSlot.mpr hv))
      obtain ⟨x, hx, hxst, rfl⟩ := mem_freeSlots.mp hmem
      obtain rfl := hl.shape.tiles.eq_of_addr_eq hx hl.next_mem h0
      exact ⟨rfl, hxst⟩
    rw [settle, hl.chunkAt_next]
    cases hdst : d.status with
    | inuse =>
      simp only [Bins.victim_insert]
      refine ⟨fun hv => ⟨hv, fun h0 => ?_⟩, And.left⟩
      rw [hdst] at hvd
      cases (hvd hv h0).2
    | free =>
      simp only [Bins.victim_insert]
      rw [Bins.victim_remove]
      exact and_congr_right fun hv => not_congr
        ⟨fun h0 => congrArg Prod.fst h0, fun h0 => (hvd hv h0).1⟩
    | top =>
      simp only
      refine ⟨fun hv => ⟨hv, fun h0 => ?_⟩, And.left⟩
      rw [hdst] at hvd
      cases (hvd hv h0).2
  rw [hfree, hsettle, hvic, hd, Adjacent, not_or, and_assoc]
  simp only [Chunk.slot, Chunk.next, ne_eq, eq_comm]

/-- **Deallocations**, one after the other: what is left in use, and the victim. -/
theorem Inv.freeAll {es : List Slot} (hi : Inv True ext h) (hes : (es : Multiset Slot) ≤ h.used) :
    Inv True ext (h.freeAll (es.map Prod.fst)) ∧
      h.used = es + (h.freeAll (es.map Prod.fst)).used ∧
      (∀ v, (h.freeAll (es.map Prod.fst)).bins.victim = some v ↔
        h.bins.victim = some v ∧ ∀ e ∈ es, ¬ Adjacent v e) ∧
      (h.freeAll (es.map Prod.fst)).start = h.start ∧
      (h.freeAll (es.map Prod.fst)).first = h.first ∧
      (h.freeAll (es.map Prod.fst)).brk = h.brk := by
  induction es generalizing h with
  | nil => exact ⟨hi, by simp [Heap.freeAll], by simp [Heap.freeAll], rfl, rfl, rfl⟩
  | cons e es ih =>
    have hmem : e ∈ h.used := Multiset.mem_of_le hes (by simp)
    obtain ⟨c, hc, hst, rfl⟩ := mem_usedSlots.mp hmem
    obtain ⟨hi', -, hused⟩ := free_spec hi hc hst
    obtain ⟨hb1, hb2, hb3, -⟩ := bounds_free (h := h) (a := c.addr)
    have hes' : (es : Multiset Slot) ≤ (h.free c.addr).used := by
      rw [hused, ← Multiset.cons_coe] at hes
      exact (Multiset.cons_le_cons_iff _).mp hes
    obtain ⟨h1, h2, h3, h4, h5, h6⟩ := ih hi' hes'
    -- one deallocation, then the rest
    have hstep : h.freeAll ((c.slot :: es).map Prod.fst) =
        (h.free c.addr).freeAll (es.map Prod.fst) := rfl
    rw [hstep]
    refine ⟨h1, ?_, fun v => ?_, h4.trans hb1, h5.trans hb2, h6.trans hb3⟩
    · rw [hused, h2, ← Multiset.cons_coe, Multiset.cons_add]
    · rw [h3, hi.victim_free hc hst, List.forall_mem_cons, and_assoc]

end Free

section Malloc

variable {full : Prop} {ext a d r : ℕ} {h h' : Heap} {e : Slot}

/-- The heap begins where it did, and has not shrunk. -/
structure Extends (h h' : Heap) : Prop where
  start : h'.start = h.start
  first : h'.first = h.first
  limit : h'.limit = h.limit
  brk : h.brk ≤ h'.brk

theorem Extends.refl (h : Heap) : Extends h h := ⟨rfl, rfl, rfl, le_rfl⟩

theorem extends_victimMalloc (hm : victimMalloc r h = some (a, h')) : Extends h h' := by
  unfold victimMalloc at hm
  split at hm
  · cases hm
  · split_ifs at hm <;> obtain ⟨-, rfl⟩ := Prod.mk.inj (Option.some.inj hm) <;>
      exact ⟨rfl, rfl, rfl, le_rfl⟩

theorem extends_takeBinned : Extends h (takeBinned r h e).2 := by
  unfold takeBinned splitOffVictim
  split_ifs <;> exact ⟨rfl, rfl, rfl, le_rfl⟩

/-- Allocation never moves the start of the heap. -/
theorem extends_supply (hm : supply ext r h = some (a, h')) : Extends h h' := by
  rw [supply, Option.or_eq_some_iff] at hm
  rcases hm with hm | ⟨-, hm⟩
  · -- from a bin or from the victim: the break stays
    split_ifs at hm
    · unfold largeMalloc at hm
      split_ifs at hm
      · obtain ⟨e, -, he⟩ := Option.map_eq_some_iff.mp hm
        obtain ⟨-, rfl⟩ := Prod.mk.inj he
        exact ⟨rfl, rfl, rfl, le_rfl⟩
      · rw [Option.or_eq_some_iff] at hm
        rcases hm with hm | ⟨-, hm⟩
        · exact extends_victimMalloc hm
        · obtain ⟨e, -, he⟩ := Option.map_eq_some_iff.mp hm
          have h1 := extends_takeBinned (r := r) (h := h) (e := e)
          rwa [he] at h1
    · unfold smallMalloc at hm
      split at hm
      · obtain ⟨-, rfl⟩ := Prod.mk.inj (Option.some.inj hm)
        exact ⟨rfl, rfl, rfl, le_rfl⟩
      · rw [Option.or_eq_some_iff] at hm
        rcases hm with hm | ⟨-, hm⟩
        · exact extends_victimMalloc hm
        · obtain ⟨e, -, he⟩ := Option.map_eq_some_iff.mp hm
          have h1 := extends_takeBinned (r := r) (h := h) (e := e)
          rwa [he] at h1
  · -- from the end of the heap: the break may move up
    unfold endMalloc at hm
    simp only at hm
    split_ifs at hm
    · obtain ⟨-, rfl⟩ := Prod.mk.inj (Option.some.inj hm)
      exact ⟨rfl, rfl, rfl, le_rfl⟩
    · obtain ⟨-, rfl⟩ := Prod.mk.inj (Option.some.inj hm)
      exact ⟨rfl, rfl, rfl, Nat.le_add_right _ _⟩

theorem extends_malloc (hm : malloc ext r h = some (a, h')) : Extends h h' := by
  obtain ⟨⟨b, h₁⟩, hsup, hocc⟩ := Option.map_eq_some_iff.mp hm
  obtain ⟨-, rfl⟩ := Prod.mk.inj hocc
  have h1 := extends_supply hsup
  unfold occupy
  split
  · exact h1
  · exact ⟨h1.start, h1.first, h1.limit, h1.brk⟩

/-- The break is aligned. -/
theorem Shape.brk_aligned {X : Multiset Slot} (hs : Shape ext X h) : 8 ∣ h.brk := by
  obtain ⟨pre, t, hL, -, -, hnext⟩ := hs.exists_top
  have htm : t ∈ h.chunks := by simp [hL]
  have h1 := hs.addr_aligned htm
  have h2 := (hs.sizes t htm).aligned
  simp only [Chunk.next] at hnext
  omega

/-- The extension of the last chunk keeps the invariant. -/
theorem Inv.extend (hi : Inv full ext h) (hd : 8 ∣ d) (hbrk : h.brk + d ≤ h.limit) :
    Inv full ext (h.extend d) := by
  obtain ⟨hs, pre, t, ht, -, hL, hchunks⟩ := hi.shape.extend hd hbrk
  refine ⟨hs, ?_⟩
  have h1 := hi.tags
  rw [hL, tags_append] at h1
  rw [hchunks, tags_append]
  exact h1

/-- **An allocation freed at once** leaves the row as it was, with what the heap was extended by in
its last chunk. -/
theorem free_malloc (hi : Inv True ext h) (hx : Extension ext) (hr : Request r)
    (hm : malloc ext r h = some (a, h')) :
    Inv True ext (h'.free a) ∧ Extends h (h'.free a) ∧
      (h'.free a).chunks = (h.extend ((h'.free a).brk - h.brk)).chunks := by
  obtain ⟨hi', -, n, -, hused⟩ := malloc_spec hi hx hr hm
  have hext := extends_malloc hm
  have hmem : (a, n) ∈ h'.used := by
    rw [hused]
    exact Multiset.mem_cons_self _ _
  obtain ⟨c, hc, hst, hslot⟩ := mem_usedSlots.mp hmem
  obtain rfl : c.addr = a := congrArg Prod.fst hslot
  obtain ⟨hi'', -, hused'⟩ := free_spec hi' hc hst
  obtain ⟨hb1, hb2, hb3, hb4⟩ := bounds_free (h := h') (a := c.addr)
  have hext' : Extends h (h'.free c.addr) :=
    ⟨hb1.trans hext.start, hb2.trans hext.first, hb4.trans hext.limit, hb3 ▸ hext.brk⟩
  -- the same blocks are in use as before
  have hsame : (h'.free c.addr).used = h.used := by
    rw [hused, hslot] at hused'
    exact ((Multiset.cons_inj_right _).mp hused').symm
  obtain ⟨k, hk⟩ := Nat.exists_eq_add_of_le hext'.brk
  have hk' : (h'.free c.addr).brk - h.brk = k := by omega
  have h8 : 8 ∣ k := by
    have h1 := hi.shape.brk_aligned
    have h2 := hi''.shape.brk_aligned
    omega
  have hroom : h.brk + k ≤ h.limit := by
    have h1 := hi''.shape.arena.brk_le
    rw [hext'.limit] at h1
    omega
  have hie := hi.extend h8 hroom
  rw [hk']
  refine ⟨hi'', hext', ?_⟩
  have ht := hi''.shape.tiles
  rw [hext'.first, hk] at ht
  refine row_unique ht hie.shape.tiles hi''.shape.topLast hie.shape.topLast hi''.tags hie.tags ?_
  have hue := hi.shape.used_extend h8 hroom
  rw [Heap.used] at hue hsame
  rw [hsame, hue]

end Malloc

end Heap

end Dlmalloc
