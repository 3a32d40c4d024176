import Dlmalloc.Abstract.Heap
import Dlmalloc.Machine.Sizes
import Mathlib.Tactic.Abel

/-!
# The invariant of the heap

* `Shape ext X h` — the chunks tile the heap, the bins are sorted, and the free chunks are those in
  the bins and the loose ones `X`, each once. It holds between any two edits of a call.
* `Inv full ext h` — between calls: the victim is the only loose chunk, and the tags are right.

An edit of the row replaces a segment whose free chunks are all loose (`Shape.edit`), so no chunk in
a bin is touched; the edits of the bins move one chunk between the bins and the loose ones.
-/

namespace Dlmalloc

/-- The values of `EXTENSION_SIZE` considered: those the tuner may choose, if aligned. -/
structure Extension (ext : ℕ) : Prop where
  aligned : 8 ∣ ext
  least : 8 ≤ ext
  most : ext ≤ 2000

theorem extension_default : Extension EXTENSION_SIZE := ⟨by decide, by decide, by decide⟩

/-- A rounded request. -/
structure Request (r : ℕ) : Prop where
  aligned : 8 ∣ r
  least : 24 ≤ r

theorem request_requestSize (size : ℕ) : Request (requestSize size) := by
  rw [requestSize_eq]
  exact ⟨by omega, by omega⟩

/-- A rounded size is rounded no further. -/
theorem requestSize_of_request {r : ℕ} (hq : Request r) (hr : r + 7 < 2 ^ 64) :
    requestSize r = r := by
  have h8 := hq.aligned
  have h24 := hq.least
  rw [requestSize_eq, add64_of_lt hr]
  omega

namespace Heap

/-- The bounds of the simulated heap. -/
structure Arena (start first brk limit : ℕ) : Prop where
  start_pos : 0 < start
  first_aligned : 8 ∣ first
  start_le : start ≤ first
  first_lt : first < start + 8
  brk_le : brk ≤ limit
  limit_eq : limit = start + MAX_HEAP
  /-- The heap is so far from the end of the address space that adding an `int` does not wrap. -/
  span : limit + 2 ^ 31 ≤ 2 ^ 64

/-- The row of chunks and the bins fit together; the chunks of `X` are free and in no bin. -/
structure Shape (ext : ℕ) (X : Multiset Slot) (h : Heap) : Prop where
  arena : Arena h.start h.first h.brk h.limit
  tiles : Tiles h.first h.chunks (h.brk - 8)
  topLast : TopLast h.chunks
  sizes : ∀ c ∈ h.chunks, c.SizeOk ext
  sorted : h.bins.Sorted
  account : X + h.bins.binned = freeSlots h.chunks

/-- The invariant between calls. -/
structure Inv (full : Prop) (ext : ℕ) (h : Heap) : Prop where
  shape : Shape ext h.bins.victimSlot h
  tags : Tags full false h.chunks

/-- The chunks in use. -/
def used (h : Heap) : Multiset Slot := usedSlots h.chunks

section Shape

variable {ext : ℕ} {X : Multiset Slot} {h : Heap} {c d t : Chunk} {e : Slot}
  {pre post C D : List Chunk}

/-! ### Reading the shape -/

theorem Shape.tiles_of (hs : Shape ext X h) (hL : h.chunks = pre ++ post) :
    Tiles h.first (pre ++ post) (h.brk - 8) := hL ▸ hs.tiles

theorem Shape.first_pos (hs : Shape ext X h) : 0 < h.first :=
  hs.arena.start_pos.trans_le hs.arena.start_le

theorem Shape.bounds (hs : Shape ext X h) (hc : c ∈ h.chunks) :
    h.first ≤ c.addr ∧ c.next + 8 ≤ h.brk := by
  obtain ⟨h1, h2⟩ := hs.tiles.bounds hc
  have := hs.first_pos
  simp only [Chunk.next] at *
  omega

theorem Shape.addr_aligned (hs : Shape ext X h) (hc : c ∈ h.chunks) : 8 ∣ c.addr :=
  hs.tiles.aligned hs.arena.first_aligned (fun d hd => (hs.sizes d hd).aligned) c hc

theorem Shape.mem_free (hs : Shape ext X h) (he : e ∈ X ∨ e ∈ h.bins.binned) :
    ∃ pre c post, h.chunks = pre ++ c :: post ∧ c.slot = e ∧ c.status = .free := by
  have hf : e ∈ freeSlots h.chunks := by
    rw [← hs.account, Multiset.mem_add]
    exact he
  obtain ⟨c, hc, hst, hce⟩ := mem_freeSlots.mp hf
  obtain ⟨pre, post, hL⟩ := List.append_of_mem hc
  exact ⟨pre, c, post, hL, hce, hst⟩

/-- The sizes of free chunks are good ones. -/
theorem Shape.free_size (hs : Shape ext X h) (he : e ∈ X ∨ e ∈ h.bins.binned) :
    24 ≤ e.2 ∧ 8 ∣ e.2 := by
  obtain ⟨pre, c, post, hL, rfl, hst⟩ := hs.mem_free he
  have hc : c ∈ h.chunks := by simp [hL]
  have hsz := hs.sizes c hc
  exact ⟨hsz.least (by simp [hst]), hsz.aligned⟩

theorem Shape.nodup (hs : Shape ext X h) : (X + h.bins.binned).Nodup :=
  hs.account ▸ hs.tiles.nodup_freeSlots

theorem Shape.mem_chunks (hL : h.chunks = pre ++ c :: post) : c ∈ h.chunks := by simp [hL]

theorem Shape.exists_next (hs : Shape ext X h) (hL : h.chunks = pre ++ c :: post)
    (hc : c.status ≠ .top) : ∃ d post', post = d :: post' ∧ d.addr = c.next := by
  have ht := hs.topLast
  rw [hL] at ht
  obtain ⟨d, post', rfl⟩ := ht.exists_next hc
  have htl := hs.tiles_of hL
  rw [tiles_mid] at htl
  exact ⟨d, post', rfl, htl.2.1⟩

/-- The end of the heap is the last chunk. -/
theorem Shape.exists_top (hs : Shape ext X h) : ∃ pre t, h.chunks = pre ++ [t] ∧
    t.status = .top ∧ h.top = t.slot ∧ t.next + 8 = h.brk := by
  obtain ⟨pre, t, hL, ht, -⟩ := hs.topLast.exists_top
  have htl := hs.tiles_of hL
  rw [tiles_mid] at htl
  refine ⟨pre, t, hL, ht, by simp [top, hL], ?_⟩
  have := htl.2
  simp only [Tiles, Chunk.next] at this ⊢
  have := hs.first_pos
  have := htl.1.le
  omega

theorem Shape.top_eq (hs : Shape ext X h) (ht : t ∈ h.chunks) (hst : t.status = .top) :
    h.top = t.slot ∧ t.next + 8 = h.brk := by
  obtain ⟨pre, t', hL, -, htop, hbrk⟩ := hs.exists_top
  have hne : ∀ x ∈ pre, x.status ≠ .top := by
    have h' := hs.topLast
    rw [hL] at h'
    exact (topLast_append.mp h').1
  rw [hL, List.mem_append, List.mem_singleton] at ht
  rcases ht with ht | rfl
  · exact absurd hst (hne t ht)
  · exact ⟨htop, hbrk⟩

theorem chunkAt_mid {lo hi : ℕ} (ht : Tiles lo (pre ++ c :: post) hi) :
    chunkAt (pre ++ c :: post) c.addr = some c := by
  have hpre := ht.ne_around.1
  rw [chunkAt, List.find?_append, List.find?_eq_none.mpr (by simpa using hpre)]
  simp

theorem Shape.chunkAt (hs : Shape ext X h) (hc : c ∈ h.chunks) :
    chunkAt h.chunks c.addr = some c := by
  obtain ⟨pre, post, hL⟩ := List.append_of_mem hc
  rw [hL]
  exact chunkAt_mid (hs.tiles_of hL)

theorem Shape.chunkBefore (hs : Shape ext X h) (hL : h.chunks = pre ++ d :: c :: post) :
    chunkBefore h.chunks c.addr = some d := by
  have htl := hs.tiles_of hL
  have hcd : c.addr = d.next := (tiles_mid.mp htl).2.1
  have hpre : ∀ x ∈ pre, x.next ≠ c.addr := fun x hx => by
    have h1 := htl.around.1 x hx
    simp only [hcd, Chunk.next] at *
    omega
  rw [hL, Dlmalloc.chunkBefore, List.find?_append, List.find?_eq_none.mpr (by simpa using hpre)]
  simp [hcd]

/-- A chunk whose `PREVIOUS_INUSE` bit is clear has a free chunk before it. -/
theorem exists_previous {full : Prop} (ht : Tags full false (pre ++ c :: post))
    (hp : c.pinuse = false) : ∃ pre' p, pre = pre' ++ [p] ∧ p.status = .free :=
  exists_of_lastFree ((tags_mid.mp ht).2.1.1 hp)

/-! ### Edits of the row -/

/-- Replace a segment whose free chunks are all loose. -/
theorem Shape.edit {Y Z : Multiset Slot} {P Q : List Chunk} (hs : Shape ext X h)
    (hL : h.chunks = P ++ C ++ Q) (hX : X = freeSlots C + Y)
    (hZ : Z = freeSlots D + Y)
    (htiles : ∀ lo hi, Tiles lo C hi → Tiles lo D hi)
    (htop : ∃ c d ms ms', C = c :: ms ∧ D = d :: ms' ∧
      (TopLast (C ++ Q) → TopLast (D ++ Q)))
    (hsz : (∀ c ∈ C, c.SizeOk ext) → ∀ c ∈ D, c.SizeOk ext) :
    Shape ext Z { h with chunks := P ++ D ++ Q } where
  arena := hs.arena
  tiles := by
    have h' := hs.tiles
    simp only [hL, tiles_append] at h' ⊢
    obtain ⟨m1, ⟨m0, h1, h2⟩, h3⟩ := h'
    exact ⟨m1, ⟨m0, h1, htiles _ _ h2⟩, h3⟩
  topLast := by
    obtain ⟨c, d, ms, ms', rfl, rfl, himp⟩ := htop
    have h' := hs.topLast
    simp only [hL, List.append_assoc, List.cons_append] at h' himp ⊢
    rw [topLast_append] at h' ⊢
    exact ⟨h'.1, himp h'.2⟩
  sizes := fun x hx => by
    have h' := hs.sizes
    rw [hL] at h'
    simp only [List.mem_append] at h' hx
    rcases hx with (hx | hx) | hx
    · exact h' x (.inl (.inl hx))
    · exact hsz (fun y hy => h' y (.inl (.inr hy))) x hx
    · exact h' x (.inr hx)
  sorted := hs.sorted
  account := by
    have h' := hs.account
    rw [hL, hX, freeSlots_append, freeSlots_append] at h'
    -- the bins hold what the rest of the row accounts for
    have hrest : Y + h.bins.binned = freeSlots P + freeSlots Q := by
      apply add_left_cancel (a := freeSlots C)
      rw [← add_assoc, h']
      abel
    simp only
    rw [hZ, freeSlots_append, freeSlots_append, add_assoc, hrest]
    abel

/-- A tag does not change the shape. -/
theorem Shape.tag {b : Bool} (hs : Shape ext X h) (hL : h.chunks = pre ++ c :: post) :
    Shape ext X { h with chunks := pre ++ { c with pinuse := b } :: post } where
  arena := hs.arena
  tiles := by
    have h' := hs.tiles
    rw [hL, tiles_mid] at h'
    exact tiles_mid.mpr h'
  topLast := by
    have h' := hs.topLast
    rw [hL, topLast_append, topLast_cons] at h'
    exact topLast_append.mpr ⟨h'.1, topLast_cons.mpr h'.2⟩
  sizes := fun x hx => by
    have h' := hs.sizes
    rw [hL] at h'
    simp only [List.mem_append, List.mem_cons] at h' hx
    rcases hx with hx | rfl | hx
    · exact h' x (.inl hx)
    · have hc := h' c (.inr (.inl rfl))
      exact ⟨hc.aligned, hc.least, hc.topLeast⟩
    · exact h' x (.inr (.inr hx))
  sorted := hs.sorted
  account := by
    rw [hs.account, hL]
    simp only [freeSlots_append, freeSlots_cons, Chunk.slot]

/-! ### Edits of the bins -/

theorem Shape.of_victim {v : Option Slot} (hs : Shape ext X h) :
    Shape ext X { h with bins := { h.bins with victim := v } } :=
  ⟨hs.arena, hs.tiles, hs.topLast, hs.sizes, hs.sorted.of_victim, hs.account⟩

theorem Shape.unbin (hs : Shape ext X h) (he : e ∈ h.bins.binned) :
    Shape ext (e ::ₘ X) { h with bins := h.bins.unbin e } where
  arena := hs.arena
  tiles := hs.tiles
  topLast := hs.topLast
  sizes := hs.sizes
  sorted := Bins.sorted_unbin hs.sorted he
  account := by
    rw [← hs.account, Bins.binned_unbin hs.sorted he, Multiset.cons_add, Multiset.add_cons]

theorem Shape.insert (hs : Shape ext (e ::ₘ X) h) :
    Shape ext X { h with bins := h.bins.insert e } := by
  obtain ⟨h24, h8⟩ := hs.free_size (.inl (Multiset.mem_cons_self _ _))
  refine ⟨hs.arena, hs.tiles, hs.topLast, hs.sizes, Bins.sorted_insert hs.sorted h24 h8, ?_⟩
  rw [← hs.account, Bins.binned_insert h24 h8, Multiset.cons_add, Multiset.add_cons]

theorem Shape.remove (hs : Shape ext (h.bins.victimSlot + X) h) (he : e ∈ h.bins.held) :
    Shape ext (e ::ₘ ((h.bins.remove e).victimSlot + X)) { h with bins := h.bins.remove e } where
  arena := hs.arena
  tiles := hs.tiles
  topLast := hs.topLast
  sizes := hs.sizes
  sorted := Bins.sorted_remove hs.sorted he
  account := by
    have h1 : e ::ₘ (h.bins.remove e).held = h.bins.held := (Bins.held_remove hs.sorted he).symm
    rw [← hs.account, ← Multiset.singleton_add] at *
    rw [Bins.held, Bins.held] at h1
    calc {e} + ((h.bins.remove e).victimSlot + X) + (h.bins.remove e).binned
        = {e} + ((h.bins.remove e).victimSlot + (h.bins.remove e).binned) + X := by abel
      _ = h.bins.victimSlot + X + h.bins.binned := by rw [h1]; abel

/-- The old victim, put into its bin, is loose no more; `bins.victim` is still to be overwritten. -/
theorem Shape.retire (hs : Shape ext (h.bins.victimSlot + X) h) :
    Shape ext X { h with bins := h.bins.retire } := by
  unfold Bins.retire
  cases hv : h.bins.victim with
  | none =>
    rw [Bins.victimSlot_of_none hv, zero_add] at hs
    exact hs
  | some v =>
    rw [Bins.victimSlot_of_some hv, Multiset.singleton_add] at hs
    exact hs.insert

end Shape

end Heap

end Dlmalloc
