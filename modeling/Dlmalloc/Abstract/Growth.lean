import Dlmalloc.Abstract.Reclaim
import Dlmalloc.Abstract.Session

/-!
# Growth of the heap

Only the end of the heap is ever extended, and only when the bins have nothing for the request. A
call moves the break up by at most its charge, the rounded request and `EXTENSION_SIZE` (`Grows`),
and it fails only where the charge reaches past the limit. The bound is the same for a reallocation
that grows into the end of the heap: what it needs in addition, the header of a second chunk, is no
more than the block and its header have already.
-/

namespace Dlmalloc

namespace Heap

/-- The heap was extended by at most `n` bytes. -/
structure Grows (n : ℕ) (h h' : Heap) : Prop extends Extends h h' where
  most : h'.brk ≤ h.brk + n

section Grow

variable {full : Prop} {ext a b m n r : ℕ} {h h' h'' : Heap} {c : Chunk} {e : Slot}
  {pre post : List Chunk}

theorem Grows.of_eq (hstart : h'.start = h.start) (hfirst : h'.first = h.first)
    (hlimit : h'.limit = h.limit) (hbrk : h'.brk = h.brk) : Grows n h h' :=
  ⟨⟨hstart, hfirst, hlimit, hbrk.ge⟩, hbrk ▸ Nat.le_add_right _ _⟩

theorem Grows.refl (h : Heap) : Grows n h h := .of_eq rfl rfl rfl rfl

theorem Grows.trans (h1 : Grows m h h') (h2 : Grows n h' h'') : Grows (m + n) h h'' where
  start := h2.start.trans h1.start
  first := h2.first.trans h1.first
  limit := h2.limit.trans h1.limit
  brk := h1.brk.trans h2.brk
  most := by
    have := h1.most
    have := h2.most
    omega

theorem Grows.mono (hg : Grows m h h') (hmn : m ≤ n) : Grows n h h' :=
  ⟨hg.toExtends, hg.most.trans (Nat.add_le_add_left hmn _)⟩

/-! ### Allocation -/

theorem grows_victimMalloc (hm : victimMalloc r h = some (a, h')) : Grows n h h' := by
  unfold victimMalloc at hm
  split at hm
  · cases hm
  · split_ifs at hm <;> obtain ⟨-, rfl⟩ := Prod.mk.inj (Option.some.inj hm) <;>
      exact .of_eq rfl rfl rfl rfl

theorem grows_takeBinned : Grows n h (takeBinned r h e).2 := by
  unfold takeBinned splitOffVictim
  split_ifs <;> exact .of_eq rfl rfl rfl rfl

theorem grows_largeMalloc (hm : largeMalloc r h = some (a, h')) : Grows n h h' := by
  unfold largeMalloc at hm
  split_ifs at hm
  · obtain ⟨e, -, he⟩ := Option.map_eq_some_iff.mp hm
    obtain ⟨-, rfl⟩ := Prod.mk.inj he
    exact .of_eq rfl rfl rfl rfl
  · rcases Option.or_eq_some_iff.mp hm with hm | ⟨-, hm⟩
    · exact grows_victimMalloc hm
    · obtain ⟨e, -, he⟩ := Option.map_eq_some_iff.mp hm
      have h1 : Grows n h (takeBinned r h e).2 := grows_takeBinned
      rwa [he] at h1

theorem grows_smallMalloc (hm : smallMalloc r h = some (a, h')) : Grows n h h' := by
  unfold smallMalloc at hm
  split at hm
  · obtain ⟨-, rfl⟩ := Prod.mk.inj (Option.some.inj hm)
    exact .of_eq rfl rfl rfl rfl
  · rcases Option.or_eq_some_iff.mp hm with hm | ⟨-, hm⟩
    · exact grows_victimMalloc hm
    · obtain ⟨e, -, he⟩ := Option.map_eq_some_iff.mp hm
      have h1 : Grows n h (takeBinned r h e).2 := grows_takeBinned
      rwa [he] at h1

theorem grows_endMalloc (hm : endMalloc ext r h = some (a, h')) : Grows (r + ext) h h' := by
  simp only [endMalloc] at hm
  split_ifs at hm
  · obtain ⟨-, rfl⟩ := Prod.mk.inj (Option.some.inj hm)
    exact .of_eq rfl rfl rfl rfl
  · obtain ⟨-, rfl⟩ := Prod.mk.inj (Option.some.inj hm)
    exact ⟨⟨rfl, rfl, rfl, Nat.le_add_right _ _⟩, Nat.add_le_add_left (Nat.sub_le _ _) _⟩

theorem grows_malloc (hm : malloc ext r h = some (a, h')) : Grows (r + ext) h h' := by
  obtain ⟨⟨b, h₁⟩, hsup, hocc⟩ := Option.map_eq_some_iff.mp hm
  obtain ⟨-, rfl⟩ := Prod.mk.inj hocc
  have h1 : Grows (r + ext) h h₁ := by
    rcases Option.or_eq_some_iff.mp hsup with hbins | ⟨-, hend⟩
    · split_ifs at hbins
      · exact grows_largeMalloc hbins
      · exact grows_smallMalloc hbins
    · exact grows_endMalloc hend
  unfold occupy
  split
  · exact h1
  · exact ⟨⟨h1.start, h1.first, h1.limit, h1.brk⟩, h1.most⟩

/-- An allocation fails only where the heap cannot be extended by its charge. -/
theorem malloc_ne_none_of_room (hext : 32 ≤ ext) (hroom : h.brk + (r + ext) ≤ h.limit) :
    malloc ext r h ≠ none := by
  intro hnone
  have hend := (Option.or_eq_none_iff.mp (Option.map_eq_none_iff.mp hnone)).2
  have hmin : SMALLEST_CHUNK = 32 := rfl
  simp only [endMalloc] at hend
  split_ifs at hend with h1 h2
  exact h2 ⟨by omega, by omega⟩

/-! ### Reallocation -/

theorem grows_free : Grows n h (h.free a) := by
  obtain ⟨h1, h2, h3, h4⟩ := bounds_free (h := h) (a := a)
  exact .of_eq h1 h2 h4 h3

theorem grows_settle : Grows n h (h.settle e) := by
  unfold settle
  split
  · exact .refl h
  · split <;> exact .of_eq rfl rfl rfl rfl

theorem grows_shrink : Grows n h (h.shrink c r) := by
  unfold shrink
  split_ifs
  · have h1 : Grows n { h with chunks := trim c.addr r .free h.chunks }
        (settle (c.addr + r + 8, c.size - r - 8)
          { h with chunks := trim c.addr r .free h.chunks }) := grows_settle
    exact ⟨⟨h1.start, h1.first, h1.limit, h1.brk⟩, h1.most⟩
  · exact .refl h

theorem grows_resize : Grows n h (resize a m r h) := by
  unfold resize
  split_ifs <;> exact .of_eq rfl rfl rfl rfl

/-- The ways to grow over free neighbours leave the bounds as they are. -/
theorem grows_over (hm : growAfter c r h = some (a, h') ∨ growAround c r h = some (a, h') ∨
    growBefore c r h = some (a, h')) : Grows n h h' := by
  have hresize : ∀ (b m : ℕ) (L : List Chunk) (B : Bins),
      Grows n h (resize b m r { h with chunks := L, bins := B }) := fun b m L B => by
    have h1 : Grows n { h with chunks := L, bins := B }
      (resize b m r { h with chunks := L, bins := B }) := grows_resize
    exact ⟨⟨h1.start, h1.first, h1.limit, h1.brk⟩, h1.most⟩
  -- each of the three merges, then cuts down
  rcases hm with hm | hm | hm
  · unfold growAfter at hm
    split at hm
    · cases hm
    · split_ifs at hm
      obtain ⟨-, rfl⟩ := Prod.mk.inj (Option.some.inj hm)
      exact hresize _ _ _ _
  · unfold growAround at hm
    split_ifs at hm
    split at hm
    · split_ifs at hm
      obtain ⟨-, rfl⟩ := Prod.mk.inj (Option.some.inj hm)
      exact hresize _ _ _ _
    · cases hm
  · unfold growBefore at hm
    split_ifs at hm
    split at hm
    · split_ifs at hm
      obtain ⟨-, rfl⟩ := Prod.mk.inj (Option.some.inj hm)
      exact hresize _ _ _ _
    · cases hm

theorem grows_growTop (hsize : 24 ≤ c.size) (hm : growTop ext c r h = some (a, h')) :
    Grows (r + ext) h h' := by
  unfold growTop at hm
  split_ifs at hm
  obtain ⟨-, rfl⟩ := Prod.mk.inj (Option.some.inj hm)
  refine ⟨⟨rfl, rfl, rfl, Nat.le_add_right _ _⟩, Nat.add_le_add_left ?_ _⟩
  have hmin : SMALLEST_CHUNK = 32 := rfl
  simp only [shortage]
  split_ifs <;> omega

theorem grows_realloc (hi : Inv full ext h) (hc : c ∈ h.chunks) (hst : c.status = .inuse)
    (hm : realloc ext c.addr r h = some (a, h')) : Grows (r + ext) h h' := by
  have hsize := (hi.shape.sizes c hc).least (by simp [hst])
  rw [realloc, hi.shape.chunkAt hc] at hm
  simp only [ite_eq_iff, Option.or_eq_some_iff] at hm
  rcases hm with ⟨-, hm⟩ | ⟨-, hm | ⟨-, hm | ⟨-, hm | ⟨-, hm | ⟨-, hm⟩⟩⟩⟩⟩
  · obtain ⟨-, rfl⟩ := Prod.mk.inj (Option.some.inj hm)
    exact grows_shrink
  · exact grows_over (.inl hm)
  · exact grows_over (.inr (.inl hm))
  · exact grows_over (.inr (.inr hm))
  · exact grows_growTop hsize hm
  · obtain ⟨⟨b, h₁⟩, hmal, hfree⟩ := Option.map_eq_some_iff.mp hm
    obtain ⟨-, rfl⟩ := Prod.mk.inj hfree
    exact (grows_malloc hmal).trans (n := 0) grows_free

theorem realloc_ne_none_of_room (hi : Inv full ext h) (hc : c ∈ h.chunks) (hext : 32 ≤ ext)
    (hroom : h.brk + (r + ext) ≤ h.limit) : realloc ext c.addr r h ≠ none := by
  rw [realloc, hi.shape.chunkAt hc]
  intro hnone
  simp only [ite_eq_iff, reduceCtorEq, and_false, false_or, Option.or_eq_none_iff] at hnone
  exact malloc_ne_none_of_room hext hroom (Option.map_eq_none_iff.mp hnone.2.2.2.2.2)

end Grow

end Heap

/-! ### Sessions -/

/-- What a call may add to the heap: the size it asks for, rounded, and `EXTENSION_SIZE`. -/
def Call.charge (ext : ℕ) (c : Call) : ℕ := c.asks.elim 0 fun size => requestSize size + ext

/-- What a list of calls may add to the heap. -/
def charges (ext : ℕ) (cs : List Call) : ℕ := (cs.map (Call.charge ext)).sum

namespace Session

open Heap

section Call

variable {full : Prop} {ext N : ℕ} {σ : Session} {c : Call} {cs : List Call}

/-- **A call extends the heap by at most its charge.** -/
theorem Good.call_grows (hg : σ.Good full ext) :
    Grows (c.charge ext) σ.heap (σ.call ext c).2.heap := by
  cases c with
  | malloc size =>
    simp only [Session.call]
    split
    · exact .refl _
    · next a h' hm =>
      split_ifs at hm
      exact grows_malloc hm
  | realloc i size =>
    simp only [Session.call]
    split
    · exact .refl _
    · next b hb =>
      split
      · exact .refl _
      · next a h' hm =>
        obtain ⟨d, hd, hst, hptr, -⟩ := hg.chunk hb
        rw [hptr, Nat.add_sub_cancel] at hm
        exact grows_realloc hg.inv hd hst hm
  | free i =>
    simp only [Session.call]
    split
    · exact .refl _
    · exact grows_free

/-- **A call with room for its charge succeeds.** -/
theorem Good.call_ne_null (hg : σ.Good full ext) (hext : 32 ≤ ext) (hv : c.Valid N σ.live)
    (hasks : ∃ size, c.asks = some size) (hpos : c ≠ .malloc 0)
    (hroom : σ.heap.brk + c.charge ext ≤ σ.heap.limit) : (σ.call ext c).1 ≠ NULL := by
  have hne : ∀ a : ℕ, a + 16 ≠ NULL := fun a => Nat.succ_ne_zero _
  cases c with
  | malloc size =>
    have h0 : size ≠ 0 := fun h0 => hpos (h0 ▸ rfl)
    obtain ⟨⟨a, h'⟩, hm⟩ :=
      Option.ne_none_iff_exists'.mp (malloc_ne_none_of_room (h := σ.heap) hext hroom)
    simp only [Session.call, if_neg h0, hm]
    exact hne a
  | realloc i size =>
    have hi : i < σ.live.length := hv.1
    have hb : σ.live[i]? = some σ.live[i] := List.getElem?_eq_getElem hi
    obtain ⟨d, hd, -, hptr, -⟩ := hg.chunk hb
    obtain ⟨⟨a, h'⟩, hm⟩ :=
      Option.ne_none_iff_exists'.mp (realloc_ne_none_of_room hg.inv hd hext hroom)
    simp only [Session.call, hb, hptr, Nat.add_sub_cancel, hm]
    exact hne a
  -- a free asks for nothing
  | free i =>
    obtain ⟨size, h⟩ := hasks
    cases h

/-- Over a run the heap is extended by at most the charges of the calls. -/
theorem Good.run_grows (hg : σ.Good full ext) (hx : Extension ext) (hN : N + 7 < 2 ^ 64)
    (hv : Valid ext N cs σ) : Grows (charges ext cs) σ.heap (Session.run ext cs σ).2.heap := by
  induction cs generalizing full σ with
  | nil => exact .refl _
  | cons c cs ih =>
    have h1 := ih (hg.call hx hN hv.1) hv.2
    exact (hg.call_grows (c := c)).trans h1

/-- **Calls with room for all their charges succeed.** -/
theorem Good.run_ne_null (hg : σ.Good full ext) (hx : Extension ext) (hext : 32 ≤ ext)
    (hN : N + 7 < 2 ^ 64) (hv : Valid ext N cs σ)
    (hroom : σ.heap.brk + charges ext cs ≤ σ.heap.limit) :
    List.Forall₂ (fun c p => (∃ size, c.asks = some size) → c ≠ .malloc 0 → p ≠ NULL) cs
      (Session.run ext cs σ).1 := by
  induction cs generalizing full σ with
  | nil => exact .nil
  | cons c cs ih =>
    have hgrows := hg.call_grows (c := c)
    have hsum : charges ext (c :: cs) = c.charge ext + charges ext cs := by simp [charges]
    rw [hsum] at hroom
    have hrest : (σ.call ext c).2.heap.brk + charges ext cs ≤ (σ.call ext c).2.heap.limit := by
      have h1 := hgrows.most
      have h2 := hgrows.limit
      omega
    exact .cons (fun hasks hpos => hg.call_ne_null hext hv.1 hasks hpos (by omega))
      (ih (hg.call hx hN hv.1) hv.2 hrest)

end Call

end Session

end Dlmalloc
