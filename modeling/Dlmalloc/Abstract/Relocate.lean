import Dlmalloc.Abstract.Growth
import Dlmalloc.Lib.DigitTreeMap
import Mathlib.Data.List.Find

/-!
# Moving a heap

`Heap.moved δ k h` is the heap `h` put `δ` bytes higher, with `k` more bytes at its end. A call does
the same on both, as long as `h` need not be extended by more than the `k` bytes
(`Good.call_moved`): it looks at addresses only to find a chunk and its neighbours, and at the size
of the end of the heap only to see if it has to be extended. So the allocator does not depend on
where its heap lies (`k = 0`), nor does it when its end was extended before (`δ = 0`).
-/

namespace Dlmalloc

open DigitTree

/-! ### Bins -/

/-- The slot `δ` bytes higher. -/
abbrev Slot.moved (δ : ℕ) : Slot → Slot := mapEntry (· + δ)

/-- What is left of a slot of which `r` bytes were taken. -/
theorem Slot.moved_rest (δ a r n : ℕ) :
    (a + δ + r + 8, n) = Slot.moved δ (a + r + 8, n) :=
  Prod.ext (show a + δ + r + 8 = a + r + 8 + δ by omega) rfl

/-- The bins with all addresses `δ` bytes higher. -/
def Bins.moved (δ : ℕ) (B : Bins) : Bins where
  victim := B.victim.map (Slot.moved δ)
  small n := (B.small n).map (· + δ)
  large n := (B.large n).map (· + δ)
  huge := B.huge.map (Slot.moved δ)

section Bins

variable {δ r n : ℕ} {B : Bins} {e : Slot}

theorem add_injective (δ : ℕ) : Function.Injective (· + δ) := fun _ _ h => Nat.add_right_cancel h

theorem Slot.moved_injective (δ : ℕ) : Function.Injective (Slot.moved δ) := fun e f h => by
  obtain ⟨h1, h2⟩ := Prod.mk.inj h
  exact Prod.ext (Nat.add_right_cancel h1) h2

/-- A family of bins with one replaced, renamed. -/
theorem update_moved {α β : Type} (g : α → β) (f : ℕ → α) (n : ℕ) (x : α) :
    Function.update (fun m => g (f m)) n (g x) = fun m => g (Function.update f n x m) := by
  funext m
  by_cases hm : m = n
  · subst hm
    rw [Function.update_self, Function.update_self]
  · rw [Function.update_of_ne hm, Function.update_of_ne hm]

namespace Bins

theorem insert_moved : (B.moved δ).insert (Slot.moved δ e) = (B.insert e).moved δ := by
  unfold insert
  have hsize : (Slot.moved δ e).2 = e.2 := rfl
  have haddr : (Slot.moved δ e).1 = e.1 + δ := rfl
  simp only [hsize, haddr]
  split_ifs
  · rfl
  · simp only [moved, insert_map (f := (· + δ)), update_moved]
  · have hcons : ∀ l : List ℕ, (e.1 + δ) :: l.map (· + δ) = (e.1 :: l).map (· + δ) := fun _ => rfl
    simp only [moved, hcons, update_moved]

theorem unbin_moved : (B.moved δ).unbin (Slot.moved δ e) = (B.unbin e).moved δ := by
  unfold unbin
  have hsize : (Slot.moved δ e).2 = e.2 := rfl
  have haddr : (Slot.moved δ e).1 = e.1 + δ := rfl
  simp only [hsize, haddr]
  split_ifs
  · simp only [moved, List.map_erase (Slot.moved_injective δ)]
  · simp only [moved, remove_map (add_injective δ), update_moved]
  · have herase : ∀ l : List ℕ, (l.map (· + δ)).erase (e.1 + δ) = (l.erase e.1).map (· + δ) :=
      fun l => (List.map_erase (add_injective δ) l).symm
    simp only [moved, herase, update_moved]

theorem remove_moved : (B.moved δ).remove (Slot.moved δ e) = (B.remove e).moved δ := by
  have hiff : (B.moved δ).victim = some (Slot.moved δ e) ↔ B.victim = some e := by
    rw [moved, Option.map_eq_some_iff]
    constructor
    · rintro ⟨v, hv, he⟩
      rw [hv, Slot.moved_injective δ he]
    · exact fun hv => ⟨e, hv, rfl⟩
  unfold remove
  by_cases hv : B.victim = some e
  · rw [if_pos hv, if_pos (hiff.mpr hv)]
    rfl
  · rw [if_neg hv, if_neg (hiff.not.mpr hv)]
    exact unbin_moved

theorem retire_moved : (B.moved δ).retire = B.retire.moved δ := by
  unfold retire
  cases hv : B.victim with
  | none =>
    have h1 : (B.moved δ).victim = none := by rw [moved, hv]; rfl
    rw [h1]
  | some v =>
    have h1 : (B.moved δ).victim = some (Slot.moved δ v) := by rw [moved, hv]; rfl
    rw [h1]
    exact insert_moved

theorem tree_moved : (B.moved δ).tree n = (B.tree n).map (· + δ) := by
  unfold tree
  split_ifs <;> rfl

theorem scanLarge_moved (last left : ℕ) :
    (B.moved δ).scanLarge last left n = (B.scanLarge last left n).map (Slot.moved δ) := by
  induction left generalizing n with
  | zero => rfl
  | succ left ih =>
    rw [scanLarge, scanLarge]
    split_ifs
    · rw [tree_moved]
      cases B.tree (n + 1) with
      | nil => exact ih
      | node k a rest l r =>
        exact congrArg some (leftmost_map (f := (· + δ)) (a, k) (.node k a rest l r))
    · rfl

theorem findBest_moved : (B.moved δ).findBest r = (B.findBest r).map (Slot.moved δ) := by
  have hfit := bestFit_map (f := (· + δ)) r (binLevel (largeRequestIndex r)) none (2 * r)
    (B.tree (largeRequestIndex r))
  simp only [findBest, tree_moved, scanLarge_moved]
  refine (congrArg (Option.or · _) hfit).trans ?_
  cases DigitTree.bestFit r (binLevel (largeRequestIndex r)) none (2 * r)
    (B.tree (largeRequestIndex r)) <;> rfl

theorem hugeBest_moved (best : Option Slot) (bound : ℕ) (l : List Slot) :
    hugeBest r (best.map (Slot.moved δ)) bound (l.map (Slot.moved δ)) =
      (hugeBest r best bound l).map (Slot.moved δ) := by
  induction l generalizing best bound with
  | nil => rfl
  | cons e l ih =>
    have hsize : (Slot.moved δ e).2 = e.2 := rfl
    rw [List.map_cons, hugeBest, hugeBest, hsize]
    split_ifs
    · rfl
    · exact ih (some e) e.2
    · exact ih best bound

end Bins

end Bins

/-! ### Rows of chunks -/

/-- The chunk `δ` bytes higher; if it is the end of the heap it has `k` more bytes. -/
def Chunk.moved (δ k : ℕ) (c : Chunk) : Chunk where
  addr := c.addr + δ
  size := if c.status = .top then c.size + k else c.size
  status := c.status
  pinuse := c.pinuse

section Rows

variable {δ k a r lo hi : ℕ} {τ : Status} {b : Bool} {c d : Chunk} {L pre post : List Chunk}

theorem Chunk.addr_moved : (c.moved δ k).addr = c.addr + δ := rfl

theorem Chunk.status_moved : (c.moved δ k).status = c.status := by
  rw [moved]

theorem Chunk.pinuse_moved : (c.moved δ k).pinuse = c.pinuse := rfl

theorem Chunk.moved_of_ne (h : c.status ≠ .top) :
    c.moved δ k = ⟨c.addr + δ, c.size, c.status, c.pinuse⟩ := by
  rw [moved, if_neg h]

theorem Chunk.moved_of_top (h : c.status = .top) :
    c.moved δ k = ⟨c.addr + δ, c.size + k, c.status, c.pinuse⟩ := by
  rw [moved, if_pos h]

theorem Chunk.size_moved (h : c.status ≠ .top) : (c.moved δ k).size = c.size := by
  rw [Chunk.moved_of_ne h]

theorem Chunk.slot_moved (h : c.status ≠ .top) : (c.moved δ k).slot = Slot.moved δ c.slot := by
  rw [Chunk.moved_of_ne h]
  rfl

theorem Chunk.next_moved (h : c.status ≠ .top) : (c.moved δ k).next = c.next + δ := by
  rw [Chunk.moved_of_ne h]
  simp only [Chunk.next]
  omega

theorem chunkAt_moved :
    chunkAt (L.map (Chunk.moved δ k)) (a + δ) = (chunkAt L a).map (Chunk.moved δ k) := by
  have hp : (fun c : Chunk => decide ((c.moved δ k).addr = a + δ)) =
      fun c => decide (c.addr = a) := by
    funext c
    exact decide_eq_decide.mpr (Nat.add_right_cancel_iff)
  rw [chunkAt, List.find?_map]
  exact congrArg (fun p => (List.find? p L).map (Chunk.moved δ k)) hp

/-- The chunk before one of the row. -/
theorem chunkBefore_moved (htop : ∀ t ∈ L, t.status = .top → a ≤ t.addr) :
    chunkBefore (L.map (Chunk.moved δ k)) (a + δ) =
      (chunkBefore L a).map (Chunk.moved δ k) := by
  rw [chunkBefore, chunkBefore, List.find?_map]
  refine congrArg (Option.map _) (List.find?_congr fun c hc => decide_eq_decide.mpr ?_)
  by_cases hst : c.status = .top
  -- the end of the heap is before nothing, moved or not
  · have hle := htop c hc hst
    have h1 : (c.moved δ k).next ≠ a + δ := by
      rw [Chunk.moved_of_top hst]
      simp only [Chunk.next]
      omega
    have h2 : c.next ≠ a := by
      simp only [Chunk.next]
      omega
    exact iff_of_false h1 h2
  · show (c.moved δ k).next = a + δ ↔ _
    rw [Chunk.next_moved hst]
    exact Nat.add_right_cancel_iff

/-- An edit of one chunk. -/
theorem replaceAt_moved {f : Chunk → List Chunk}
    (hf : ∀ c ∈ L, c.addr = a → f (c.moved δ k) = (f c).map (Chunk.moved δ k)) :
    replaceAt (a + δ) f (L.map (Chunk.moved δ k)) =
      (replaceAt a f L).map (Chunk.moved δ k) := by
  induction L with
  | nil => rfl
  | cons c L ih =>
    have hrest := ih fun d hd => hf d (List.mem_cons_of_mem _ hd)
    have hcons : ∀ (a : ℕ) (c : Chunk) (L : List Chunk),
        replaceAt a f (c :: L) = (if c.addr = a then f c else [c]) ++ replaceAt a f L :=
      fun _ _ _ => rfl
    have hiff : (c.moved δ k).addr = a + δ ↔ c.addr = a := Nat.add_right_cancel_iff
    rw [List.map_cons, hcons, hcons, hrest, List.map_append]
    by_cases hc : c.addr = a
    · rw [if_pos hc, if_pos (hiff.mpr hc), hf c List.mem_cons_self hc]
    · rw [if_neg hc, if_neg (hiff.not.mpr hc)]
      rfl

theorem tag_moved :
    tag (a + δ) b (L.map (Chunk.moved δ k)) = (tag a b L).map (Chunk.moved δ k) :=
  replaceAt_moved fun _ _ _ => rfl

theorem mark_moved (hτ : τ ≠ .top) (h : ∀ c ∈ L, c.addr = a → c.status ≠ .top) :
    mark (a + δ) τ (L.map (Chunk.moved δ k)) = (mark a τ L).map (Chunk.moved δ k) :=
  replaceAt_moved fun c hc ha => by
    simp only [List.map_cons, List.map_nil, Chunk.moved, if_neg (h c hc ha), if_neg hτ]

theorem carve_moved (h : ∀ c ∈ L, c.addr = a → c.status = .top → r + 8 ≤ c.size) :
    carve (a + δ) r (L.map (Chunk.moved δ k)) = (carve a r L).map (Chunk.moved δ k) :=
  replaceAt_moved fun c hc ha => by
    have haddr : c.addr + δ + r + 8 = c.addr + r + 8 + δ := by omega
    by_cases ht : c.status = .top
    · have hfit := h c hc ha ht
      have hsize : c.size + k - r - 8 = c.size - r - 8 + k := by omega
      simp only [List.map_cons, List.map_nil, Chunk.moved, ht, reduceCtorEq, if_true, if_false,
        haddr, hsize]
    · simp only [List.map_cons, List.map_nil, Chunk.moved, if_neg ht, reduceCtorEq, if_false, haddr]

theorem trim_moved (hτ : τ ≠ .top) (h : ∀ c ∈ L, c.addr = a → c.status ≠ .top) :
    trim (a + δ) r τ (L.map (Chunk.moved δ k)) = (trim a r τ L).map (Chunk.moved δ k) :=
  replaceAt_moved fun c hc ha => by
    have haddr : c.addr + δ + r + 8 = c.addr + r + 8 + δ := by omega
    simp only [List.map_cons, List.map_nil, Chunk.moved, if_neg (h c hc ha), if_neg hτ, haddr]

/-- A merge with the next chunk, which is the end of the heap if what comes out of it is. -/
theorem fuse_moved (h : ∀ pre c d post, L = pre ++ c :: d :: post → c.addr = a →
    c.status ≠ .top ∧ (τ = .top ↔ d.status = .top)) :
    fuse (a + δ) τ (L.map (Chunk.moved δ k)) = (fuse a τ L).map (Chunk.moved δ k) := by
  induction L with
  | nil => rfl
  | cons c L ih =>
    cases L with
    | nil => rfl
    | cons d L =>
      have hiff : (c.moved δ k).addr = a + δ ↔ c.addr = a := Nat.add_right_cancel_iff
      have hrest := ih fun pre c' d' post hL => h (c :: pre) c' d' post (by rw [hL]; rfl)
      rw [List.map_cons, List.map_cons, fuse, fuse]
      by_cases hc : c.addr = a
      · obtain ⟨hct, hτ⟩ := h [] c d L rfl hc
        rw [if_pos hc, if_pos (hiff.mpr hc), List.map_cons]
        refine congrArg (· :: _) ?_
        by_cases ht : d.status = .top
        · simp only [Chunk.moved, if_neg hct, if_pos ht, if_pos (hτ.mpr ht)]
          congr 1
          omega
        · simp only [Chunk.moved, if_neg hct, if_neg ht, if_neg (hτ.not.mpr ht)]
      · rw [if_neg hc, if_neg (hiff.not.mpr hc), List.map_cons]
        exact congrArg (_ :: ·) hrest

/-- Two neighbours in a row are found where the first one is. -/
theorem Tiles.neighbours_unique (h : Tiles lo L hi) {c' d' : Chunk} {pre' post' : List Chunk}
    (hL : L = pre ++ c :: d :: post) (hL' : L = pre' ++ c' :: d' :: post')
    (ha : c'.addr = c.addr) : c' = c ∧ d' = d := by
  have hc : c' = c := h.eq_of_addr_eq (by simp [hL']) (by simp [hL]) ha
  have ht : Tiles lo (pre ++ c :: d :: post) hi := hL ▸ h
  have ht' : Tiles lo (pre' ++ c' :: d' :: post') hi := hL' ▸ h
  have hd : d.addr = c.next := (tiles_mid.mp ht).2.1
  have hd' : d'.addr = c'.next := (tiles_mid.mp ht').2.1
  exact ⟨hc, h.eq_of_addr_eq (by simp [hL']) (by simp [hL]) (by rw [hd', hd, hc])⟩

theorem Tiles.moved (h : Tiles lo L hi) (hne : ∀ c ∈ L, c.status ≠ .top) :
    Tiles (lo + δ) (L.map (Chunk.moved δ k)) (hi + δ) := by
  induction L generalizing lo with
  | nil => exact congrArg (· + δ) h
  | cons c L ih =>
    refine ⟨congrArg (· + δ) h.1, ?_⟩
    rw [Chunk.next_moved (hne c List.mem_cons_self)]
    exact ih h.2 fun d hd => hne d (List.mem_cons_of_mem _ hd)

/-- Two chunks merged, and split anew. -/
theorem trim_fuse_mid {σ : Status} (h : Tiles lo (pre ++ c :: d :: post) hi) :
    trim c.addr r τ (fuse c.addr σ (pre ++ c :: d :: post)) = pre ++ ⟨c.addr, r, σ, c.pinuse⟩ ::
      ⟨c.addr + r + 8, c.size + d.size + 8 - r - 8, τ, true⟩ :: post := by
  rw [fuse_mid h]
  have hrow : Tiles lo (pre ++ ⟨c.addr, c.size + d.size + 8, σ, c.pinuse⟩ :: post) hi := by
    rw [tiles_mid] at h ⊢
    obtain ⟨hpre, hd, hpost⟩ := h
    refine ⟨hpre, ?_⟩
    have hnext : c.addr + (c.size + d.size + 8) + 8 = d.next := by
      simp only [Chunk.next] at hd ⊢
      omega
    simp only [Chunk.next] at hpost hnext ⊢
    rw [hnext]
    exact hpost
  exact trim_mid (c := ⟨c.addr, c.size + d.size + 8, σ, c.pinuse⟩) hrow

end Rows

/-! ### Heaps -/

namespace Heap

/-- The heap `δ` bytes higher, with `k` more bytes at its end. -/
def moved (δ k : ℕ) (h : Heap) : Heap where
  start := h.start + δ
  first := h.first + δ
  brk := h.brk + δ + k
  limit := h.limit + δ
  chunks := h.chunks.map (Chunk.moved δ k)
  bins := h.bins.moved δ

section Moved

variable {full : Prop} {ext a r δ k : ℕ} {X : Multiset Slot} {h h' : Heap} {c d p t : Chunk}
  {e : Slot} {τ : Status} {pre post : List Chunk}

theorem chunks_moved : (h.moved δ k).chunks = h.chunks.map (Chunk.moved δ k) := rfl

theorem bins_moved : (h.moved δ k).bins = h.bins.moved δ := rfl

theorem brk_moved : (h.moved δ k).brk = h.brk + δ + k := rfl

theorem limit_moved : (h.moved δ k).limit = h.limit + δ := rfl

theorem Shape.top_moved (hs : Shape ext X h) :
    (h.moved δ k).top = (h.top.1 + δ, h.top.2 + k) := by
  obtain ⟨pre, t, hL, ht, htop, -⟩ := hs.exists_top
  have hlast : (h.moved δ k).chunks.getLast? = some (t.moved δ k) := by
    rw [moved, hL, List.map_append]
    simp
  rw [htop, top, hlast]
  simp [Chunk.moved_of_top ht, Chunk.slot]

/-- Only the last chunk of a row is the end of the heap. -/
theorem Shape.ne_top_before (hs : Shape ext X h) (hL : h.chunks = pre ++ c :: post) :
    ∀ x ∈ pre, x.status ≠ .top := by
  have h' := hs.topLast
  rw [hL] at h'
  exact (topLast_append.mp h').1

/-- No chunk lies behind the end of the heap. -/
theorem Shape.le_top (hs : Shape ext X h) (ht : t ∈ h.chunks) (hst : t.status = .top)
    (hc : c ∈ h.chunks) : c.addr ≤ t.addr := by
  have hend := (hs.top_eq ht hst).2
  have hle := (hs.bounds hc).2
  rcases hs.tiles.apart hc ht with rfl | hlt | hlt
  · exact le_rfl
  · simp only [Chunk.next] at hlt
    omega
  -- a chunk behind `t` would end after the break
  · simp only [Chunk.next] at hlt hle hend
    omega

theorem Shape.chunkBefore_moved (hs : Shape ext X h) (hc : c ∈ h.chunks) :
    Dlmalloc.chunkBefore (h.chunks.map (Chunk.moved δ k)) (c.addr + δ) =
      (Dlmalloc.chunkBefore h.chunks c.addr).map (Chunk.moved δ k) :=
  Dlmalloc.chunkBefore_moved fun _ ht htop => hs.le_top ht htop hc

/-- The chunk at the address of `c` is `c`. -/
theorem Shape.ne_top_at (hs : Shape ext X h) (hc : c ∈ h.chunks) (hst : c.status ≠ .top) :
    ∀ x ∈ h.chunks, x.addr = c.addr → x.status ≠ .top := fun x hx ha => by
  rwa [hs.tiles.eq_of_addr_eq hx hc ha]

/-- Two neighbours merged. -/
theorem Shape.fuse_moved (hs : Shape ext X h) (hL : h.chunks = pre ++ c :: d :: post)
    (hc : c.status ≠ .top) (hτ : τ = .top ↔ d.status = .top) :
    Dlmalloc.fuse (c.addr + δ) τ (h.chunks.map (Chunk.moved δ k)) =
      (Dlmalloc.fuse c.addr τ h.chunks).map (Chunk.moved δ k) :=
  Dlmalloc.fuse_moved fun _ _ _ _ hL' ha => by
    obtain ⟨rfl, rfl⟩ := hs.tiles.neighbours_unique hL hL' ha
    exact ⟨hc, hτ⟩

/-! ### Deallocation -/

theorem release_moved (hs : Shape ext X h) (hc : c ∈ h.chunks) (hst : c.status = .inuse) :
    (h.moved δ k).release (c.moved δ k) = (h.release c).moved δ k := by
  have hne : c.status ≠ .top := by simp [hst]
  unfold release
  simp only [moved, Chunk.next_moved hne, Chunk.addr_moved,
    mark_moved (τ := .free) (by decide) (hs.ne_top_at hc hne), tag_moved]

/-- A merge with the chunk before. -/
theorem coalescePrevious_moved (hs : Shape ext X h) (hc : c ∈ h.chunks) (hst : c.status ≠ .top) :
    coalescePrevious (c.moved δ k) (h.moved δ k) =
      (Slot.moved δ (coalescePrevious c h).1, (coalescePrevious c h).2.moved δ k) := by
  have hslot : (c.moved δ k).slot = Slot.moved δ c.slot := Chunk.slot_moved hst
  unfold coalescePrevious
  rw [Chunk.pinuse_moved, Chunk.addr_moved, hslot, chunks_moved, hs.chunkBefore_moved hc]
  by_cases hp : c.pinuse = true
  · rw [if_pos hp, if_pos hp]
  rw [if_neg hp, if_neg hp]
  cases hb : chunkBefore h.chunks c.addr with
  | none => rfl
  | some p =>
    have hpm : p ∈ h.chunks := List.mem_of_find?_eq_some hb
    have hpn : p.next = c.addr := by simpa using List.find?_some hb
    -- the chunk before is not the end of the heap
    have hpt : p.status ≠ .top := fun ht => by
      have hend := (hs.top_eq hpm ht).2
      have hle := (hs.bounds hc).2
      simp only [Chunk.next] at hle hend hpn
      omega
    obtain ⟨pre, post, hL⟩ := List.append_of_mem hpm
    obtain ⟨d, post, rfl, hd⟩ := hs.exists_next hL hpt
    have hdc : d = c := hs.tiles.eq_of_addr_eq (by simp [hL]) hc (hd.trans hpn)
    subst hdc
    have hfuse := hs.fuse_moved (δ := δ) (k := k) (τ := .free) hL hpt (by simp [hst])
    have hpslot : (p.moved δ k).slot = Slot.moved δ p.slot := Chunk.slot_moved hpt
    have hpsize : (p.moved δ k).size = p.size := Chunk.size_moved hpt
    have hdsize : (d.moved δ k).size = d.size := Chunk.size_moved hst
    have hmerged : (p.addr + δ, p.size + d.size + 8) =
        Slot.moved δ (p.addr, p.size + d.size + 8) := rfl
    simp only [Option.map_some, hpslot, hpsize, hdsize, Chunk.addr_moved]
    refine Prod.ext hmerged ?_
    simp only [moved, hfuse, Bins.remove_moved]

/-- The loose chunk settled. -/
theorem settle_moved (hs : Shape ext (e ::ₘ X) h) :
    (h.moved δ k).settle (Slot.moved δ e) = (h.settle e).moved δ k := by
  obtain ⟨pre, c, post, hL, rfl, hst⟩ := hs.mem_free (.inl (Multiset.mem_cons_self _ _))
  have hne : c.status ≠ .top := by simp [hst]
  obtain ⟨d, post, rfl, hd⟩ := hs.exists_next hL hne
  have hat : chunkAt h.chunks (c.slot.1 + c.slot.2 + 8) = some d := by
    have h1 := hs.chunkAt (c := d) (by simp [hL])
    rw [hd] at h1
    exact h1
  -- the chunk behind is looked up where it was moved to
  have haddr : (Slot.moved δ c.slot).1 + (Slot.moved δ c.slot).2 + 8 =
      c.slot.1 + c.slot.2 + 8 + δ := by
    show c.slot.1 + δ + c.slot.2 + 8 = _
    omega
  unfold settle
  rw [haddr, chunks_moved, chunkAt_moved, hat]
  simp only [Option.map_some, Chunk.status_moved]
  cases hds : d.status with
  | inuse =>
    simp only [moved, Bins.insert_moved]
  | free =>
    have hdne : d.status ≠ .top := by simp [hds]
    have hfuse := hs.fuse_moved (δ := δ) (k := k) (τ := .free) hL hne (by simp [hds])
    have hdslot : (d.moved δ k).slot = Slot.moved δ d.slot := Chunk.slot_moved hdne
    have hdsize : (d.moved δ k).size = d.size := Chunk.size_moved hdne
    have hmerged : ((Slot.moved δ c.slot).1, (Slot.moved δ c.slot).2 + d.size + 8) =
        Slot.moved δ (c.slot.1, c.slot.2 + d.size + 8) := rfl
    have haddr' : (Slot.moved δ c.slot).1 = c.addr + δ := rfl
    simp only [hdslot, hdsize, hmerged]
    simp only [moved, haddr', hfuse, Bins.remove_moved, Bins.insert_moved]
    rfl
  | top =>
    have hfuse := hs.fuse_moved (δ := δ) (k := k) (τ := .top) hL hne (by simp [hds])
    have haddr' : (Slot.moved δ c.slot).1 = c.addr + δ := rfl
    simp only [moved, haddr', hfuse]
    rfl

/-- **A block is freed.** -/
theorem free_moved (hi : Inv full ext h) (hc : c ∈ h.chunks) (hst : c.status = .inuse) :
    (h.moved δ k).free (c.addr + δ) = (h.free c.addr).moved δ k := by
  obtain ⟨pre, post, hL⟩ := List.append_of_mem hc
  obtain ⟨d, post', rfl, -⟩ := hi.shape.exists_next hL (by simp [hst])
  obtain ⟨heq, hs⟩ := release_eq hi.shape hL hst
  -- what the merge with the chunk before leaves is loose, so that it can be settled
  obtain ⟨pre', f, h1, hl, hco, -⟩ := coalescePrevious_spec hi hL hst
  have hmem : ({ c with status := .free } : Chunk) ∈ (h.release c).chunks := by
    rw [heq]
    simp
  have hmoved := coalescePrevious_moved (δ := δ) (k := k) hs hmem (by simp)
  rw [hco] at hmoved
  have hcm : ({ c.moved δ k with status := .free } : Chunk) =
      ({ c with status := .free } : Chunk).moved δ k := by
    simp [Chunk.moved, hst]
  unfold free
  rw [chunks_moved, chunkAt_moved, hi.shape.chunkAt hc]
  simp only [Option.map_some, release_moved hi.shape hc hst, hcm, hmoved, hco]
  exact settle_moved hl.shape

/-! ### Allocation -/

/-- The outcome of a call on `h`, for the heap put `δ` bytes higher with `k` more bytes at its end:
of these are left what the call did not extend `h` by. -/
def movedResult (δ k : ℕ) (h : Heap) (p : ℕ × Heap) : ℕ × Heap :=
  (p.1 + δ, p.2.moved δ (h.brk + k - p.2.brk))

/-- The call succeeds and needs no more than `k` bytes, or `k` is zero. -/
def Within (k : ℕ) (h : Heap) (o : Option (ℕ × Heap)) : Prop :=
  k = 0 ∨ ∃ p, o = some p ∧ p.2.brk ≤ h.brk + k

/-- A free chunk, split. -/
theorem Shape.carve_moved (hs : Shape ext X h) (he : e ∈ X ∨ e ∈ h.bins.binned) :
    Dlmalloc.carve (e.1 + δ) r (h.chunks.map (Chunk.moved δ k)) =
      (Dlmalloc.carve e.1 r h.chunks).map (Chunk.moved δ k) := by
  obtain ⟨pre, c, post, hL, rfl, hst⟩ := hs.mem_free he
  refine Dlmalloc.carve_moved fun x hx ha ht => ?_
  have hne := hs.ne_top_at (Shape.mem_chunks hL) (by simp [hst]) x hx ha
  exact absurd ht hne

theorem victimMalloc_moved (hs : Shape ext h.bins.victimSlot h) :
    victimMalloc r (h.moved δ k) = (victimMalloc r h).map (movedResult δ k h) := by
  unfold victimMalloc
  have hbins : (h.moved δ k).bins.victim = h.bins.victim.map (Slot.moved δ) := rfl
  rw [hbins]
  cases hv : h.bins.victim with
  | none => rfl
  | some v =>
    have hmem : v ∈ h.bins.victimSlot := Bins.mem_victimSlot.mpr hv
    have hcarve := hs.carve_moved (δ := δ) (k := k) (r := r) (.inl hmem)
    have haddr : (Slot.moved δ v).1 = v.1 + δ := rfl
    have hsize : (Slot.moved δ v).2 = v.2 := rfl
    have hrest : some (v.1 + δ + r + 8, v.2 - r - 8) =
        (some (v.1 + r + 8, v.2 - r - 8)).map (Slot.moved δ) :=
      congrArg some (Slot.moved_rest _ _ _ _)
    simp only [Option.map_some, haddr, hsize]
    -- the victim is split, taken whole, or too small
    split_ifs
    · simp only [Option.map_some, movedResult, Nat.add_sub_cancel_left]
      simp only [moved, hcarve, hrest, Bins.moved]
    · simp only [Option.map_some, movedResult, Nat.add_sub_cancel_left]
      rfl
    · rfl

theorem takeBinned_moved (hs : Shape ext h.bins.victimSlot h) (he : e ∈ h.bins.binned) :
    takeBinned r (h.moved δ k) (Slot.moved δ e) = movedResult δ k h (takeBinned r h e) := by
  have hcarve := hs.carve_moved (δ := δ) (k := k) (r := r) (.inr he)
  have haddr : (Slot.moved δ e).1 = e.1 + δ := rfl
  have hsize : (Slot.moved δ e).2 = e.2 := rfl
  have hrest : some (e.1 + δ + r + 8, e.2 - r - 8) =
      (some (e.1 + r + 8, e.2 - r - 8)).map (Slot.moved δ) :=
    congrArg some (Slot.moved_rest _ _ _ _)
  have hunbin : (h.moved δ k).bins.unbin (Slot.moved δ e) = (h.bins.unbin e).moved δ :=
    Bins.unbin_moved
  unfold takeBinned splitOffVictim
  rw [hunbin, haddr, hsize]
  split_ifs
  · simp only [movedResult, Nat.add_sub_cancel_left]
    refine Prod.ext rfl ?_
    simp only [moved, hcarve, hrest, Bins.retire_moved]
    rfl
  · simp only [movedResult, Nat.add_sub_cancel_left]
    rfl

theorem smallMalloc_moved (hi : Inv full ext h) :
    smallMalloc r (h.moved δ k) = (smallMalloc r h).map (movedResult δ k h) := by
  have hsmall : (h.moved δ k).bins.small (smallRequestIndex r) =
      (h.bins.small (smallRequestIndex r)).map (· + δ) := rfl
  have hscan : (h.moved δ k).bins.scanLarge 63 LARGE_BIN_SEARCH_MAX 31 =
      (h.bins.scanLarge 63 LARGE_BIN_SEARCH_MAX 31).map (Slot.moved δ) := Bins.scanLarge_moved _ _
  unfold smallMalloc
  rw [hsmall, hscan, victimMalloc_moved hi.shape]
  cases h.bins.small (smallRequestIndex r) with
  | cons a l =>
    have hunbin : (h.moved δ k).bins.unbin (a + δ, r) = (h.bins.unbin (a, r)).moved δ :=
      Bins.unbin_moved (e := (a, r))
    simp only [List.map_cons, hunbin, Option.map_some, movedResult, Nat.add_sub_cancel_left]
    rfl
  | nil =>
    -- the victim was treated above; what is left is the scan of the large bins
    simp only [List.map_nil, Option.map_or]
    congr 1
    cases he : h.bins.scanLarge 63 LARGE_BIN_SEARCH_MAX 31 with
    | none => rfl
    | some e =>
      obtain ⟨-, -, -, -, hmem⟩ := Bins.scanLarge_mem le_rfl he
      exact congrArg some (takeBinned_moved hi.shape hmem)

theorem largeMalloc_moved (hi : Inv full ext h) (hr : Request r) (hl : isLargeSize r) :
    largeMalloc r (h.moved δ k) = (largeMalloc r h).map (movedResult δ k h) := by
  unfold largeMalloc hugeMalloc
  split_ifs with hh
  · have hbest : Bins.hugeBest r none (2 ^ 64 - 1) (h.moved δ k).bins.huge =
        (Bins.hugeBest r none (2 ^ 64 - 1) h.bins.huge).map (Slot.moved δ) :=
      Bins.hugeBest_moved none _ _
    rw [hbest]
    cases Bins.hugeBest r none (2 ^ 64 - 1) h.bins.huge with
    | none => rfl
    | some e =>
      have hunbin : (h.moved δ k).bins.unbin (Slot.moved δ e) = (h.bins.unbin e).moved δ :=
        Bins.unbin_moved
      simp only [Option.map_some, hunbin, movedResult, Nat.add_sub_cancel_left]
      rfl
  · have hfind : (h.moved δ k).bins.findBest r = (h.bins.findBest r).map (Slot.moved δ) :=
      Bins.findBest_moved
    rw [hfind, victimMalloc_moved hi.shape, Option.map_or]
    congr 1
    cases he : h.bins.findBest r with
    | none => rfl
    | some e =>
      have hmem := (Bins.findBest_mem hi.shape.sorted hl hr.aligned hh he).1
      exact congrArg some (takeBinned_moved hi.shape hmem)

theorem Shape.extend_moved {d : ℕ} (hs : Shape ext X h) :
    (h.moved δ k).extend d = (h.extend d).moved δ k := by
  obtain ⟨pre, t, hL, ht, htop, -⟩ := hs.exists_top
  have hrow := hs.tiles_of hL
  have hgrow : grow (t.addr + δ) d (h.chunks.map (Chunk.moved δ k)) =
      (grow t.addr d h.chunks).map (Chunk.moved δ k) :=
    replaceAt_moved fun c hc ha => by
      have hct : c = t := hs.tiles.eq_of_addr_eq hc (by simp [hL]) ha
      subst hct
      simp [Chunk.moved, ht, Nat.add_right_comm]
  have hbrk : h.brk + δ + k + d = h.brk + d + δ + k := by omega
  have hat : (h.moved δ k).top.1 = t.addr + δ := by
    rw [hs.top_moved, htop]
    rfl
  have hat' : h.top.1 = t.addr := by rw [htop]; rfl
  unfold Heap.extend
  rw [hat, hat']
  simp only [moved, hgrow, hbrk]

/-- What the heap is extended by need not be extended by later. -/
theorem Shape.moved_extend {d : ℕ} (hs : Shape ext X h) :
    (h.extend d).moved δ k = h.moved δ (d + k) := by
  obtain ⟨pre, t, hL, ht, htop, -⟩ := hs.exists_top
  have hne := hs.ne_top_before hL
  have hpre : pre.map (Chunk.moved δ k) = pre.map (Chunk.moved δ (d + k)) :=
    List.map_congr_left fun c hc => by
      rw [Chunk.moved_of_ne (hne c hc), Chunk.moved_of_ne (hne c hc)]
  have hgrow : grow t.addr d h.chunks = pre ++ [{ t with size := t.size + d }] := by
    rw [hL]
    exact grow_mid (hs.tiles_of hL)
  have hat : h.top.1 = t.addr := by rw [htop]; rfl
  have hbrk : h.brk + d + δ + k = h.brk + δ + (d + k) := by omega
  unfold Heap.extend
  rw [hat, hgrow]
  simp only [moved, hL, List.map_append, hpre, hbrk]
  simp [Chunk.moved, ht, Nat.add_assoc]

/-- The end of the heap, split. -/
theorem Shape.carve_top_moved (hs : Shape ext X h) (hfit : r + 8 ≤ h.top.2) :
    Dlmalloc.carve (h.top.1 + δ) r (h.chunks.map (Chunk.moved δ k)) =
      (Dlmalloc.carve h.top.1 r h.chunks).map (Chunk.moved δ k) := by
  refine Dlmalloc.carve_moved fun x hx _ hst => ?_
  rw [(hs.top_eq hx hst).1] at hfit
  exact hfit

/-- The end of the heap, extended and split. -/
theorem Shape.carve_extend_moved {d : ℕ} (hs : Shape ext X h) (hd : 8 ∣ d)
    (hbrk : h.brk + d ≤ h.limit) (hfit : r + 8 ≤ h.top.2 + d) :
    Dlmalloc.carve (h.top.1 + δ) r ((grow h.top.1 d h.chunks).map (Chunk.moved δ k)) =
      (Dlmalloc.carve h.top.1 r (grow h.top.1 d h.chunks)).map (Chunk.moved δ k) := by
  obtain ⟨hs', pre, t, -, htop, -, hchunks⟩ := hs.extend hd hbrk
  have htop' : (h.extend d).top = (h.top.1, h.top.2 + d) := by
    rw [top, hchunks, List.getLast?_concat, htop]
    rfl
  have hcarve := hs'.carve_top_moved (δ := δ) (k := k) (r := r) (by rw [htop']; exact hfit)
  rw [htop'] at hcarve
  exact hcarve

theorem endMalloc_moved (hs : Shape ext X h) (hx : Extension ext) (hext : 32 ≤ ext)
    (hr : Request r) (hk : Within k h (endMalloc ext r h)) :
    endMalloc ext r (h.moved δ k) = (endMalloc ext r h).map (movedResult δ k h) := by
  have hmin : SMALLEST_CHUNK = 32 := rfl
  have htop := hs.top_moved (δ := δ) (k := k)
  have hat : (h.moved δ k).top.1 = h.top.1 + δ := congrArg Prod.fst htop
  have hsize : (h.moved δ k).top.2 = h.top.2 + k := congrArg Prod.snd htop
  have h8 : 8 ∣ r + ext - h.top.2 := by
    obtain ⟨pre, t, hL, -, htop, -⟩ := hs.exists_top
    rw [htop]
    exact Nat.dvd_sub (Nat.dvd_add hr.aligned hx.aligned) (hs.sizes t (by simp [hL])).aligned
  unfold endMalloc at hk ⊢
  simp only [hat, hsize, brk_moved, limit_moved] at hk ⊢
  by_cases h1 : r + SMALLEST_CHUNK ≤ h.top.2
  -- the end of the heap is large enough
  · have hcarve := hs.carve_top_moved (δ := δ) (k := k) (r := r) (by omega)
    rw [if_pos h1, if_pos (by omega), Option.map_some]
    simp only [movedResult, Nat.add_sub_cancel_left]
    simp only [moved, hcarve]
  rw [if_neg h1] at hk ⊢
  by_cases h2 : h.top.2 ≤ r + ext ∧ h.brk + (r + ext - h.top.2) ≤ h.limit
  · rw [if_pos h2] at hk ⊢
    rw [Option.map_some]
    have hcarve : ∀ m, _ := fun m =>
      hs.carve_extend_moved (δ := δ) (k := m) (r := r) h8 h2.2 (by omega)
    rcases hk with rfl | ⟨p, hp, hpk⟩
    -- it is extended by as much
    · have hzero : h.brk + 0 - (h.brk + (r + ext - h.top.2)) = 0 := by omega
      rw [if_neg (by omega), if_pos ⟨h2.1, by omega⟩, Nat.add_zero, hs.extend_moved]
      simp only [movedResult, Heap.extend, hzero]
      simp only [moved, hcarve]
    -- it has the bytes already
    · obtain rfl := (Option.some.inj hp).symm
      have hle : r + ext - h.top.2 ≤ k := Nat.add_le_add_iff_left.mp hpk
      obtain ⟨m, rfl⟩ := Nat.exists_eq_add_of_le hle
      have hleft : h.brk + (r + ext - h.top.2 + m) - (h.brk + (r + ext - h.top.2)) = m := by omega
      have hend : h.brk + (r + ext - h.top.2) + δ + m = h.brk + δ + (r + ext - h.top.2 + m) := by
        omega
      rw [if_pos (by omega), ← hs.moved_extend]
      simp only [movedResult, Heap.extend, hleft]
      simp only [moved, hcarve, hend]
  -- the call fails
  · rw [if_neg h2] at hk ⊢
    rcases hk with rfl | ⟨p, hp, -⟩
    · rw [if_neg (by omega), if_neg fun h' => h2 ⟨h'.1, by have := h'.2; omega⟩]
      rfl
    · cases hp

theorem supply_moved (hi : Inv full ext h) (hx : Extension ext) (hext : 32 ≤ ext)
    (hr : Request r) (hk : Within k h (supply ext r h)) :
    supply ext r (h.moved δ k) = (supply ext r h).map (movedResult δ k h) := by
  have hbins : (if isLargeSize r then largeMalloc r (h.moved δ k) else
      smallMalloc r (h.moved δ k)) = (if isLargeSize r then largeMalloc r h else
      smallMalloc r h).map (movedResult δ k h) := by
    split_ifs with hl
    · exact largeMalloc_moved hi hr hl
    · exact smallMalloc_moved hi
  unfold supply at hk ⊢
  rw [hbins]
  cases hb : if isLargeSize r then largeMalloc r h else smallMalloc r h with
  | some p => rfl
  | none =>
    -- only here the heap may be extended, so that `k` matters
    rw [hb] at hk
    exact endMalloc_moved hi.shape hx hext hr hk

theorem occupy_moved {Y : Multiset Slot} (hs : Shape ext Y h) (hc : c ∈ h.chunks)
    (hst : c.status ≠ .top) :
    (h.moved δ k).occupy (c.addr + δ) = (h.occupy c.addr).moved δ k := by
  unfold occupy
  rw [chunks_moved, chunkAt_moved, hs.chunkAt hc]
  simp only [Option.map_some, Chunk.next_moved hst,
    mark_moved (τ := .inuse) (by decide) (hs.ne_top_at hc hst), tag_moved]
  rfl

/-- **A block is allocated.** -/
theorem malloc_moved (hi : Inv full ext h) (hx : Extension ext) (hext : 32 ≤ ext)
    (hr : Request r) (hk : Within k h (malloc ext r h)) :
    malloc ext r (h.moved δ k) = (malloc ext r h).map (movedResult δ k h) := by
  have hocc : ∀ (g : Heap) (a : ℕ), (g.occupy a).brk = g.brk := fun g a => by
    unfold occupy
    split <;> rfl
  -- marking the block does not move the break
  have hk' : Within k h (supply ext r h) := by
    refine hk.imp_right ?_
    rintro ⟨p, hp, hle⟩
    obtain ⟨q, hq, rfl⟩ := Option.map_eq_some_iff.mp hp
    rw [hocc] at hle
    exact ⟨q, hq, hle⟩
  unfold malloc
  rw [supply_moved hi hx hext hr hk']
  cases hsup : supply ext r h with
  | none => rfl
  | some p =>
    obtain ⟨a, h'⟩ := p
    -- the chunk found is a free one of the row, so that it is marked in the same place
    obtain ⟨pre, c, n, post, rest, rfl, hf⟩ := found_of_supply hi hx hr hsup
    have hmem : (⟨c.addr, n, .free, c.pinuse⟩ : Chunk) ∈ h'.chunks := by
      rw [hf.after]
      simp
    simp only [Option.map_some, movedResult, hocc]
    rw [occupy_moved hf.shape hmem (by simp)]

/-! ### Reallocation -/

theorem shrink_moved (hi : Inv full ext h) (hr : Request r) (hc : c ∈ h.chunks)
    (hst : c.status = .inuse) :
    (h.moved δ k).shrink (c.moved δ k) r = (h.shrink c r).moved δ k := by
  obtain ⟨pre, post, hL⟩ := List.append_of_mem hc
  obtain ⟨d, post', rfl, -⟩ := hi.shape.exists_next hL (by simp [hst])
  have hne : c.status ≠ .top := by simp [hst]
  have hsize : (c.moved δ k).size = c.size := Chunk.size_moved hne
  unfold shrink
  rw [hsize, Chunk.addr_moved]
  split_ifs with hfit
  · have hs := (hi.loosened_trim hr hL hst hfit).shape
    have hrest : (c.addr + δ + r + 8, c.size - r - 8) = Slot.moved δ (offcut c r).slot :=
      Slot.moved_rest _ _ _ _
    have htrim : Dlmalloc.trim (c.addr + δ) r .free (h.moved δ k).chunks =
        (Dlmalloc.trim c.addr r .free h.chunks).map (Chunk.moved δ k) :=
      trim_moved (by decide) (hi.shape.ne_top_at hc hne)
    rw [hrest, htrim]
    exact settle_moved hs
  · rfl

/-- Two chunks merged into one in use, and what is not needed of it cut off. -/
theorem Shape.resize_moved {n : ℕ} {B : Bins} (hs : Shape ext X h)
    (hL : h.chunks = pre ++ c :: d :: post) (hc : c.status ≠ .top) (hd : d.status ≠ .top) :
    resize (c.addr + δ) n r { h.moved δ k with
      chunks := Dlmalloc.fuse (c.addr + δ) .inuse (h.chunks.map (Chunk.moved δ k))
      bins := B.moved δ } =
    (resize c.addr n r { h with
      chunks := Dlmalloc.fuse c.addr .inuse h.chunks, bins := B }).moved δ k := by
  have hfuse := hs.fuse_moved (δ := δ) (k := k) (τ := .inuse) hL hc (by simp [hd])
  have hrow : Dlmalloc.fuse c.addr .inuse h.chunks = pre ++ fused c d .inuse :: post :=
    hs.fuse_chunks hL
  -- only the end of the heap is extended by the move, and no chunk cut is that one
  have hne : ∀ x ∈ Dlmalloc.fuse c.addr .inuse h.chunks, x.addr = c.addr → x.status ≠ .top := by
    obtain ⟨hpre, hpost⟩ := (hs.tiles_of hL).ne_around
    rw [hrow]
    intro x hx ha
    rw [List.mem_append, List.mem_cons] at hx
    rcases hx with hx | rfl | hx
    · exact absurd ha (hpre x hx)
    · simp [fused]
    · exact absurd ha (hpost x (List.mem_cons_of_mem _ hx))
  have htrim := trim_moved (δ := δ) (k := k) (r := r) (τ := .free) (by decide) hne
  have hend : c.addr + δ + n + 8 = c.addr + n + 8 + δ := by omega
  unfold resize
  split_ifs
  · simp only [hfuse, htrim, hend, tag_moved, Slot.moved_rest, Bins.insert_moved]
    rfl
  · simp only [hfuse, hend, tag_moved]
    rfl

theorem brk_resize {a n : ℕ} : (resize a n r h).brk = h.brk := by
  unfold resize
  split_ifs <;> rfl

theorem growAfter_moved (hi : Inv full ext h) (hc : c ∈ h.chunks) (hst : c.status = .inuse) :
    growAfter (c.moved δ k) r (h.moved δ k) = (growAfter c r h).map (movedResult δ k h) := by
  have hs := hi.shape
  obtain ⟨pre, post, hL⟩ := List.append_of_mem hc
  have hne : c.status ≠ .top := by simp [hst]
  obtain ⟨d, post', rfl, -⟩ := hs.exists_next hL hne
  obtain ⟨hat, -⟩ := hs.chunkAt_next hL
  have hsize : (c.moved δ k).size = c.size := Chunk.size_moved hne
  unfold growAfter
  rw [Chunk.next_moved hne, chunks_moved, chunkAt_moved, hat, hsize, Chunk.addr_moved, bins_moved]
  simp only [Option.map_some, Chunk.status_moved]
  by_cases hd : d.status = .free
  · have hdne : d.status ≠ .top := by simp [hd]
    have hdsize : (d.moved δ k).size = d.size := Chunk.size_moved hdne
    have hdslot : (d.moved δ k).slot = Slot.moved δ d.slot := Chunk.slot_moved hdne
    have hresize := hs.resize_moved (δ := δ) (k := k) (r := r) (n := c.size + d.size + 8)
      (B := h.bins.remove d.slot) hL hne hdne
    rw [hdsize, hdslot, Bins.remove_moved, hresize]
    split_ifs
    · simp only [Option.map_some, movedResult, brk_resize, Nat.add_sub_cancel_left]
    · rfl
  · rw [if_neg fun h' => hd h'.1, if_neg fun h' => hd h'.1]
    rfl

/-- The neighbours of a chunk in use whose `PREVIOUS_INUSE` bit is clear. -/
theorem Inv.exists_around (hi : Inv full ext h) (hc : c ∈ h.chunks) (hst : c.status = .inuse)
    (hp : c.pinuse = false) : ∃ pre p d post, h.chunks = pre ++ p :: c :: d :: post ∧
      p.status = .free ∧ Dlmalloc.chunkBefore h.chunks c.addr = some p ∧
      Dlmalloc.chunkAt h.chunks c.next = some d := by
  obtain ⟨pre, post, hL⟩ := List.append_of_mem hc
  obtain ⟨d, post', rfl, -⟩ := hi.shape.exists_next hL (by simp [hst])
  obtain ⟨pre', p, rfl, hfree⟩ := exists_of_lastFree ((hi.tags_around hL).2.1 hp)
  have hL' : h.chunks = pre' ++ p :: c :: d :: post' := by
    rw [hL, List.append_assoc]
    rfl
  exact ⟨pre', p, d, post', hL', hfree, hi.shape.chunkBefore hL', (hi.shape.chunkAt_next hL).1⟩

theorem growAround_moved (hi : Inv full ext h) (hc : c ∈ h.chunks) (hst : c.status = .inuse) :
    growAround (c.moved δ k) r (h.moved δ k) = (growAround c r h).map (movedResult δ k h) := by
  have hs := hi.shape
  have hne : c.status ≠ .top := by simp [hst]
  unfold growAround
  rw [Chunk.pinuse_moved]
  cases hp : c.pinuse with
  | true => rfl
  | false =>
    obtain ⟨pre, p, d, post, hL, hpfree, hbefore, hat⟩ := hi.exists_around hc hst hp
    have hpne : p.status ≠ .top := by simp [hpfree]
    rw [Chunk.next_moved hne, chunks_moved, Chunk.addr_moved, hs.chunkBefore_moved hc,
      chunkAt_moved, hbefore, hat, bins_moved]
    simp only [Bool.false_eq_true, if_false, Option.map_some, Chunk.status_moved]
    by_cases hd : d.status = .free
    · have hdne : d.status ≠ .top := by simp [hd]
      -- first `c` and the chunk after it, then the chunk before them
      have hL' : h.chunks = (pre ++ [p]) ++ c :: d :: post := by simp [hL]
      have hfuse := hs.fuse_moved (δ := δ) (k := k) (τ := .inuse) hL' hne (by simp [hdne])
      obtain ⟨-, hs₁⟩ := hs.merge_next hL' hst hd
      have hrow : Dlmalloc.fuse c.addr .inuse h.chunks = pre ++ p :: fused c d .inuse :: post := by
        rw [hs.fuse_chunks hL', List.append_assoc]
        rfl
      have hresize := hs₁.resize_moved (δ := δ) (k := k) (r := r)
        (n := c.size + p.size + d.size + 16) (B := (h.bins.remove d.slot).remove p.slot) hrow hpne
        (by simp [fused])
      rw [Chunk.size_moved hne, Chunk.size_moved hpne, Chunk.size_moved hdne, Chunk.slot_moved hpne,
        Chunk.slot_moved hdne, Chunk.addr_moved, Bins.remove_moved, Bins.remove_moved, hfuse]
      split_ifs
      · simp only [Option.map_some, movedResult, brk_resize, Nat.add_sub_cancel_left]
        exact congrArg (fun g => some (p.addr + δ, g)) hresize
      · rfl
    · rw [if_neg fun h' => hd h'.1, if_neg fun h' => hd h'.1]
      rfl

theorem growBefore_moved (hi : Inv full ext h) (hc : c ∈ h.chunks) (hst : c.status = .inuse) :
    growBefore (c.moved δ k) r (h.moved δ k) = (growBefore c r h).map (movedResult δ k h) := by
  have hs := hi.shape
  have hne : c.status ≠ .top := by simp [hst]
  unfold growBefore
  rw [Chunk.pinuse_moved]
  cases hp : c.pinuse with
  | true => rfl
  | false =>
    obtain ⟨pre, p, d, post, hL, hpfree, hbefore, hat⟩ := hi.exists_around hc hst hp
    have hpne : p.status ≠ .top := by simp [hpfree]
    have hpsize : (p.moved δ k).size = p.size := Chunk.size_moved hpne
    have hcsize : (c.moved δ k).size = c.size := Chunk.size_moved hne
    have hpslot : (p.moved δ k).slot = Slot.moved δ p.slot := Chunk.slot_moved hpne
    -- the block moves into the chunk before it, which is the left one of the two merged
    have hresize := hs.resize_moved (δ := δ) (k := k) (r := r) (n := p.size + c.size + 8)
      (B := h.bins.remove p.slot) hL hpne hne
    rw [Chunk.next_moved hne, chunks_moved, Chunk.addr_moved, hs.chunkBefore_moved hc,
      chunkAt_moved, hbefore, hat, bins_moved]
    simp only [Bool.false_eq_true, if_false, Option.map_some, Chunk.status_moved]
    rw [hpsize, hcsize, hpslot, Chunk.addr_moved, Bins.remove_moved, hresize]
    split_ifs
    · simp only [Option.map_some, movedResult, brk_resize, Nat.add_sub_cancel_left]
    · rfl

theorem Shape.tiles_moved (hs : Shape ext X h) :
    Tiles (h.first + δ) (h.moved δ k).chunks (h.brk + δ + k - 8) := by
  obtain ⟨pre, t, hL, ht, -, hend⟩ := hs.exists_top
  have hne := hs.ne_top_before hL
  have htl := hs.tiles_of hL
  rw [tiles_mid] at htl
  rw [moved, hL, List.map_append, List.map_cons, tiles_mid]
  refine ⟨htl.1.moved hne, ?_⟩
  rw [Chunk.moved_of_top ht]
  simp only [Tiles, Chunk.next, List.map_nil] at hend ⊢
  omega

/-- How much the heap is extended by for a block to grow into its end. -/
theorem shortage_moved (hs : Shape ext X h) (hext : 32 ≤ ext) (hne : c.status ≠ .top)
    (hk : k = 0 ∨ h.shortage ext c r ≤ k) :
    (h.moved δ k).shortage ext (c.moved δ k) r = h.shortage ext c r - k ∧
      (k = 0 ∨ (h.moved δ k).shortage ext (c.moved δ k) r = 0) := by
  have hmin : SMALLEST_CHUNK = 32 := rfl
  have hsize : (c.moved δ k).size = c.size := Chunk.size_moved hne
  have htop : (h.moved δ k).top.2 = h.top.2 + k := congrArg Prod.snd hs.top_moved
  simp only [shortage, hsize, htop] at hk ⊢
  split_ifs at hk ⊢ <;> omega

/-- The last block grows into the end of the heap. -/
theorem Shape.retop_moved {m n : ℕ} (hs : Shape ext X h) (hL : h.chunks = pre ++ [c, d])
    (hc : c.status ≠ .top) (hn : 8 ∣ n) (hbrk : h.brk + n ≤ h.limit)
    (hfit : r + SMALLEST_CHUNK ≤ c.size + (d.size + n) + 8) :
    Dlmalloc.trim (c.addr + δ) r .top
        (Dlmalloc.fuse (c.addr + δ) .inuse (h.moved δ (n + m)).chunks) =
      (Dlmalloc.trim c.addr r .top
        (Dlmalloc.fuse c.addr .inuse (h.extend n).chunks)).map (Chunk.moved δ m) := by
  have hmin : SMALLEST_CHUNK = 32 := rfl
  obtain ⟨hs', pre', t, ht, -, hLt, hchunks⟩ := hs.extend hn hbrk
  have hsplit : pre' ++ [t] = (pre ++ [c]) ++ [d] := by
    rw [← hLt, hL, List.append_assoc]
    rfl
  obtain ⟨rfl, hdt⟩ := List.append_inj' hsplit rfl
  obtain rfl : t = d := by simpa using hdt
  rw [List.append_assoc] at hchunks
  have hne := hs.ne_top_before hL
  have hpre : pre.map (Chunk.moved δ m) = pre.map (Chunk.moved δ (n + m)) :=
    List.map_congr_left fun x hx => by
      rw [Chunk.moved_of_ne (hne x hx), Chunk.moved_of_ne (hne x hx)]
  -- both rows, the one before the move and the one after it
  have hrow := trim_fuse_mid (r := r) (τ := .top) (σ := .inuse) (hs'.tiles_of hchunks)
  have hrow' : (h.moved δ (n + m)).chunks =
      pre.map (Chunk.moved δ (n + m)) ++ [c.moved δ (n + m), t.moved δ (n + m)] := by
    rw [moved, hL, List.map_append]
    rfl
  have htl := hs.tiles_moved (δ := δ) (k := n + m)
  rw [hrow'] at htl
  have hmoved := trim_fuse_mid (r := r) (τ := .top) (σ := .inuse) htl
  have haddr : (c.moved δ (n + m)).addr = c.addr + δ := rfl
  rw [haddr] at hmoved
  rw [hrow', hmoved, hchunks, List.singleton_append, hrow, List.map_append, hpre]
  simp only [List.map_cons, List.map_nil, Chunk.moved, if_neg hc, if_pos ht, reduceCtorEq, if_true,
    if_false]
  have hrest : c.addr + δ + r + 8 = c.addr + r + 8 + δ := by omega
  have hsize : c.size + (t.size + (n + m)) + 8 - r - 8 =
      c.size + (t.size + n) + 8 - r - 8 + m := by omega
  rw [hrest, hsize]

/-- The last two chunks of the row, where the one after `c` is the end of the heap. -/
theorem Shape.last_two (hs : Shape ext X h) (hc : c ∈ h.chunks) (hne : c.status ≠ .top)
    (hnext : c.next = h.top.1) : ∃ pre d, h.chunks = pre ++ [c, d] ∧ h.top = d.slot := by
  obtain ⟨pre, post, hL⟩ := List.append_of_mem hc
  obtain ⟨d, post, rfl, hd⟩ := hs.exists_next hL hne
  obtain ⟨pre', t, hLt, ht, htt, -⟩ := hs.exists_top
  have hdt : d = t := hs.tiles.eq_of_addr_eq (by simp [hL]) (by simp [hLt])
    (by rw [hd, hnext, htt]; rfl)
  subst hdt
  have hpost : post = [] := by
    have h' := hs.topLast
    rw [hL, ← List.singleton_append, ← List.append_assoc] at h'
    exact h'.post_eq_nil ht
  subst hpost
  exact ⟨pre, d, hL, htt⟩

/-- The extension is enough, and not more than a call is charged for. -/
theorem Shape.shortage_fits (hs : Shape ext X h) (hx : Extension ext) (hr : Request r)
    (hL : h.chunks = pre ++ [c, d]) (hne : c.status ≠ .top) (htt : h.top = d.slot) :
    h.shortage ext c r ≤ r + ext ∧ 8 ∣ h.shortage ext c r ∧
      r + SMALLEST_CHUNK ≤ c.size + (d.size + h.shortage ext c r) + 8 := by
  have hc8 := (hs.sizes c (by simp [hL])).aligned
  have hsize : 24 ≤ c.size := (hs.sizes c (by simp [hL])).least hne
  have hd8 := (hs.sizes d (by simp [hL])).aligned
  have hr8 := hr.aligned
  have hx8 := hx.aligned
  have hmin : SMALLEST_CHUNK = 32 := rfl
  simp only [shortage, htt, Chunk.slot]
  split_ifs <;> omega

theorem growTop_moved (hi : Inv full ext h) (hx : Extension ext) (hext : 32 ≤ ext)
    (hr : Request r) (hc : c ∈ h.chunks) (hst : c.status = .inuse)
    (hk : k = 0 ∨ h.brk + (r + ext) ≤ h.limit ∧ h.brk + k ≤ h.limit ∧
      ∀ p, growTop ext c r h = some p → p.2.brk ≤ h.brk + k) :
    growTop ext (c.moved δ k) r (h.moved δ k) = (growTop ext c r h).map (movedResult δ k h) := by
  have hs := hi.shape
  have hne : c.status ≠ .top := by simp [hst]
  have htop : (h.moved δ k).top.1 = h.top.1 + δ := congrArg Prod.fst hs.top_moved
  unfold growTop at hk ⊢
  rw [Chunk.next_moved hne, htop, brk_moved, limit_moved, Chunk.addr_moved]
  by_cases hnext : c.next = h.top.1
  · -- the chunk after `c` is the end of the heap
    obtain ⟨pre, d, hL, htt⟩ := hs.last_two hc hne hnext
    obtain ⟨hmost, hfit⟩ := hs.shortage_fits hx hr hL hne htt
    by_cases hroom : h.brk + h.shortage ext c r ≤ h.limit
    -- the `k` bytes are used up first, and the rest of them stays at the end
    · have hcond : c.next = h.top.1 ∧ h.brk + h.shortage ext c r ≤ h.limit := ⟨hnext, hroom⟩
      rw [if_pos hcond] at hk ⊢
      have hle : k = 0 ∨ h.shortage ext c r ≤ k ∧ h.brk + k ≤ h.limit :=
        hk.imp_right fun h' => ⟨Nat.add_le_add_iff_left.mp (h'.2.2 _ rfl), h'.2.1⟩
      obtain ⟨hshort, hzero⟩ :=
        shortage_moved (δ := δ) (r := r) hs hext hne (hle.imp_right And.left)
      have hsum : (h.moved δ k).shortage ext (c.moved δ k) r + k =
          h.shortage ext c r + (k - h.shortage ext c r) := by omega
      have hleft : h.brk + k - (h.brk + h.shortage ext c r) = k - h.shortage ext c r := by omega
      have hend : h.brk + h.shortage ext c r + δ + (k - h.shortage ext c r) =
          h.brk + δ + (h.shortage ext c r + (k - h.shortage ext c r)) := by omega
      have hretop := hs.retop_moved (δ := δ) (m := k - h.shortage ext c r) hL hne hfit.1 hroom
        hfit.2
      rw [if_pos ⟨by rw [hnext], by omega⟩, hs.extend_moved, hs.moved_extend, hsum, Option.map_some]
      simp only [movedResult, hretop, Heap.extend, hleft]
      simp only [moved, hend]
    -- there was no room for the extension, so that `k` is zero
    · have hk0 : k = 0 := by
        refine hk.resolve_right fun h' => hroom ?_
        have h'' := h'.1
        omega
      obtain ⟨hshort, -⟩ := shortage_moved (δ := δ) (r := r) hs hext hne (.inl hk0)
      have hcond : ¬ (c.next = h.top.1 ∧ h.brk + h.shortage ext c r ≤ h.limit) :=
        fun h' => hroom h'.2
      rw [if_neg hcond, if_neg fun h' => by have := h'.2; omega]
      rfl
  · rw [if_neg fun h' => hnext (Nat.add_right_cancel h'.1), if_neg fun h' => hnext h'.1]
    rfl

theorem moveOut_moved (hi : Inv full ext h) (hx : Extension ext) (hext : 32 ≤ ext)
    (hr : Request r) (hc : c ∈ h.chunks) (hst : c.status = .inuse)
    (hk : Within k h (moveOut ext c r h)) :
    moveOut ext (c.moved δ k) r (h.moved δ k) = (moveOut ext c r h).map (movedResult δ k h) := by
  have hk' : Within k h (malloc ext r h) := by
    refine hk.imp_right ?_
    rintro ⟨p, hp, hle⟩
    obtain ⟨q, hq, rfl⟩ := Option.map_eq_some_iff.mp hp
    rw [bounds_free.2.2.1] at hle
    exact ⟨q, hq, hle⟩
  unfold moveOut
  rw [malloc_moved hi hx hext hr hk']
  cases hm : malloc ext r h with
  | none => rfl
  | some p =>
    obtain ⟨b, h'⟩ := p
    obtain ⟨hi', -, n, -, hused⟩ := malloc_spec hi hx hr hm
    -- the old block is still in its chunk
    have hmem : c.slot ∈ h'.used := by
      rw [hused]
      exact Multiset.mem_cons_of_mem (mem_usedSlots.mpr ⟨c, hc, hst, rfl⟩)
    obtain ⟨c', hc', hst', hslot⟩ := mem_usedSlots.mp hmem
    have haddr : c'.addr = c.addr := congrArg Prod.fst hslot
    have hfree := free_moved (δ := δ) (k := h.brk + k - h'.brk) hi' hc' hst'
    rw [haddr] at hfree
    simp only [Option.map_some, movedResult, bounds_free.2.2.1, Chunk.addr_moved, hfree]

/-- **A block is reallocated.** -/
theorem realloc_moved (hi : Inv full ext h) (hx : Extension ext) (hext : 32 ≤ ext)
    (hr : Request r) (hc : c ∈ h.chunks) (hst : c.status = .inuse)
    (hroom : k = 0 ∨ h.brk + (r + ext) ≤ h.limit ∧ h.brk + k ≤ h.limit)
    (hk : Within k h (realloc ext c.addr r h)) :
    realloc ext (c.addr + δ) r (h.moved δ k) =
      (realloc ext c.addr r h).map (movedResult δ k h) := by
  have hne : c.status ≠ .top := by simp [hst]
  have hsize : (c.moved δ k).size = c.size := Chunk.size_moved hne
  unfold realloc at hk ⊢
  rw [hi.shape.chunkAt hc] at hk ⊢
  rw [chunks_moved, chunkAt_moved, hi.shape.chunkAt hc]
  simp only [Option.map_some, hsize] at hk ⊢
  by_cases hle : r ≤ c.size
  · have hbrk : (h.shrink c r).brk = h.brk := by
      have hgrows : Grows 0 h (h.shrink c r) := grows_shrink
      exact le_antisymm hgrows.most hgrows.brk
    rw [if_pos hle, if_pos hle, shrink_moved hi hr hc hst]
    simp only [Option.map_some, movedResult, hbrk, Nat.add_sub_cancel_left]
  rw [if_neg hle] at hk ⊢
  rw [if_neg hle, growAfter_moved hi hc hst, growAround_moved hi hc hst, growBefore_moved hi hc hst]
  -- the first way that succeeds is the same
  cases h1 : growAfter c r h with
  | some p => rfl
  | none =>
    cases h2 : growAround c r h with
    | some p => rfl
    | none =>
      cases h3 : growBefore c r h with
      | some p => rfl
      | none =>
        simp only [h1, h2, h3, Option.none_or, Option.map_none] at hk ⊢
        have htop : k = 0 ∨ h.brk + (r + ext) ≤ h.limit ∧ h.brk + k ≤ h.limit ∧
            ∀ p, growTop ext c r h = some p → p.2.brk ≤ h.brk + k := by
          rcases hroom with h0 | ⟨hlimit, hend⟩
          · exact .inl h0
          · refine hk.imp_right ?_
            rintro ⟨p, hp, hpk⟩
            refine ⟨hlimit, hend, fun q hq => ?_⟩
            rw [hq] at hp
            obtain rfl := Option.some.inj hp
            exact hpk
        rw [growTop_moved hi hx hext hr hc hst htop]
        cases h4 : growTop ext c r h with
        | some p => rfl
        | none =>
          rw [h4] at hk
          exact moveOut_moved hi hx hext hr hc hst hk

end Moved

end Heap

/-! ### Sessions -/

/-- The block `δ` bytes higher. -/
def Block.moved (δ : ℕ) (b : Block) : Block := ⟨b.ptr + δ, b.size⟩

/-- What a call that returns `p` returns where everything is `δ` bytes higher. -/
def movedPtr (δ : ℕ) (p : Addr) : Addr := if p = NULL then NULL else p + δ

namespace Session

open Heap

/-- The session `δ` bytes higher, with `k` more bytes at the end of its heap. -/
def moved (δ k : ℕ) (σ : Session) : Session := ⟨σ.heap.moved δ k, σ.live.map (Block.moved δ)⟩

section Moved

variable {full : Prop} {ext N δ k i size : ℕ} {σ : Session} {c : Call} {cs : List Call} {b : Block}

/-- The calls of a run need at most `k` bytes of the `k` that are there, and there is room for all
that they may ask for; or `k` is zero, and they have what they would have anyway. -/
def Ample (k charge : ℕ) (h h' : Heap) : Prop :=
  k = 0 ∨ h.brk + charge ≤ h.limit ∧ h.brk + k ≤ h.limit ∧ h'.brk ≤ h.brk + k

theorem movedPtr_chunk (a : ℕ) : movedPtr δ (a + 16) = a + δ + 16 := by
  have hne : a + 16 ≠ NULL := Nat.succ_ne_zero _
  rw [movedPtr, if_neg hne]
  exact Nat.add_right_comm a 16 δ

/-- The chunk of a block put elsewhere. -/
theorem moved_ptr {a : ℕ} (hptr : b.ptr = a + 16) : (b.moved δ).ptr - 16 = a + δ := by
  show b.ptr + δ - 16 = _
  rw [hptr, Nat.add_right_comm]
  exact Nat.add_sub_cancel _ _

theorem moved_getElem? (hb : σ.live[i]? = some b) :
    (σ.live.map (Block.moved δ))[i]? = some (b.moved δ) := by
  rw [List.getElem?_map, hb]
  rfl

theorem movedPtr_zero (p : Addr) : movedPtr 0 p = p := by
  unfold movedPtr
  split_ifs with h
  · exact h.symm
  · rfl

/-- Nothing is moved. -/
theorem moved_zero (σ : Session) : σ.moved 0 0 = σ := by
  have hentry : Slot.moved 0 = id := rfl
  have haddr : (fun a : ℕ => a + 0) = id := rfl
  have hblock : Block.moved 0 = id := rfl
  have hchunk : Chunk.moved 0 0 = id := by
    funext c
    show (⟨c.addr, if c.status = .top then c.size else c.size, c.status, c.pinuse⟩ : Chunk) = c
    rw [ite_self]
  simp only [moved, Heap.moved, Bins.moved, hentry, haddr, hblock, hchunk, DigitTree.map_id,
    List.map_id, Option.map_id]
  rfl

/-- The chunk of a live block, where the block is and where it was put. -/
theorem Good.chunk_moved (hg : σ.Good full ext) (hi : i < σ.live.length) :
    ∃ b d, σ.live[i]? = some b ∧ d ∈ σ.heap.chunks ∧ d.status = .inuse ∧ b.ptr - 16 = d.addr ∧
      (b.moved δ).ptr - 16 = d.addr + δ := by
  have hb : σ.live[i]? = some σ.live[i] := List.getElem?_eq_getElem hi
  obtain ⟨d, hd, hst, hptr, -⟩ := hg.chunk hb
  exact ⟨σ.live[i], d, hb, hd, hst, by rw [hptr, Nat.add_sub_cancel], moved_ptr hptr⟩

theorem moved_same : σ.moved δ k = σ.moved δ (σ.heap.brk + k - σ.heap.brk) := by
  rw [Nat.add_sub_cancel_left]

theorem Good.call_malloc_moved (hg : σ.Good full ext) (hx : Extension ext) (hext : 32 ≤ ext)
    (hk : Ample k (Call.charge ext (.malloc size)) σ.heap (σ.call ext (.malloc size)).2.heap) :
    (σ.moved δ k).call ext (.malloc size) = (movedPtr δ (σ.call ext (.malloc size)).1,
      (σ.call ext (.malloc size)).2.moved δ
        (σ.heap.brk + k - (σ.call ext (.malloc size)).2.heap.brk)) := by
  have hheap : (σ.moved δ k).heap = σ.heap.moved δ k := rfl
  have hlive : (σ.moved δ k).live = σ.live.map (Block.moved δ) := rfl
  simp only [Session.call] at hk ⊢
  by_cases h0 : size = 0
  -- `my_malloc(0)` changes nothing
  · rw [if_pos h0, if_pos h0]
    exact Prod.ext rfl moved_same
  rw [if_neg h0] at hk ⊢
  have hwithin : Within k σ.heap (σ.heap.malloc ext (requestSize size)) := by
    refine hk.imp_right ?_
    rintro ⟨hroom, -, hle⟩
    obtain ⟨p, hp⟩ := Option.ne_none_iff_exists'.mp (malloc_ne_none_of_room hext hroom)
    rw [hp] at hle
    exact ⟨p, hp, hle⟩
  rw [if_neg h0, hheap, hlive, malloc_moved hg.inv hx hext (request_requestSize size) hwithin]
  cases σ.heap.malloc ext (requestSize size) with
  | none => exact Prod.ext rfl moved_same
  | some p =>
    obtain ⟨a, h'⟩ := p
    simp only [Option.map_some, movedResult, movedPtr_chunk, moved, List.map_append]
    simp [Block.moved, Nat.add_right_comm]

theorem Good.call_realloc_moved (hg : σ.Good full ext) (hx : Extension ext) (hext : 32 ≤ ext)
    (hi : i < σ.live.length)
    (hk : Ample k (Call.charge ext (.realloc i size)) σ.heap
      (σ.call ext (.realloc i size)).2.heap) :
    (σ.moved δ k).call ext (.realloc i size) = (movedPtr δ (σ.call ext (.realloc i size)).1,
      (σ.call ext (.realloc i size)).2.moved δ
        (σ.heap.brk + k - (σ.call ext (.realloc i size)).2.heap.brk)) := by
  have hheap : (σ.moved δ k).heap = σ.heap.moved δ k := rfl
  have hlive : (σ.moved δ k).live = σ.live.map (Block.moved δ) := rfl
  obtain ⟨b, d, hb, hd, hst, haddr, haddr'⟩ := hg.chunk_moved (δ := δ) hi
  simp only [Session.call, hlive, hb, moved_getElem? hb, haddr, haddr'] at hk ⊢
  -- with room for what it may ask the call succeeds, and uses up no more than the extra bytes
  have hwithin : Within k σ.heap (σ.heap.realloc ext d.addr (requestSize size)) := by
    refine hk.imp_right ?_
    rintro ⟨hroom, -, hle⟩
    obtain ⟨p, hp⟩ := Option.ne_none_iff_exists'.mp (realloc_ne_none_of_room hg.inv hd hext hroom)
    rw [hp] at hle
    exact ⟨p, hp, hle⟩
  have hroom := hk.imp_right fun h' => And.intro h'.1 h'.2.1
  rw [hheap, realloc_moved hg.inv hx hext (request_requestSize size) hd hst hroom hwithin]
  cases σ.heap.realloc ext d.addr (requestSize size) with
  | none => exact Prod.ext rfl moved_same
  | some p =>
    obtain ⟨a, h'⟩ := p
    simp only [Option.map_some, movedResult, movedPtr_chunk, moved, List.map_set]
    simp [Block.moved, Nat.add_right_comm]

theorem Good.call_free_moved (hg : σ.Good full ext) (hi : i < σ.live.length) :
    (σ.moved δ k).call ext (.free i) = (movedPtr δ (σ.call ext (.free i)).1,
      (σ.call ext (.free i)).2.moved δ (σ.heap.brk + k - (σ.call ext (.free i)).2.heap.brk)) := by
  have hheap : (σ.moved δ k).heap = σ.heap.moved δ k := rfl
  have hlive : (σ.moved δ k).live = σ.live.map (Block.moved δ) := rfl
  obtain ⟨b, d, hb, hd, hst, haddr, haddr'⟩ := hg.chunk_moved (δ := δ) hi
  simp only [Session.call, hlive, hb, moved_getElem? hb, haddr, haddr', hheap,
    free_moved hg.inv hd hst, bounds_free.2.2.1, Nat.add_sub_cancel_left]
  rw [List.eraseIdx_map]
  rfl

/-- **A call** on a session put elsewhere. -/
theorem Good.call_moved (hg : σ.Good full ext) (hx : Extension ext) (hext : 32 ≤ ext)
    (hv : c.Valid N σ.live)
    (hk : Ample k (c.charge ext) σ.heap (σ.call ext c).2.heap) :
    (σ.moved δ k).call ext c = (movedPtr δ (σ.call ext c).1,
      (σ.call ext c).2.moved δ (σ.heap.brk + k - (σ.call ext c).2.heap.brk)) := by
  cases c with
  | malloc size => exact hg.call_malloc_moved hx hext hk
  | realloc i size => exact hg.call_realloc_moved hx hext hv.1 hk
  | free i => exact hg.call_free_moved hv

/-- What is there for a run is there for its first call, and what that leaves for the rest. -/
theorem Good.ample_cons (hg : σ.Good full ext) (hx : Extension ext) (hN : N + 7 < 2 ^ 64)
    (hv : Valid ext N (c :: cs) σ)
    (hk : Ample k (charges ext (c :: cs)) σ.heap (Session.run ext (c :: cs) σ).2.heap) :
    Ample k (c.charge ext) σ.heap (σ.call ext c).2.heap ∧
      Ample (σ.heap.brk + k - (σ.call ext c).2.heap.brk) (charges ext cs)
        (σ.call ext c).2.heap (Session.run ext cs (σ.call ext c).2).2.heap := by
  have hfirst := hg.call_grows (c := c)
  have hrest := (hg.call hx hN hv.1).run_grows hx hN hv.2
  have hsum : charges ext (c :: cs) = c.charge ext + charges ext cs := by simp [charges]
  have hlast : (Session.run ext (c :: cs) σ).2 = (Session.run ext cs (σ.call ext c).2).2 := rfl
  rw [hsum, hlast] at hk
  have hup := hfirst.brk
  have hup' := hrest.brk
  have hmost := hfirst.most
  have hlimit := hfirst.limit
  -- the first call uses some of the `k` bytes, and the rest has what it left of them
  rcases hk with rfl | ⟨hroom, hend, hlast⟩
  · exact ⟨.inl rfl, .inl (by omega)⟩
  · exact ⟨.inr ⟨by omega, hend, by omega⟩, .inr ⟨by omega, by omega, by omega⟩⟩

/-- **A run** on a session put elsewhere: the calls return the same pointers, put elsewhere. -/
theorem Good.run_moved (hg : σ.Good full ext) (hx : Extension ext) (hext : 32 ≤ ext)
    (hN : N + 7 < 2 ^ 64) (hv : Valid ext N cs σ)
    (hk : Ample k (charges ext cs) σ.heap (Session.run ext cs σ).2.heap) :
    Session.run ext cs (σ.moved δ k) = ((Session.run ext cs σ).1.map (movedPtr δ),
      (Session.run ext cs σ).2.moved δ
        (σ.heap.brk + k - (Session.run ext cs σ).2.heap.brk)) := by
  induction cs generalizing full σ k with
  | nil => exact Prod.ext rfl moved_same
  | cons c cs ih =>
    have hg' := hg.call hx hN hv.1
    have hup := (hg.call_grows (c := c)).brk
    have hup' := (hg'.run_grows hx hN hv.2).brk
    obtain ⟨hfirst, hrest⟩ := hg.ample_cons hx hN hv hk
    -- what the move leaves of the extra bytes after the first call
    have hleft : (σ.call ext c).2.heap.brk + (σ.heap.brk + k - (σ.call ext c).2.heap.brk) -
        (Session.run ext cs (σ.call ext c).2).2.heap.brk =
        σ.heap.brk + k - (Session.run ext cs (σ.call ext c).2).2.heap.brk := by omega
    have hind := ih hg' hv.2 hrest
    rw [hleft] at hind
    rw [Session.run, hg.call_moved hx hext hv.1 hfirst]
    simp only [hind]
    rfl

/-- Calls that are valid on a session are valid where it was put. -/
theorem Good.valid_moved (hg : σ.Good full ext) (hx : Extension ext) (hext : 32 ≤ ext)
    (hN : N + 7 < 2 ^ 64) (hv : Valid ext N cs σ)
    (hk : Ample k (charges ext cs) σ.heap (Session.run ext cs σ).2.heap) :
    Valid ext N cs (σ.moved δ k) := by
  induction cs generalizing full σ k with
  | nil => trivial
  | cons c cs ih =>
    have hlength : (σ.moved δ k).live.length = σ.live.length := List.length_map _
    have hcall : c.Valid N (σ.moved δ k).live := by
      have h1 := hv.1
      cases c <;> simp only [Call.Valid, hlength] at h1 ⊢ <;> exact h1
    obtain ⟨hfirst, hrest⟩ := hg.ample_cons hx hN hv hk
    refine ⟨hcall, ?_⟩
    rw [hg.call_moved hx hext hv.1 hfirst]
    exact ih (hg.call hx hN hv.1) hv.2 hrest

end Moved

end Session

end Dlmalloc
