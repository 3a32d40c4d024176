import Dlmalloc.Refine.Steps

/-!
# The end of the simulated heap

`mem_sbrk` for an increment that an `int` can hold (`memSbrk_run`), and the extension of the last
chunk by the bytes it grants (`Rep.extend`).
-/

namespace Dlmalloc

open Heap

section Brk

variable {ext r d : ℕ} {X : Multiset Slot} {h : Heap} {s s' : State} {c o : Chunk}
  {pre post : List Chunk}

theorem toInt_of_lt (hd : d < 2 ^ 31) : toInt d = d := by
  have hlow : d % 2 ^ 32 = d := Nat.mod_eq_of_lt (by omega)
  rw [toInt, hlow, if_pos hd]

theorem movePtr_add {p : ℕ} (h : p + d < 2 ^ 64) : movePtr p d = p + d := by
  have h1 : ((p : ℤ) + d) % 2 ^ 64 = (p + d : ℕ) := by
    rw [← Nat.cast_add]
    exact Int.emod_eq_of_lt (by omega) (by exact_mod_cast h)
  rw [movePtr, h1, Int.toNat_natCast]

theorem movePtr_sub {p : ℕ} (h : p + d < 2 ^ 64) : movePtr (p + d) (-(d : ℤ)) = p := by
  have h1 : ((p + d : ℕ) : ℤ) + -d = p := by omega
  have h2 : (p : ℤ) % 2 ^ 64 = p := Int.emod_eq_of_lt (by omega) (by omega)
  rw [movePtr, h1, h2, Int.toNat_natCast]

theorem toInt_neg {k : ℕ} (h0 : 0 < k) (hk : k < 2 ^ 31) : toInt (2 ^ 64 - k) = -k := by
  have hlow : (2 ^ 64 - k) % 2 ^ 32 = 2 ^ 32 - k := by omega
  rw [toInt, hlow, if_neg (by omega)]
  omega

theorem movePtr_movePtr {p : ℕ} (hp : p < 2 ^ 64) (x : ℤ) : movePtr (movePtr p x) (-x) = p := by
  have h1 : ((movePtr p x : ℕ) : ℤ) = (p + x) % 2 ^ 64 :=
    Int.toNat_of_nonneg (Int.emod_nonneg _ (by decide))
  have h2 : (p : ℤ) % 2 ^ 64 = p := Int.emod_eq_of_lt (by omega) (by omega)
  rw [movePtr, h1, Int.emod_add_emod, add_neg_cancel_right, h2, Int.toNat_natCast]

/-- `mem_sbrk` refuses a negative increment. -/
theorem memSbrk_neg {x : ℤ} (hx : x < 0) (hmin : x ≠ -2 ^ 31) (hbrk : s.memBrk < 2 ^ 64) :
    memSbrk x s = some (SBRK_FAILED, s) := by
  have hback : movePtr (movePtr s.memBrk x) (negInt x) = s.memBrk := by
    rw [negInt, if_neg hmin]
    exact movePtr_movePtr hbrk x
  simp [memSbrk, hx, hback]

/-- `mem_sbrk` grants `d` bytes if they are there, and else leaves everything as it is. -/
theorem memSbrk_run (hd : d < 2 ^ 31) (hbrk : s.memBrk + 2 ^ 31 ≤ 2 ^ 64) :
    memSbrk (toInt d) s = if s.memBrk + d ≤ s.memMaxAddr
      then some (s.memBrk, { s with memBrk := s.memBrk + d }) else some (SBRK_FAILED, s) := by
  have hroom : ∀ p : ℕ, p + 2 ^ 31 ≤ 2 ^ 64 → p + d < 2 ^ 64 := fun p hp => by omega
  have hup : movePtr s.memBrk d = s.memBrk + d := movePtr_add (hroom _ hbrk)
  have hdown : movePtr (s.memBrk + d) (negInt d) = s.memBrk := by
    have hneg : negInt (d : ℤ) = -d := if_neg (by omega)
    rw [hneg]
    exact movePtr_sub (hroom _ hbrk)
  have hnn : ¬ ((d : ℤ) < 0) := by omega
  rw [toInt_of_lt hd]
  simp only [memSbrk, M.bind_apply, look_apply, change_apply, Option.bind_some, hup, hnn, false_or]
  by_cases hle : s.memBrk + d ≤ s.memMaxAddr
  · rw [if_neg (not_lt.mpr hle), if_pos hle]
    rfl
  · rw [if_pos (not_le.mp hle), if_neg hle]
    simp only [M.bind_apply, change_apply, Option.bind_some, hdown]
    rfl

/-- The bytes granted go to the last chunk. -/
theorem Rep.extend (hr : Rep s h) (hs : Shape ext X h) (hL : h.chunks = pre ++ [c])
    (hc : c.status = .top) (hd : 8 ∣ d) (hbrk : h.brk + d ≤ h.limit) :
    add64 (s.load .currentSize c.addr) d = { c with size := c.size + d }.word ∧
    Rep ({ s with memBrk := s.memBrk + d }.store .currentSize c.addr
        { c with size := c.size + d }.word) (h.extend d) ∧
      Frame (InUse h.chunks) s ({ s with memBrk := s.memBrk + d }.store .currentSize c.addr
        { c with size := c.size + d }.word) := by
  have hcm : c ∈ h.chunks := Shape.mem_chunks hL
  have htop := hs.top_eq hcm hc
  have hspan := hs.arena.span
  have hword : (s.load .currentSize c.addr) = c.word := (hr.headers c hcm).word
  have hflags := c.flags_lt
  have hlt : c.size + d + c.flags < 2 ^ 64 := by
    have h1 := htop.2
    simp only [Chunk.next] at h1
    omega
  have hw' : ({ c with size := c.size + d } : Chunk).word = c.size + d + c.flags := rfl
  have hchunks : (h.extend d).chunks = pre ++ [{ c with size := c.size + d }] := by
    simp only [Heap.extend, htop.1, Chunk.slot]
    rw [hL]
    exact grow_mid (hs.tiles_of hL)
  -- the header, at the old break
  set s₁ := s.store .currentSize c.addr { c with size := c.size + d }.word with hs₁
  have hw : Within (c.addr + 8) (c.addr + 16) s s₁ := by
    refine (Within.refl _ _ s).store ?_ ?_ <;> simp only [Field.offset, Field.width] <;> omega
  have hr₁ : Rep s₁ { h with chunks := (h.extend d).chunks } := by
    rw [hchunks]
    have hedit := hr.edit (C := [c]) (D := [{ c with size := c.size + d }]) (Q := [])
      (i := c.addr) (j := c.next) (t := s₁) hs (by simpa using hL) (by simp)
      (by simp [freeSlots_cons, hc]) ⟨rfl, rfl⟩
      (hw.mono le_rfl (by simp only [Chunk.next]; omega)) fun x hx => ?_
    · simpa using hedit
    · obtain rfl := List.mem_singleton.mp hx
      refine ⟨load_store_currentSize (hw' ▸ hlt), fun h' => ?_⟩
      rw [hc] at h'
      cases h'
  refine ⟨?_, ⟨fun x hx => ⟨(hr₁.headers x hx).word, (hr₁.headers x hx).footer⟩, hr₁.victim,
    fun n h2 hn => (hr₁.bin n h2 hn).of_load (fun _ _ => rfl) rfl, hr₁.memStartBrk, ?_,
    hr₁.memMaxAddr⟩, fun e he x h1 h2 => ?_, rfl⟩
  · rw [hword, add64_of_lt] <;> simp only [Chunk.word, Chunk.flags] at * <;> omega
  · show s.memBrk + d = h.brk + d
    rw [hr.memBrk]
  · refine hw.keeps (fun f hf => ?_) e he x h1 h2
    obtain ⟨x, hx, hxst, rfl⟩ := mem_usedSlots.mp hf
    rcases hs.tiles.apart hx hcm with rfl | h' | h'
    · rw [hc] at hxst
      cases hxst
    all_goals
      simp only [Chunk.slot, Chunk.next] at *
      omega

/-- The heap is extended for `d` bytes more in its last chunk, or `mem_sbrk` refuses; `k` and `no`
are what is done then. -/
theorem Rep.extend_run {α : Type} {k no : M α} {Q : α → State → Prop} (hr : Rep s h)
    (hs : Shape ext X h) (hL : h.chunks = pre ++ [c]) (hc : c.status = .top) (hd8 : 8 ∣ d)
    (hd : d < 2 ^ 31)
    (hk : h.brk + d ≤ h.limit → ∀ s', Rep s' (h.extend d) → Frame (InUse h.chunks) s s' →
      Returns k s' Q)
    (hno : ¬ h.brk + d ≤ h.limit → Returns no s Q) :
    Returns (do
      if (← memSbrk (toInt d)) = SBRK_FAILED then
        no
      else
        store .currentSize c.addr (add64 (← load .currentSize c.addr) d)
        k) s Q := by
  have hspan := hs.arena.span
  have hle := hs.arena.brk_le
  have hbrk31 : h.brk + 2 ^ 31 ≤ 2 ^ 64 := by omega
  have hrun := memSbrk_run (s := s) hd (hr.memBrk ▸ hbrk31)
  have hcond : s.memBrk + d ≤ s.memMaxAddr ↔ h.brk + d ≤ h.limit := by
    rw [hr.memBrk, hr.memMaxAddr]
  -- `mem_sbrk` has room or not
  by_cases hroom : h.brk + d ≤ h.limit
  · rw [if_pos (hcond.mpr hroom)] at hrun
    refine Returns.bind_of_eq hrun ?_
    have hb : s.memBrk ≠ SBRK_FAILED := by
      have : h.brk < 2 ^ 64 - 1 := by omega
      exact hr.memBrk ▸ this.ne
    rw [if_neg hb]
    obtain ⟨hword, hrep, hf⟩ := hr.extend hs hL hc hd8 hroom
    refine Returns.bind_of_eq (load_apply _ _ _ State.isPtr_load_currentSize) ?_
    refine Returns.bind_of_eq (store_apply _ _ _ _) ?_
    have hword' : add64 (State.load { s with memBrk := s.memBrk + d } .currentSize c.addr) d = _ :=
      hword
    rw [hword']
    exact hk hroom _ hrep hf
  · rw [if_neg (mt hcond.mp hroom)] at hrun
    refine Returns.bind_of_eq hrun ?_
    rw [if_pos rfl]
    exact hno hroom

/-- A footer written once more. -/
theorem Rep.footer (hr : Rep s h) (hs : Shape ext X h) (hL : h.chunks = pre ++ o :: post)
    (ho : o.status = .free) : Rep (s.store .previousSize o.next o.size) h ∧
      Frame (InUse h.chunks) s (s.store .previousSize o.next o.size) := by
  have hom : o ∈ h.chunks := Shape.mem_chunks hL
  have hfit := hs.fits hom
  have hsz := (hs.sizes o hom).least (by simp [ho])
  have hlt : o.size < 2 ^ 64 := by
    have := hfit.below
    simp only [Chunk.next] at this
    omega
  have hw : Within o.next (o.next + 8) s (s.store .previousSize o.next o.size) := by
    refine (Within.refl _ _ s).store ?_ ?_ <;> simp only [Field.offset, Field.width] <;> omega
  refine ⟨?_, hw.keeps fun e he => ?_, rfl⟩
  · -- the word is the last one of `o`: it lies in no header and in no link
    have hrep := hr.of_headers (L := h.chunks) hs hw (fun e he => ?_) fun x hx => ?_
    · exact hrep
    · have hfree : e ∈ freeSlots h.chunks := hs.account ▸ Multiset.mem_add.mpr (.inr he)
      obtain ⟨x, hx, hxst, rfl⟩ := mem_freeSlots.mp hfree
      rcases hs.tiles.apart hx hom with rfl | h' | h' <;>
        simp only [Chunk.slot, Chunk.next] at * <;> omega
    · rcases hs.tiles.apart hx hom with rfl | h' | h'
      · refine ⟨?_, fun _ => load_store_previousSize hlt⟩
        rw [State.load_store_of_disjoint, (hr.headers x hx).word]
        simp only [Field.offset, Field.width, Chunk.next]
        omega
      · refine hw.header (hr.headers x hx) (.inl ⟨?_, fun _ => ?_⟩)
        · simp only [Chunk.next] at *
          omega
        · simp only [Chunk.next] at *
          omega
      · exact hw.header (hr.headers x hx) (.inr (by omega))
  · -- a chunk in use keeps its bytes
    obtain ⟨x, hx, hxst, rfl⟩ := mem_usedSlots.mp he
    have hne : x ≠ o := by
      rintro rfl
      rw [ho] at hxst
      cases hxst
    rcases (hs.tiles.apart hx hom).resolve_left hne with h' | h'
    · have := (hs.sizes x hx).least (by simp [hxst])
      simp only [Chunk.slot, Chunk.next] at *
      omega
    · simp only [Chunk.slot, Chunk.next] at *
      omega

end Brk

end Dlmalloc
