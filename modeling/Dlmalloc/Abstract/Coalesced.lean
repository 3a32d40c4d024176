import Dlmalloc.Abstract.Layout
import Mathlib.Algebra.Order.Group.Multiset

/-!
# Fully coalesced rows

Where the tags are complete, free chunks stand alone between chunks in use, so a row of chunks is
determined by where it begins and ends and by its chunks in use (`row_unique`). In particular a row
without chunks in use is one chunk, the end of the heap (`row_of_no_used`).
-/

namespace Dlmalloc

section Unique

variable {lo hi : ℕ} {b : Bool} {c d : Chunk} {L L' : List Chunk}

/-- The chunk at the front of a row is in the row's collection of used ones if any at its address
is. -/
theorem head_used (h : Tiles lo (c :: L) hi) {e : Slot} (he : e ∈ usedSlots (c :: L))
    (hlo : e.1 = lo) : c.status = .inuse ∧ c.slot = e := by
  obtain ⟨x, hx, hst, rfl⟩ := mem_usedSlots.mp he
  have hxc : x = c := h.eq_of_addr_eq hx List.mem_cons_self (hlo.trans h.1.symm)
  subst hxc
  exact ⟨hst, rfl⟩

/-- After a free chunk comes one in use. -/
theorem next_of_free (htop : TopLast (c :: L)) (ht : Tags True b (c :: L)) (hc : c.status = .free) :
    ∃ d M, L = d :: M ∧ d.status = .inuse := by
  have htop' : TopLast ([] ++ c :: L) := htop
  obtain ⟨d, M, rfl⟩ := htop'.exists_next (by simp [hc])
  exact ⟨d, M, rfl, (ht.2.2.2.1 trivial (by simp [hc])).2⟩

/-- A free chunk ends before the first chunk in use of any other row from the same place. -/
theorem free_size_le {c' : Chunk} (h : Tiles lo (c :: L) hi) (h' : Tiles lo (c' :: L') hi)
    (htop : TopLast (c :: L)) (ht : Tags True b (c :: L)) (hc : c.status = .free)
    (hc' : c'.status ≠ .inuse) (hu : usedSlots (c :: L) = usedSlots (c' :: L')) :
    c'.next ≤ c.next ∧ L' ≠ [] := by
  obtain ⟨d, M, rfl, hd⟩ := next_of_free htop ht hc
  have hmem : d.slot ∈ usedSlots (c' :: L') := by
    rw [← hu]
    exact mem_usedSlots.mpr ⟨d, by simp, hd, rfl⟩
  obtain ⟨x, hx, hst, hslot⟩ := mem_usedSlots.mp hmem
  have hxL : x ∈ L' := (List.mem_cons.mp hx).resolve_left fun he => hc' (he ▸ hst)
  have h1 := (h'.2.bounds hxL).1
  have h2 : x.addr = c.next := (congrArg Prod.fst hslot).trans h.2.1
  exact ⟨h2 ▸ h1, List.ne_nil_of_mem hxL⟩

/-- **A fully coalesced row is determined by its chunks in use.** -/
theorem row_unique (h : Tiles lo L hi) (h' : Tiles lo L' hi) (htop : TopLast L)
    (htop' : TopLast L') (ht : Tags True b L) (ht' : Tags True b L')
    (hu : usedSlots L = usedSlots L') : L = L' := by
  induction L generalizing lo b L' with
  | nil => exact htop.elim
  | cons c L ih =>
    cases L' with
    | nil => exact htop'.elim
    | cons c' L' =>
      have haddr : c'.addr = c.addr := h'.1.trans h.1.symm
      -- the two chunks have the same status and size
      have hsame : c'.status = c.status ∧ c'.size = c.size := by
        cases hc : c.status with
        | inuse =>
          have hmem : c.slot ∈ usedSlots (c' :: L') := by
            rw [← hu]
            exact mem_usedSlots.mpr ⟨c, List.mem_cons_self, hc, rfl⟩
          obtain ⟨h1, h2⟩ := head_used h' hmem h.1
          exact ⟨h1, congrArg Prod.snd h2⟩
        | free =>
          have hc' : c'.status ≠ .inuse := fun h0 => by
            have hmem : c'.slot ∈ usedSlots (c :: L) := by
              rw [hu]
              exact mem_usedSlots.mpr ⟨c', List.mem_cons_self, h0, rfl⟩
            have h1 := (head_used h hmem h'.1).1
            rw [hc] at h1
            cases h1
          obtain ⟨hle, hne⟩ := free_size_le h h' htop ht hc hc' hu
          have hfree' : c'.status = .free := by
            cases hst : c'.status with
            | inuse => exact absurd hst hc'
            | free => rfl
            | top =>
              rw [topLast_cons] at htop'
              rcases htop' with ⟨-, h0⟩ | ⟨h0, -⟩
              · exact absurd h0 hne
              · exact absurd hst h0
          obtain ⟨hle', -⟩ := free_size_le h' h htop' ht' hfree' (by simp [hc]) hu.symm
          refine ⟨hfree', ?_⟩
          simp only [Chunk.next] at hle hle'
          omega
        | top =>
          have hL : L = [] := by
            rw [topLast_cons] at htop
            rcases htop with ⟨-, h0⟩ | ⟨h0, -⟩
            · exact h0
            · exact absurd hc h0
          subst hL
          have hnone : usedSlots (c' :: L') = 0 := by
            rw [← hu, usedSlots_cons, if_neg (by simp [hc]), usedSlots_nil]
            rfl
          have hno : ∀ x ∈ c' :: L', x.status ≠ .inuse := fun x hx hst => by
            have hmem : x.slot ∈ usedSlots (c' :: L') := mem_usedSlots.mpr ⟨x, hx, hst, rfl⟩
            rw [hnone] at hmem
            exact Multiset.notMem_zero _ hmem
          have hst' : c'.status = .top := by
            cases hst : c'.status with
            | inuse => exact absurd hst (hno c' List.mem_cons_self)
            | free =>
              obtain ⟨d, M, rfl, hd⟩ := next_of_free htop' ht' hst
              exact absurd hd (hno d (by simp))
            | top => rfl
          have hL' : L' = [] := by
            rw [topLast_cons] at htop'
            rcases htop' with ⟨-, h0⟩ | ⟨h0, -⟩
            · exact h0
            · exact absurd hst' h0
          subst hL'
          refine ⟨hst', ?_⟩
          have h1 : c.next = hi := h.2
          have h2 : c'.next = hi := h'.2
          simp only [Chunk.next] at h1 h2
          omega
      -- and the same tag
      have htag : c'.pinuse = c.pinuse := by
        cases b with
        | true => rw [(ht.2.1 trivial rfl).1, (ht'.2.1 trivial rfl).1]
        | false =>
          have h1 : c.pinuse = true := by
            cases hp : c.pinuse with
            | true => rfl
            | false => exact absurd (ht.1 hp) Bool.false_ne_true
          have h2 : c'.pinuse = true := by
            cases hp : c'.pinuse with
            | true => rfl
            | false => exact absurd (ht'.1 hp) Bool.false_ne_true
          rw [h1, h2]
      have hcc : c' = c := by
        obtain ⟨a, n, τ, p⟩ := c
        obtain ⟨a', n', st', p'⟩ := c'
        simp only at haddr hsame htag
        rw [haddr, hsame.1, hsame.2, htag]
      subst hcc
      rw [usedSlots_cons, usedSlots_cons] at hu
      rw [topLast_cons] at htop htop'
      rcases htop with ⟨h0, rfl⟩ | ⟨h0, htop⟩
      · rcases htop' with ⟨-, rfl⟩ | ⟨h1, -⟩
        · rfl
        · exact absurd h0 h1
      · rcases htop' with ⟨h1, -⟩ | ⟨-, htop'⟩
        · exact absurd h1 h0
        · rw [ih h.2 h'.2 htop htop' ht.2.2 ht'.2.2 (add_left_cancel hu)]

/-- Without chunks in use there is one chunk only. -/
theorem row_of_no_used (h : Tiles lo L hi) (htop : TopLast L) (ht : Tags True false L)
    (hu : usedSlots L = 0) : L = [⟨lo, hi - lo - 8, .top, true⟩] := by
  have hle : lo + 8 ≤ hi := by
    cases L with
    | nil => exact htop.elim
    | cons c L =>
      have h1 := h.1
      have h2 := h.2.le
      simp only [Chunk.next] at h2
      omega
  refine row_unique h ?_ htop rfl ht ?_ hu
  · refine ⟨rfl, ?_⟩
    show lo + (hi - lo - 8) + 8 = hi
    omega
  · simp [Tags]

end Unique

end Dlmalloc
