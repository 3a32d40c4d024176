import Dlmalloc.Lib.CircularList
import Dlmalloc.Lib.Total
import Dlmalloc.Refine.Cells

/-!
# The list bins

A small bin and the huge bin hold a circular list, linked through the fields `next` and `prev` and
entered at the chunk the bin points to (`ListRep`). `insert_small_chunk` and `insert_huge_chunk` put
a chunk before the head; `remove_small_chunk` and `remove_huge_chunk` unlink any member.
-/

namespace Dlmalloc

/-- Bin `n` points to the first of the chunks `l`, which are linked in a circle. -/
def ListRep (s : State) (n : ℕ) (l : List ℕ) : Prop :=
  s.bin n = l.headD NULL ∧ CircularList (s.load .next) (s.load .prev) l

section Lists

variable {X : Set Slot} {s : State} {l : List ℕ} {c n : ℕ}

theorem insertIntoList_spec (hX : Spread X) (hn : n < NUM_OF_BINS) (hr : ListRep s n l)
    (hl : ∀ a ∈ l, ∃ k, (a, k) ∈ X) (hd : l.Nodup) (hc : ∃ k, (c, k) ∈ X) (hcl : c ∉ l) :
    Returns (insertIntoList n c) s fun _ s' =>
      ListRep s' n (c :: l) ∧ LinksOnly X s s' ∧ ∀ m, m ≠ n → s'.bin m = s.bin m := by
  obtain ⟨hcn, hcp, hc64, -⟩ := hX.link_cells hc
  obtain ⟨hbin, hring⟩ := hr
  cases l with
  | nil =>
    have hrun : insertIntoList n c s =
        some (1, ((s.store .next c c).store .prev c c).setBin n c) := by
      simp [insertIntoList, hbin, hn]
    refine .intro hrun ⟨⟨?_, ?_⟩, ?_, fun m hm => ?_⟩
    · simp [State.bin_setBin_same hn]
    · rw [CircularList.singleton_iff]
      simp [hX.load_store_ptr, hcn, hcp, hc64]
    · exact (((LinksOnly.refl X s).store hcn).store hcp).setBin
    · simp [State.bin_setBin_of_ne hm]
  | cons a l =>
    obtain ⟨han, hap, ha64, ha0⟩ := hX.link_cells (hl a List.mem_cons_self)
    have hca : c ≠ a := fun h => hcl (h ▸ List.mem_cons_self)
    simp only [List.headD_cons] at hbin
    -- the last member
    generalize hp : s.load .prev a = p
    have hpl : p ∈ a :: l := hp ▸ hring.prev_mem List.mem_cons_self
    obtain ⟨hpn, hpp, hp64, -⟩ := hX.link_cells (hl p hpl)
    have hcp' : c ≠ p := fun h => hcl (h ▸ hpl)
    set s1 := (s.store .next c a).store .prev c p with hs1
    set s2 := (s1.store .next p c).store .prev a c with hs2
    have hrun : insertIntoList n c s = some (0, s2.setBin n c) := by
      have e1 : (s.store .next c a).load .prev a = p := by
        simp [hX.load_store_ptr, hcn, hap, ha64, hp]
      have e2 : s1.load .prev c = p := by
        simp [hs1, hX.load_store_ptr, hcp, hp64]
      have e3 : (s1.store .next p c).load .next c = a := by
        simp [hs1, hX.load_store_ptr, hcn, hcp, hpn, hc64, hp64, ha64, hcp']
      simp [insertIntoList, hbin, hn, ha0, hp64, ha64, e1, ← hs1, e2, e3, ← hs2]
    refine .intro hrun ⟨⟨?_, ?_⟩, ?_, fun m hm => ?_⟩
    · simp [State.bin_setBin_same hn]
    · have hload : ∀ f d, Cell X f d → s2.load f d =
          if f = .prev ∧ d = a then c else if f = .next ∧ d = p then c
          else if f = .prev ∧ d = c then p else if f = .next ∧ d = c then a
          else s.load f d := fun f d hfd => by
        simp [hs2, hs1, hX.load_store_ptr, hfd, hcn, hcp, hpn, hap, hc64, hp64, ha64]
      refine hring.link hd ?_ ?_ ?_ ?_ (fun x hx hxp => ?_) (fun x hx hxa => ?_)
      · simp [hload _ _ hcn, hca, hcp']
      · simp [hload _ _ hcp, hca, hp]
      · simp [hp, hload _ _ hpn]
      · simp [hload _ _ hap]
      · have hxc : x ≠ c := fun h => hcl (h ▸ hx)
        rw [hp] at hxp
        simp [hload _ _ (hX.link_cells (hl x hx)).1, hxc, hxp]
      · have hxc : x ≠ c := fun h => hcl (h ▸ hx)
        simp [hload _ _ (hX.link_cells (hl x hx)).2.1, hxc, hxa]
    · exact (((((LinksOnly.refl X s).store hcn).store hcp).store hpn).store hap).setBin
    · simp [hs2, hs1, State.bin_setBin_of_ne hm]

theorem removeFromList_spec (hX : Spread X) (hn : n < NUM_OF_BINS) (hr : ListRep s n l)
    (hl : ∀ a ∈ l, ∃ k, (a, k) ∈ X) (hd : l.Nodup) (hc : c ∈ l) :
    Returns (removeFromList n c) s fun _ s' =>
      ListRep s' n (l.erase c) ∧ LinksOnly X s s' ∧ ∀ m, m ≠ n → s'.bin m = s.bin m := by
  obtain ⟨hbin, hring⟩ := hr
  have halone := hring.alone_iff hd hc
  obtain ⟨hcn, hcp, hc64, -⟩ := hX.link_cells (hl c hc)
  by_cases h1 : l = [c]
  · -- the list ends with its last member
    obtain ⟨hnext, hprev⟩ := halone.mpr h1
    have hrun : removeFromList n c s = some (1, s.setBin n NULL) := by
      simp [removeFromList, ← hnext, ← hprev, hc64, hn]
    refine .intro hrun ⟨⟨?_, ?_⟩, (LinksOnly.refl X s).setBin, fun m hm => ?_⟩
    · simp [State.bin_setBin_same hn, h1]
    · simp [h1]
    · exact State.bin_setBin_of_ne hm
  · -- the neighbours `x` and `p` of the chunk are other chunks of the list
    have hprev := hring.prev_next hc
    have hnext := hring.next_prev hc
    have hself := hring.prev_eq_of_next_eq hc
    generalize hx : s.load .next c = x at *
    generalize hp : s.load .prev c = p at *
    have hxl : x ∈ l := hx ▸ hring.next_mem hc
    have hpl : p ∈ l := hp ▸ hring.prev_mem hc
    obtain ⟨hxn, hxp, hx64, -⟩ := hX.link_cells (hl x hxl)
    obtain ⟨hpn, hpp, hp64, -⟩ := hX.link_cells (hl p hpl)
    have hxc : x ≠ c := fun h => h1 (halone.mp ⟨h.symm, (hself h).symm⟩)
    have hpc : p ≠ c := fun h => by
      rw [h, hx] at hnext
      exact hxc hnext
    have h0 := isPtr_NULL
    -- the list begins at the next chunk if it began at this one
    obtain ⟨s0, hs0⟩ : ∃ s0, s0 = if s.bin n = c then s.setBin n x else s := ⟨_, rfl⟩
    have hmem : ∀ f d, s0.load f d = s.load f d := fun f d => by
      rw [hs0]
      split_ifs <;> simp
    -- the neighbours are linked with each other, and the chunk's own links are cleared
    set s1 := (s0.store .prev x p).store .next p x with hs1
    set s2 := (s1.store .prev c NULL).store .next c NULL with hs2
    have hrun : removeFromList n c s = some (0, s2) := by
      have e1 : (s0.store .prev x p).load .prev c = p := by
        simp [hX.load_store_ptr, hcp, hxp, hp64, hmem, hp, hxc.symm]
      have e2 : (s0.store .prev x p).load .next c = x := by
        simp [hX.load_store_ptr, hcn, hxp, hp64, hmem, hx]
      by_cases hb : s.bin n = c
      · rw [if_pos hb] at hs0
        simp [removeFromList, hxc.symm, hb, hn, ← hs0, hmem, hx, hp, hx64, hp64, e1, e2, ← hs1,
          ← hs2]
      · rw [if_neg hb] at hs0
        subst hs0
        simp [removeFromList, hxc.symm, hb, hx, hp, hx64, hp64, e1, e2, ← hs1, ← hs2]
    have hload : ∀ f d, Cell X f d → s2.load f d =
        if f = .next ∧ d = c then NULL else if f = .prev ∧ d = c then NULL
        else if f = .next ∧ d = p then x else if f = .prev ∧ d = x then p
        else s.load f d := fun f d hfd => by
      simp [hs2, hs1, hX.load_store_ptr, hfd, hcn, hcp, hpn, hxp, h0, hp64, hx64, hmem]
    have hbin0 : ∀ m, s2.bin m = s0.bin m := fun m => by simp [hs2, hs1]
    refine .intro hrun ⟨⟨?_, ?_⟩, ?_, fun m hm => ?_⟩
    · rw [hbin0, hs0]
      cases l with
      | nil => simp at hc
      | cons a l =>
        simp only [List.headD_cons] at hbin
        by_cases hac : a = c
        · subst hac
          cases l with
          | nil => exact absurd rfl h1
          | cons b l =>
            simp [hbin, State.bin_setBin_same hn, ← hx, hring.next_head]
        · simp [hbin, hac, List.erase_cons_tail]
    · refine hring.erase hd hc ?_ ?_ (fun y hy hyc hyp => ?_) (fun y hy hyc hyx => ?_)
      · simp [hp, hx, hload _ _ hpn, hpc]
      · simp [hp, hx, hload _ _ hxp, hxc]
      · rw [hp] at hyp
        simp [hload _ _ (hX.link_cells (hl y hy)).1, hyc, hyp]
      · rw [hx] at hyx
        simp [hload _ _ (hX.link_cells (hl y hy)).2.1, hyc, hyx]
    · have h00 : LinksOnly X s s0 := by
        rw [hs0]
        split_ifs
        · exact (LinksOnly.refl X s).setBin
        · exact LinksOnly.refl X s
      exact (((h00.store hxp).store hpn).store hcp).store hcn
    · rw [hbin0, hs0]
      split_ifs
      · exact State.bin_setBin_of_ne hm
      · rfl

end Lists

end Dlmalloc
