import Mathlib.Data.List.Chain
import Mathlib.Data.List.Nodup
import Mathlib.Data.List.Rotate

/-!
# Circular doubly linked lists

A circular list threads its members through two maps, `next` and `prev`.
`CircularList next prev l` says that `l` lists the members once round, starting anywhere: each is
linked both ways with the one after it, and the last with the first.

The two edits are stated on the maps before (`next`, `prev`) and after (`next'`, `prev'`):

* `CircularList.link` — a new member goes in before the head;
* `CircularList.erase` — a member goes out.

A list may be read from any member (`CircularList.rotate`), so a new member put before the head is
at the front or at the back of it (`CircularList.link_back`), as the reader likes.
-/

variable {α : Type}

/-- `y` comes right after `x`, linked both ways. -/
def Linked (next prev : α → α) (x y : α) : Prop := next x = y ∧ prev y = x

/-- The members `l`, in `next` order, of a circular doubly linked list. -/
def CircularList (next prev : α → α) : List α → Prop
  | [] => True
  | a :: l => List.IsChain (Linked next prev) ((a :: l) ++ [a])

/-- A chain of links reads `next` of every node but the last and `prev` of every node but the
first. -/
theorem List.IsChain.relink {next prev next' prev' : α → α} :
    ∀ {l : List α}, List.IsChain (Linked next prev) l →
      (∀ x ∈ l.dropLast, next' x = next x) → (∀ x ∈ l.tail, prev' x = prev x) →
      List.IsChain (Linked next' prev') l
  | [], _, _, _ => List.isChain_nil
  | [_], _, _, _ => List.isChain_singleton _
  | x :: y :: l, h, hn, hp => by
    rw [List.isChain_cons_cons] at h ⊢
    refine ⟨⟨?_, ?_⟩, h.2.relink (fun z hz => hn z ?_) (fun z hz => hp z ?_)⟩
    · rw [hn x (by simp)]; exact h.1.1
    · rw [hp y (by simp)]; exact h.1.2
    · simp only [List.dropLast_cons_cons, List.mem_cons]; exact .inr hz
    · exact List.mem_of_mem_tail hz

namespace CircularList

variable {next prev next' prev' : α → α} {a c x : α} {l l₁ l₂ : List α}

@[simp] theorem nil : CircularList next prev [] := trivial

theorem singleton_iff : CircularList next prev [a] ↔ next a = a ∧ prev a = a := by
  simp [CircularList, Linked]

/-- A ring is a chain from its head up to its last member, and the last is linked to the head. -/
theorem concat_iff {z : α} :
    CircularList next prev (l ++ [z]) ↔
      List.IsChain (Linked next prev) (l ++ [z]) ∧
        Linked next prev z ((l ++ [z]).head (by simp)) := by
  cases l with
  | nil => simp [CircularList]
  | cons b l =>
    have hsplit : (b :: l ++ [z]) ++ [b] = (b :: l) ++ z :: [b] := by simp
    change List.IsChain (Linked next prev) ((b :: l ++ [z]) ++ [b]) ↔ _
    rw [hsplit, List.isChain_split]
    simp

theorem rotate_one (h : CircularList next prev (a :: l)) : CircularList next prev (l ++ [a]) := by
  rw [concat_iff]
  cases l with
  | nil => simpa [CircularList] using h
  | cons b l =>
    have h' : List.IsChain (Linked next prev) (a :: b :: (l ++ [a])) := h
    rw [List.isChain_cons_cons] at h'
    exact ⟨h'.2, h'.1⟩

/-- A ring may be read from any of its members. -/
theorem rotate (h : CircularList next prev (l₁ ++ l₂)) : CircularList next prev (l₂ ++ l₁) := by
  induction l₁ generalizing l₂ with
  | nil => simpa using h
  | cons a l₁ ih =>
    have h' : CircularList next prev (l₁ ++ (l₂ ++ [a])) := by
      rw [← List.append_assoc]
      exact rotate_one h
    simpa using ih h'

/-- A ring read from one of its members. -/
theorem exists_cons (h : CircularList next prev l) (hx : x ∈ l) :
    ∃ m, CircularList next prev (x :: m) ∧ (x :: m).Perm l := by
  obtain ⟨l₁, l₂, rfl⟩ := List.append_of_mem hx
  have hperm : ((x :: l₂) ++ l₁).Perm (l₁ ++ x :: l₂) := List.perm_append_comm
  exact ⟨l₂ ++ l₁, h.rotate, hperm⟩

/-- A ring read backwards from the same member. -/
theorem back (h : CircularList next prev (c :: l)) :
    List.IsChain (fun x y => prev x = y) (c :: (l.reverse ++ [c])) := by
  have hchain : List.IsChain (Linked next prev) (c :: (l ++ [c])) := h
  have hrev : (c :: (l ++ [c])).reverse = c :: (l.reverse ++ [c]) := by simp
  have hback := List.isChain_reverse.mpr hchain
  rw [hrev] at hback
  exact hback.imp fun _ _ hxy => hxy.2

/-- A ring survives a change of the maps away from its members. -/
theorem congr (h : CircularList next prev l) (hn : ∀ x ∈ l, next' x = next x)
    (hp : ∀ x ∈ l, prev' x = prev x) : CircularList next' prev' l := by
  cases l with
  | nil => trivial
  | cons a l =>
    refine List.IsChain.relink (l := a :: l ++ [a]) h (fun x hx => hn x ?_) (fun x hx => hp x ?_)
    · rwa [List.dropLast_concat] at hx
    · have hx' := List.mem_of_mem_tail hx
      simp only [List.mem_append, List.mem_singleton] at hx'
      rcases hx' with hx' | rfl
      · exact hx'
      · exact List.mem_cons_self

/-- The member before the head is the last one. -/
theorem prev_head {z : α} (h : CircularList next prev (l ++ [z])) :
    prev ((l ++ [z]).head (by simp)) = z :=
  (concat_iff.mp h).2.2

theorem next_last {z : α} (h : CircularList next prev (l ++ [z])) :
    next z = (l ++ [z]).head (by simp) :=
  (concat_iff.mp h).2.1

theorem prev_mem (h : CircularList next prev l) (hx : x ∈ l) : prev x ∈ l := by
  obtain ⟨l₁, l₂, rfl⟩ := List.append_of_mem hx
  have hr : CircularList next prev ((x :: l₂) ++ l₁) := rotate h
  obtain ⟨m, z, hm⟩ : ∃ m z, (x :: l₂) ++ l₁ = m ++ [z] :=
    ⟨_, _, (List.dropLast_append_getLast (by simp)).symm⟩
  have hhead : (m ++ [z]).head (by simp) = x := by simp [← hm]
  have hz : prev x = z := by
    rw [hm] at hr
    rw [← hhead]
    exact prev_head hr
  have hmem : z ∈ (x :: l₂) ++ l₁ := by rw [hm]; simp
  rw [hz]
  simp only [List.mem_append, List.mem_cons] at hmem ⊢
  tauto

theorem next_mem (h : CircularList next prev l) (hx : x ∈ l) : next x ∈ l := by
  obtain ⟨l₁, l₂, rfl⟩ := List.append_of_mem hx
  have hr : CircularList next prev (l₂ ++ l₁ ++ [x]) := by
    have h' : CircularList next prev ((x :: l₂) ++ l₁) := rotate h
    exact rotate_one h'
  have hmem : next x ∈ l₂ ++ l₁ ++ [x] := by
    rw [next_last hr]
    exact List.head_mem _
  simp only [List.mem_append, List.mem_cons, List.not_mem_nil, or_false] at hmem ⊢
  tauto

theorem next_head {b : α} (h : CircularList next prev (a :: b :: l)) : next a = b := by
  have h' : List.IsChain (Linked next prev) (a :: b :: (l ++ [a])) := h
  exact (List.isChain_cons_cons.mp h').1.1

theorem prev_next (h : CircularList next prev l) (hx : x ∈ l) : prev (next x) = x := by
  obtain ⟨l₁, l₂, rfl⟩ := List.append_of_mem hx
  have h' : CircularList next prev ((x :: l₂) ++ l₁) := rotate h
  have hr : CircularList next prev (l₂ ++ l₁ ++ [x]) := rotate_one h'
  rw [next_last hr]
  exact prev_head hr

theorem next_prev (h : CircularList next prev l) (hx : x ∈ l) : next (prev x) = x := by
  obtain ⟨l₁, l₂, rfl⟩ := List.append_of_mem hx
  have hr : CircularList next prev ((x :: l₂) ++ l₁) := rotate h
  obtain ⟨m, z, hm⟩ : ∃ m z, (x :: l₂) ++ l₁ = m ++ [z] :=
    ⟨_, _, (List.dropLast_append_getLast (by simp)).symm⟩
  have hhead : (m ++ [z]).head (by simp) = x := by simp [← hm]
  rw [hm] at hr
  rw [← hhead, prev_head hr, next_last hr]

/-- A member whose successor is itself is linked to itself both ways. -/
theorem prev_eq_of_next_eq (h : CircularList next prev l) (hx : x ∈ l) (hn : next x = x) :
    prev x = x := by
  have := h.prev_next hx
  rwa [hn] at this

/-- **Linking in.** A new member `c` goes between the last member and the head. -/
theorem link (h : CircularList next prev (a :: l)) (hd : (a :: l).Nodup)
    (h1 : next' c = a) (h2 : prev' c = prev a) (h3 : next' (prev a) = c) (h4 : prev' a = c)
    (hn : ∀ x ∈ a :: l, x ≠ prev a → next' x = next x)
    (hp : ∀ x ∈ a :: l, x ≠ a → prev' x = prev x) :
    CircularList next' prev' (c :: a :: l) := by
  obtain ⟨m, z, hm⟩ : ∃ m z, a :: l = m ++ [z] :=
    ⟨_, _, (List.dropLast_append_getLast (by simp)).symm⟩
  have hhead : (m ++ [z]).head (by simp) = a := by simp [← hm]
  have hr : CircularList next prev (m ++ [z]) := hm ▸ h
  have hz : prev a = z := hhead ▸ prev_head hr
  have hzm : z ∉ m := by
    rw [hm, List.nodup_append] at hd
    exact fun hmem => hd.2.2 z hmem z (by simp) rfl
  have hal : a ∉ l := (List.nodup_cons.mp hd).1
  -- inside the old chain only `prev` of its head and `next` of its last member were written
  have hchain : List.IsChain (Linked next' prev') (a :: l) := by
    have hold : List.IsChain (Linked next prev) (a :: l) := by
      rw [hm]
      exact (concat_iff.mp hr).1
    refine hold.relink (fun x hx => ?_) (fun x hx => ?_)
    · have hxm : x ∈ m := by rwa [hm, List.dropLast_concat] at hx
      refine hn x (by rw [hm]; simp [hxm]) ?_
      rintro rfl
      exact hzm (hz ▸ hxm)
    · refine hp x (List.mem_cons_of_mem _ hx) ?_
      rintro rfl
      exact hal hx
  change List.IsChain (Linked next' prev') (c :: (a :: l ++ [c]))
  rw [List.cons_append, List.isChain_cons_cons]
  refine ⟨⟨h1, h4⟩, ?_⟩
  rw [← List.cons_append, hm, List.append_assoc, List.singleton_append,
    List.isChain_append_cons_cons]
  exact ⟨hm ▸ hchain, ⟨hz ▸ h3, hz ▸ h2⟩, List.isChain_singleton _⟩

/-- `link`, with the ring read from the old head: the new member is the last one. -/
theorem link_back (h : CircularList next prev (a :: l)) (hd : (a :: l).Nodup)
    (h1 : next' c = a) (h2 : prev' c = prev a) (h3 : next' (prev a) = c) (h4 : prev' a = c)
    (hn : ∀ x ∈ a :: l, x ≠ prev a → next' x = next x)
    (hp : ∀ x ∈ a :: l, x ≠ a → prev' x = prev x) :
    CircularList next' prev' (a :: l ++ [c]) :=
  rotate_one (link h hd h1 h2 h3 h4 hn hp)

/-- **Unlinking the head.** -/
theorem unlink_head (h : CircularList next prev (c :: l)) (hd : (c :: l).Nodup)
    (h1 : next' (prev c) = next c) (h2 : prev' (next c) = prev c)
    (hn : ∀ x ∈ l, x ≠ prev c → next' x = next x)
    (hp : ∀ x ∈ l, x ≠ next c → prev' x = prev x) : CircularList next' prev' l := by
  cases l with
  | nil => trivial
  | cons x l =>
    obtain ⟨m, z, hm⟩ : ∃ m z, x :: l = m ++ [z] :=
      ⟨_, _, (List.dropLast_append_getLast (by simp)).symm⟩
    have hchain : List.IsChain (Linked next prev) (c :: x :: (l ++ [c])) := h
    rw [List.isChain_cons_cons] at hchain
    -- the neighbours of `c`: the new head `x` and the last `z`
    have hnc : next c = x := hchain.1.1
    have htail : List.IsChain (Linked next prev) (m ++ z :: [c]) := by
      have h' := hchain.2
      rw [← List.cons_append, hm] at h'
      simpa using h'
    rw [List.isChain_append_cons_cons] at htail
    have hpc : prev c = z := htail.2.1.2
    obtain ⟨-, hxl⟩ := List.nodup_cons.mp hd
    have hzm : z ∉ m := by
      rw [hm, List.nodup_append] at hxl
      exact fun hmem => hxl.2.2 z hmem z (by simp) rfl
    have hxl' : x ∉ l := (List.nodup_cons.mp hxl).1
    rw [hm, concat_iff]
    have hhead : (m ++ [z]).head (by simp) = x := by simp [← hm]
    -- the chain inside is untouched, and `z` and `x` are linked
    refine ⟨?_, ?_, ?_⟩
    · refine htail.1.relink (fun y hy => ?_) (fun y hy => ?_)
      · rw [List.dropLast_concat] at hy
        refine hn y (by rw [hm]; simp [hy]) ?_
        rintro rfl
        exact hzm (hpc ▸ hy)
      · rw [← hm, List.tail_cons] at hy
        refine hp y (List.mem_cons_of_mem _ hy) ?_
        rintro rfl
        exact hxl' (hnc ▸ hy)
    · rw [hhead, ← hpc, h1, hnc]
    · rw [hhead, ← hnc, h2, hpc]

/-- **Unlinking.** Any member may go: its two neighbours are linked to each other. -/
theorem erase [DecidableEq α] (h : CircularList next prev l) (hd : l.Nodup) (hc : c ∈ l)
    (h1 : next' (prev c) = next c) (h2 : prev' (next c) = prev c)
    (hn : ∀ x ∈ l, x ≠ c → x ≠ prev c → next' x = next x)
    (hp : ∀ x ∈ l, x ≠ c → x ≠ next c → prev' x = prev x) :
    CircularList next' prev' (l.erase c) := by
  obtain ⟨l₁, l₂, rfl⟩ := List.append_of_mem hc
  have hperm : (l₁ ++ c :: l₂).Perm (c :: l₂ ++ l₁) := List.perm_append_comm
  have hd' : (c :: (l₂ ++ l₁)).Nodup := hperm.nodup hd
  have hcn := (List.nodup_cons.mp hd').1
  have hmem : ∀ x ∈ l₂ ++ l₁, x ∈ l₁ ++ c :: l₂ ∧ x ≠ c := fun x hx => by
    refine ⟨hperm.symm.subset (List.mem_cons_of_mem _ hx), ?_⟩
    rintro rfl
    exact hcn hx
  -- turn the ring until `c` is its head, and unlink it there
  have hr : CircularList next' prev' (l₂ ++ l₁) :=
    unlink_head (rotate h) hd' h1 h2
      (fun x hx => hn x (hmem x hx).1 (hmem x hx).2)
      (fun x hx => hp x (hmem x hx).1 (hmem x hx).2)
  have hc₁ : c ∉ l₁ := fun hc => hcn (by simp [hc])
  rw [List.erase_append_right _ hc₁, List.erase_cons_head]
  exact rotate hr

/-- A member linked to itself both ways is alone. -/
theorem alone_iff (h : CircularList next prev l) (hd : l.Nodup) (hc : c ∈ l) :
    (c = next c ∧ c = prev c) ↔ l = [c] := by
  constructor
  · rintro ⟨hn, -⟩
    obtain ⟨l₁, l₂, rfl⟩ := List.append_of_mem hc
    have hr : CircularList next prev (c :: (l₂ ++ l₁)) := rotate h
    have hd' : (c :: (l₂ ++ l₁)).Nodup :=
      (List.perm_append_comm : (l₁ ++ c :: l₂).Perm (c :: l₂ ++ l₁)).nodup hd
    -- were there a member after `c`, it would be `next c = c`
    cases hl : l₂ ++ l₁ with
    | nil =>
      obtain ⟨rfl, rfl⟩ := List.append_eq_nil_iff.mp hl
      rfl
    | cons y m =>
      rw [hl] at hr hd'
      have hchain : List.IsChain (Linked next prev) (c :: y :: (m ++ [c])) := hr
      rw [List.isChain_cons_cons] at hchain
      have hcy : c = y := hn.trans hchain.1.1
      exact absurd (by simp [hcy]) (List.nodup_cons.mp hd').1
  · rintro rfl
    obtain ⟨h1, h2⟩ := singleton_iff.mp h
    exact ⟨h1.symm, h2.symm⟩

end CircularList
