import Mathlib.Data.List.Perm.Basic
import Mathlib.Data.List.Nodup
import Mathlib.Data.Nat.Bitwise
import Mathlib.Tactic.Ring

/-!
# Binary digit trees

A digit tree holds values under natural-number keys. Every node has a key of its own, with the
values that share it, and two subtrees. A node at level `h + 1` sends the other keys left or right
by their binary digit `h`; its children are at level `h`. Keys are arbitrary at inner nodes: the
tree is ordered by digits, not by comparison with the node's key.

* `Routed h p t` — the tree `t` at level `h` under the prefix `p`: every key agrees with `p` above
  digit `h`, and every subtree holds the digit it stands for;
* `insert`, `remove` — the edits. Removing the last value of an inner node puts a leaf of its
  subtree in its place (`pull`), so no other node moves;
* `bestFit`, `leftmost` — the two searches, each one walk down from the root;
* `plug` — a tree as a subtree in its context, for proofs about a program that edits a node in
  place;
* `Path` — what a walk down from the root goes through.

Keys that are multiples of `2 ^ g` part above digit `g`, which bounds the height
(`Routed.height_le`).
-/

/-- A binary digit tree: a node's key, the values under it (one at least), and two subtrees. -/
inductive DigitTree (α : Type) : Type
  | nil
  | node (key : ℕ) (head : α) (rest : List α) (left right : DigitTree α)
  deriving Repr, DecidableEq

namespace DigitTree

variable {α : Type}

/-- The values with their keys. -/
def entries : DigitTree α → List (α × ℕ)
  | nil => []
  | node k a rest l r => (a :: rest).map (·, k) ++ (l.entries ++ r.entries)

/-- The keys, one for each node. -/
def keys : DigitTree α → List ℕ
  | nil => []
  | node k _ _ l r => k :: (l.keys ++ r.keys)

def height : DigitTree α → ℕ
  | nil => 0
  | node _ _ _ l r => max l.height r.height + 1

/-- Put `a` under the key `k` in a tree at level `h`: behind the values of that key if it has a
node, else in a new leaf. -/
def insert (k : ℕ) (a : α) : ℕ → DigitTree α → DigitTree α
  | _, nil => node k a [] nil nil
  | h, node k' b rest l r =>
    if k' = k then node k' b (rest ++ [a]) l r
    else if k.testBit (h - 1) then node k' b rest l (insert k a (h - 1) r)
    else node k' b rest (insert k a (h - 1) l) r

/-- Take out a leaf, walking down to the right whenever possible (`toRight`) or to the left. -/
def popLeaf (toRight : Bool) : DigitTree α → Option (ℕ × α × List α × DigitTree α)
  | nil => none
  | node k a rest l r =>
    match popLeaf toRight l, popLeaf toRight r with
    | none, none => some (k, a, rest, nil)
    | some (k', a', rest', l'), none => some (k', a', rest', node k a rest l' r)
    | none, some (k', a', rest', r') => some (k', a', rest', node k a rest l r')
    | some (kl, al, restl, l'), some (kr, ar, restr, r') =>
      if toRight then some (kr, ar, restr, node k a rest l r')
      else some (kl, al, restl, node k a rest l' r)

/-- The two subtrees of a removed node as one tree, a leaf of theirs taking the node's place. -/
def pull (l r : DigitTree α) : DigitTree α :=
  match popLeaf true l with
  | some (k, a, rest, l') => node k a rest l' r
  | none =>
    match popLeaf false r with
    | some (k, a, rest, r') => node k a rest l r'
    | none => nil

section Remove

variable [DecidableEq α]

/-- Remove the value `a` from the node with the parts given. -/
def removeHere (a : α) (k : ℕ) (b : α) (rest : List α) (l r : DigitTree α) : DigitTree α :=
  if b = a then
    match rest with
    | [] => pull l r
    | c :: rest' => node k c rest' l r
  else node k b (rest.erase a) l r

/-- Remove the value `a` held under the key `k` from a tree at level `h`. -/
def remove (k : ℕ) (a : α) : ℕ → DigitTree α → DigitTree α
  | _, nil => nil
  | h, node k' b rest l r =>
    if k' = k then removeHere a k' b rest l r
    else if k.testBit (h - 1) then node k' b rest l (remove k a (h - 1) r)
    else node k' b rest (remove k a (h - 1) l) r

end Remove

/-- The candidate at the root of `t`, if its key is below `bound`, else the one given. -/
def better (best : Option (α × ℕ)) (bound : ℕ) : DigitTree α → Option (α × ℕ) × ℕ
  | nil => (best, bound)
  | node k a _ _ _ => if k < bound then (some (a, k), k) else (best, bound)

/-- Walk down the path of `req`, keeping the candidate of the least key above `req` among the
nodes of the path and the roots of the right subtrees that hang off it; stop at `req` itself. -/
def bestFit (req : ℕ) : ℕ → Option (α × ℕ) → ℕ → DigitTree α → Option (α × ℕ)
  | _, best, _, nil => best
  | h, best, bound, node k a _ l r =>
    if k = req then some (a, k)
    else
      let here := if k < bound ∧ req < k then (some (a, k), k) else (best, bound)
      if req.testBit (h - 1) then bestFit req (h - 1) here.1 here.2 r
      else
        let side := better here.1 here.2 r
        bestFit req (h - 1) side.1 side.2 l

/-- The root of a tree, with its key. -/
def top : DigitTree α → List (α × ℕ)
  | nil => []
  | node k a _ _ _ => [(a, k)]

/-- What the best-fit walk for `req` sees: the nodes of the path and the roots of the right subtrees
that hang off it. -/
def offered (req : ℕ) : ℕ → DigitTree α → List (α × ℕ)
  | _, nil => []
  | h, node k a _ l r =>
    (a, k) :: if req.testBit (h - 1) then offered req (h - 1) r
      else top r ++ offered req (h - 1) l

/-- Walk down, to the left whenever possible, keeping the candidate of the least key seen. -/
def leftmost : α × ℕ → DigitTree α → α × ℕ
  | best, nil => best
  | best, node k a _ l r =>
    let best := if k < best.2 then (a, k) else best
    match l with
    | nil => leftmost best r
    | node k' a' rest' l' r' => leftmost best (node k' a' rest' l' r')

/-- The keys of `t` agree with the prefix `p` above digit `h`, and a subtree holds the digit it
stands for. -/
def Routed : ℕ → ℕ → DigitTree α → Prop
  | _, _, nil => True
  | h, p, node k _ _ l r =>
    k / 2 ^ h = p ∧ (h = 0 → l = nil ∧ r = nil) ∧
      l.Routed (h - 1) (2 * p) ∧ r.Routed (h - 1) (2 * p + 1)

/-! ### Digits and prefixes -/

section Digits

variable {h p k k' g : ℕ}

theorem prefix_child (hh : h ≠ 0) (hk : k / 2 ^ h = p) :
    k / 2 ^ (h - 1) = 2 * p + (k.testBit (h - 1)).toNat := by
  obtain ⟨n, rfl⟩ := Nat.exists_eq_succ_of_ne_zero hh
  have hb := Nat.toNat_testBit k n
  rw [pow_succ, ← Nat.div_div_eq_div_mul] at hk
  simp only [Nat.succ_eq_add_one, Nat.add_one_sub_one]
  omega

/-- Distinct multiples of `2 ^ g` that agree above digit `h` part at a digit from `g` on. -/
theorem level_gt (hk : k / 2 ^ h = k' / 2 ^ h) (hne : k ≠ k') (hg : 2 ^ g ∣ k) (hg' : 2 ^ g ∣ k') :
    g < h := by
  by_contra hle
  have hdvd : 2 ^ h ∣ 2 ^ g := pow_dvd_pow 2 (by omega)
  refine hne ?_
  rw [← Nat.div_mul_cancel (hdvd.trans hg), ← Nat.div_mul_cancel (hdvd.trans hg'), hk]

end Digits

/-! ### Routed trees -/

section Routed

variable {h p k g : ℕ} {a : α} {rest : List α} {l r t : DigitTree α}

@[simp] theorem routed_nil : (nil : DigitTree α).Routed h p := by
  unfold Routed
  trivial

theorem Routed.leading (ht : t.Routed h p) : ∀ k ∈ t.keys, k / 2 ^ h = p := by
  induction t generalizing h p with
  | nil => simp [keys]
  | node k a rest l r ihl ihr =>
    obtain ⟨hk, h0, hl, hr⟩ := ht
    intro j hj
    rw [keys, List.mem_cons, List.mem_append] at hj
    rcases hj with rfl | hj
    · exact hk
    cases h with
    | zero =>
      obtain ⟨rfl, rfl⟩ := h0 rfl
      simp [keys] at hj
    | succ h =>
      rw [pow_succ, ← Nat.div_div_eq_div_mul]
      rcases hj with hj | hj
      · have := ihl hl j hj
        simp only [Nat.add_one_sub_one] at this
        omega
      · have := ihr hr j hj
        simp only [Nat.add_one_sub_one] at this
        omega

/-- A node with a subtree is above level `0`. -/
theorem Routed.level_ne_zero (ht : (node k a rest l r).Routed h p) {j : ℕ}
    (hj : j ∈ l.keys ++ r.keys) : h ≠ 0 := by
  intro h0
  obtain ⟨rfl, rfl⟩ := ht.2.1 h0
  simp [keys] at hj

/-- A key in a subtree has the digit of that subtree. -/
theorem Routed.digit_left (ht : (node k a rest l r).Routed h p) {j : ℕ} (hj : j ∈ l.keys) :
    j.testBit (h - 1) = false := by
  have h1 := ht.2.2.1.leading j hj
  have h2 := prefix_child (ht.level_ne_zero (List.mem_append_left _ hj))
    (ht.leading j (by simp [keys, hj]))
  cases hb : j.testBit (h - 1)
  · rfl
  · rw [hb, Bool.toNat_true] at h2
    omega

theorem Routed.digit_right (ht : (node k a rest l r).Routed h p) {j : ℕ} (hj : j ∈ r.keys) :
    j.testBit (h - 1) = true := by
  have h1 := ht.2.2.2.leading j hj
  have h2 := prefix_child (ht.level_ne_zero (List.mem_append_right _ hj))
    (ht.leading j (by simp [keys, hj]))
  cases hb : j.testBit (h - 1)
  · rw [hb, Bool.toNat_false] at h2
    omega
  · rfl

theorem mem_keys_of_mem_entries {e : α × ℕ} (he : e ∈ t.entries) : e.2 ∈ t.keys := by
  induction t with
  | nil => simp [entries] at he
  | node k a rest l r ihl ihr =>
    simp only [entries, List.mem_append, List.mem_map] at he
    simp only [keys, List.mem_cons, List.mem_append]
    rcases he with ⟨x, -, rfl⟩ | he | he
    · exact .inl rfl
    · exact .inr (.inl (ihl he))
    · exact .inr (.inr (ihr he))

theorem exists_mem_entries {j : ℕ} (hj : j ∈ t.keys) : ∃ a, (a, j) ∈ t.entries := by
  induction t with
  | nil => simp [keys] at hj
  | node k a rest l r ihl ihr =>
    simp only [keys, List.mem_cons, List.mem_append] at hj
    rcases hj with rfl | hj | hj
    · exact ⟨a, by simp [entries]⟩
    · obtain ⟨b, hb⟩ := ihl hj
      exact ⟨b, by simp [entries, hb]⟩
    · obtain ⟨b, hb⟩ := ihr hj
      exact ⟨b, by simp [entries, hb]⟩

theorem entries_eq_nil_iff : t.entries = [] ↔ t = nil := by
  cases t <;> simp [entries]

/-- Keys that are multiples of `2 ^ g` make a tree of at most one node at level `g`, and of at
most one more level for each digit from `g` on. -/
theorem Routed.height_le (ht : t.Routed h p) (hd : t.keys.Nodup)
    (hg : ∀ k ∈ t.keys, 2 ^ g ∣ k) (hgh : g ≤ h) : t.height ≤ h - g + 1 := by
  induction t generalizing h p with
  | nil => simp [height]
  | node k a rest l r ihl ihr =>
    obtain ⟨hk, hlr⟩ := List.nodup_cons.mp hd
    -- two different keys of a subtree part above level `g`
    have hpart : ∀ j ∈ l.keys ++ r.keys, g < h := fun j hj => by
      have hj' : j ∈ (node k a rest l r).keys := List.mem_cons_of_mem _ hj
      have hne : j ≠ k := fun he => hk (he ▸ hj)
      exact level_gt ((ht.leading j hj').trans ht.1.symm) hne (hg j hj') (hg k (by simp [keys]))
    have hsub : ∀ t' : DigitTree α, (∀ j ∈ t'.keys, j ∈ l.keys ++ r.keys) →
        (g ≤ h - 1 → t'.height ≤ h - 1 - g + 1) → t'.height ≤ h - g := fun t' hm hh => by
      cases t' with
      | nil => simp [height]
      | node j _ _ _ _ =>
        have hgt := hpart j (hm j (by simp [keys]))
        have := hh (by omega)
        omega
    have h1 := hsub l (fun j hj => by simp [hj]) fun hgh' =>
      ihl ht.2.2.1 (List.nodup_append.mp hlr).1 (fun j hj => hg j (by simp [keys, hj])) hgh'
    have h2 := hsub r (fun j hj => by simp [hj]) fun hgh' =>
      ihr ht.2.2.2 (List.nodup_append.mp hlr).2.1 (fun j hj => hg j (by simp [keys, hj])) hgh'
    simp only [height]
    omega

end Routed

/-! ### Insertion -/

section Insert

variable {h p k : ℕ} {a : α} {t : DigitTree α}

theorem entries_insert (k : ℕ) (a : α) (h : ℕ) (t : DigitTree α) :
    (t.insert k a h).entries.Perm ((a, k) :: t.entries) := by
  induction t generalizing h with
  | nil => simp [insert, entries]
  | node k' b rest l r ihl ihr =>
    rw [insert]
    split_ifs with hk hb
    · subst hk
      simp only [entries, List.map_cons, List.map_append, List.map_nil, List.cons_append,
        List.append_assoc, List.nil_append]
      refine (List.Perm.cons _ List.perm_middle).trans (List.Perm.swap _ _ _)
    · simp only [entries]
      refine (((ihr (h - 1)).append_left _).append_left _).trans ?_
      exact ((List.perm_middle.append_left _).trans List.perm_middle)
    · simp only [entries]
      refine (((ihl (h - 1)).append_right _).append_left _).trans ?_
      exact List.perm_middle

theorem routed_insert (ht : t.Routed h p) (hk : k / 2 ^ h = p) : (t.insert k a h).Routed h p := by
  induction t generalizing h p with
  | nil => simpa [insert, Routed] using hk
  | node k' b rest l r ihl ihr =>
    rw [insert]
    by_cases hkk : k' = k
    · rw [if_pos hkk]
      exact ht
    have hh : h ≠ 0 := by
      rintro rfl
      exact hkk (by simpa using ht.1.trans hk.symm)
    have hc := prefix_child hh hk
    rw [if_neg hkk]
    cases hb : k.testBit (h - 1)
    · rw [hb] at hc
      exact ⟨ht.1, fun h0 => absurd h0 hh, ihl ht.2.2.1 hc, ht.2.2.2⟩
    · rw [hb] at hc
      exact ⟨ht.1, fun h0 => absurd h0 hh, ht.2.2.1, ihr ht.2.2.2 hc⟩

theorem mem_keys_insert {j : ℕ} : j ∈ (t.insert k a h).keys ↔ j = k ∨ j ∈ t.keys := by
  induction t generalizing h with
  | nil => simp [insert, keys]
  | node k' b rest l r ihl ihr =>
    rw [insert]
    split_ifs with hk hb
    · subst hk
      simp [keys]
    · simp only [keys, List.mem_cons, List.mem_append, ihr]
      tauto
    · simp only [keys, List.mem_cons, List.mem_append, ihl]
      tauto

/-- The path of `k` leads to its node if it has one, so no key gets a second node. -/
theorem nodup_keys_insert (ht : t.Routed h p) (hk : k / 2 ^ h = p) (hd : t.keys.Nodup) :
    (t.insert k a h).keys.Nodup := by
  induction t generalizing h p with
  | nil => simp [insert, keys]
  | node k' b rest l r ihl ihr =>
    rw [insert]
    by_cases hkk : k' = k
    · rw [if_pos hkk]
      exact hd
    have hh : h ≠ 0 := by
      rintro rfl
      exact hkk (by simpa using ht.1.trans hk.symm)
    have hc := prefix_child hh hk
    obtain ⟨hk', hlr⟩ := List.nodup_cons.mp hd
    obtain ⟨hl, hr, hdis⟩ := List.nodup_append.mp hlr
    rw [List.mem_append, not_or] at hk'
    rw [if_neg hkk]
    -- `k` goes below the child of its digit, and occurs below no other
    cases hb : k.testBit (h - 1)
    · rw [hb] at hc
      have hkr : k ∉ r.keys := fun hm => by simp [ht.digit_right hm] at hb
      refine List.nodup_cons.mpr
        ⟨?_, List.nodup_append.mpr ⟨ihl ht.2.2.1 hc hl, hr, fun x hx y hy => ?_⟩⟩
      · simp only [List.mem_append, mem_keys_insert, not_or]
        exact ⟨⟨hkk, hk'.1⟩, hk'.2⟩
      · rcases mem_keys_insert.mp hx with rfl | hx
        · rintro rfl
          exact hkr hy
        · exact hdis x hx y hy
    · rw [hb] at hc
      have hkl : k ∉ l.keys := fun hm => by simp [ht.digit_left hm] at hb
      refine List.nodup_cons.mpr
        ⟨?_, List.nodup_append.mpr ⟨hl, ihr ht.2.2.2 hc hr, fun x hx y hy => ?_⟩⟩
      · simp only [List.mem_append, mem_keys_insert, not_or]
        exact ⟨hk'.1, hkk, hk'.2⟩
      · rcases mem_keys_insert.mp hy with rfl | hy
        · rintro rfl
          exact hkl hx
        · exact hdis x hx y hy

end Insert

/-! ### A subtree in its context -/

/-- One step from a subtree up to its parent: the parent's own parts and its other subtree. -/
inductive Turn (α : Type) : Type
  | left (key : ℕ) (head : α) (rest : List α) (right : DigitTree α)
  | right (key : ℕ) (head : α) (rest : List α) (left : DigitTree α)

/-- The parent with `t` as the subtree the step came from. -/
def Turn.fill (t : DigitTree α) : Turn α → DigitTree α
  | .left k a rest r => node k a rest t r
  | .right k a rest l => node k a rest l t

/-- What the parent holds besides that subtree. -/
def Turn.entries : Turn α → List (α × ℕ)
  | .left k a rest r => (a :: rest).map (·, k) ++ r.entries
  | .right k a rest l => (a :: rest).map (·, k) ++ l.entries

def Turn.keys : Turn α → List ℕ
  | .left k _ _ r => k :: r.keys
  | .right k _ _ l => k :: l.keys

/-- `t` as a subtree in the context `K`, whose steps lead up to the root. -/
def plug : List (Turn α) → DigitTree α → DigitTree α
  | [], t => t
  | T :: K, t => plug K (T.fill t)

section Plug

variable {h p : ℕ} {t t' : DigitTree α} {K K' : List (Turn α)}

theorem plug_append : plug (K ++ K') t = plug K' (plug K t) := by
  induction K generalizing t with
  | nil => rfl
  | cons T K ih => exact ih

theorem plug_concat {T : Turn α} : plug (K ++ [T]) t = T.fill (plug K t) := plug_append

theorem entries_plug : (plug K t).entries.Perm (t.entries ++ K.flatMap Turn.entries) := by
  induction K generalizing t with
  | nil => simp [plug]
  | cons T K ih =>
    refine ih.trans ?_
    rw [List.flatMap_cons, ← List.append_assoc]
    refine List.Perm.append_right _ ?_
    cases T with
    | left k a rest r =>
      simp only [Turn.fill, Turn.entries, entries, ← List.append_assoc]
      exact List.perm_append_comm.append_right _
    | right k a rest l =>
      simp only [Turn.fill, Turn.entries, entries]
      rw [← List.append_assoc]
      exact List.perm_append_comm

theorem keys_plug : (plug K t).keys.Perm (t.keys ++ K.flatMap Turn.keys) := by
  induction K generalizing t with
  | nil => simp [plug]
  | cons T K ih =>
    refine ih.trans ?_
    rw [List.flatMap_cons, ← List.append_assoc]
    refine List.Perm.append_right _ ?_
    cases T with
    | left k a rest r =>
      simp only [Turn.fill, Turn.keys, keys]
      exact List.perm_middle.symm
    | right k a rest l =>
      simp only [Turn.fill, Turn.keys, keys]
      exact (List.perm_append_comm.cons k).trans List.perm_middle.symm

/-- A routed tree stays routed when a subtree is replaced by one routed in its place. -/
theorem Routed.plug (ht : (plug K t).Routed h p) :
    ∃ p', t.Routed (h - K.length) p' ∧ ∀ t', t' = nil ∨ t ≠ nil → t'.Routed (h - K.length) p' →
      (DigitTree.plug K t').Routed h p := by
  induction K generalizing t with
  | nil => exact ⟨p, ht, fun t' _ h' => h'⟩
  | cons T K ih =>
    obtain ⟨q, hq, hrep⟩ := ih ht
    -- each crumb takes one level
    have hlen : h - (T :: K).length = h - K.length - 1 := by
      rw [List.length_cons]
      omega
    rw [hlen]
    cases T with
    | left k a rest r =>
      refine ⟨2 * q, hq.2.2.1, fun t' hn ht' => hrep _ (.inr (by simp [Turn.fill])) ?_⟩
      refine ⟨hq.1, fun h0 => ?_, ht', hq.2.2.2⟩
      rcases hn with rfl | hn
      · exact ⟨rfl, (hq.2.1 h0).2⟩
      · exact absurd (hq.2.1 h0).1 hn
    | right k a rest l =>
      refine ⟨2 * q + 1, hq.2.2.2, fun t' hn ht' => hrep _ (.inr (by simp [Turn.fill])) ?_⟩
      refine ⟨hq.1, fun h0 => ?_, hq.2.2.1, ht'⟩
      rcases hn with rfl | hn
      · exact ⟨(hq.2.1 h0).1, rfl⟩
      · exact absurd (hq.2.1 h0).2 hn

theorem height_plug_ge : t.height + K.length ≤ (plug K t).height ∨ t = nil := by
  induction K generalizing t with
  | nil => simp [DigitTree.plug]
  | cons T K ih =>
    by_cases ht : t = nil
    · exact .inr ht
    refine .inl ?_
    rcases ih (t := T.fill t) with h | h
    · have hf : t.height + 1 ≤ (T.fill t).height := by
        cases T <;> simp only [Turn.fill, height] <;> omega
      rw [List.length_cons]
      simp only [DigitTree.plug]
      omega
    · cases T <;> simp [Turn.fill] at h

end Plug

/-! ### Paths -/

/-- The heads of nodes one below the other, from the root of `t` on. -/
inductive Path : DigitTree α → List α → Prop
  | stop {t : DigitTree α} : Path t []
  | left {k : ℕ} {a : α} {rest p : List α} {l r : DigitTree α} (h : Path l p) :
      Path (node k a rest l r) (a :: p)
  | right {k : ℕ} {a : α} {rest p : List α} {l r : DigitTree α} (h : Path r p) :
      Path (node k a rest l r) (a :: p)

section Path

variable {p : List α} {t : DigitTree α} {a : α}

theorem Path.length_le (h : Path t p) : p.length ≤ t.height := by
  induction h with
  | stop => exact Nat.zero_le _
  | left _ ih =>
    simp only [List.length_cons, height]
    omega
  | right _ ih =>
    simp only [List.length_cons, height]
    omega

/-- A path goes through nodes of the tree. -/
theorem Path.exists_plug (h : Path t p) (ha : a ∈ p) :
    ∃ K k rest l r, t = plug K (node k a rest l r) := by
  induction h with
  | stop => cases ha
  | @left k b rest p l r _ ih =>
    rcases List.mem_cons.mp ha with rfl | ha
    · exact ⟨[], k, rest, l, r, rfl⟩
    · obtain ⟨K, k', rest', l', r', rfl⟩ := ih ha
      refine ⟨K ++ [.left k b rest r], k', rest', l', r', ?_⟩
      rw [plug_concat, Turn.fill]
  | @right k b rest p l r _ ih =>
    rcases List.mem_cons.mp ha with rfl | ha
    · exact ⟨[], k, rest, l, r, rfl⟩
    · obtain ⟨K, k', rest', l', r', rfl⟩ := ih ha
      refine ⟨K ++ [.right k b rest l], k', rest', l', r', ?_⟩
      rw [plug_concat, Turn.fill]

end Path

/-! ### Removal -/

section Pop

variable {h p k : ℕ} {a : α} {rest : List α} {q : Bool} {l r t t' : DigitTree α}

theorem popLeaf_eq_none : popLeaf q t = none ↔ t = nil := by
  cases t with
  | nil => simp [popLeaf]
  | node k a rest l r =>
    cases hl : popLeaf q l <;> cases hr : popLeaf q r <;> simp [popLeaf, hl, hr]
    cases q <;> simp

/-- The leaf taken out is at the end of a walk down; the rest of the tree is unchanged. -/
theorem popLeaf_plug (ht : popLeaf q t = some (k, a, rest, t')) :
    ∃ K, t = plug K (node k a rest nil nil) ∧ t' = plug K nil := by
  induction t generalizing t' with
  | nil => simp [popLeaf] at ht
  | node k' b s l r ihl ihr =>
    -- a leaf of a child is a leaf, one crumb deeper
    have hleft : ∀ l', popLeaf q l = some (k, a, rest, l') → t' = node k' b s l' r →
        ∃ K, node k' b s l r = plug K (node k a rest nil nil) ∧ t' = plug K nil :=
      fun l' hl he => by
        obtain ⟨K, h1, h2⟩ := ihl hl
        exact ⟨K ++ [.left k' b s r], by rw [plug_concat, ← h1]; rfl,
          by rw [plug_concat, ← h2, he]; rfl⟩
    have hright : ∀ r', popLeaf q r = some (k, a, rest, r') → t' = node k' b s l r' →
        ∃ K, node k' b s l r = plug K (node k a rest nil nil) ∧ t' = plug K nil :=
      fun r' hr he => by
        obtain ⟨K, h1, h2⟩ := ihr hr
        exact ⟨K ++ [.right k' b s l], by rw [plug_concat, ← h1]; rfl,
          by rw [plug_concat, ← h2, he]; rfl⟩
    -- which of the two children have a leaf to give
    rcases hl : popLeaf q l with _ | ⟨kl, al, sl, l'⟩ <;>
      rcases hr : popLeaf q r with _ | ⟨kr, ar, sr, r'⟩ <;>
      simp only [popLeaf, hl, hr, Option.some.injEq, Prod.mk.injEq] at ht
    · obtain ⟨rfl, rfl, rfl, rfl⟩ := ht
      rw [popLeaf_eq_none] at hl hr
      exact ⟨[], by rw [hl, hr]; rfl, rfl⟩
    · obtain ⟨rfl, rfl, rfl, rfl⟩ := ht
      exact hright r' hr rfl
    · obtain ⟨rfl, rfl, rfl, rfl⟩ := ht
      exact hleft l' hl rfl
    · cases q <;> simp only [Bool.false_eq_true, if_true, if_false, Option.some.injEq,
        Prod.mk.injEq] at ht <;> obtain ⟨rfl, rfl, rfl, rfl⟩ := ht
      · exact hleft l' hl rfl
      · exact hright r' hr rfl

theorem entries_popLeaf (ht : popLeaf q t = some (k, a, rest, t')) :
    t.entries.Perm ((a :: rest).map (·, k) ++ t'.entries) := by
  obtain ⟨K, rfl, rfl⟩ := popLeaf_plug ht
  have hK : (plug K nil).entries.Perm (K.flatMap Turn.entries) := entries_plug
  refine entries_plug.trans ?_
  simp only [entries, List.append_nil]
  exact hK.symm.append_left _

theorem keys_popLeaf (ht : popLeaf q t = some (k, a, rest, t')) :
    t.keys.Perm (k :: t'.keys) := by
  obtain ⟨K, rfl, rfl⟩ := popLeaf_plug ht
  have hK : (plug K nil).keys.Perm (K.flatMap Turn.keys) := keys_plug
  refine keys_plug.trans ?_
  simp only [keys, List.append_nil, List.singleton_append]
  exact hK.symm.cons k

theorem routed_popLeaf (ht : t.Routed h p) (hp : popLeaf q t = some (k, a, rest, t')) :
    t'.Routed h p := by
  obtain ⟨K, rfl, rfl⟩ := popLeaf_plug hp
  obtain ⟨p', -, hrep⟩ := ht.plug
  exact hrep nil (.inl rfl) routed_nil

/-- What `pull` puts in the place of a node is a leaf below it. -/
theorem exists_plug_of_pull {j : ℕ} {b : α} {s : List α} {l' r' : DigitTree α}
    (h : pull l r = node k a rest l' r') :
    ∃ K, node j b s l r = plug K (node k a rest nil nil) := by
  rcases hl : popLeaf true l with _ | ⟨kl, al, sl, l''⟩
  · rcases hr : popLeaf false r with _ | ⟨kr, ar, sr, r''⟩
    · simp [pull, hl, hr] at h
    · simp only [pull, hl, hr, node.injEq] at h
      obtain ⟨rfl, rfl, rfl, -, -⟩ := h
      obtain ⟨K, rfl, -⟩ := popLeaf_plug hr
      refine ⟨K ++ [.right j b s l], ?_⟩
      rw [plug_concat, Turn.fill]
  · simp only [pull, hl, node.injEq] at h
    obtain ⟨rfl, rfl, rfl, -, -⟩ := h
    obtain ⟨K, rfl, -⟩ := popLeaf_plug hl
    refine ⟨K ++ [.left j b s r], ?_⟩
    rw [plug_concat, Turn.fill]

theorem entries_pull : (pull l r).entries.Perm (l.entries ++ r.entries) := by
  rcases hl : popLeaf true l with _ | ⟨kl, al, sl, l'⟩
  · rw [popLeaf_eq_none] at hl
    subst hl
    rcases hr : popLeaf false r with _ | ⟨kr, ar, sr, r'⟩
    · rw [popLeaf_eq_none] at hr
      subst hr
      simp [pull, popLeaf, entries]
    · simp only [pull, popLeaf, hr, entries, List.nil_append]
      exact (entries_popLeaf hr).symm
  · simp only [pull, hl, entries]
    rw [← List.append_assoc]
    exact (entries_popLeaf hl).symm.append_right _

theorem keys_pull : (pull l r).keys.Perm (l.keys ++ r.keys) := by
  rcases hl : popLeaf true l with _ | ⟨kl, al, sl, l'⟩
  · rw [popLeaf_eq_none] at hl
    subst hl
    rcases hr : popLeaf false r with _ | ⟨kr, ar, sr, r'⟩
    · rw [popLeaf_eq_none] at hr
      subst hr
      simp [pull, popLeaf, keys]
    · simp only [pull, popLeaf, hr, keys, List.nil_append]
      exact (keys_popLeaf hr).symm
  · simp only [pull, hl, keys]
    rw [← List.cons_append]
    exact (keys_popLeaf hl).symm.append_right _

theorem routed_pull (ht : (node k a rest l r).Routed h p) : (pull l r).Routed h p := by
  have hpre : ∀ j ∈ l.keys ++ r.keys, j / 2 ^ h = p ∧ h ≠ 0 := fun j hj =>
    ⟨ht.leading j (List.mem_cons_of_mem _ hj), ht.level_ne_zero hj⟩
  rcases hl : popLeaf true l with _ | ⟨kl, al, sl, l'⟩
  · rcases hr : popLeaf false r with _ | ⟨kr, ar, sr, r'⟩
    · simp [pull, hl, hr]
    · have hk := hpre kr (List.mem_append_right _ ((keys_popLeaf hr).mem_iff.mpr (by simp)))
      simp only [pull, hl, hr]
      exact ⟨hk.1, fun h0 => absurd h0 hk.2, ht.2.2.1, routed_popLeaf ht.2.2.2 hr⟩
  · have hk := hpre kl (List.mem_append_left _ ((keys_popLeaf hl).mem_iff.mpr (by simp)))
    simp only [pull, hl]
    exact ⟨hk.1, fun h0 => absurd h0 hk.2, routed_popLeaf ht.2.2.1 hl, ht.2.2.2⟩

end Pop

section Remove

variable [DecidableEq α] {h p k : ℕ} {a b : α} {rest : List α} {l r t : DigitTree α}

theorem entries_removeHere (ha : a ∈ b :: rest) :
    (node k b rest l r).entries.Perm ((a, k) :: (removeHere a k b rest l r).entries) := by
  unfold removeHere
  split_ifs with hb
  · subst hb
    cases rest with
    | nil => simpa [entries] using entries_pull.symm
    | cons c rest => simp [entries]
  · have ha' : a ∈ rest := by
      rcases List.mem_cons.mp ha with rfl | ha
      · exact absurd rfl hb
      · exact ha
    have hp : (rest.map (·, k)).Perm ((a, k) :: (rest.erase a).map (·, k)) :=
      (List.perm_cons_erase ha').map (·, k)
    simp only [entries, List.map_cons, List.cons_append]
    exact ((hp.append_right _).cons _).trans (List.Perm.swap _ _ _)

theorem keys_removeHere : (removeHere a k b rest l r).keys ⊆ (node k b rest l r).keys ∧
    ((node k b rest l r).keys.Nodup → (removeHere a k b rest l r).keys.Nodup) := by
  unfold removeHere
  split_ifs with hb
  · cases rest with
    | nil =>
      refine ⟨fun j hj => List.mem_cons_of_mem _ (keys_pull.mem_iff.mp hj), fun hd => ?_⟩
      exact keys_pull.symm.nodup (List.nodup_cons.mp hd).2
    | cons c rest => exact ⟨fun j hj => hj, fun hd => hd⟩
  · exact ⟨fun j hj => hj, fun hd => hd⟩

theorem routed_removeHere (ht : (node k b rest l r).Routed h p) :
    (removeHere a k b rest l r).Routed h p := by
  unfold removeHere
  split_ifs with hb
  · cases rest with
    | nil => exact routed_pull ht
    | cons c rest => exact ht
  · exact ht

/-- The path of a key leads to the node that holds it, and only that subtree changes. -/
theorem exists_focus (ht : t.Routed h p) (hd : t.keys.Nodup) (ha : (a, k) ∈ t.entries) :
    ∃ K b rest l r, t = plug K (node k b rest l r) ∧ a ∈ b :: rest ∧
      t.remove k a h = plug K (removeHere a k b rest l r) := by
  induction t generalizing h p with
  | nil => simp [entries] at ha
  | node k' b rest l r ihl ihr =>
    have hkey := mem_keys_of_mem_entries ha
    obtain ⟨hk', hlr⟩ := List.nodup_cons.mp hd
    obtain ⟨hl, hr, -⟩ := List.nodup_append.mp hlr
    rw [List.mem_append, not_or] at hk'
    simp only [entries, List.mem_append, List.mem_map, Prod.mk.injEq] at ha
    -- found here, or below the child of its digit
    by_cases hkk : k' = k
    · subst hkk
      rcases ha with ⟨x, hx, rfl, -⟩ | ha | ha
      · exact ⟨[], b, rest, l, r, rfl, hx, by rw [remove, if_pos rfl]; rfl⟩
      · exact absurd (mem_keys_of_mem_entries ha) hk'.1
      · exact absurd (mem_keys_of_mem_entries ha) hk'.2
    rcases ha with ⟨x, -, -, hx⟩ | ha | ha
    · exact absurd hx hkk
    · have hb := ht.digit_left (mem_keys_of_mem_entries ha)
      obtain ⟨K, b', rest', l', r', h1, h2, h3⟩ := ihl ht.2.2.1 hl ha
      refine ⟨K ++ [.left k' b rest r], b', rest', l', r', ?_, h2, ?_⟩
      · rw [plug_concat, ← h1]
        rfl
      · rw [remove, if_neg hkk, hb, plug_concat, ← h3]
        rfl
    · have hb := ht.digit_right (mem_keys_of_mem_entries ha)
      obtain ⟨K, b', rest', l', r', h1, h2, h3⟩ := ihr ht.2.2.2 hr ha
      refine ⟨K ++ [.right k' b rest l], b', rest', l', r', ?_, h2, ?_⟩
      · rw [plug_concat, ← h1]
        rfl
      · rw [remove, if_neg hkk, hb, plug_concat, ← h3]
        rfl

theorem entries_remove (ht : t.Routed h p) (hd : t.keys.Nodup) (ha : (a, k) ∈ t.entries) :
    t.entries.Perm ((a, k) :: (t.remove k a h).entries) := by
  obtain ⟨K, b, rest, l, r, rfl, hmem, hrem⟩ := exists_focus ht hd ha
  rw [hrem]
  refine entries_plug.trans (((entries_removeHere hmem).append_right _).trans ?_)
  exact entries_plug.symm.cons _

theorem routed_remove (ht : t.Routed h p) (hd : t.keys.Nodup) (ha : (a, k) ∈ t.entries) :
    (t.remove k a h).Routed h p := by
  obtain ⟨K, b, rest, l, r, rfl, -, hrem⟩ := exists_focus ht hd ha
  obtain ⟨p', hp', hrep⟩ := ht.plug
  rw [hrem]
  exact hrep _ (.inr (by simp)) (routed_removeHere hp')

theorem nodup_keys_remove (ht : t.Routed h p) (hd : t.keys.Nodup) (ha : (a, k) ∈ t.entries) :
    (t.remove k a h).keys.Nodup := by
  obtain ⟨K, b, rest, l, r, rfl, -, hrem⟩ := exists_focus ht hd ha
  rw [hrem]
  obtain ⟨h1, h2, h3⟩ := List.nodup_append.mp (keys_plug.nodup hd)
  refine keys_plug.symm.nodup (List.nodup_append.mpr ⟨keys_removeHere.2 h1, h2, ?_⟩)
  exact fun x hx y hy => h3 x (keys_removeHere.1 hx) y hy

end Remove

/-! ### Searches -/

section Search

variable {h p req bound : ℕ} {best : Option (α × ℕ)} {t : DigitTree α}

theorem top_subset_entries {e : α × ℕ} (he : e ∈ top t) : e ∈ t.entries := by
  cases t with
  | nil => exact he
  | node k a rest l r =>
    obtain rfl := List.mem_singleton.mp he
    simp [entries]

theorem offered_subset_entries {e : α × ℕ} (he : e ∈ offered req h t) : e ∈ t.entries := by
  induction t generalizing h with
  | nil => exact he
  | node k a rest l r ihl ihr =>
    rw [offered] at he
    simp only [entries, List.mem_append]
    rcases List.mem_cons.mp he with rfl | he
    · exact .inl (by simp)
    · split_ifs at he with hb
      · exact .inr (.inr (ihr he))
      · rcases List.mem_append.mp he with he | he
        · exact .inr (.inr (top_subset_entries he))
        · exact .inr (.inl (ihl he))

/-- The keys on the side of the larger digit are greater. -/
theorem Routed.lt_of_digit {j : ℕ} (ht : t.Routed h (2 * p + 1)) (hj : j ∈ t.keys)
    (hreq : req / 2 ^ h = 2 * p) : req < j := by
  have hdig := ht.leading j hj
  by_contra hge
  have hle := Nat.div_le_div_right (c := 2 ^ h) (not_lt.mp hge)
  omega

theorem Routed.lt_of_digit' {j : ℕ} (ht : t.Routed h (2 * p)) (hj : j ∈ t.keys)
    (hreq : req / 2 ^ h = 2 * p + 1) : j < req := by
  have hdig := ht.leading j hj
  by_contra hge
  have hle := Nat.div_le_div_right (c := 2 ^ h) (not_lt.mp hge)
  omega

/-- Looking at a root, the candidate is no worse than the root, and it is the root or the one there
was before. -/
theorem better_spec (hb : ∀ b, best = some b → b.2 = bound) :
    (∀ b, (better best bound t).1 = some b → b.2 = (better best bound t).2) ∧
    (∀ b, (better best bound t).1 = some b → best = some b ∨ b ∈ top t) ∧
    (better best bound t).2 ≤ bound ∧ (∀ f ∈ top t, (better best bound t).2 ≤ f.2) ∧
    ((better best bound t).1 = none → best = none ∧ (better best bound t).2 = bound) ∧
    ((better best bound t).2 = bound ∨ ∃ f ∈ top t, f.2 = (better best bound t).2) := by
  cases t with
  | nil =>
    refine ⟨hb, fun b h => .inl h, le_rfl, fun f hf => ?_, fun h => ⟨h, rfl⟩, .inl rfl⟩
    cases hf
  | node k a rest l r =>
    rw [better, top]
    split_ifs with hlt
    · refine ⟨fun b h => ?_, fun b h => ?_, hlt.le, fun f hf => ?_, fun h => ?_,
        .inr ⟨(a, k), by simp, rfl⟩⟩
      · rw [← Option.some.inj h]
      · exact .inr (by rw [← Option.some.inj h]; exact List.mem_cons_self)
      · rw [List.mem_singleton.mp hf]
      · cases h
    · refine ⟨hb, fun b h => .inl h, le_rfl, fun f hf => ?_, fun h => ⟨h, rfl⟩, .inl rfl⟩
      rw [List.mem_singleton.mp hf]
      exact not_lt.mp hlt

/-- **The best-fit walk** finds the least key no less than `req` among those it sees, given a
candidate or a bound to start from. -/
theorem bestFit_spec (ht : t.Routed h p) (hreq : req / 2 ^ h = p) (hle : req ≤ bound)
    (hb : ∀ b, best = some b → b.2 = bound) :
    (bestFit req h best bound t = none → best = none ∧
      ∀ f ∈ offered req h t, req ≤ f.2 → bound ≤ f.2) ∧
    ∀ e, bestFit req h best bound t = some e → (best = some e ∨ e ∈ offered req h t) ∧ req ≤ e.2 ∧
      e.2 ≤ bound ∧ ∀ f ∈ offered req h t, req ≤ f.2 → e.2 ≤ f.2 := by
  induction t generalizing h p best bound with
  | nil =>
    refine ⟨fun h => ⟨h, fun f hf => ?_⟩, fun e he => ?_⟩
    · cases hf
    · have := hb e he
      refine ⟨.inl he, by omega, by omega, fun f hf => ?_⟩
      cases hf
  | node k a rest l r ihl ihr =>
    rw [bestFit, offered]
    by_cases hk : k = req
    · rw [if_pos hk]
      refine ⟨fun h => (by cases h), fun e he => ?_⟩
      obtain rfl := Option.some.inj he
      exact ⟨.inr List.mem_cons_self, hk.ge, hk.le.trans hle, fun f _ hf => hk.le.trans hf⟩
    rw [if_neg hk]
    -- the candidate at this node
    obtain ⟨here, hhere⟩ : ∃ here, here =
        if k < bound ∧ req < k then (some (a, k), k) else (best, bound) := ⟨_, rfl⟩
    rw [← hhere]
    have hkey : ∀ b, here.1 = some b → b.2 = here.2 := fun b h => by
      rw [hhere] at h ⊢
      split_ifs at h ⊢ with hc
      · rw [← Option.some.inj h]
      · exact hb b h
    have hfrom : ∀ b, here.1 = some b → best = some b ∨ b = (a, k) := fun b h => by
      rw [hhere] at h
      split_ifs at h with hc
      · exact .inr (Option.some.inj h).symm
      · exact .inl h
    have hbound : req ≤ here.2 ∧ here.2 ≤ bound ∧ (req ≤ k → here.2 ≤ k) := by
      rw [hhere]
      split_ifs with hc
      · exact ⟨hc.2.le, hc.1.le, fun _ => le_rfl⟩
      · refine ⟨hle, le_rfl, fun hrk => ?_⟩
        by_contra hlt
        exact hc ⟨by omega, by omega⟩
    have hnone : here.1 = none → best = none ∧ here.2 = bound := fun h => by
      rw [hhere] at h ⊢
      split_ifs at h ⊢ with hc
      exact ⟨h, rfl⟩
    by_cases hh : h = 0
    · -- a leaf at the last level
      obtain ⟨rfl, rfl⟩ := ht.2.1 hh
      have hoff : (if req.testBit (h - 1) then offered req (h - 1) nil
          else top nil ++ offered req (h - 1) (nil : DigitTree α)) = [] := by split_ifs <;> rfl
      have hres : (if req.testBit (h - 1) then bestFit req (h - 1) here.1 here.2 nil
          else bestFit req (h - 1) (better here.1 here.2 nil).1 (better here.1 here.2 nil).2 nil) =
          here.1 := by split_ifs <;> rfl
      rw [hoff, hres]
      refine ⟨fun h => ⟨(hnone h).1, fun f hf hrf => ?_⟩, fun e he => ?_⟩
      · obtain rfl := List.mem_singleton.mp hf
        rw [← (hnone h).2]
        exact hbound.2.2 hrf
      · have := hkey e he
        refine ⟨(hfrom e he).imp_right fun h => by simp [h], by omega, by omega, fun f hf hrf => ?_⟩
        obtain rfl := List.mem_singleton.mp hf
        have := hbound.2.2 hrf
        omega
    have hc := prefix_child hh hreq
    cases hbit : req.testBit (h - 1)
    · -- to the left, past the right subtree
      rw [hbit, Bool.toNat_false, Nat.add_zero] at hc
      simp only [Bool.false_eq_true, if_false]
      obtain ⟨s1, s2, s3, s4, s5, s6⟩ := better_spec (t := r) hkey
      have hside : req ≤ (better here.1 here.2 r).2 := by
        rcases s6 with s6 | ⟨f, hf, s6⟩
        · rw [s6]
          exact hbound.1
        · rw [← s6]
          exact (ht.2.2.2.lt_of_digit (mem_keys_of_mem_entries (top_subset_entries hf)) hc).le
      obtain ⟨ihn, ihs⟩ := ihl ht.2.2.1 hc hside s1
      refine ⟨fun h => ?_, fun e he => ?_⟩
      · obtain ⟨h1, h2⟩ := ihn h
        obtain ⟨h3, h4⟩ := s5 h1
        refine ⟨(hnone h3).1, fun f hf hrf => ?_⟩
        rw [← (hnone h3).2, ← h4]
        rcases List.mem_cons.mp hf with rfl | hf
        · exact s3.trans (hbound.2.2 hrf)
        · exact (List.mem_append.mp hf).elim (s4 f) fun hf => h2 f hf hrf
      · obtain ⟨h1, h2, h3, h4⟩ := ihs e he
        refine ⟨?_, h2, h3.trans (s3.trans hbound.2.1), fun f hf hrf => ?_⟩
        · rcases h1 with h1 | h1
          · rcases s2 e h1 with h1 | h1
            · exact (hfrom e h1).imp_right fun h => by simp [h]
            · exact .inr (by simp [h1])
          · exact .inr (by simp [h1])
        · rcases List.mem_cons.mp hf with rfl | hf
          · exact h3.trans (s3.trans (hbound.2.2 hrf))
          · exact (List.mem_append.mp hf).elim (fun hf => h3.trans (s4 f hf)) fun hf => h4 f hf hrf
    · rw [hbit, Bool.toNat_true] at hc
      simp only [if_true]
      obtain ⟨ihn, ihs⟩ := ihr ht.2.2.2 hc hbound.1 hkey
      refine ⟨fun h => ?_, fun e he => ?_⟩
      · obtain ⟨h1, h2⟩ := ihn h
        refine ⟨(hnone h1).1, fun f hf hrf => ?_⟩
        rw [← (hnone h1).2]
        rcases List.mem_cons.mp hf with rfl | hf
        · exact hbound.2.2 hrf
        · exact h2 f hf hrf
      · obtain ⟨h1, h2, h3, h4⟩ := ihs e he
        refine ⟨?_, h2, h3.trans hbound.2.1, fun f hf hrf => ?_⟩
        · rcases h1 with h1 | h1
          · exact (hfrom e h1).imp_right fun h => by simp [h]
          · exact .inr (by simp [h1])
        · rcases List.mem_cons.mp hf with rfl | hf
          · exact h3.trans (hbound.2.2 hrf)
          · exact h4 f hf hrf

/-- If any key is no less than `req`, the walk sees one: beside the path hang only larger keys on
the right, and only smaller ones on the left. -/
theorem exists_offered (ht : t.Routed h p) (hreq : req / 2 ^ h = p) {e : α × ℕ}
    (he : e ∈ t.entries) (hle : req ≤ e.2) : ∃ f ∈ offered req h t, req ≤ f.2 := by
  induction t generalizing h p with
  | nil => cases he
  | node k a rest l r ihl ihr =>
    rw [offered]
    simp only [entries, List.mem_append, List.mem_map] at he
    rcases he with ⟨x, -, rfl⟩ | he
    · exact ⟨(a, k), List.mem_cons_self, hle⟩
    have hh : h ≠ 0 := ht.level_ne_zero (j := e.2)
      (List.mem_append.mpr (he.imp mem_keys_of_mem_entries mem_keys_of_mem_entries))
    have hc := prefix_child hh hreq
    -- the side of the request is searched on; the other is greater, or too small
    cases hbit : req.testBit (h - 1)
    · rw [hbit, Bool.toNat_false, Nat.add_zero] at hc
      simp only [Bool.false_eq_true, if_false]
      rcases he with he | he
      · obtain ⟨f, hf, hrf⟩ := ihl ht.2.2.1 hc he
        exact ⟨f, by simp [hf], hrf⟩
      · cases r with
        | nil => cases he
        | node k' a' rest' l' r' =>
          exact ⟨(a', k'), by simp [top], (ht.2.2.2.lt_of_digit (j := k') (by simp [keys]) hc).le⟩
    · rw [hbit, Bool.toNat_true] at hc
      simp only [if_true]
      rcases he with he | he
      · exact absurd (ht.2.2.1.lt_of_digit' (mem_keys_of_mem_entries he) hc) (not_lt.mpr hle)
      · obtain ⟨f, hf, hrf⟩ := ihr ht.2.2.2 hc he
        exact ⟨f, by simp [hf], hrf⟩

/-- The walk that starts with no candidate. -/
theorem bestFit_none_spec (ht : t.Routed h p) (hreq : req / 2 ^ h = p) (hle : req ≤ bound) :
    (bestFit req h none bound t = none → ∀ f ∈ offered req h t, req ≤ f.2 → bound ≤ f.2) ∧
    ∀ e, bestFit req h none bound t = some e → e ∈ offered req h t ∧ req ≤ e.2 ∧ e.2 ≤ bound ∧
      ∀ f ∈ offered req h t, req ≤ f.2 → e.2 ≤ f.2 := by
  have hb : ∀ b : α × ℕ, none = some b → b.2 = bound := by simp
  obtain ⟨hnone, hsome⟩ := bestFit_spec ht hreq hle hb
  refine ⟨fun h => (hnone h).2, fun e he => ?_⟩
  obtain ⟨h1, h2⟩ := hsome e he
  exact ⟨h1.resolve_left (by simp), h2⟩

/-- What the walk finds without a candidate to start from. -/
theorem bestFit_mem (ht : t.Routed h p) (hreq : req / 2 ^ h = p) (hle : req ≤ bound) {e : α × ℕ}
    (he : bestFit req h none bound t = some e) : e ∈ t.entries ∧ req ≤ e.2 := by
  obtain ⟨h1, h2, -⟩ := (bestFit_none_spec ht hreq hle).2 e he
  exact ⟨offered_subset_entries h1, h2⟩

theorem leftmost_mem (best : α × ℕ) (t : DigitTree α) :
    leftmost best t = best ∨ leftmost best t ∈ t.entries := by
  induction t generalizing best with
  | nil => exact .inl rfl
  | node k a rest l r ihl ihr =>
    -- the candidate after this node
    have hhere : (if k < best.2 then (a, k) else best) = best ∨
        (if k < best.2 then (a, k) else best) ∈ (node k a rest l r).entries := by
      split_ifs
      · exact .inr (by simp [entries])
      · exact .inl rfl
    cases l with
    | nil =>
      rw [leftmost]
      rcases ihr (if k < best.2 then (a, k) else best) with h | h
      · rw [h]
        exact hhere
      · exact .inr (by simp only [entries, List.mem_append]; exact .inr (.inr h))
    | node k' a' rest' l' r' =>
      rw [leftmost]
      rcases ihl (if k < best.2 then (a, k) else best) with h | h
      · rw [h]
        exact hhere
      · exact .inr (by simp only [entries, List.mem_append] at h ⊢; exact .inr (.inl h))

/-- The keys on the left of a node are below the keys on its right. -/
theorem Routed.lt_of_sides {k : ℕ} {a : α} {rest : List α} {l r : DigitTree α} {i j : ℕ}
    (ht : (node k a rest l r).Routed h p) (hi : i ∈ l.keys) (hj : j ∈ r.keys) : i < j := by
  have h1 := ht.2.2.1.leading i hi
  have h2 := ht.2.2.2.leading j hj
  refine lt_of_not_ge fun hle => ?_
  have h3 : j / 2 ^ (h - 1) ≤ i / 2 ^ (h - 1) := Nat.div_le_div_right hle
  omega

/-- The leftmost walk settles on the least key of the whole tree: what it passes by is on the right
of a subtree it goes down. -/
theorem leftmost_le (ht : t.Routed h p) (best : α × ℕ) :
    (leftmost best t).2 ≤ best.2 ∧ ∀ j ∈ t.keys, (leftmost best t).2 ≤ j := by
  induction t generalizing h p best with
  | nil => exact ⟨le_rfl, by simp [keys]⟩
  | node k a rest l r ihl ihr =>
    obtain ⟨here, hhere⟩ : ∃ here, here = if k < best.2 then (a, k) else best := ⟨_, rfl⟩
    have hb : here.2 ≤ best.2 ∧ here.2 ≤ k := by
      rw [hhere]
      split_ifs with hlt
      · exact ⟨hlt.le, le_rfl⟩
      · exact ⟨le_rfl, not_lt.mp hlt⟩
    cases l with
    | nil =>
      rw [leftmost, ← hhere]
      obtain ⟨h1, h2⟩ := ihr ht.2.2.2 here
      refine ⟨h1.trans hb.1, fun j hj => ?_⟩
      rw [keys, List.mem_cons] at hj
      rcases hj with rfl | hj
      · exact h1.trans hb.2
      · exact h2 j hj
    | node k' a' rest' l' r' =>
      rw [leftmost, ← hhere]
      obtain ⟨h1, h2⟩ := ihl ht.2.2.1 here
      refine ⟨h1.trans hb.1, fun j hj => ?_⟩
      rw [keys, List.mem_cons, List.mem_append] at hj
      rcases hj with rfl | hj | hj
      · exact h1.trans hb.2
      · exact h2 j hj
      · -- the root of the left subtree is below all of the right one
        have hroot : k' ∈ (node k' a' rest' l' r').keys := by simp [keys]
        exact (h2 k' hroot).trans (ht.lt_of_sides hroot hj).le

end Search

end DigitTree
