import Dlmalloc.Lib.LowBits
import Mathlib.Data.List.Basic
import Mathlib.Data.Multiset.AddSub
import Mathlib.Data.Multiset.Filter
import Mathlib.Data.Multiset.OrderedMonoid
import Mathlib.Tactic.Ring

/-!
# The heap as a row of chunks

What the headers of the heap stand for: the chunks in address order, each with its size, its status
and its `PREVIOUS_INUSE` bit. The last chunk is the end of the heap (`Status.top`), which no bin
holds.

* `Tiles lo L hi` — the chunks of `L` lie end to end from `lo` to `hi`;
* `TopLast L` — the last chunk, and no other, is the end of the heap;
* `Tags full b L` — a clear `PREVIOUS_INUSE` bit says truly that the chunk before is free, and with
  `full` the bit says exactly that and no two chunks in a row are free.

Every edit of the allocator replaces one or two chunks in place (`replaceAt`, `fuse`). The lemmas
read a row as `pre ++ c :: post`, so that an edit at `c` is seen to leave `pre` and `post` alone.
-/

namespace Dlmalloc

/-- The address of a chunk and its size. -/
abbrev Slot : Type := ℕ × ℕ

/-- A chunk is in use, or free, or it is the end of the heap. -/
inductive Status : Type
  | inuse | free | top
  deriving DecidableEq, Repr

structure Chunk : Type where
  addr : ℕ
  size : ℕ
  status : Status
  /-- The `PREVIOUS_INUSE` bit. -/
  pinuse : Bool
  deriving DecidableEq, Repr

namespace Chunk

/-- The address of the chunk after `c`. -/
def next (c : Chunk) : ℕ := c.addr + c.size + 8

def slot (c : Chunk) : Slot := (c.addr, c.size)

/-- The flag bits of the header. -/
def flags (c : Chunk) : ℕ := (if c.status = .inuse then 1 else 0) + (if c.pinuse then 2 else 0)

/-- The header word. -/
def word (c : Chunk) : ℕ := c.size + c.flags

theorem flags_lt (c : Chunk) : c.flags < 2 ^ 3 := by
  unfold flags
  split_ifs <;> decide

/-- The sizes that occur: multiples of 8, at least 24 except for the end of the heap, which is what
the last extension left over. -/
structure SizeOk (extensionSize : ℕ) (c : Chunk) : Prop where
  aligned : 8 ∣ c.size
  least : c.status ≠ .top → 24 ≤ c.size
  topLeast : c.status = .top → min 24 (extensionSize - 8) ≤ c.size

end Chunk

/-! ### Tilings -/

/-- The chunks of the list lie end to end from `lo` to `hi`. -/
def Tiles : ℕ → List Chunk → ℕ → Prop
  | lo, [], hi => lo = hi
  | lo, c :: L, hi => c.addr = lo ∧ Tiles c.next L hi

section Tiles

variable {lo C hi : ℕ} {c d : Chunk} {L pre post : List Chunk}

theorem tiles_append {L₁ L₂ : List Chunk} :
    Tiles lo (L₁ ++ L₂) hi ↔ ∃ C, Tiles lo L₁ C ∧ Tiles C L₂ hi := by
  induction L₁ generalizing lo with
  | nil => simp [Tiles]
  | cons c L₁ ih =>
    simp only [List.cons_append, Tiles, ih]
    constructor
    · rintro ⟨h, C, h1, h2⟩
      exact ⟨C, ⟨h, h1⟩, h2⟩
    · rintro ⟨C, ⟨h, h1⟩, h2⟩
      exact ⟨h, C, h1, h2⟩

theorem tiles_mid :
    Tiles lo (pre ++ c :: post) hi ↔ Tiles lo pre c.addr ∧ Tiles c.next post hi := by
  rw [tiles_append]
  constructor
  · rintro ⟨C, h1, rfl, h2⟩
    exact ⟨h1, h2⟩
  · rintro ⟨h1, h2⟩
    exact ⟨c.addr, h1, rfl, h2⟩

theorem Tiles.le (h : Tiles lo L hi) : lo ≤ hi := by
  induction L generalizing lo with
  | nil => exact h.le
  | cons c L ih =>
    have := ih h.2
    have := h.1
    simp only [Chunk.next] at *
    omega

theorem Tiles.unique {hi' : ℕ} (h : Tiles lo L hi) (h' : Tiles lo L hi') : hi = hi' := by
  induction L generalizing lo with
  | nil => exact h.symm.trans h'
  | cons c L ih => exact ih h.2 h'.2

theorem Tiles.bounds (h : Tiles lo L hi) (hc : c ∈ L) : lo ≤ c.addr ∧ c.next ≤ hi := by
  obtain ⟨pre, post, rfl⟩ := List.append_of_mem hc
  rw [tiles_mid] at h
  exact ⟨h.1.le, h.2.le⟩

/-- Around a chunk, the others lie before it or after it. -/
theorem Tiles.around (h : Tiles lo (pre ++ c :: post) hi) :
    (∀ x ∈ pre, x.next ≤ c.addr) ∧ ∀ x ∈ post, c.next ≤ x.addr := by
  rw [tiles_mid] at h
  exact ⟨fun x hx => (h.1.bounds hx).2, fun x hx => (h.2.bounds hx).1⟩

theorem Tiles.ne_around (h : Tiles lo (pre ++ c :: post) hi) :
    (∀ x ∈ pre, x.addr ≠ c.addr) ∧ ∀ x ∈ post, x.addr ≠ c.addr := by
  obtain ⟨h1, h2⟩ := h.around
  refine ⟨fun x hx => ?_, fun x hx => ?_⟩
  · have := h1 x hx
    simp only [Chunk.next] at this
    omega
  · have := h2 x hx
    simp only [Chunk.next] at this
    omega

/-- Two chunks of a tiling are equal or apart. -/
theorem Tiles.apart (h : Tiles lo L hi) (hc : c ∈ L) (hd : d ∈ L) :
    c = d ∨ c.next ≤ d.addr ∨ d.next ≤ c.addr := by
  obtain ⟨pre, post, rfl⟩ := List.append_of_mem hc
  obtain ⟨h1, h2⟩ := h.around
  rw [List.mem_append, List.mem_cons] at hd
  rcases hd with hd | rfl | hd
  · exact .inr (.inr (h1 d hd))
  · exact .inl rfl
  · exact .inr (.inl (h2 d hd))

theorem Tiles.eq_of_addr_eq (h : Tiles lo L hi) (hc : c ∈ L) (hd : d ∈ L)
    (he : c.addr = d.addr) : c = d := by
  rcases h.apart hc hd with h' | h' | h'
  · exact h'
  all_goals
    simp only [Chunk.next] at h'
    omega

theorem Tiles.eq_of_next_eq (h : Tiles lo L hi) (hc : c ∈ L) (hd : d ∈ L)
    (he : c.next = d.next) : c = d := by
  rcases h.apart hc hd with h' | h' | h'
  · exact h'
  all_goals
    simp only [Chunk.next] at h' he
    omega

theorem Tiles.nodup (h : Tiles lo L hi) : L.Nodup := by
  induction L generalizing lo with
  | nil => exact List.nodup_nil
  | cons c L ih =>
    refine List.nodup_cons.mpr ⟨fun hc => ?_, ih h.2⟩
    have := (h.2.bounds hc).1
    simp only [Chunk.next] at this
    omega

theorem Tiles.aligned (h : Tiles lo L hi) (hlo : 8 ∣ lo) (hs : ∀ c ∈ L, 8 ∣ c.size) :
    ∀ c ∈ L, 8 ∣ c.addr := by
  induction L generalizing lo with
  | nil => simp
  | cons c L ih =>
    have hc : 8 ∣ c.addr := h.1 ▸ hlo
    have hn : 8 ∣ c.next := by
      have := hs c List.mem_cons_self
      simp only [Chunk.next]
      omega
    intro d hd
    rcases List.mem_cons.mp hd with rfl | hd
    · exact hc
    · exact ih h.2 hn (fun x hx => hs x (List.mem_cons_of_mem _ hx)) d hd

/-- A row of chunks of 32 bytes or more is short. -/
theorem Tiles.length_le (h : Tiles lo L hi) : L.length * 8 + lo ≤ hi := by
  induction L generalizing lo with
  | nil => simpa using h.le
  | cons c L ih =>
    have := ih h.2
    have := h.1
    simp only [Chunk.next, List.length_cons] at *
    omega

end Tiles

/-- The last chunk, and no other, is the end of the heap. -/
def TopLast : List Chunk → Prop
  | [] => False
  | [t] => t.status = .top
  | c :: d :: L => c.status ≠ .top ∧ TopLast (d :: L)

section TopLast

variable {c d : Chunk} {L pre post : List Chunk}

theorem topLast_append : TopLast (pre ++ c :: post) ↔
    (∀ x ∈ pre, x.status ≠ .top) ∧ TopLast (c :: post) := by
  induction pre with
  | nil => simp
  | cons x pre ih =>
    have hne : ∃ y M, pre ++ c :: post = y :: M := by
      cases pre <;> exact ⟨_, _, rfl⟩
    obtain ⟨y, M, hM⟩ := hne
    rw [List.cons_append, hM, TopLast, ← hM, ih]
    simp [and_assoc]

theorem topLast_cons : TopLast (c :: post) ↔
    c.status = .top ∧ post = [] ∨ c.status ≠ .top ∧ TopLast post := by
  cases post with
  | nil => simp [TopLast]
  | cons d post => simp [TopLast]

/-- Before the end of the heap there is always a next chunk. -/
theorem TopLast.exists_next (h : TopLast (pre ++ c :: post)) (hc : c.status ≠ .top) :
    ∃ d post', post = d :: post' := by
  cases post with
  | nil => exact absurd (topLast_append.mp h).2 hc
  | cons d post => exact ⟨d, post, rfl⟩

theorem TopLast.post_eq_nil (h : TopLast (pre ++ c :: post)) (hc : c.status = .top) :
    post = [] := by
  cases post with
  | nil => rfl
  | cons d post => exact absurd hc (topLast_append.mp h).2.1

/-- The end of the heap, as the last chunk. -/
theorem TopLast.exists_top (h : TopLast L) :
    ∃ pre t, L = pre ++ [t] ∧ t.status = .top ∧ ∀ x ∈ pre, x.status ≠ .top := by
  induction L with
  | nil => exact h.elim
  | cons c L ih =>
    cases L with
    | nil => exact ⟨[], c, rfl, h, by simp⟩
    | cons d L =>
      obtain ⟨pre, t, he, ht, hpre⟩ := ih h.2
      refine ⟨c :: pre, t, by rw [he]; rfl, ht, fun x hx => ?_⟩
      rcases List.mem_cons.mp hx with rfl | hx
      · exact h.1
      · exact hpre x hx

theorem topLast_concat (hpre : ∀ x ∈ pre, x.status ≠ .top) (ht : c.status = .top) :
    TopLast (pre ++ [c]) := topLast_append.mpr ⟨hpre, ht⟩

end TopLast

/-! ### The `PREVIOUS_INUSE` bits -/

/-- A clear `PREVIOUS_INUSE` bit says truly that the chunk before is free; `b` says so of the chunk
before the list. If the tags are `full`, then the bit is clear after every free chunk, and a free
chunk has a chunk in use after it. -/
def Tags (full : Prop) : Bool → List Chunk → Prop
  | _, [] => True
  | b, c :: L =>
    (c.pinuse = false → b = true) ∧ (full → b = true → c.pinuse = false ∧ c.status = .inuse) ∧
      Tags full (decide (c.status = .free)) L

/-- Whether the last chunk of the list is free; `b` if there is none. -/
def lastFree : Bool → List Chunk → Bool
  | b, [] => b
  | _, c :: L => lastFree (decide (c.status = .free)) L

section Tags

variable {full : Prop} {b : Bool} {c : Chunk} {pre post : List Chunk}

theorem tags_append {L₁ L₂ : List Chunk} :
    Tags full b (L₁ ++ L₂) ↔ Tags full b L₁ ∧ Tags full (lastFree b L₁) L₂ := by
  induction L₁ generalizing b with
  | nil => simp [Tags, lastFree]
  | cons c L₁ ih => simp [Tags, lastFree, ih, and_assoc]

theorem tags_mid : Tags full b (pre ++ c :: post) ↔ Tags full b pre ∧
    ((c.pinuse = false → lastFree b pre = true) ∧
      (full → lastFree b pre = true → c.pinuse = false ∧ c.status = .inuse)) ∧
      Tags full (decide (c.status = .free)) post := by
  rw [tags_append, Tags, and_assoc]

theorem lastFree_concat : lastFree b (pre ++ [c]) = decide (c.status = .free) := by
  induction pre generalizing b with
  | nil => rfl
  | cons x pre ih => exact ih

/-- Where the chunk before is free, there is one. -/
theorem exists_of_lastFree (h : lastFree false pre = true) :
    ∃ pre' p, pre = pre' ++ [p] ∧ p.status = .free := by
  rcases List.eq_nil_or_concat pre with rfl | ⟨pre', p, rfl⟩
  · exact absurd h Bool.false_ne_true
  · rw [List.concat_eq_append, lastFree_concat] at h
    exact ⟨pre', p, List.concat_eq_append, of_decide_eq_true h⟩

theorem Tags.weaken {L : List Chunk} {full' : Prop} (hf : full' → full) (h : Tags full b L) :
    Tags full' b L := by
  induction L generalizing b with
  | nil => trivial
  | cons c L ih => exact ⟨h.1, fun h' => h.2.1 (hf h'), ih h.2.2⟩

end Tags

/-! ### Edits -/

/-- Replace the chunk at `a`. -/
def replaceAt (a : ℕ) (f : Chunk → List Chunk) (L : List Chunk) : List Chunk :=
  L.flatMap fun c => if c.addr = a then f c else [c]

/-- Merge the chunk at `a` with the one after it, into a chunk of the status given. -/
def fuse (a : ℕ) (τ : Status) : List Chunk → List Chunk
  | c :: d :: L =>
    if c.addr = a then ⟨c.addr, c.size + d.size + 8, τ, c.pinuse⟩ :: L else c :: fuse a τ (d :: L)
  | L => L

/-- Give the chunk at `a` a status. -/
def mark (a : ℕ) (τ : Status) : List Chunk → List Chunk :=
  replaceAt a fun c => [{ c with status := τ }]

/-- Set or clear the `PREVIOUS_INUSE` bit of the chunk at `a`. -/
def tag (a : ℕ) (b : Bool) : List Chunk → List Chunk :=
  replaceAt a fun c => [{ c with pinuse := b }]

/-- Split the chunk at `a` behind its first `r` bytes. The first piece is free, and the second one
is what the chunk was. -/
def carve (a r : ℕ) : List Chunk → List Chunk :=
  replaceAt a fun c =>
    [⟨c.addr, r, .free, c.pinuse⟩, ⟨c.addr + r + 8, c.size - r - 8, c.status, false⟩]

/-- Split the chunk in use at `a` behind its first `r` bytes. The second piece has the status
given. -/
def trim (a r : ℕ) (τ : Status) : List Chunk → List Chunk :=
  replaceAt a fun c =>
    [⟨c.addr, r, c.status, c.pinuse⟩, ⟨c.addr + r + 8, c.size - r - 8, τ, true⟩]

/-- Let the chunk at `a` grow by `d` bytes. -/
def grow (a d : ℕ) : List Chunk → List Chunk :=
  replaceAt a fun c => [{ c with size := c.size + d }]

section Edits

variable {lo hi a r : ℕ} {τ : Status} {c d : Chunk} {f : Chunk → List Chunk}
  {L pre post : List Chunk}

theorem replaceAt_of_ne (h : ∀ x ∈ L, x.addr ≠ a) : replaceAt a f L = L := by
  induction L with
  | nil => rfl
  | cons x L ih =>
    have hx := h x List.mem_cons_self
    have := ih fun y hy => h y (List.mem_cons_of_mem _ hy)
    simp only [replaceAt, List.flatMap_cons, if_neg hx, List.singleton_append] at this ⊢
    rw [this]

/-- An edit of one chunk leaves the others alone. -/
theorem replaceAt_mid (h : Tiles lo (pre ++ c :: post) hi) :
    replaceAt c.addr f (pre ++ c :: post) = pre ++ f c ++ post := by
  obtain ⟨h1, h2⟩ := h.ne_around
  have e1 : replaceAt c.addr f pre = pre := replaceAt_of_ne h1
  have e2 : replaceAt c.addr f post = post := replaceAt_of_ne h2
  unfold replaceAt at e1 e2 ⊢
  rw [List.flatMap_append, List.flatMap_cons, if_pos rfl, e1, e2, List.append_assoc]

/-- Edits of a status or a tag move no chunk. -/
theorem map_slot_replaceAt (hf : ∀ c, (f c).map Chunk.slot = [c.slot]) :
    (replaceAt a f L).map Chunk.slot = L.map Chunk.slot := by
  induction L with
  | nil => rfl
  | cons c L ih =>
    have h1 : replaceAt a f (c :: L) = (if c.addr = a then f c else [c]) ++ replaceAt a f L := rfl
    rw [h1, List.map_append, ih]
    split_ifs <;> simp [hf]

theorem map_slot_tag {b : Bool} : (tag a b L).map Chunk.slot = L.map Chunk.slot :=
  map_slot_replaceAt fun _ => rfl

theorem map_slot_mark : (mark a τ L).map Chunk.slot = L.map Chunk.slot :=
  map_slot_replaceAt fun _ => rfl

theorem mark_mid (h : Tiles lo (pre ++ c :: post) hi) :
    mark c.addr τ (pre ++ c :: post) = pre ++ { c with status := τ } :: post := by
  rw [mark, replaceAt_mid h, List.append_assoc, List.singleton_append]

theorem tag_mid {b : Bool} (h : Tiles lo (pre ++ c :: post) hi) :
    tag c.addr b (pre ++ c :: post) = pre ++ { c with pinuse := b } :: post := by
  rw [tag, replaceAt_mid h, List.append_assoc, List.singleton_append]

theorem grow_mid {n : ℕ} (h : Tiles lo (pre ++ c :: post) hi) :
    grow c.addr n (pre ++ c :: post) = pre ++ { c with size := c.size + n } :: post := by
  rw [grow, replaceAt_mid h, List.append_assoc, List.singleton_append]

theorem carve_mid (h : Tiles lo (pre ++ c :: post) hi) :
    carve c.addr r (pre ++ c :: post) = pre ++ ⟨c.addr, r, .free, c.pinuse⟩ ::
      ⟨c.addr + r + 8, c.size - r - 8, c.status, false⟩ :: post := by
  rw [carve, replaceAt_mid h, List.append_assoc]
  rfl

theorem trim_mid (h : Tiles lo (pre ++ c :: post) hi) :
    trim c.addr r τ (pre ++ c :: post) = pre ++ ⟨c.addr, r, c.status, c.pinuse⟩ ::
      ⟨c.addr + r + 8, c.size - r - 8, τ, true⟩ :: post := by
  rw [trim, replaceAt_mid h, List.append_assoc]
  rfl

theorem fuse_mid (h : Tiles lo (pre ++ c :: d :: post) hi) :
    fuse c.addr τ (pre ++ c :: d :: post) =
      pre ++ ⟨c.addr, c.size + d.size + 8, τ, c.pinuse⟩ :: post := by
  induction pre generalizing lo with
  | nil => simp [fuse]
  | cons x pre ih =>
    have hne : x.addr ≠ c.addr := h.ne_around.1 x List.mem_cons_self
    have hM : ∃ y M, pre ++ c :: d :: post = y :: M := by
      cases pre <;> exact ⟨_, _, rfl⟩
    obtain ⟨y, M, hM⟩ := hM
    have ih' := ih h.2
    rw [hM] at ih'
    rw [List.cons_append, hM, fuse, if_neg hne, ih', List.cons_append]

end Edits

/-! ### Free chunks -/

/-- The free chunks, the end of the heap not counted. -/
def freeSlots (L : List Chunk) : Multiset Slot :=
  ((L.filter (·.status = .free)).map Chunk.slot : List Slot)

/-- The chunks in use. -/
def usedSlots (L : List Chunk) : Multiset Slot :=
  ((L.filter (·.status = .inuse)).map Chunk.slot : List Slot)

section Slots

variable {lo hi : ℕ} {c : Chunk} {e : Slot} {L L₁ L₂ : List Chunk}

theorem mem_freeSlots : e ∈ freeSlots L ↔ ∃ c ∈ L, c.status = .free ∧ c.slot = e := by
  simp [freeSlots, and_assoc]

theorem mem_usedSlots : e ∈ usedSlots L ↔ ∃ c ∈ L, c.status = .inuse ∧ c.slot = e := by
  simp [usedSlots, and_assoc]

@[simp] theorem freeSlots_nil : freeSlots [] = 0 := rfl
@[simp] theorem usedSlots_nil : usedSlots [] = 0 := rfl

theorem freeSlots_append : freeSlots (L₁ ++ L₂) = freeSlots L₁ + freeSlots L₂ := by
  simp [freeSlots]

theorem usedSlots_append : usedSlots (L₁ ++ L₂) = usedSlots L₁ + usedSlots L₂ := by
  simp [usedSlots]

theorem freeSlots_cons : freeSlots (c :: L) =
    (if c.status = .free then {c.slot} else 0) + freeSlots L := by
  unfold freeSlots
  split_ifs with h <;> simp [h]

theorem usedSlots_cons : usedSlots (c :: L) =
    (if c.status = .inuse then {c.slot} else 0) + usedSlots L := by
  unfold usedSlots
  split_ifs with h <;> simp [h]

/-- Chunks of a tiling have distinct slots. -/
theorem Tiles.nodup_slots (h : Tiles lo L hi) (p : Chunk → Bool) :
    ((L.filter p).map Chunk.slot).Nodup := by
  refine List.Nodup.map_on (fun c hc d hd he => ?_) (h.nodup.filter _)
  exact h.eq_of_addr_eq (List.mem_of_mem_filter hc) (List.mem_of_mem_filter hd)
    (congrArg Prod.fst he)

theorem Tiles.nodup_freeSlots (h : Tiles lo L hi) : (freeSlots L).Nodup :=
  Multiset.coe_nodup.mpr (h.nodup_slots _)

theorem Tiles.nodup_usedSlots (h : Tiles lo L hi) : (usedSlots L).Nodup :=
  Multiset.coe_nodup.mpr (h.nodup_slots _)

/-- Tags say nothing of which chunks are in use. -/
@[simp] theorem usedSlots_tag {a : ℕ} {v : Bool} : usedSlots (tag a v L) = usedSlots L := by
  induction L with
  | nil => rfl
  | cons c L ih =>
    have h1 : tag a v (c :: L) =
        (if c.addr = a then [{ c with pinuse := v }] else [c]) ++ tag a v L :=
      rfl
    rw [h1, usedSlots_append, ih, usedSlots_cons]
    split_ifs <;> simp_all [usedSlots_cons, Chunk.slot]

end Slots

end Dlmalloc
