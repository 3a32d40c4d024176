import Dlmalloc.Abstract.Realloc
import Dlmalloc.Machine.System

/-!
# Sessions

A session is a heap together with the live blocks, and a call takes one session to the next
(`Session.call`). No contents of memory occur in it. `Session.Good` is the invariant of every run:
the heap is a good one and its chunks in use are those of the live blocks.
-/

namespace Dlmalloc

open Heap

/-- The heap after `my_init`. -/
def Heap.initial (start : ℕ) : Heap where
  start := start
  first := ALIGN start
  brk := ALIGN start + INITIAL_CHUNK_SIZE + 16
  limit := start + MAX_HEAP
  chunks := [⟨ALIGN start, INITIAL_CHUNK_SIZE, .top, true⟩]
  bins := Bins.empty

structure Session : Type where
  heap : Heap
  live : List Block

/-- The chunk `e` holds the block `b`. -/
def Covers (b : Block) (e : Slot) : Prop := b.ptr = e.1 + 16 ∧ b.size ≤ e.2

namespace Session

/-- The session after `my_init`. -/
def initial (start : ℕ) : Session := ⟨Heap.initial start, []⟩

/-- Make a call. A call that names no live block does nothing. -/
def call (ext : ℕ) : Call → Session → Addr × Session
  | .malloc size, σ =>
    match if size = 0 then none else σ.heap.malloc ext (requestSize size) with
    | none => (NULL, σ)
    | some (a, h') => (a + 16, ⟨h', σ.live ++ [⟨a + 16, size⟩]⟩)
  | .realloc i size, σ =>
    match σ.live[i]? with
    | none => (NULL, σ)
    | some b =>
      match σ.heap.realloc ext (b.ptr - 16) (requestSize size) with
      | none => (NULL, σ)
      | some (a, h') => (a + 16, ⟨h', σ.live.set i ⟨a + 16, size⟩⟩)
  | .free i, σ =>
    match σ.live[i]? with
    | none => (NULL, σ)
    | some b => (NULL, ⟨σ.heap.free (b.ptr - 16), σ.live.eraseIdx i⟩)

/-- Make the calls of a list, and collect what they return. -/
def run (ext : ℕ) : List Call → Session → List Addr × Session
  | [], σ => ([], σ)
  | c :: cs, σ =>
    let (p, σ') := σ.call ext c
    let (ps, σ'') := run ext cs σ'
    (p :: ps, σ'')

/-- The calls of a list are valid, one after the other. -/
def Valid (ext N : ℕ) : List Call → Session → Prop
  | [], _ => True
  | c :: cs, σ => c.Valid N σ.live ∧ Valid ext N cs (σ.call ext c).2

instance instDecidableValid (ext N : ℕ) : (cs : List Call) → (σ : Session) →
    Decidable (Valid ext N cs σ)
  | [], _ => inferInstanceAs (Decidable True)
  | c :: cs, σ =>
    have : Decidable (Valid ext N cs (σ.call ext c).2) := instDecidableValid ext N cs _
    inferInstanceAs (Decidable (_ ∧ _))

/-- The blocks and the chunks in use match. -/
structure Good (full : Prop) (ext : ℕ) (σ : Session) : Prop where
  inv : Inv full ext σ.heap
  covers : ∃ U : List Slot, (U : Multiset Slot) = σ.heap.used ∧ List.Forall₂ Covers σ.live U

/-- The call is a reallocation that shrinks a block before a chunk in use, and cuts a chunk off. -/
def BareSplits (σ : Session) : Call → Prop
  | .realloc i size => ∃ b c, σ.live[i]? = some b ∧ chunkAt σ.heap.chunks (b.ptr - 16) = some c ∧
      BareSplit c (requestSize size) σ.heap
  | _ => False

end Session

/-! ### Matching lists -/

section Forall₂

variable {α β : Type} {R : α → β → Prop} {l : List α} {l' : List β} {i : ℕ} {a : α} {b : β}

theorem forall₂_getElem? (h : List.Forall₂ R l l') (ha : l[i]? = some a) :
    ∃ b, l'[i]? = some b ∧ R a b := by
  induction h generalizing i with
  | nil => simp at ha
  | cons hr _ ih =>
    cases i with
    | zero => exact ⟨_, rfl, (Option.some.inj ha) ▸ hr⟩
    | succ i => exact ih ha

theorem forall₂_eraseIdx (h : List.Forall₂ R l l') (i : ℕ) :
    List.Forall₂ R (l.eraseIdx i) (l'.eraseIdx i) := by
  induction h generalizing i with
  | nil => exact .nil
  | cons hr ht ih =>
    cases i with
    | zero => exact ht
    | succ i => exact .cons hr (ih i)

theorem forall₂_set (h : List.Forall₂ R l l') (hr : R a b) (i : ℕ) :
    List.Forall₂ R (l.set i a) (l'.set i b) := by
  induction h generalizing i with
  | nil => exact .nil
  | cons h0 ht ih =>
    cases i with
    | zero => exact .cons hr ht
    | succ i => exact .cons h0 (ih i)

/-- Taking a member out of a list. -/
theorem coe_eraseIdx (hb : l'[i]? = some b) :
    (l' : Multiset β) = b ::ₘ (l'.eraseIdx i : Multiset β) := by
  induction l' generalizing i with
  | nil => simp at hb
  | cons x l' ih =>
    cases i with
    | zero =>
      obtain rfl := Option.some.inj hb
      rfl
    | succ i =>
      rw [← Multiset.cons_coe, ih hb, Multiset.cons_swap, List.eraseIdx_cons_succ,
        ← Multiset.cons_coe]

theorem coe_set {b' : β} (hb : l'[i]? = some b) :
    (l'.set i b' : Multiset β) = b' ::ₘ (l'.eraseIdx i : Multiset β) := by
  induction l' generalizing i with
  | nil => simp at hb
  | cons x l' ih =>
    cases i with
    | zero => rfl
    | succ i =>
      rw [List.set_cons_succ, ← Multiset.cons_coe, ih hb, Multiset.cons_swap,
        List.eraseIdx_cons_succ, ← Multiset.cons_coe]

end Forall₂

namespace Session

section Call

variable {full : Prop} {ext N i size : ℕ} {σ : Session} {b : Block} {c : Call}

/-- The chunk of a live block. -/
theorem Good.chunk (hg : σ.Good full ext) (hb : σ.live[i]? = some b) :
    ∃ c ∈ σ.heap.chunks, c.status = .inuse ∧ b.ptr = c.addr + 16 ∧ b.size ≤ c.size ∧
      ∃ U : List Slot, (U : Multiset Slot) = σ.heap.used ∧ List.Forall₂ Covers σ.live U ∧
        U[i]? = some c.slot := by
  obtain ⟨U, hU, hcov⟩ := hg.covers
  obtain ⟨e, he, hptr, hsize⟩ := forall₂_getElem? hcov hb
  have hmem : e ∈ σ.heap.used := by
    rw [← hU]
    exact Multiset.mem_coe.mpr (List.mem_of_getElem? he)
  obtain ⟨c, hc, hst, rfl⟩ := mem_usedSlots.mp hmem
  exact ⟨c, hc, hst, hptr, hsize, U, hU, hcov, he⟩

/-- A call that frees a block. -/
theorem Good.free (hg : σ.Good full ext) (hb : σ.live[i]? = some b) :
    Good full ext ⟨σ.heap.free (b.ptr - 16), σ.live.eraseIdx i⟩ := by
  obtain ⟨c, hc, hst, hptr, -, U, hU, hcov, hi⟩ := hg.chunk hb
  obtain ⟨hinv, -, hused⟩ := free_spec hg.inv hc hst
  rw [hptr, Nat.add_sub_cancel]
  refine ⟨hinv, U.eraseIdx i, ?_, forall₂_eraseIdx hcov i⟩
  rw [← hU, coe_eraseIdx hi] at hused
  exact (Multiset.cons_inj_right _).mp hused

theorem Good.malloc {a : ℕ} {h' : Heap} (hg : σ.Good full ext) (hx : Extension ext)
    (hsize : size + 7 < 2 ^ 64) (hm : σ.heap.malloc ext (requestSize size) = some (a, h')) :
    Good full ext ⟨h', σ.live ++ [⟨a + 16, size⟩]⟩ := by
  obtain ⟨hinv, -, n, hn, hused⟩ := malloc_spec hg.inv hx (request_requestSize size) hm
  obtain ⟨U, hU, hcov⟩ := hg.covers
  refine ⟨hinv, U ++ [(a, n)], ?_, List.rel_append hcov (.cons ⟨rfl, ?_⟩ .nil)⟩
  · rw [hused, ← hU, ← Multiset.coe_add, add_comm]
    rfl
  · exact (requestSize_of_lt hsize).1.trans hn

theorem Good.realloc {a : ℕ} {h' : Heap} (hg : σ.Good full ext) (hx : Extension ext)
    (hsize : size + 7 < 2 ^ 64) (hb : σ.live[i]? = some b)
    (hm : σ.heap.realloc ext (b.ptr - 16) (requestSize size) = some (a, h')) :
    Good (full ∧ ¬ σ.BareSplits (.realloc i size)) ext ⟨h', σ.live.set i ⟨a + 16, size⟩⟩ := by
  obtain ⟨c, hc, hst, hptr, -, U, hU, hcov, hi⟩ := hg.chunk hb
  have haddr : b.ptr - 16 = c.addr := by rw [hptr, Nat.add_sub_cancel]
  rw [haddr] at hm
  obtain ⟨hinv, -, n, V, hn, hV, hV'⟩ := realloc_spec hg.inv hx (request_requestSize size) hc hst hm
  have hbare : full ∧ ¬ σ.BareSplits (.realloc i size) →
      full ∧ ¬ BareSplit c (requestSize size) σ.heap := fun hf => ⟨hf.1, fun hsplit =>
    hf.2 ⟨b, c, hb, by rw [haddr]; exact hg.inv.shape.chunkAt hc, hsplit⟩⟩
  refine ⟨⟨hinv.shape, hinv.tags.weaken hbare⟩, U.set i (a, n), ?_,
    forall₂_set hcov ⟨rfl, (requestSize_of_lt hsize).1.trans hn⟩ i⟩
  rw [coe_set hi, hV']
  rw [← hU, coe_eraseIdx hi] at hV
  rw [(Multiset.cons_inj_right _).mp hV]

theorem Good.weaken {full' : Prop} (hg : σ.Good full ext) (hf : full' → full) :
    σ.Good full' ext :=
  ⟨⟨hg.inv.shape, hg.inv.tags.weaken hf⟩, hg.covers⟩

/-- **Every call keeps the invariant**, but for the tag left set by a bare split. -/
theorem Good.call (hg : σ.Good full ext) (hx : Extension ext) (hN : N + 7 < 2 ^ 64)
    (hv : c.Valid N σ.live) : Good (full ∧ ¬ σ.BareSplits c) ext (σ.call ext c).2 := by
  -- a call that is refused, or names no block, changes nothing
  have hsame : Good (full ∧ ¬ σ.BareSplits c) ext σ := hg.weaken And.left
  cases c with
  | malloc size =>
    have hsize : size ≤ N := hv
    simp only [Session.call]
    split
    · exact hsame
    · next a h' hm =>
      split_ifs at hm with h0
      exact (hg.malloc hx (by omega) hm).weaken And.left
  | realloc i size =>
    have hsize : size ≤ N := hv.2
    simp only [Session.call]
    split
    · exact hsame
    · next b hb =>
      split
      · exact hsame
      · next a h' hm => exact hg.realloc hx (by omega) hb hm
  | free i =>
    simp only [Session.call]
    split
    · exact hsame
    · next b hb => exact (hg.free hb).weaken And.left

end Call

theorem good_initial {ext start : ℕ} (h0 : 0 < start) (hspan : start + MAX_HEAP + 2 ^ 31 ≤ 2 ^ 64) :
    Good True ext (initial start) := by
  have halign : ALIGN start = (start + 7) / 8 * 8 := by
    rw [ALIGN_eq, add64_of_lt]
    simp only [MAX_HEAP] at hspan
    omega
  have harena : Arena (Heap.initial start).start (Heap.initial start).first
      (Heap.initial start).brk (Heap.initial start).limit := by
    refine ⟨h0, ?_, ?_, ?_, ?_, rfl, hspan⟩ <;>
      simp only [Heap.initial, halign, MAX_HEAP, INITIAL_CHUNK_SIZE] at * <;> omega
  refine ⟨⟨⟨harena, ⟨rfl, ?_⟩, rfl, fun c hc => ?_, Bins.sorted_empty, ?_⟩, ?_⟩, [], rfl, .nil⟩
  · show ALIGN start + INITIAL_CHUNK_SIZE + 8 = ALIGN start + INITIAL_CHUNK_SIZE + 16 - 8
    omega
  · obtain rfl := List.mem_singleton.mp hc
    refine ⟨⟨4898, rfl⟩, fun h => absurd rfl h, fun _ => ?_⟩
    simp only [INITIAL_CHUNK_SIZE]
    omega
  · have h1 : Bins.empty.victimSlot + Bins.empty.binned = 0 := Bins.held_empty
    exact h1
  · simp [initial, Heap.initial, Tags]

end Session

end Dlmalloc
