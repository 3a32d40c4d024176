import Dlmalloc.Properties.Chunks

/-!
# Full coalescing

`State.Coalesced` says that the boundary tags are complete and no two chunks in a row are free. A
shrinking `my_realloc` that cuts a chunk off a block before a chunk in use leaves that chunk's
`PREVIOUS_INUSE` bit set (`Call.BareSplits`), and so it fails after such a call
(`not_coalesced_after_bare_split`). It holds as long as no such call is made
(`coalesced_without_bare_splits`).
-/

namespace Dlmalloc

open Heap

/-- Behind every free chunk other than the end of the heap there is a chunk in use, whose
`PREVIOUS_INUSE` bit is clear and whose `previous_size` is right; and the bit is set in the end of
the heap. -/
def State.Coalesced (s : State) : Prop :=
  s.isPreviousInuse (s.bin END_OF_HEAP_BIN) ≠ 0 ∧ ∃ L, s.heapChunks = some L ∧
    ∀ pre a b post, L = pre ++ a :: b :: post → s.isCurrentInuse a = 0 →
      s.isPreviousInuse b = 0 ∧ s.load .previousSize b = s.chunkSize a ∧ s.isCurrentInuse b ≠ 0

section Coalesced

variable {full : Prop} {ext N : ℕ} {y y' : System} {σ : Session} {h : Heap} {s : State} {c : Call}
  {p : Addr}

theorem tags_iff {L : List Chunk} : Tags full false L ↔ ∀ pre c post, L = pre ++ c :: post →
    (c.pinuse = false → lastFree false pre = true) ∧
      (full → lastFree false pre = true → c.pinuse = false ∧ c.status = .inuse) := by
  constructor
  · rintro ht pre c post rfl
    exact (tags_mid.mp ht).2.1
  · intro hL
    induction L using List.reverseRecOn with
    | nil => trivial
    | append_singleton L c ih =>
      rw [tags_append]
      refine ⟨ih fun pre d post hd => hL pre d (post ++ [c]) (by simp [hd]), ?_⟩
      obtain ⟨h1, h2⟩ := hL L c [] rfl
      exact ⟨h1, h2, trivial⟩

/-- Two neighbours among the addresses are two neighbours in the row, the first of which is not the
end of the heap. -/
theorem Heap.Shape.neighbours {X : Multiset Slot} {a b : Addr} {pre post : List Addr}
    (hs : Shape ext X h) (hL : h.chunks.map Chunk.addr = pre ++ a :: b :: post) :
    ∃ pre' c d post', h.chunks = pre' ++ c :: d :: post' ∧ c.addr = a ∧ d.addr = b ∧
      c.status ≠ .top := by
  obtain ⟨pre', L₁, hL', -, h₁⟩ := List.map_eq_append_iff.mp hL
  obtain ⟨c, L₂, rfl, hc, h₂⟩ := List.map_eq_cons_iff.mp h₁
  obtain ⟨d, post', rfl, hd, -⟩ := List.map_eq_cons_iff.mp h₂
  exact ⟨pre', c, d, post', hL', hc, hd, hs.ne_top hL'⟩

/-- In memory, complete tags are those of the row. -/
theorem Models.coalesced_iff (hm : Models s h) (hi : Inv full ext h) :
    s.Coalesced ↔ Tags True false h.chunks := by
  have hs := hi.shape
  have hr := hm.toRep
  constructor
  · -- a pair on the walk is a pair of the row
    rintro ⟨-, L, hL, htags⟩
    obtain rfl := Option.some.inj ((hm.heapChunks_eq hs).symm.trans hL)
    refine tags_iff.mpr fun pre c post hc => ⟨(tags_iff.mp hi.tags pre c post hc).1, fun _ hb => ?_⟩
    obtain ⟨pre, d, rfl, hd⟩ := exists_of_lastFree hb
    have hdm : d ∈ h.chunks := by simp [hc]
    have hcm : c ∈ h.chunks := by simp [hc]
    obtain ⟨h1, -, h2⟩ := htags (pre.map Chunk.addr) d.addr c.addr (post.map Chunk.addr)
      (by simp [hc]) ((hr.isCurrentInuse_eq_zero hs hdm).mpr (by simp [hd]))
    exact ⟨(hr.isPreviousInuse_eq_zero hs hcm).mp h1,
      not_not.mp ((hr.isCurrentInuse_eq_zero hs hcm).not.mp h2)⟩
  · intro htags
    obtain ⟨pre, t, hL, ht, htop, -⟩ := hs.exists_top
    have htm : t ∈ h.chunks := by simp [hL]
    refine ⟨?_, _, hm.heapChunks_eq hs, fun pre a b post hab ha => ?_⟩
    · -- the end of the heap has no free chunk before it
      rw [hm.top, htop]
      refine (hr.isPreviousInuse_eq_zero hs htm).not.mpr fun hp => ?_
      obtain ⟨h1, h2⟩ := tags_iff.mp htags pre t [] hL
      rw [(h2 trivial (h1 hp)).2] at ht
      cases ht
    · obtain ⟨pre', c, d, post', hL', rfl, rfl, hct⟩ := hs.neighbours hab
      have hc : c ∈ h.chunks := Shape.mem_chunks hL'
      have hd : d ∈ h.chunks := by simp [hL']
      have hfree : c.status = .free := by
        have h1 := (hr.isCurrentInuse_eq_zero hs hc).mp ha
        cases h2 : c.status <;> simp_all
      obtain ⟨-, h2⟩ := tags_iff.mp htags (pre' ++ [c]) d post' (by simp [hL'])
      obtain ⟨h3, h4⟩ := h2 trivial (by rw [lastFree_concat]; simp [hfree])
      refine ⟨(hr.isPreviousInuse_eq_zero hs hd).mpr h3, ?_,
        (hr.isCurrentInuse_eq_zero hs hd).not.mpr (not_not.mpr h4)⟩
      rw [(hr.footer_eq hs hL' hfree).1, hr.chunkSize hs hc]

/-- After a bare split a free chunk stands before a chunk whose tag denies it. -/
theorem Heap.Inv.not_tags_shrink {c : Chunk} {r : ℕ} {pre post : List Chunk} (hi : Inv full ext h)
    (hL : h.chunks = pre ++ c :: post) (hc : c.status = .inuse) (hr : Request r)
    (hbare : BareSplit c r h) : ¬ Tags True false (h.shrink c r).chunks := by
  obtain ⟨hfit, d, hat, hd⟩ := hbare
  obtain ⟨d', post', rfl, hd'⟩ := hi.shape.exists_next hL (by simp [hc])
  have hat' := hi.shape.chunkAt (c := d') (by simp [hL])
  rw [hd', hat] at hat'
  obtain rfl := Option.some.inj hat'
  have hl := hi.loosened_trim hr hL hc hfit
  -- the offcut lies free before a chunk in use
  have hchunks : (h.shrink c r).chunks =
      ((pre ++ [⟨c.addr, r, c.status, c.pinuse⟩]) ++ [offcut c r]) ++ d :: post' := by
    have hnext := hl.chunkAt_next
    have hslot : (offcut c r).slot = (c.addr + r + 8, c.size - r - 8) := rfl
    rw [hslot] at hnext
    rw [shrink, if_pos hfit, settle, hnext]
    simp only [hd]
    refine hl.chunks.trans ?_
    simp
  rw [hchunks, tags_mid]
  rintro ⟨-, ⟨-, hfull⟩, -⟩
  -- the bit of that chunk would be clear, but the chunk cut down is in use and lay before it
  have hp := (hfull trivial (by rw [lastFree_concat]; rfl)).1
  have ht := (tags_iff.mp hi.tags (pre ++ [c]) d post' (by simp [hL])).1 hp
  rw [lastFree_concat, hc] at ht
  simp at ht

end Coalesced

variable {y y' : System} {c : Call} {p : Addr}

/-- A call that does not split a block before a chunk in use. -/
def Coalesces (N : ℕ) (y : System) (c : Call) : Prop := Sized N y c ∧ ¬ c.BareSplits y

theorem Reachable.tracks_coalesced (hy : Reachable EXTENSION_SIZE (Coalesces LARGEST_SIZE) y) :
    ∃ σ, Tracks True EXTENSION_SIZE y σ :=
  hy.tracks extension_default (N := LARGEST_SIZE) (by decide) (fun _ _ h => h.1) fun _ _ _ h => h.2

/-- In a run without bare splits the heap is always fully coalesced. -/
theorem coalesced_without_bare_splits (hy : Reachable EXTENSION_SIZE (Coalesces LARGEST_SIZE) y) :
    y.state.Coalesced := by
  obtain ⟨σ, ht⟩ := hy.tracks_coalesced
  exact (ht.follows.models.coalesced_iff ht.good.inv).mpr ht.good.inv.tags

theorem coalesced_without_bare_splits_busy : ∃ y, Run EXTENSION_SIZE (Coalesces LARGEST_SIZE)
      (.blank 16) (busyCalls.map .call) busyPointers y ∧
    y.state.heapChunks = some busyChunks ∧ y.state.Coalesced := by
  obtain ⟨y, hst, hrun, -, hy⟩ := exists_run_busy (Coalesces LARGEST_SIZE) fun _ _ hc hv =>
    ⟨hv, fun hb => not_splits_busy hc hb.splits⟩
  exact ⟨y, hrun, hy.heapChunks_busy, coalesced_without_bare_splits ⟨_, _, _, hst, hrun⟩⟩

/-- A bare split ends it. -/
theorem not_coalesced_after_bare_split (hy : Reachable EXTENSION_SIZE (Coalesces LARGEST_SIZE) y)
    (hc : c.Valid LARGEST_SIZE y.live) (hbare : c.BareSplits y)
    (hrun : c.run EXTENSION_SIZE y = some (p, y')) : ¬ y'.state.Coalesced := by
  obtain ⟨σ, ht⟩ := hy.tracks_coalesced
  obtain ⟨y₁, hrun₁, ht₁, -⟩ := ht.call extension_default (by decide) hc
  obtain ⟨-, rfl⟩ := Prod.mk.inj (Option.some.inj (hrun₁.symm.trans hrun))
  rw [ht₁.follows.models.coalesced_iff ht₁.good.inv]
  have hb := ht.bareSplits_iff.mpr hbare
  cases c with
  | malloc size => exact hb.elim
  | free i => exact hb.elim
  -- only a realloc splits bare, and its chunk is cut down in place
  | realloc i size =>
    obtain ⟨b, c, hlive, hat, hsplit⟩ := hb
    obtain ⟨d, hd, hst, hptr, -⟩ := ht.good.chunk hlive
    have haddr : b.ptr - 16 = d.addr := by rw [hptr, Nat.add_sub_cancel]
    have hatd := ht.good.inv.shape.chunkAt hd
    rw [haddr, hatd] at hat
    obtain rfl := Option.some.inj hat
    obtain ⟨pre, post, hL⟩ := List.append_of_mem hd
    have hle : requestSize size ≤ d.size := (Nat.le_add_right _ _).trans hsplit.1
    have hreal : σ.heap.realloc EXTENSION_SIZE d.addr (requestSize size) =
        some (d.addr, σ.heap.shrink d (requestSize size)) := by
      rw [Heap.realloc, hatd]
      exact if_pos hle
    simp only [Session.call, hlive, haddr, hreal]
    exact ht.good.inv.not_tags_shrink hL hst (request_requestSize size) hsplit

/-- Shrinking the first of two small blocks leaves a free chunk that the next header denies. -/
theorem not_always_coalesced : ∃ y, Run EXTENSION_SIZE (Sized LARGEST_SIZE) (.blank 16)
    [.call (.malloc 100), .call (.malloc 24), .call (.realloc 0 24)] [32, 144, 32] y ∧
    ¬ y.state.Coalesced := by
  obtain ⟨-, ht⟩ := tracks_blank EXTENSION_SIZE (b := 16) (by decide) (by decide)
  obtain ⟨y, hrun, hy⟩ := ht.exists_run (Sized LARGEST_SIZE) (N := LARGEST_SIZE)
    [.malloc 100, .malloc 24, .realloc 0 24] extension_default (by decide)
    (by decide +kernel) fun _ _ _ h => h
  have hps : (Session.run EXTENSION_SIZE [.malloc 100, .malloc 24, .realloc 0 24]
      (Session.initial 16)).1 = [32, 144, 32] := by decide +kernel
  have hL : (Session.run EXTENSION_SIZE [.malloc 100, .malloc 24, .realloc 0 24]
      (Session.initial 16)).2.heap.chunks = [⟨16, 24, .inuse, true⟩, ⟨48, 72, .free, true⟩,
        ⟨128, 24, .inuse, true⟩, ⟨160, 39040, .top, true⟩] := by decide +kernel
  rw [hps] at hrun
  refine ⟨y, hrun, fun hco => ?_⟩
  have htags := (hy.follows.models.coalesced_iff hy.good.inv).mp hco
  rw [hL] at htags
  simp [Tags] at htags

end Dlmalloc
