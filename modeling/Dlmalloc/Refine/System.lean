import Dlmalloc.Abstract.Session
import Dlmalloc.Refine.Observe
import Dlmalloc.Refine.Realloc

/-!
# Runs of the allocator

The allocator follows a session (`Follows`): after `my_init` it holds the initial heap, and every
call does to it what the call does to the session, with the same outcome. What the user writes into
live blocks changes nothing of this. The outcomes of a run are therefore those of a session, which
knows nothing of the contents of memory (`Run.follows`).
-/

namespace Dlmalloc

open Heap

/-- The allocator holds the heap of the session, and the same blocks are live. -/
structure Follows (y : System) (σ : Session) : Prop where
  models : Models y.state σ.heap
  live : y.live = σ.live

section Init

variable {s : State}

/-- The first chunk is laid out at the break, and the first bin points to it. -/
theorem layFirst_spec {a m : ℕ} (hbrk : s.memBrk = a) (hmax : s.memMaxAddr = m)
    (ha : a + 39200 ≤ m) (hspan : m + 2 ^ 31 ≤ 2 ^ 64) : Returns (do
      let firstChunk ← memSbrk (toInt (INITIAL_CHUNK_SIZE + 2 * 8))
      store .currentSize firstChunk INITIAL_CHUNK_SIZE
      setPreviousInuse firstChunk
      setBin END_OF_HEAP_BIN firstChunk
      return 0) s fun p s' => p = 0 ∧
    Headers s' [⟨a, INITIAL_CHUNK_SIZE, .top, true⟩] ∧ s'.bin END_OF_HEAP_BIN = a ∧
    (∀ n, n ≠ END_OF_HEAP_BIN → s'.bin n = s.bin n) ∧ s'.memStartBrk = s.memStartBrk ∧
    s'.memBrk = a + INITIAL_CHUNK_SIZE + 16 ∧ s'.memMaxAddr = s.memMaxAddr := by
  have hroom : a + 2 ^ 31 ≤ 2 ^ 64 := by omega
  -- there is room for the first chunk
  have hsbrk : memSbrk (toInt (INITIAL_CHUNK_SIZE + 2 * 8)) s =
      some (a, { s with memBrk := a + 39200 }) := by
    rw [memSbrk_run (by decide) (by rw [hbrk]; exact hroom), hbrk, if_pos]
    · rfl
    · rw [hmax]
      exact ha
  refine .bind_of_eq hsbrk ?_
  refine .bind_of_eq (store_apply _ _ _ _) ?_
  refine .bind_of_eq (setPreviousInuse_apply _ _) ?_
  refine .bind_of_eq (setBin_apply _ _ _ endOfHeapBin_lt) ?_
  refine .pure ⟨rfl, fun c hc => ?_, State.bin_setBin_same (by decide),
    fun n hn => State.bin_setBin_of_ne hn, by simp, by simp [INITIAL_CHUNK_SIZE], by simp⟩
  obtain rfl := List.mem_singleton.mp hc
  refine ⟨?_, fun h => by cases h⟩
  rw [State.load_setBin, load_store_currentSize (v := INITIAL_CHUNK_SIZE) (by decide)]
  refine (load_store_currentSize (v := INITIAL_CHUNK_SIZE ||| PREVIOUS_CHUNK_INUSE)
    (by decide)).trans ?_
  exact Chunk.word_or_previous (c := ⟨a, INITIAL_CHUNK_SIZE, .top, false⟩) ⟨4898, rfl⟩

/-- `my_init` lays out one chunk. It sets the first bin and leaves the others as they are. -/
theorem myInit_spec (hf : Fresh s) : Returns myInit s fun p s' => p = 0 ∧
    Headers s' (Heap.initial s.memStartBrk).chunks ∧
    s'.bin END_OF_HEAP_BIN = (Heap.initial s.memStartBrk).top.1 ∧
    (∀ n, n ≠ END_OF_HEAP_BIN → s'.bin n = s.bin n) ∧ s'.memStartBrk = s.memStartBrk ∧
    s'.memBrk = (Heap.initial s.memStartBrk).brk ∧ s'.memMaxAddr = s.memMaxAddr := by
  obtain ⟨b, hb⟩ : ∃ b : ℕ, b = s.memStartBrk := ⟨_, rfl⟩
  have h0 : 0 < b := by
    have h1 := hf.start
    rw [← hb] at h1
    exact Nat.pos_of_ne_zero h1
  have hspan : b + MAX_HEAP + 2 ^ 31 ≤ 2 ^ 64 := by
    have h1 := hf.span
    rw [hf.max, ← hb] at h1
    exact h1
  have hheap : MAX_HEAP = 52428800 := rfl
  have hbrk : s.memBrk = b := hf.brk.trans hb.symm
  have hmax : s.memMaxAddr = b + MAX_HEAP := by rw [hf.max, ← hb]
  -- the bytes up to the first chunk
  have halign : ALIGN b = (b + 7) / 8 * 8 := by
    rw [ALIGN_eq, add64_of_lt (by omega)]
  have hq : sub64 (ALIGN b) b = ALIGN b - b := sub64_of_le (by omega) (by omega)
  have hhi : add64 (memHeapHi s) 1 = b := by
    have h1 : sub64 b 1 = b - 1 := sub64_of_le h0 (by omega)
    have h2 : b - 1 + 1 < 2 ^ 64 := by omega
    rw [memHeapHi, hbrk, h1, add64_of_lt h2]
    exact Nat.sub_add_cancel h0
  have hgap : memSbrk (toInt (ALIGN b - b)) s = some (b, { s with memBrk := ALIGN b }) := by
    have h1 : b + 2 ^ 31 ≤ 2 ^ 64 := by omega
    have h2 : b + (ALIGN b - b) = ALIGN b := by omega
    rw [memSbrk_run (by omega) (by rw [hbrk]; exact h1), hbrk, h2, hmax, if_pos]
    show (ALIGN b : ℕ) ≤ b + MAX_HEAP
    omega
  have hfit : ALIGN b + 39200 ≤ b + MAX_HEAP := by omega
  unfold myInit
  refine .bind_of_eq (look_apply _ _) ?_
  simp only [hhi, hq]
  -- what is there to show does not depend on whether the break was aligned
  suffices htail : ∀ s₁ : State, s₁.memBrk = ALIGN b → s₁.memMaxAddr = s.memMaxAddr →
      s₁.memStartBrk = s.memStartBrk → (∀ n, s₁.bin n = s.bin n) → Returns (do
        let firstChunk ← memSbrk (toInt (INITIAL_CHUNK_SIZE + 2 * 8))
        store .currentSize firstChunk INITIAL_CHUNK_SIZE
        setPreviousInuse firstChunk
        setBin END_OF_HEAP_BIN firstChunk
        return 0) s₁ fun p s' => p = 0 ∧
      Headers s' (Heap.initial s.memStartBrk).chunks ∧
      s'.bin END_OF_HEAP_BIN = (Heap.initial s.memStartBrk).top.1 ∧
      (∀ n, n ≠ END_OF_HEAP_BIN → s'.bin n = s.bin n) ∧ s'.memStartBrk = s.memStartBrk ∧
      s'.memBrk = (Heap.initial s.memStartBrk).brk ∧ s'.memMaxAddr = s.memMaxAddr by
    split_ifs with h1
    · exact .bind_of_eq hgap (htail _ rfl rfl rfl fun _ => rfl)
    · refine htail s ?_ rfl rfl fun _ => rfl
      rw [hbrk]
      show b = ALIGN b
      omega
  intro s₁ h1 h2 h3 h4
  refine (layFirst_spec h1 (h2.trans hmax) hfit hspan).mono
    fun p s' hpost => ?_
  obtain ⟨hp, hh, htop, hbins, hstart, hbrk', hmax'⟩ := hpost
  rw [← hb]
  exact ⟨hp, hh, htop, fun n hn => (hbins n hn).trans (h4 n), hstart.trans (h3.trans hb.symm),
    hbrk', hmax'.trans h2⟩

end Init

/-- After `my_init` on empty bins the allocator follows the initial session. -/
theorem Started.follows {y : System} (hy : Started y) : ∃ b : ℕ, y.state.memStartBrk = b ∧ 0 < b ∧
    b + MAX_HEAP + 2 ^ 31 ≤ 2 ^ 64 ∧ Follows y (Session.initial b) := by
  obtain ⟨hlive, s, hf, hnull, hinit⟩ := hy
  obtain ⟨-, hh, htop, hbins, hstart, hbrk, hmax⟩ := (myInit_spec hf).elim hinit
  have h0 : 0 < s.memStartBrk := Nat.pos_of_ne_zero hf.start
  have hspan := hf.span
  rw [hf.max] at hspan
  have hempty : ∀ n, n ≠ END_OF_HEAP_BIN → y.state.bin n = NULL := fun n hn =>
    (hbins n hn).trans (hnull n hn)
  refine ⟨s.memStartBrk, hstart, h0, hspan, ⟨⟨hh, hempty _ (by decide), fun n h2 hn => ?_, hstart,
    hbrk, hmax.trans hf.max⟩, htop⟩, hlive⟩
  have hn0 := hempty n (by unfold END_OF_HEAP_BIN; omega)
  unfold BinRep
  split_ifs
  · exact ⟨hn0, .nil⟩
  · exact ⟨hn0, .nil⟩
  · exact ⟨hn0, trivial⟩

theorem started_blank {b : ℕ} (h0 : 0 < b) (hspan : b + MAX_HEAP + 2 ^ 31 ≤ 2 ^ 64) :
    Started (.blank b) ∧ (System.blank b).state.memStartBrk = b := by
  have hf : Fresh (.blank b) := ⟨h0.ne', rfl, rfl, hspan⟩
  obtain ⟨p, s', hrun, rfl, -, -, -, hstart, -⟩ := myInit_spec hf
  have hs' : (System.blank b).state = s' := by
    rw [System.blank, hrun]
    rfl
  refine ⟨⟨rfl, _, hf, fun n _ => ?_, by rw [hs', hrun]⟩, by rw [hs', hstart]; rfl⟩
  simp [State.bin, State.blank, NULL]

/-! ### Calls -/

/-- The call deallocates or reallocates the block at place `j`. -/
def Call.Names : Call → ℕ → Prop
  | .malloc _, _ => False
  | .realloc i _, j => j = i
  | .free i, j => j = i

/-- What a call that returns `p` does to the contents of the blocks: those it does not name are left
alone, a block reallocated brings its contents along, and a call that fails changes nothing. -/
structure Effect (c : Call) (y : System) (p : Addr) (y' : System) : Prop where
  others : ∀ j b, y.live[j]? = some b → ¬ c.Names j →
    ∀ k < b.size, y'.state.mem (b.ptr + k) = y.state.mem (b.ptr + k)
  moved : ∀ i size b, c = .realloc i size → y.live[i]? = some b → p ≠ NULL →
    ∀ k, k < b.size → k < size → y'.state.mem (p + k) = y.state.mem (b.ptr + k)
  failed : (∀ i, c ≠ .free i) → p = NULL → y' = y

section Call

variable {full : Prop} {ext N i size : ℕ} {y : System} {σ : Session} {s' : State} {b : Block}
  {c : Call}

/-- The payloads of all live blocks are as before if those of all chunks in use are. -/
theorem Session.Good.kept (hg : σ.Good full ext) (hk : Keeps (InUse σ.heap.chunks) y.state s')
    {j : ℕ} (hb : σ.live[j]? = some b) :
    ∀ k < b.size, s'.mem (b.ptr + k) = y.state.mem (b.ptr + k) := by
  intro k hkb
  obtain ⟨c, hc, hst, hptr, hsize, -⟩ := hg.chunk hb
  have hmem : c.slot ∈ InUse σ.heap.chunks := mem_usedSlots.mpr ⟨c, hc, hst, rfl⟩
  rw [hptr]
  refine hk _ hmem _ ?_ ?_ <;> simp only [Chunk.slot] <;> omega

/-- Two blocks are in different chunks. -/
theorem Session.Good.slot_ne {j : ℕ} {e f : Slot} {U : List Slot} (hg : σ.Good full ext)
    (hU : (U : Multiset Slot) = σ.heap.used) (hi : U[i]? = some e) (hj : U[j]? = some f)
    (hij : i ≠ j) : e ≠ f := by
  have hnd : U.Nodup := by
    have h1 := hg.inv.shape.tiles.nodup_usedSlots
    rw [← Heap.used, ← hU] at h1
    exact Multiset.coe_nodup.mp h1
  rintro rfl
  obtain ⟨h1, h2⟩ := List.getElem?_eq_some_iff.mp hi
  obtain ⟨h3, h4⟩ := List.getElem?_eq_some_iff.mp hj
  exact hij ((hnd.getElem_inj_iff).mp (h2.trans h4.symm))

/-- The payloads of the other blocks are as before if those of the other chunks in use are. -/
theorem Session.Good.kept_others {j : ℕ} {a : Block} {d : Chunk} {U : List Slot}
    (hg : σ.Good full ext)
    (hU : (U : Multiset Slot) = σ.heap.used) (hcov : List.Forall₂ Covers σ.live U)
    (hi : U[i]? = some d.slot) (hk : Keeps (InUse σ.heap.chunks \ {d.slot}) y.state s')
    (ha : σ.live[j]? = some a) (hij : j ≠ i) :
    ∀ k < a.size, s'.mem (a.ptr + k) = y.state.mem (a.ptr + k) := by
  intro k hka
  obtain ⟨e, he, hptr, hsize⟩ := forall₂_getElem? hcov ha
  have hmem : e ∈ σ.heap.used := by
    rw [← hU]
    exact Multiset.mem_coe.mpr (List.mem_of_getElem? he)
  have hne : e ≠ d.slot := hg.slot_ne hU he hi hij
  rw [hptr]
  exact hk e ⟨hmem, hne⟩ _ (by omega) (by omega)

/-- A request of the size given is far from what an `int` can hold. -/
theorem requestSize_bound (hx : Extension ext) (hN : N + 39 + ext < 2 ^ 31) (hsize : size ≤ N) :
    requestSize size + 32 + ext < 2 ^ 31 := by
  have h1 := (requestSize_of_lt (show size + 7 < 2 ^ 64 by omega)).2
  have h2 := hx.most
  omega

theorem Follows.malloc (hf : Follows y σ) (hg : σ.Good full ext) (hx : Extension ext)
    (hN : N + 39 + ext < 2 ^ 31) (hsize : size ≤ N) :
    ∃ y', (Call.malloc size).run ext y = some ((σ.call ext (.malloc size)).1, y') ∧
      Follows y' (σ.call ext (.malloc size)).2 ∧
      Effect (.malloc size) y (σ.call ext (.malloc size)).1 y' := by
  obtain ⟨p, s', hrun, hans⟩ :=
    myMalloc_spec size hf.models hg.inv hx (requestSize_bound hx hN hsize)
  simp only [Call.run, hrun, Option.map_some, Session.call]
  cases ho : if size = 0 then none else σ.heap.malloc ext (requestSize size) with
  -- refused: nothing has changed
  | none =>
    rw [ho] at hans
    obtain ⟨rfl, rfl⟩ := hans
    exact ⟨y, by simp, hf, ⟨fun _ _ _ _ _ _ => rfl, fun _ _ _ h => (by cases h), fun _ _ => rfl⟩⟩
  | some o =>
    obtain ⟨a, h'⟩ := o
    rw [ho] at hans
    obtain ⟨rfl, hm, hk⟩ := hans
    have hne : a + 16 ≠ NULL := Nat.succ_ne_zero _
    refine ⟨_, by rw [if_neg hne], ⟨hm, by rw [hf.live]⟩, ⟨fun j b hb _ => ?_,
      fun _ _ _ h => (by cases h), fun _ h => absurd h hne⟩⟩
    exact hg.kept hk (hf.live ▸ hb)

theorem Follows.realloc (hf : Follows y σ) (hg : σ.Good full ext) (hx : Extension ext)
    (hN : N + 39 + ext < 2 ^ 31) (hi : i < y.live.length) (hsize : size ≤ N) :
    ∃ y', (Call.realloc i size).run ext y = some ((σ.call ext (.realloc i size)).1, y') ∧
      Follows y' (σ.call ext (.realloc i size)).2 ∧
      Effect (.realloc i size) y (σ.call ext (.realloc i size)).1 y' := by
  have hb : y.live[i]? = some y.live[i] := List.getElem?_eq_getElem hi
  generalize y.live[i] = b at hb
  have hbσ : σ.live[i]? = some b := hf.live ▸ hb
  obtain ⟨c, hc, hst, hptr, hcs, U, hU, hcov, hUi⟩ := hg.chunk hbσ
  have hbound := requestSize_bound hx hN hsize
  have hle := (requestSize_of_lt (show size + 7 < 2 ^ 64 by omega)).1
  obtain ⟨p, s', hrun, hans⟩ := myRealloc_spec size hf.models hg.inv hx hbound hc hst
  have haddr : b.ptr - 16 = c.addr := by rw [hptr, Nat.add_sub_cancel]
  simp only [Call.run, hb, Option.bind_some, hptr, hrun, Option.map_some, Session.call, hbσ,
    Nat.add_sub_cancel]
  cases ho : σ.heap.realloc ext c.addr (requestSize size) with
  -- refused: nothing has changed
  | none =>
    rw [ho] at hans
    obtain ⟨rfl, rfl⟩ := hans
    exact ⟨y, by simp, hf, ⟨fun _ _ _ _ _ _ => rfl, fun _ _ _ _ _ h => absurd rfl h,
      fun _ _ => rfl⟩⟩
  | some o =>
    obtain ⟨a, h'⟩ := o
    rw [ho] at hans
    obtain ⟨rfl, hm, hk, hcopy⟩ := hans
    have hne : a + 16 ≠ NULL := Nat.succ_ne_zero _
    refine ⟨_, by rw [if_neg hne], ⟨hm, by rw [hf.live]⟩, ⟨fun j b' hb' hj => ?_,
      fun j n b' hcall hb' _ k hk1 hk2 => ?_, fun _ h => absurd h hne⟩⟩
    · -- the other blocks, and the bytes carried along
      exact hg.kept_others hU hcov hUi hk (hf.live ▸ hb') hj
    · obtain ⟨rfl, rfl⟩ := Call.realloc.inj hcall
      obtain rfl : b = b' := Option.some.inj (hb.symm.trans hb')
      rw [hptr]
      exact hcopy k (hk1.trans_le hcs) (hk2.trans_le hle)

theorem Follows.free (hf : Follows y σ) (hg : σ.Good full ext) (hi : i < y.live.length) :
    ∃ y', (Call.free i).run ext y = some ((σ.call ext (.free i)).1, y') ∧
      Follows y' (σ.call ext (.free i)).2 ∧ Effect (.free i) y (σ.call ext (.free i)).1 y' := by
  have hb : y.live[i]? = some y.live[i] := List.getElem?_eq_getElem hi
  generalize y.live[i] = b at hb
  have hbσ : σ.live[i]? = some b := hf.live ▸ hb
  obtain ⟨c, hc, hst, hptr, hcs, U, hU, hcov, hUi⟩ := hg.chunk hbσ
  obtain ⟨⟨⟩, s', hrun, hm, hk⟩ := myFree_spec hf.models hg.inv hc hst
  obtain ⟨-, -, hused⟩ := free_spec hg.inv hc hst
  have hcall : (Call.free i).run ext y = some (NULL, ⟨s', y.live.eraseIdx i⟩) := by
    rw [Call.run, hb, Option.bind_some, hptr, hrun, Option.map_some]
  have hσ : σ.call ext (.free i) = (NULL, ⟨σ.heap.free c.addr, σ.live.eraseIdx i⟩) := by
    simp only [Session.call, hbσ, hptr, Nat.add_sub_cancel]
  rw [hσ]
  refine ⟨_, hcall, ⟨hm, by rw [hf.live]⟩, ⟨fun j b' hb' hj => ?_, fun _ _ _ h => (by cases h),
    fun h => absurd rfl (h i)⟩⟩
  refine hg.kept_others hU hcov hUi (hk.mono fun e he => ?_) (hf.live ▸ hb') hj
  have hmem : e ∈ σ.heap.used := he.1
  rw [hused, Multiset.mem_cons] at hmem
  exact hmem.resolve_left he.2

/-- **Every valid call returns**, with the outcome it has in the session. -/
theorem Follows.call (hf : Follows y σ) (hg : σ.Good full ext) (hx : Extension ext)
    (hN : N + 39 + ext < 2 ^ 31) (hv : c.Valid N y.live) :
    ∃ y', c.run ext y = some ((σ.call ext c).1, y') ∧ Follows y' (σ.call ext c).2 ∧
      Effect c y (σ.call ext c).1 y' := by
  cases c with
  | malloc size => exact hf.malloc hg hx hN hv
  | realloc i size => exact hf.realloc hg hx hN hv.1 hv.2
  | free i => exact hf.free hg hv

/-- What a live block holds is not the allocator's. -/
theorem Follows.overwrite {mem : ByteMem} {p n : ℕ} (hf : Follows y σ) (hg : σ.Good full ext)
    (hb : y.live[i]? = some ⟨p, n⟩) (hout : ∀ x, x < p ∨ p + n ≤ x → mem x = y.state.mem x) :
    Follows { y with state := { y.state with mem := mem } } σ := by
  obtain ⟨c, hc, hst, hptr, hcs, -⟩ := hg.chunk (hf.live ▸ hb)
  refine ⟨hf.models.write hg.inv.shape hc hst ⟨fun x hx => hout x ?_, fun _ => rfl, rfl, rfl, rfl⟩,
    hf.live⟩
  have h1 : p = c.addr + 16 := hptr
  have h2 : n ≤ c.size := hcs
  simp only [Chunk.next] at hx
  omega

/-- Writing into a live block changes nothing but the byte written. -/
theorem Follows.write {k : ℕ} {v : UInt8} (hf : Follows y σ) (hg : σ.Good full ext)
    (hb : y.live[i]? = some b) (hk : k < b.size) : Follows (y.write (b.ptr + k) v) σ := by
  refine hf.overwrite (p := b.ptr) (n := b.size) hg hb fun x hx => Function.update_of_ne ?_ _ _
  rintro rfl
  omega

theorem not_span_iff {p n x : ℕ} : ¬ (p ≤ x ∧ x < p + n) ↔ x < p ∨ p + n ≤ x := by
  omega

/-- Nor is what any of the live blocks hold. -/
theorem Follows.overwrite_all {mem : ByteMem} (hf : Follows y σ) (hg : σ.Good full ext)
    (hout : ∀ x, (∀ b ∈ y.live, x < b.ptr ∨ b.ptr + b.size ≤ x) → mem x = y.state.mem x) :
    Follows { y with state := { y.state with mem := mem } } σ := by
  -- one block after the other: `bs` are those that still hold what they did
  suffices hstep : ∀ (bs : List Block) (old : ByteMem), bs ⊆ y.live →
      Follows { y with state := { y.state with mem := old } } σ →
      (∀ x, (∀ b ∈ bs, x < b.ptr ∨ b.ptr + b.size ≤ x) → mem x = old x) →
      Follows { y with state := { y.state with mem := mem } } σ from
    hstep y.live y.state.mem (List.Subset.refl _) hf hout
  intro bs
  induction bs with
  | nil =>
    intro old _ hold hall
    obtain rfl : mem = old := funext fun x => hall x (List.forall_mem_nil _)
    exact hold
  | cons b bs ih =>
    intro old hsub hold hall
    obtain ⟨i, hi⟩ := List.getElem?_of_mem (hsub List.mem_cons_self)
    refine ih (fun x => if b.ptr ≤ x ∧ x < b.ptr + b.size then mem x else old x)
      (List.subset_of_cons_subset hsub)
      (hold.overwrite hg hi fun x hx => if_neg (not_span_iff.mpr hx)) fun x hx => ?_
    split_ifs with hxb
    · rfl
    · exact hall x (List.forall_mem_cons.mpr ⟨not_span_iff.mp hxb, hx⟩)

/-- Spoiling the live blocks goes unnoticed. -/
theorem Follows.spoiled (hf : Follows y σ) (hg : σ.Good full ext) : Follows y.spoiled σ := by
  refine hf.overwrite_all hg fun x hx => ?_
  have hno : (y.live.any fun b => decide (b.ptr ≤ x ∧ x < b.ptr + b.size)) = false := by
    rw [List.any_eq_false]
    intro b hb
    rw [decide_eq_true_eq]
    exact not_span_iff.mpr (hx b hb)
  rw [hno, Bool.or_false]

end Call

/-! ### Runs -/

section Run

variable {full : Prop} {ext N : ℕ} {Allowed : System → Call → Prop} {y y' : System} {σ : Session}
  {es : List Event} {ps : List Addr} {cs : List Call} {c : Call}

theorem calls_append {es' : List Event} : calls (es ++ es') = calls es ++ calls es' := by
  induction es with
  | nil => rfl
  | cons e es ih => cases e <;> simp [calls, ih]

theorem Session.run_append {cs' : List Call} : Session.run ext (cs ++ cs') σ =
    ((Session.run ext cs σ).1 ++ (Session.run ext cs' (Session.run ext cs σ).2).1,
      (Session.run ext cs' (Session.run ext cs σ).2).2) := by
  induction cs generalizing σ with
  | nil => rfl
  | cons c cs ih => simp [Session.run, ih]

theorem Session.valid_append {cs' : List Call} : Session.Valid ext N (cs ++ cs') σ ↔
    Session.Valid ext N cs σ ∧ Session.Valid ext N cs' (Session.run ext cs σ).2 := by
  induction cs generalizing σ with
  | nil => simp [Session.Valid, Session.run]
  | cons c cs ih => simp [Session.Valid, Session.run, ih, and_assoc]

/-- The allocator follows a good session; with `full`, one whose tags are complete. -/
structure Tracks (full : Prop) (ext : ℕ) (y : System) (σ : Session) : Prop where
  follows : Follows y σ
  good : σ.Good full ext

/-- A call that splits before a chunk in use does so in the session too. -/
theorem Tracks.bareSplits_iff (ht : Tracks full ext y σ) :
    σ.BareSplits c ↔ c.BareSplits y := by
  cases c with
  | malloc size => exact Iff.rfl
  | free i => exact Iff.rfl
  | realloc i size =>
    have hm := ht.follows.models
    have hs := ht.good.inv.shape
    simp only [Session.BareSplits, Call.BareSplits, ht.follows.live, Option.mem_def]
    refine exists_congr fun b => ?_
    by_cases hb : σ.live[i]? = some b
    · obtain ⟨c, hc, hst, hptr, -⟩ := ht.good.chunk hb
      obtain ⟨pre, post, hL⟩ := List.append_of_mem hc
      -- the chunk behind, as the code reads its header
      obtain ⟨d, post, rfl, hd⟩ := hs.exists_next hL (by simp [hst])
      have hdm : d ∈ σ.heap.chunks := by simp [hL]
      have hcur : y.state.isCurrentInuse d.addr ≠ 0 ↔ d.status = .inuse :=
        (hm.toRep.isCurrentInuse_eq_zero hs hdm).not.trans not_not
      rw [hptr, Nat.add_sub_cancel, (hs.ptr hc).1, hm.toRep.chunkSize hs hc,
        hm.toRep.nextHeapChunk hs hc, ← hd, hcur, hs.chunkAt hc]
      simp only [hb, true_and, Option.some.injEq, exists_eq_left', BareSplit, ← hd,
        hs.chunkAt hdm]
    · simp [hb]

/-- The next state of a run follows the next state of the session. -/
theorem Tracks.call (ht : Tracks full ext y σ) (hx : Extension ext) (hN : N + 39 + ext < 2 ^ 31)
    (hc : c.Valid N y.live) : ∃ y', c.run ext y = some ((σ.call ext c).1, y') ∧
      Tracks (full ∧ ¬ c.BareSplits y) ext y' (σ.call ext c).2 ∧
      Effect c y (σ.call ext c).1 y' := by
  obtain ⟨y', hrun, hf, heff⟩ := ht.follows.call ht.good hx hN hc
  refine ⟨y', hrun, ⟨hf, ?_⟩, heff⟩
  rw [← ht.bareSplits_iff]
  exact ht.good.call hx (by omega) (ht.follows.live ▸ hc)

/-- A call that does not split does not split before a chunk in use. -/
theorem Call.BareSplits.splits (h : c.BareSplits y) : c.Splits y := by
  cases c with
  | malloc size => exact h
  | free i => exact h
  | realloc i size =>
    obtain ⟨b, hb, hfit, -⟩ := h
    exact ⟨b, hb, hfit⟩

/-- **A run follows its session**: every call returns what the session says. -/
theorem Run.tracks (hrun : Run ext Allowed y es ps y') (ht : Tracks full ext y σ)
    (hx : Extension ext) (hN : N + 39 + ext < 2 ^ 31)
    (hval : ∀ y c, Allowed y c → c.Valid N y.live)
    (hfull : full → ∀ y c, Allowed y c → ¬ c.BareSplits y) :
    Tracks full ext y' (Session.run ext (calls es) σ).2 ∧
      ps = (Session.run ext (calls es) σ).1 := by
  induction hrun with
  | nil => exact ⟨ht, rfl⟩
  -- a call does in the model what it does in the session
  | @call es ps y' y'' c p hrun hc hcall ih =>
    obtain ⟨ht', rfl⟩ := ih
    obtain ⟨y₁, hcall', hf, -⟩ := ht'.follows.call ht'.good hx hN (hval _ _ hc)
    obtain ⟨rfl, rfl⟩ := Prod.mk.inj (Option.some.inj (hcall.symm.trans hcall'))
    have hgood := ht'.good.call hx (by omega) (ht'.follows.live ▸ hval _ _ hc)
    rw [calls_append, Session.run_append]
    refine ⟨⟨hf, hgood.weaken fun h => ⟨h, fun hb => ?_⟩⟩, rfl⟩
    exact hfull h _ _ hc (ht'.bareSplits_iff.mp hb)
  -- a write into a payload touches no header and no link
  | @write es ps y' i k v b hrun hb hk ih =>
    obtain ⟨ht', rfl⟩ := ih
    rw [calls_append, calls, calls, List.append_nil]
    exact ⟨⟨ht'.follows.write ht'.good hb hk, ht'.good⟩, rfl⟩

/-- The calls of a run are valid in its session. -/
theorem Run.valid (hrun : Run ext Allowed y es ps y') (ht : Tracks full ext y σ)
    (hx : Extension ext) (hN : N + 39 + ext < 2 ^ 31)
    (hval : ∀ y c, Allowed y c → c.Valid N y.live) : Session.Valid ext N (calls es) σ := by
  have ht₀ : Tracks False ext y σ := ⟨ht.follows, ht.good.weaken False.elim⟩
  induction hrun with
  | nil => trivial
  | @call es ps y' y'' c p hrun hc hcall ih =>
    obtain ⟨ht', -⟩ := hrun.tracks ht₀ hx hN hval False.elim
    rw [calls_append, Session.valid_append]
    refine ⟨ih, ?_, trivial⟩
    rw [← ht'.follows.live]
    exact hval _ _ hc
  | @write es ps y' i k v b hrun hb hk ih =>
    rw [calls_append, calls, calls, List.append_nil]
    exact ih

theorem Reachable.tracks (hy : Reachable ext Allowed y) (hx : Extension ext)
    (hN : N + 39 + ext < 2 ^ 31) (hval : ∀ y c, Allowed y c → c.Valid N y.live)
    (hfull : full → ∀ y c, Allowed y c → ¬ c.BareSplits y) : ∃ σ, Tracks full ext y σ := by
  obtain ⟨y₀, es, ps, hy₀, hrun⟩ := hy
  obtain ⟨b, -, h0, hspan, hf⟩ := hy₀.follows
  have ht : Tracks full ext y₀ (Session.initial b) :=
    ⟨hf, (Session.good_initial h0 hspan).weaken fun _ => trivial⟩
  exact ⟨_, (hrun.tracks ht hx hN hval hfull).1⟩

/-- Reachable states with the default `EXTENSION_SIZE`. -/
theorem Reachable.tracks_default (hy : Reachable EXTENSION_SIZE (Sized LARGEST_SIZE) y) :
    ∃ σ, Tracks False EXTENSION_SIZE y σ :=
  hy.tracks extension_default (by decide) (fun _ _ h => h) (fun h => h.elim)

/-- **A session is followed by a run**: calls that are valid in the session can be made. -/
theorem Tracks.exists_run (ht : Tracks full ext y σ) (Allowed : System → Call → Prop)
    (cs : List Call) (hx : Extension ext)
    (hN : N + 39 + ext < 2 ^ 31) (hv : Session.Valid ext N cs σ)
    (hA : ∀ y, ∀ c ∈ cs, c.Valid N y.live → Allowed y c) :
    ∃ y', Run ext Allowed y (cs.map .call) (Session.run ext cs σ).1 y' ∧
      Tracks False ext y' (Session.run ext cs σ).2 := by
  induction cs using List.reverseRecOn with
  | nil => exact ⟨y, .nil, ht.follows, ht.good.weaken False.elim⟩
  | append_singleton cs c ih =>
    obtain ⟨h1, h2⟩ := Session.valid_append.mp hv
    obtain ⟨y', hrun, ht'⟩ := ih h1 fun y d hd => hA y d (List.mem_append_left _ hd)
    have hval : c.Valid N y'.live := ht'.follows.live ▸ h2.1
    obtain ⟨y'', hcall, ht'', -⟩ := ht'.call hx hN hval
    rw [List.map_append, Session.run_append]
    exact ⟨y'', hrun.call (hA y' c (by simp) hval) hcall, ht''.follows,
      ht''.good.weaken False.elim⟩

/-- The calls of a session return the same when the live blocks are spoiled before each one. -/
theorem Tracks.runSpoiled (ht : Tracks full ext y σ) (hx : Extension ext)
    (hN : N + 39 + ext < 2 ^ 31) (hv : Session.Valid ext N cs σ) :
    ∃ y', runSpoiled ext cs y = some ((Session.run ext cs σ).1, y') ∧
      Follows y' (Session.run ext cs σ).2 := by
  induction cs generalizing full y σ with
  | nil => exact ⟨y, rfl, ht.follows⟩
  | cons c cs ih =>
    have hspoiled : Tracks full ext y.spoiled σ := ⟨ht.follows.spoiled ht.good, ht.good⟩
    obtain ⟨y₁, hcall, ht₁, -⟩ := hspoiled.call hx hN (ht.follows.live ▸ hv.1)
    obtain ⟨y₂, hrest, hf₂⟩ := ih ht₁ hv.2
    refine ⟨y₂, ?_, hf₂⟩
    simp [Dlmalloc.runSpoiled, hcall, hrest, Session.run]

/-- A blank start tracks the initial session. -/
theorem tracks_blank (ext : ℕ) {b : ℕ} (h0 : 0 < b) (hspan : b + MAX_HEAP + 2 ^ 31 ≤ 2 ^ 64) :
    Started (.blank b) ∧ Tracks True ext (.blank b) (Session.initial b) := by
  obtain ⟨hst, hb⟩ := started_blank h0 hspan
  obtain ⟨b', hb', -, -, hf⟩ := hst.follows
  obtain rfl : b' = b := hb'.symm.trans hb
  exact ⟨hst, hf, Session.good_initial h0 hspan⟩

theorem reachable_blank {b : ℕ} (h0 : 0 < b) (hspan : b + MAX_HEAP + 2 ^ 31 ≤ 2 ^ 64) :
    Reachable ext Allowed (.blank b) :=
  ⟨_, [], [], (tracks_blank ext h0 hspan).1, .nil⟩

/-- Calls after which four blocks are live, the victim is the rest of a chunk that was split, and a
small and a large bin hold a chunk each. -/
def busyCalls : List Call :=
  [.malloc 1000, .malloc 24, .malloc 24, .malloc 24, .malloc 3000, .malloc 24, .free 2, .free 3,
    .free 0, .malloc 400]

/-- What these calls return, from a start at 16. -/
def busyPointers : List Addr := [32, 1040, 1072, 1104, 1136, 4144, NULL, NULL, NULL, 32]

/-- The session of these calls. -/
def busySession : Session := (Session.run EXTENSION_SIZE busyCalls (.initial 16)).2

/-- The blocks that are live after them. -/
def busyLive : List Block := [⟨1040, 24⟩, ⟨1104, 24⟩, ⟨4144, 24⟩, ⟨32, 400⟩]

/-- A start at 16 runs through these calls. -/
theorem exists_run_busy (Allowed : System → Call → Prop)
    (hA : ∀ y, ∀ c ∈ busyCalls, c.Valid LARGEST_SIZE y.live → Allowed y c) :
    ∃ y, Started (.blank 16) ∧
      Run EXTENSION_SIZE Allowed (.blank 16) (busyCalls.map .call) busyPointers y ∧
      y.live = busyLive ∧ Tracks False EXTENSION_SIZE y busySession := by
  obtain ⟨hst, ht⟩ := tracks_blank EXTENSION_SIZE (b := 16) (by decide) (by decide)
  obtain ⟨y, hrun, hy⟩ := ht.exists_run Allowed busyCalls (N := LARGEST_SIZE) extension_default
    (by decide) (by decide +kernel) hA
  have hps : (Session.run EXTENSION_SIZE busyCalls (.initial 16)).1 = busyPointers := by
    decide +kernel
  rw [hps] at hrun
  refine ⟨y, hst, hrun, hy.follows.live.trans ?_, hy⟩
  decide +kernel

/-- None of the calls divides a block. -/
theorem not_splits_busy (hc : c ∈ busyCalls) : ¬ c.Splits y := by
  cases c with
  | realloc i n => simp [busyCalls] at hc
  | malloc n => exact fun h => h
  | free i => exact fun h => h

/-- The chunks of the heap after them. -/
def busyChunks : List Addr := [16, 424, 1024, 1056, 1088, 1120, 4128, 4160]

theorem Tracks.heapChunks_busy (hy : Tracks False EXTENSION_SIZE y busySession) :
    y.state.heapChunks = some busyChunks := by
  rw [hy.follows.models.heapChunks_eq hy.good.inv.shape]
  decide +kernel

/-- Calls after which a huge chunk is free, and a large bin holds two chunks in a tree. -/
def stockedCalls : List Call :=
  [.malloc 17000000, .malloc 24, .malloc 3000, .malloc 24, .malloc 2600, .malloc 24, .free 0,
    .free 1, .free 2]

/-- The session of these calls, from a start at 16. -/
def stockedSession : Session := (Session.run EXTENSION_SIZE stockedCalls (.initial 16)).2

theorem exists_stocked : ∃ y, Reachable EXTENSION_SIZE (Sized LARGEST_SIZE) y ∧
    Tracks False EXTENSION_SIZE y stockedSession := by
  obtain ⟨hst, ht⟩ := tracks_blank EXTENSION_SIZE (b := 16) (by decide) (by decide)
  obtain ⟨y, hrun, hy⟩ := ht.exists_run (Sized LARGEST_SIZE) stockedCalls (N := LARGEST_SIZE)
    extension_default (by decide) (by decide +kernel) fun _ _ _ h => h
  exact ⟨y, ⟨_, _, _, hst, hrun⟩, hy⟩

end Run

end Dlmalloc
