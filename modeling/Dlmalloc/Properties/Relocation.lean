import Dlmalloc.Abstract.Relocate
import Dlmalloc.Properties.Coalescing
import Dlmalloc.Properties.Reclamation
import Dlmalloc.Properties.Reinit

/-!
# The same calls again

What a run returns does not depend on where the simulated heap lies (`answers_relocated`), and a
workload that frees all it allocates can be repeated for ever: the calls return the same pointers
each time, and the heap is never extended again (`replay_steady`). Both follow from what a run does
on a heap that was put elsewhere and extended (`Session.Good.run_moved`): a heap without live blocks
is a fresh one with more bytes at its end (`Tracks.of_no_live`). If the allocator is initialised
before each repetition, as the driver does it, it is a fresh one altogether (`rounds_agree`).
-/

namespace Dlmalloc

open Heap

/-! ### At another place -/

section Elsewhere

variable {full : Prop} {ext δ n : ℕ} {X : Multiset Slot} {h : Heap} {s s' : State} {y z : System}
  {σ : Session}

theorem movedPtr_of_pos {a : ℕ} (h0 : 0 < a) : movedPtr δ a = a + δ := if_neg h0.ne'

theorem headD_moved {l : List ℕ} (h0 : ∀ a ∈ l, 0 < a) :
    (l.map (· + δ)).headD NULL = movedPtr δ (l.headD NULL) := by
  cases l with
  | nil => rfl
  | cons a l => exact (movedPtr_of_pos (h0 a List.mem_cons_self)).symm

/-- The bins of a heap put elsewhere point to the same chunks. -/
theorem Models.bin_moved (hm : Models s h) (hm' : Models s' (h.moved δ 0)) (hs : Shape ext X h)
    (hX : X = h.bins.victimSlot) : s'.bin n = movedPtr δ (s.bin n) := by
  -- no chunk lies at `NULL`
  have hpos : ∀ e : Slot, e ∈ X ∨ e ∈ h.bins.binned → 0 < e.1 := by
    intro e he
    obtain ⟨pre, c, post, hL, rfl, -⟩ := hs.mem_free he
    exact hs.first_pos.trans_le (hs.bounds (Shape.mem_chunks hL)).1
  by_cases hn : n < NUM_OF_BINS
  · have hslots : ∀ e ∈ h.bins.slots n, 0 < e.1 := fun e he =>
      hpos e (.inr (Bins.mem_binned.mpr ⟨n, hn, he⟩))
    rcases Nat.lt_trichotomy n 1 with h0 | rfl | h2
    · obtain rfl : n = END_OF_HEAP_BIN := by unfold END_OF_HEAP_BIN; omega
      obtain ⟨pre, t, hL, -, htop, -⟩ := hs.exists_top
      have htpos : 0 < h.top.1 := by
        rw [htop]
        exact hs.first_pos.trans_le (hs.bounds (c := t) (by simp [hL])).1
      rw [hm'.top, hm.top, hs.top_moved, movedPtr_of_pos htpos]
    · have hv : s.bin 1 = pointer h.bins.victim := hm.victim
      have hv' : s'.bin 1 = pointer (h.bins.victim.map (Slot.moved δ)) := hm'.victim
      rw [hv, hv']
      cases hvic : h.bins.victim with
      | none => rfl
      | some v =>
        have hmem : v ∈ X := hX ▸ Bins.mem_victimSlot.mpr hvic
        exact (movedPtr_of_pos (hpos v (.inl hmem))).symm
    · have hrep := hm.bin n h2 hn
      have hrep' := hm'.bin n h2 hn
      unfold BinRep at hrep hrep'
      split_ifs at hrep hrep' with hhuge hsmall
      · rw [Bins.slots, if_pos hhuge] at hslots
        have hmap : (h.moved δ 0).bins.huge.map Prod.fst =
            (h.bins.huge.map Prod.fst).map (· + δ) := by
          show (h.bins.huge.map (Slot.moved δ)).map Prod.fst = _
          rw [List.map_map, List.map_map]
          rfl
        rw [hrep.1, hrep'.1, hmap]
        refine headD_moved fun a ha => ?_
        obtain ⟨e, he, rfl⟩ := List.mem_map.mp ha
        exact hslots e he
      · rw [Bins.slots_small hhuge hsmall] at hslots
        rw [hrep.1, hrep'.1]
        exact headD_moved fun a ha => hslots (a, 8 * n) (List.mem_map_of_mem ha)
      · rw [Bins.slots_large (by omega)] at hslots
        have hlarge : (h.moved δ 0).bins.large n = (h.bins.large n).map (· + δ) := rfl
        rw [hrep.1, hrep'.1, hlarge]
        cases hroot : h.bins.large n with
        | nil => rfl
        | node k a rest l r =>
          refine (movedPtr_of_pos (hslots (a, k) ?_)).symm
          rw [hroot]
          simp [DigitTree.entries]
  · have hnull : ∀ t : State, t.bin n = NULL := fun t => if_neg hn
    rw [hnull, hnull]
    rfl

/-- The rows of chunks are the same, but for the place. -/
theorem Models.heapChunks_moved (hm : Models s h) (hm' : Models s' (h.moved δ 0))
    (hs : Shape ext X h) {X' : Multiset Slot} (hs' : Shape ext X' (h.moved δ 0)) :
    s'.heapChunks = s.heapChunks.map (List.map (· + δ)) := by
  rw [hm.heapChunks_eq hs, hm'.heapChunks_eq hs', Option.map_some]
  show some ((h.chunks.map (Chunk.moved δ 0)).map Chunk.addr) = _
  rw [List.map_map, List.map_map]
  rfl

theorem Session.initial_moved {b : ℕ} (h8 : 8 ∣ δ) (hspan : b + δ + 7 < 2 ^ 64) :
    Session.initial (b + δ) = (Session.initial b).moved δ 0 := by
  have halign : ALIGN (b + δ) = ALIGN b + δ := by
    rw [ALIGN_eq, ALIGN_eq, add64_of_lt hspan, add64_of_lt (by omega)]
    omega
  have hbrk : ALIGN b + δ + INITIAL_CHUNK_SIZE + 16 = ALIGN b + INITIAL_CHUNK_SIZE + 16 + δ := by
    omega
  have hlimit : b + δ + MAX_HEAP = b + MAX_HEAP + δ := by omega
  simp only [Session.initial, Heap.initial, Session.moved, Heap.moved, halign, hbrk, hlimit]
  rfl

end Elsewhere

section Elsewhere

variable {δ : ℕ} {y₀ z₀ y : System} {es : List Event} {ps : List Addr}

/-- **The place of the heap does not matter.** Where the heap begins a multiple of 8 bytes higher,
the same calls return the same pointers, that much higher, and leave the same heap behind: the
break, the chunks and what the bins point to. What is written into the blocks makes no
difference. -/
theorem answers_relocated (hy : Started y₀) (hz : Started z₀) (h8 : 8 ∣ δ)
    (hbase : z₀.state.memStartBrk = y₀.state.memStartBrk + δ)
    (hrun : Run EXTENSION_SIZE (Sized LARGEST_SIZE) y₀ es ps y) :
    (∃ z, Run EXTENSION_SIZE (Sized LARGEST_SIZE) z₀ ((calls es).map .call)
      (ps.map (movedPtr δ)) z) ∧
    ∀ es' qs z, Run EXTENSION_SIZE (Sized LARGEST_SIZE) z₀ es' qs z → calls es' = calls es →
      qs = ps.map (movedPtr δ) ∧ z.live = y.live.map (Block.moved δ) ∧
      z.state.memBrk = y.state.memBrk + δ ∧
      z.state.heapChunks = y.state.heapChunks.map (List.map (· + δ)) ∧
      ∀ n, z.state.bin n = movedPtr δ (y.state.bin n) := by
  obtain ⟨b, hb, h0, hspan, hf⟩ := hy.follows
  obtain ⟨b', hb', h0', hspan', hf'⟩ := hz.follows
  have hbb : b' = b + δ := by
    rw [← hb', hbase, hb]
  subst hbb
  have hinit : Session.initial (b + δ) = (Session.initial b).moved δ 0 :=
    Session.initial_moved h8 (by simp only [MAX_HEAP] at hspan'; omega)
  have hg : (Session.initial b).Good True EXTENSION_SIZE := Session.good_initial h0 hspan
  have hg' : (Session.initial (b + δ)).Good True EXTENSION_SIZE := Session.good_initial h0' hspan'
  have hval : ∀ (y : System) (c : Call), Sized LARGEST_SIZE y c → c.Valid LARGEST_SIZE y.live :=
    fun _ _ h => h
  have ht : Tracks False EXTENSION_SIZE y₀ (Session.initial b) :=
    ⟨hf, hg.weaken fun _ => trivial⟩
  have ht' : Tracks False EXTENSION_SIZE z₀ (Session.initial (b + δ)) :=
    ⟨hf', hg'.weaken fun _ => trivial⟩
  have hv := hrun.valid ht extension_default (by decide) hval
  obtain ⟨hty, rfl⟩ := hrun.tracks ht extension_default (by decide) hval False.elim
  -- both runs follow one session, at two places
  have hmoved := hg.run_moved (δ := δ) (k := 0) extension_default (by decide) (by decide) hv
    (.inl rfl)
  have hzero : (Session.initial b).heap.brk + 0 -
      (Session.run EXTENSION_SIZE (calls es) (Session.initial b)).2.heap.brk = 0 := by
    have hup := (hg.run_grows extension_default (by decide) hv).brk
    omega
  rw [← hinit, hzero] at hmoved
  constructor
  · have hv' : Session.Valid EXTENSION_SIZE LARGEST_SIZE (calls es) (Session.initial (b + δ)) := by
      rw [hinit]
      exact hg.valid_moved extension_default (by decide) (by decide) hv (.inl rfl)
    obtain ⟨z, hrunz, -⟩ := ht'.exists_run (Sized LARGEST_SIZE) (calls es) extension_default
      (by decide) hv' fun _ _ _ h => h
    rw [hmoved] at hrunz
    exact ⟨z, hrunz⟩
  · intro es' qs z hrunz hcalls
    obtain ⟨htz, rfl⟩ := hrunz.tracks ht' extension_default (by decide) hval False.elim
    rw [hcalls, hmoved] at htz ⊢
    have hmy := hty.follows.models
    have hmz := htz.follows.models
    refine ⟨rfl, ?_, ?_, ?_, fun n => ?_⟩
    · rw [htz.follows.live, hty.follows.live]
      rfl
    · rw [hmz.memBrk, hmy.memBrk]
      rfl
    · exact hmy.heapChunks_moved hmz hty.good.inv.shape htz.good.inv.shape
    · exact hmy.bin_moved hmz hty.good.inv.shape rfl

theorem answers_relocated_blank : ∃ ps y z,
    Run EXTENSION_SIZE (Sized LARGEST_SIZE) (.blank 16) [.call (.malloc 100)] ps y ∧
    Run EXTENSION_SIZE (Sized LARGEST_SIZE) (.blank 24) [.call (.malloc 100)]
      (ps.map (movedPtr 8)) z := by
  obtain ⟨hy, ht⟩ := tracks_blank EXTENSION_SIZE (b := 16) (by decide) (by decide)
  obtain ⟨hz, hbase⟩ := started_blank (b := 24) (by decide) (by decide)
  obtain ⟨y, hrun, -⟩ := ht.exists_run (Sized LARGEST_SIZE) [.malloc 100] (N := LARGEST_SIZE)
    extension_default (by decide) (by decide +kernel) fun _ _ _ h => h
  obtain ⟨z, hrunz⟩ := (answers_relocated (δ := 8) hy hz (by decide)
    (by rw [hbase, ht.follows.models.memStartBrk]; rfl) hrun).1
  exact ⟨_, y, z, hrun, hrunz⟩

end Elsewhere

/-! ### Again and again -/

section Idle

variable {full : Prop} {ext b : ℕ} {y : System} {σ : Session}

theorem Tracks.no_used (ht : Tracks full ext y σ) (hlive : y.live = []) : σ.heap.used = 0 := by
  obtain ⟨U, hU, hcov⟩ := ht.good.covers
  rw [← ht.follows.live, hlive, List.forall₂_nil_left_iff] at hcov
  rw [← hU, hcov]
  rfl

/-- A heap without live blocks is that of a fresh start, extended. -/
theorem Tracks.idle_heap (ht : Tracks True ext y σ) (hlive : y.live = [])
    (hb : y.state.memStartBrk = b) (hbrk : (Heap.initial b).brk ≤ y.state.memBrk) :
    (Heap.initial b).moved 0 (y.state.memBrk - (Heap.initial b).brk) =
      { σ.heap with bins := Bins.empty } := by
  have hm := ht.follows.models
  have hs := ht.good.inv.shape
  -- one chunk from the first address to the break
  have hrow := row_of_no_used hs.tiles hs.topLast ht.good.inv.tags (ht.no_used hlive)
  have hstart : σ.heap.start = b := hm.memStartBrk.symm.trans hb
  have hfirst : σ.heap.first = ALIGN b := by
    rw [← hm.toRep.firstChunk_eq hs, State.firstChunk, hb]
  have hlimit : σ.heap.limit = b + MAX_HEAP := by rw [hs.arena.limit_eq, hstart]
  have hend : y.state.memBrk = σ.heap.brk := hm.memBrk
  have hinit : (Heap.initial b).brk = ALIGN b + INITIAL_CHUNK_SIZE + 16 := rfl
  rw [hend, hinit] at hbrk ⊢
  obtain ⟨k, hk⟩ := Nat.exists_eq_add_of_le hbrk
  have hsize : σ.heap.brk - 8 - σ.heap.first - 8 = INITIAL_CHUNK_SIZE + k := by
    rw [hfirst, hk]
    omega
  rw [hsize, hfirst] at hrow
  rw [hk, Nat.add_sub_cancel_left]
  have hbins : Bins.empty.moved 0 = Bins.empty := rfl
  simp only [Heap.moved, Heap.initial, Nat.add_zero, hbins, List.map_cons, List.map_nil,
    Chunk.moved, if_true]
  rw [← hrow, hstart, hfirst, hk, hlimit]

/-- **A heap without live blocks is a fresh one**, but for the bytes it was extended by. -/
theorem Tracks.of_no_live (ht : Tracks True ext y σ) (hlive : y.live = [])
    (hb : y.state.memStartBrk = b) (hbrk : (Heap.initial b).brk ≤ y.state.memBrk) :
    Tracks True ext y
      ((Session.initial b).moved 0 (y.state.memBrk - (Heap.initial b).brk)) := by
  have hu := ht.no_used hlive
  have hheap := ht.idle_heap hlive hb hbrk
  have hm := ht.follows.models
  have hi := ht.good.inv
  have hs := hi.shape
  obtain ⟨-, -, hnull⟩ := hm.of_no_used hi hu
  have hsession : (Session.initial b).moved 0 (y.state.memBrk - (Heap.initial b).brk) =
      ⟨{ σ.heap with bins := Bins.empty }, []⟩ := by
    rw [Session.moved, Session.initial, hheap]
    rfl
  -- with nothing in use the row is one chunk, and nothing is binned
  have haccount : Bins.empty.victimSlot + Bins.empty.binned = freeSlots σ.heap.chunks := by
    have h1 : Bins.empty.victimSlot + Bins.empty.binned = 0 := Bins.held_empty
    rw [h1, row_of_no_used hs.tiles hs.topLast hi.tags hu]
    rfl
  rw [hsession]
  refine ⟨⟨⟨⟨hm.headers, hnull 1 le_rfl (by decide), fun n h2 hn => ?_, hm.memStartBrk, hm.memBrk,
    hm.memMaxAddr⟩, hm.top⟩, hlive⟩, ⟨⟨hs.arena, hs.tiles, hs.topLast, hs.sizes, Bins.sorted_empty,
    haccount⟩, hi.tags⟩, [], ?_, .nil⟩
  · have hn0 := hnull n (by omega) hn
    unfold BinRep
    split_ifs
    · exact ⟨hn0, .nil⟩
    · exact ⟨hn0, .nil⟩
    · exact ⟨hn0, trivial⟩
  · exact hu.symm

end Idle

section Replay

variable {ext : ℕ} {Allowed : System → Call → Prop} {y y₀ y₁ y₂ : System} {es es' : List Event}
  {ps qs : List Addr} {cs cs₁ cs₂ : List Call} {n : ℕ}

/-- A run, cut in two between two of its calls. -/
theorem Run.split (hrun : Run ext Allowed y es ps y₂) (hcs : calls es = cs₁ ++ cs₂) :
    ∃ es₁ ps₁ z es₂ ps₂, Run ext Allowed y es₁ ps₁ z ∧ Run ext Allowed z es₂ ps₂ y₂ ∧
      calls es₁ = cs₁ ∧ calls es₂ = cs₂ ∧ ps = ps₁ ++ ps₂ := by
  induction hrun generalizing cs₂ with
  | nil =>
    obtain ⟨rfl, rfl⟩ := List.append_eq_nil_iff.mp hcs.symm
    exact ⟨[], [], y, [], [], .nil, .nil, rfl, rfl, rfl⟩
  | @call es ps y' y'' c p hrun hc hcall ih =>
    rw [calls_append, calls, calls] at hcs
    rcases List.eq_nil_or_concat cs₂ with rfl | ⟨cs₂, d, rfl⟩
    -- the cut is behind this call
    · rw [List.append_nil] at hcs
      refine ⟨es ++ [.call c], ps ++ [p], y'', [], [], hrun.call hc hcall, .nil, ?_, rfl, by simp⟩
      rw [calls_append]
      exact hcs
    · rw [List.concat_eq_append, ← List.append_assoc] at hcs
      obtain ⟨hcs', hd⟩ := List.append_inj' hcs rfl
      obtain rfl : c = d := by simpa using hd
      obtain ⟨es₁, ps₁, z, es₂, ps₂, h1, h2, hc1, hc2, rfl⟩ := ih hcs'
      refine ⟨es₁, ps₁, z, es₂ ++ [.call c], ps₂ ++ [p], h1, h2.call hc hcall, hc1, ?_,
        List.append_assoc _ _ _⟩
      rw [calls_append, hc2, List.concat_eq_append]
      rfl
  | @write es ps y' i k v b hrun hb hk ih =>
    rw [calls_append, calls, calls, List.append_nil] at hcs
    obtain ⟨es₁, ps₁, z, es₂, ps₂, h1, h2, hc1, hc2, hps⟩ := ih hcs
    refine ⟨es₁, ps₁, z, es₂ ++ [.write i k v], ps₂, h1, h2.write hb hk, hc1, ?_, hps⟩
    rw [calls_append, hc2, calls, calls, List.append_nil]

theorem Run.append (hrun : Run ext Allowed y es ps y₁) (hrun' : Run ext Allowed y₁ es' qs y₂) :
    Run ext Allowed y (es ++ es') (ps ++ qs) y₂ := by
  induction hrun' with
  | nil => simpa using hrun
  | call _ hc hcall ih =>
    rw [← List.append_assoc, ← List.append_assoc]
    exact ih.call hc hcall
  | write _ hb hk ih =>
    rw [← List.append_assoc]
    exact ih.write hb hk

theorem calls_map (cs : List Call) : calls (cs.map .call) = cs := by
  induction cs with
  | nil => rfl
  | cons c cs ih => exact congrArg (c :: ·) ih

/-- A run that began on a fresh heap and left no block live, made again. -/
theorem Tracks.replay {b N : ℕ} (h0 : 0 < b) (hspan : b + MAX_HEAP + 2 ^ 31 ≤ 2 ^ 64)
    (hx : Extension ext) (hext : 32 ≤ ext) (hN : N + 39 + ext < 2 ^ 31)
    (hval : ∀ y c, Allowed y c → c.Valid N y.live)
    (hv : Session.Valid ext N cs (Session.initial b))
    (hroom : (Heap.initial b).brk + charges ext cs ≤ (Heap.initial b).limit)
    (hidle : (Session.run ext cs (Session.initial b)).2.live = [])
    (ht : Tracks True ext y (Session.run ext cs (Session.initial b)).2) :
    (Session.Valid ext N cs ((Session.initial b).moved 0 (y.state.memBrk - (Heap.initial b).brk)) ∧
      Tracks True ext y ((Session.initial b).moved 0 (y.state.memBrk - (Heap.initial b).brk))) ∧
    ∀ es ps y', Run ext Allowed y es ps y' → calls es = cs →
      ps = (Session.run ext cs (Session.initial b)).1 ∧
      Tracks True ext y' (Session.run ext cs (Session.initial b)).2 := by
  have hg : (Session.initial b).Good True ext := Session.good_initial h0 hspan
  have hgrows := hg.run_grows hx (by omega) hv
  have hm := ht.follows.models
  have hstart : y.state.memStartBrk = b := hm.memStartBrk.trans hgrows.start
  have hbrk : y.state.memBrk = (Session.run ext cs (Session.initial b)).2.heap.brk := hm.memBrk
  have hup : (Heap.initial b).brk ≤ y.state.memBrk := by
    rw [hbrk]
    exact hgrows.brk
  have htop : y.state.memBrk ≤ (Heap.initial b).limit := by
    have h1 := ht.good.inv.shape.arena.brk_le
    rw [hgrows.limit] at h1
    rw [hbrk]
    exact h1
  obtain ⟨k, hk⟩ := Nat.exists_eq_add_of_le hup
  -- the heap is a fresh one with `k` more bytes, which are enough
  have hfresh := ht.of_no_live (ht.follows.live.trans hidle) hstart hup
  have hample : Session.Ample k (charges ext cs) (Session.initial b).heap
      (Session.run ext cs (Session.initial b)).2.heap := by
    rw [hk] at htop hbrk
    exact .inr ⟨hroom, htop, hbrk.ge⟩
  have hmoved := hg.run_moved (δ := 0) hx hext (by omega) hv hample
  have hvalid := hg.valid_moved (δ := 0) hx hext (by omega) hv hample
  have hzero : (Session.initial b).heap.brk + k -
      (Session.run ext cs (Session.initial b)).2.heap.brk = 0 := by
    rw [← hbrk, hk]
    exact Nat.sub_self _
  have hptrs : movedPtr 0 = id := funext Session.movedPtr_zero
  rw [hzero, Session.moved_zero, hptrs, List.map_id] at hmoved
  rw [hk, Nat.add_sub_cancel_left] at hfresh ⊢
  refine ⟨⟨hvalid, hfresh⟩, fun es ps y' hrun hcs => ?_⟩
  have hweak : Tracks False ext y ((Session.initial b).moved 0 k) :=
    ⟨hfresh.follows, hfresh.good.weaken fun _ => trivial⟩
  obtain ⟨ht', hps⟩ := hrun.tracks hweak hx hN hval False.elim
  rw [hcs, hmoved] at ht' hps
  exact ⟨hps, ht'.follows, ht.good⟩

/-- From a state that stands as `σ` does the calls can be made, and they return `ps` and lead to
such a state again. -/
structure Repeats (ext N : ℕ) (cs : List Call) (ps : List Addr) (σ : Session) : Prop where
  exists_run : ∀ y, Tracks True ext y σ → ∃ z, Run ext (Sized N) y (cs.map .call) ps z
  back : ∀ y es qs z, Tracks True ext y σ → Run ext (Sized N) y es qs z → calls es = cs →
    qs = ps ∧ Tracks True ext z σ

section Repeats

variable {N : ℕ} {σ : Session}

theorem Repeats.nil (hx : Extension ext) (hN : N + 39 + ext < 2 ^ 31) :
    Repeats ext N [] [] σ := by
  refine ⟨fun y _ => ⟨y, .nil⟩, fun y es qs z ht hrun hcs => ?_⟩
  have hweak : Tracks False ext y σ := ⟨ht.follows, ht.good.weaken fun _ => trivial⟩
  obtain ⟨ht', hqs⟩ := hrun.tracks hweak hx hN (fun _ _ h => h) False.elim
  rw [hcs] at ht' hqs
  exact ⟨hqs, ht'.follows, ht.good⟩

theorem Repeats.append (h₁ : Repeats ext N cs₁ ps σ) (h₂ : Repeats ext N cs₂ qs σ) :
    Repeats ext N (cs₁ ++ cs₂) (ps ++ qs) σ := by
  refine ⟨fun y ht => ?_, fun y es rs z ht hrun hcs => ?_⟩
  · obtain ⟨z₁, hrun₁⟩ := h₁.exists_run y ht
    obtain ⟨-, ht₁⟩ := h₁.back y _ _ z₁ ht hrun₁ (calls_map cs₁)
    obtain ⟨z₂, hrun₂⟩ := h₂.exists_run z₁ ht₁
    rw [List.map_append]
    exact ⟨z₂, hrun₁.append hrun₂⟩
  · obtain ⟨es₁, ps₁, z₁, es₂, ps₂, hrun₁, hrun₂, hcs₁, hcs₂, rfl⟩ := hrun.split hcs
    obtain ⟨rfl, ht₁⟩ := h₁.back _ _ _ _ ht hrun₁ hcs₁
    obtain ⟨rfl, ht₂⟩ := h₂.back _ _ _ _ ht₁ hrun₂ hcs₂
    exact ⟨rfl, ht₂⟩

/-- One pass after the other. -/
theorem Repeats.replicate (h : Repeats ext N cs ps σ) (hx : Extension ext)
    (hN : N + 39 + ext < 2 ^ 31) (n : ℕ) :
    Repeats ext N (List.replicate n cs).flatten (List.replicate n ps).flatten σ := by
  induction n with
  | zero => exact .nil hx hN
  | succ n ih =>
    rw [List.replicate_succ, List.replicate_succ, List.flatten_cons, List.flatten_cons]
    exact h.append ih

/-- **One pass.** A run that began on a fresh heap and left no block live can be made again. -/
theorem repeats_of_idle {b : ℕ} (h0 : 0 < b) (hspan : b + MAX_HEAP + 2 ^ 31 ≤ 2 ^ 64)
    (hx : Extension ext) (hext : 32 ≤ ext) (hN : N + 39 + ext < 2 ^ 31)
    (hv : Session.Valid ext N cs (Session.initial b))
    (hroom : (Heap.initial b).brk + charges ext cs ≤ (Heap.initial b).limit)
    (hidle : (Session.run ext cs (Session.initial b)).2.live = []) :
    Repeats ext N cs (Session.run ext cs (Session.initial b)).1
      (Session.run ext cs (Session.initial b)).2 := by
  have hsized : ∀ y c, Sized N y c → c.Valid N y.live := fun _ _ h => h
  refine ⟨fun y ht => ?_, fun y es qs z ht hrun hcs => ?_⟩
  -- the state is that of a fresh start with more bytes at the end, where the calls are valid
  · obtain ⟨⟨hvalid, hfresh⟩, hagain⟩ := ht.replay h0 hspan hx hext hN hsized hv hroom hidle
    obtain ⟨z, hrun, -⟩ := hfresh.exists_run (Sized N) cs hx hN hvalid fun _ _ _ h => h
    obtain ⟨hps, -⟩ := hagain _ _ _ hrun (calls_map cs)
    exact ⟨z, hps ▸ hrun⟩
  · exact (ht.replay h0 hspan hx hext hN hsized hv hroom hidle).2 es qs z hrun hcs

end Repeats

/-- **A workload can be repeated.** A run on a fresh heap that leaves no block live and cuts no
chunk off before a chunk in use, with room in the heap for all it asks for, can be made again any
number of times. Each time the calls return the same pointers, and the heap is not extended again:
the break stays where it is, and there is one free chunk and nothing in the bins when no block is
live. -/
theorem replay_steady (hy : Started y₀)
    (hrun : Run EXTENSION_SIZE (Coalesces LARGEST_SIZE) y₀ es ps y₁) (hlive : y₁.live = [])
    (hroom : y₀.state.memBrk + charges EXTENSION_SIZE (calls es) ≤ y₀.state.memMaxAddr) (n : ℕ) :
    (∃ z, Run EXTENSION_SIZE (Sized LARGEST_SIZE) y₁
      ((List.replicate n (calls es)).flatten.map .call) (List.replicate n ps).flatten z) ∧
    ∀ es' qs y₂, Run EXTENSION_SIZE (Sized LARGEST_SIZE) y₁ es' qs y₂ →
      calls es' = (List.replicate n (calls es)).flatten →
      qs = (List.replicate n ps).flatten ∧ y₂.live = [] ∧
      y₂.state.memBrk = y₁.state.memBrk ∧ y₂.state.heapChunks = some [y₂.state.firstChunk] ∧
      ∀ m, 1 ≤ m → m < NUM_OF_BINS → y₂.state.bin m = NULL := by
  obtain ⟨b, -, h0, hspan, hf⟩ := hy.follows
  have ht₀ : Tracks True EXTENSION_SIZE y₀ (Session.initial b) :=
    ⟨hf, Session.good_initial h0 hspan⟩
  have hv := hrun.valid ht₀ extension_default (N := LARGEST_SIZE) (by decide) fun _ _ h => h.1
  obtain ⟨ht, rfl⟩ := hrun.tracks ht₀ extension_default (N := LARGEST_SIZE) (by decide)
    (fun _ _ h => h.1) fun _ _ _ h => h.2
  rw [hf.models.memBrk, hf.models.memMaxAddr] at hroom
  rw [ht.follows.live] at hlive
  -- one pass from the idle heap ends in the idle heap, so passes can be chained
  have hpasses := (repeats_of_idle h0 hspan extension_default (by decide) (by decide) hv hroom
    hlive).replicate extension_default (by decide) n
  refine ⟨hpasses.exists_run y₁ ht, fun es' qs y₂ hrun' hcalls => ?_⟩
  obtain ⟨hqs, hty₂⟩ := hpasses.back y₁ es' qs y₂ ht hrun' hcalls
  have hbrk : y₂.state.memBrk = y₁.state.memBrk := by
    rw [hty₂.follows.models.memBrk, ht.follows.models.memBrk]
  have hlive₂ : y₂.live = [] := hty₂.follows.live.trans hlive
  obtain ⟨hrow, -, hnull⟩ := hty₂.follows.models.of_no_used hty₂.good.inv (hty₂.no_used hlive₂)
  exact ⟨hqs, hlive₂, hbrk, hrow, hnull⟩

/-- A block allocated and freed. -/
theorem exists_run_balanced : ∃ ps y, Started (.blank 16) ∧
    Run EXTENSION_SIZE (Coalesces LARGEST_SIZE) (.blank 16)
      ([Call.malloc 100, .free 0].map .call) ps y ∧ y.live = [] := by
  obtain ⟨hy, ht⟩ := tracks_blank EXTENSION_SIZE (b := 16) (by decide) (by decide)
  have hallowed : ∀ y, ∀ c ∈ [Call.malloc 100, .free 0], c.Valid LARGEST_SIZE y.live →
      Coalesces LARGEST_SIZE y c := by
    intro y c hc hv
    simp only [List.mem_cons, List.not_mem_nil, or_false] at hc
    rcases hc with rfl | rfl
    · exact ⟨hv, fun h => h⟩
    · exact ⟨hv, fun h => h⟩
  obtain ⟨y, hrun, hty⟩ := ht.exists_run (Coalesces LARGEST_SIZE) [.malloc 100, .free 0]
    (N := LARGEST_SIZE) extension_default (by decide) (by decide +kernel) hallowed
  have hlive : (Session.run EXTENSION_SIZE [.malloc 100, .free 0] (.initial 16)).2.live = [] := by
    decide +kernel
  exact ⟨_, y, hy, hrun, hty.follows.live.trans hlive⟩

theorem replay_steady_blank : ∃ ps y z,
    Run EXTENSION_SIZE (Coalesces LARGEST_SIZE) (.blank 16)
      ([Call.malloc 100, .free 0].map .call) ps y ∧
    Run EXTENSION_SIZE (Sized LARGEST_SIZE) y
      ([Call.malloc 100, .free 0, .malloc 100, .free 0].map .call) (ps ++ ps) z := by
  obtain ⟨ps, y, hy, hrun, hlive⟩ := exists_run_balanced
  obtain ⟨-, ht⟩ := tracks_blank EXTENSION_SIZE (b := 16) (by decide) (by decide)
  have hroom : (System.blank 16).state.memBrk + charges EXTENSION_SIZE [.malloc 100, .free 0] ≤
      (System.blank 16).state.memMaxAddr := by
    rw [ht.follows.models.memBrk, ht.follows.models.memMaxAddr]
    decide
  obtain ⟨z, hrunz⟩ := (replay_steady hy hrun hlive hroom 2).1
  simp only [List.replicate, List.flatten_cons, List.flatten_nil, List.append_nil] at hrunz
  exact ⟨ps, y, z, hrun, hrunz⟩

end Replay

/-! ### Initialised again -/

section Restart

variable {full : Prop} {ext : ℕ} {y y₀ y₁ : System} {es es' : List Event} {ps qs : List Addr}

/-- Initialising again where no block is live gives a fresh start. -/
theorem Tracks.restart {σ : Session} (ht : Tracks True ext y σ) (hlive : y.live = []) :
    ∃ s, reinit y.state = some (0, s) ∧ Started ⟨s, []⟩ ∧
      s.memStartBrk = y.state.memStartBrk := by
  have hfresh := ht.fresh_reset
  obtain ⟨-, -, hnull⟩ := ht.follows.models.of_no_used ht.good.inv (ht.no_used hlive)
  obtain ⟨p, s, hinit, rfl, -, -, -, hstart, -⟩ := myInit_spec hfresh
  refine ⟨s, by rw [reinit_apply, hinit], ⟨rfl, _, hfresh, fun n hn => ?_, hinit⟩, hstart⟩
  by_cases hlt : n < NUM_OF_BINS
  · exact hnull n (Nat.pos_of_ne_zero hn) hlt
  · exact if_neg hlt

/-- The allocator is initialised `n` times, and the calls are made after each. What the calls return
is collected. -/
inductive Rounds (Allowed : System → Call → Prop) (cs : List Call) :
    ℕ → System → List (List Addr) → System → Prop
  | zero {y : System} : Rounds Allowed cs 0 y [] y
  | succ {n : ℕ} {y y' : System} {pss : List (List Addr)} {s : State} {es : List Event}
      {ps : List Addr} {z : System} :
      Rounds Allowed cs n y pss y' → reinit y'.state = some (0, s) →
      Run EXTENSION_SIZE Allowed ⟨s, []⟩ es ps z → calls es = cs →
      Rounds Allowed cs (n + 1) y (pss ++ [ps]) z

/-- A start at the same place follows the same session. -/
theorem Tracks.restart_follows {σ : Session} {b : ℕ} (ht : Tracks True ext y σ)
    (hlive : σ.live = []) (hb : σ.heap.start = b) :
    ∃ s, reinit y.state = some (0, s) ∧ Follows ⟨s, []⟩ (Session.initial b) := by
  obtain ⟨s, hs, hst, hstart⟩ := ht.restart (ht.follows.live.trans hlive)
  obtain ⟨b', hb', -, -, hf⟩ := hst.follows
  have hplace : y.state.memStartBrk = b := ht.follows.models.memStartBrk.trans hb
  obtain rfl : b' = b := hb'.symm.trans (hstart.trans hplace)
  exact ⟨s, hs, hf⟩

section Rounds

variable {N b n : ℕ} {cs : List Call} {σ : Session} {pss : List (List Addr)}

/-- The rounds can be made, and each ends as the one before. -/
theorem Tracks.exists_rounds (hN : N + 39 + EXTENSION_SIZE < 2 ^ 31)
    (hg : (Session.initial b).Good True EXTENSION_SIZE)
    (hv : Session.Valid EXTENSION_SIZE N cs (Session.initial b))
    (hlive : (Session.run EXTENSION_SIZE cs (Session.initial b)).2.live = [])
    (ht : Tracks True EXTENSION_SIZE y (Session.run EXTENSION_SIZE cs (Session.initial b)).2)
    (n : ℕ) :
    ∃ z, Rounds (Sized N) cs n y
        (List.replicate n (Session.run EXTENSION_SIZE cs (Session.initial b)).1) z ∧
      Tracks True EXTENSION_SIZE z (Session.run EXTENSION_SIZE cs (Session.initial b)).2 := by
  have hstart := (hg.run_grows extension_default (by omega) hv).start
  induction n with
  | zero => exact ⟨y, .zero, ht⟩
  | succ n ih =>
    obtain ⟨z, hrounds, htz⟩ := ih
    -- a round starts from the state `my_init` leaves after a reset
    obtain ⟨s, hs, hf⟩ := htz.restart_follows hlive hstart
    have hfresh : Tracks False EXTENSION_SIZE ⟨s, []⟩ (Session.initial b) :=
      ⟨hf, hg.weaken fun _ => trivial⟩
    obtain ⟨z', hrun, ht'⟩ := hfresh.exists_run (Sized N) cs extension_default hN hv
      fun _ _ _ h => h
    rw [List.replicate_succ']
    exact ⟨z', hrounds.succ hs hrun (calls_map cs), ht'.follows, ht.good⟩

/-- All rounds agree. -/
theorem Rounds.agree (hrounds : Rounds (Sized N) cs n y pss y₁)
    (hN : N + 39 + EXTENSION_SIZE < 2 ^ 31) (hg : (Session.initial b).Good True EXTENSION_SIZE)
    (hv : Session.Valid EXTENSION_SIZE N cs (Session.initial b))
    (hlive : (Session.run EXTENSION_SIZE cs (Session.initial b)).2.live = [])
    (ht : Tracks True EXTENSION_SIZE y (Session.run EXTENSION_SIZE cs (Session.initial b)).2) :
    pss = List.replicate n (Session.run EXTENSION_SIZE cs (Session.initial b)).1 ∧
      Tracks True EXTENSION_SIZE y₁ (Session.run EXTENSION_SIZE cs (Session.initial b)).2 := by
  have hstart := (hg.run_grows extension_default (by omega) hv).start
  induction hrounds with
  | zero => exact ⟨rfl, ht⟩
  | succ _ hs hrun hcalls ih =>
    obtain ⟨rfl, hty⟩ := ih ht
    -- `reinit` is a function, so that the fresh start is the one of this round
    obtain ⟨s', hs', hf⟩ := hty.restart_follows hlive hstart
    obtain ⟨-, rfl⟩ := Prod.mk.inj (Option.some.inj (hs.symm.trans hs'))
    have hfresh : Tracks False EXTENSION_SIZE ⟨_, []⟩ (Session.initial b) :=
      ⟨hf, hg.weaken fun _ => trivial⟩
    obtain ⟨htz, rfl⟩ := hrun.tracks hfresh extension_default hN (fun _ _ h => h) False.elim
    rw [hcalls] at htz ⊢
    rw [List.replicate_succ']
    exact ⟨rfl, htz.follows, ht.good⟩

end Rounds

/-- **Round after round.** The driver initialises the allocator before it runs a trace, and runs a
trace many times to measure its speed. Where the calls leave no block live and cut no chunk off
before a chunk in use, every round returns what the first one did, and none fails to return. -/
theorem rounds_agree (hy : Started y₀)
    (hrun : Run EXTENSION_SIZE (Coalesces LARGEST_SIZE) y₀ es ps y₁) (hlive : y₁.live = [])
    (n : ℕ) :
    (∃ z, Rounds (Sized LARGEST_SIZE) (calls es) n y₁ (List.replicate n ps) z) ∧
    ∀ pss z, Rounds (Sized LARGEST_SIZE) (calls es) n y₁ pss z →
      pss = List.replicate n ps ∧ z.live = [] := by
  obtain ⟨b, -, h0, hspan, hf⟩ := hy.follows
  have hg : (Session.initial b).Good True EXTENSION_SIZE := Session.good_initial h0 hspan
  have hv := hrun.valid ⟨hf, hg⟩ extension_default (N := LARGEST_SIZE) (by decide) fun _ _ h => h.1
  obtain ⟨ht, rfl⟩ := hrun.tracks ⟨hf, hg⟩ extension_default (N := LARGEST_SIZE) (by decide)
    (fun _ _ h => h.1) fun _ _ _ h => h.2
  rw [ht.follows.live] at hlive
  constructor
  · obtain ⟨z, hrounds, -⟩ := ht.exists_rounds (by decide) hg hv hlive n
    exact ⟨z, hrounds⟩
  · intro pss z hrounds
    obtain ⟨hpss, hz⟩ := hrounds.agree (by decide) hg hv hlive ht
    exact ⟨hpss, hz.follows.live.trans hlive⟩

theorem rounds_agree_blank : ∃ ps y z,
    Run EXTENSION_SIZE (Coalesces LARGEST_SIZE) (.blank 16)
      ([Call.malloc 100, .free 0].map .call) ps y ∧
    Rounds (Sized LARGEST_SIZE) [.malloc 100, .free 0] 2 y [ps, ps] z := by
  obtain ⟨ps, y, hy, hrun, hlive⟩ := exists_run_balanced
  obtain ⟨z, hrounds⟩ := (rounds_agree hy hrun hlive 2).1
  exact ⟨ps, y, z, hrun, hrounds⟩

end Restart

end Dlmalloc
