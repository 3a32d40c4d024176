import Dlmalloc.Abstract.Search
import Dlmalloc.Properties.Blocks
import Dlmalloc.Properties.Chunks

/-!
# Initialising again

The driver runs `my_reset_brk` and `my_init` before every run, on one allocator. They empty the heap
and set the first bin, and leave the other bins as they are. What follows is a fresh start if and
only if these were empty at the end of the run before (`fresh_after_reinit_iff`). A chunk left in a
small bin shows in what the next run is answered (`not_answersFresh_of_small`), and so does a victim
(`not_answersFresh_of_victim`).
-/

namespace Dlmalloc

open Heap

/-- What the driver does between two runs. -/
def reinit : M ℕ := do
  myResetBrk
  myInit

/-- The system `z` answers every run of calls as a first start at the same place does, and the
blocks it returns are inside the heap and apart. -/
def AnswersFresh (z : System) : Prop :=
  ∀ y₀ es₀ ps₀ y', Started y₀ → y₀.state.memStartBrk = z.state.memStartBrk →
    Run EXTENSION_SIZE (Sized LARGEST_SIZE) y₀ es₀ ps₀ y' →
    (∃ z', Run EXTENSION_SIZE (Sized LARGEST_SIZE) z ((calls es₀).map .call) ps₀ z') ∧
    ∀ es ps z', Run EXTENSION_SIZE (Sized LARGEST_SIZE) z es ps z' → calls es = calls es₀ →
      ps = ps₀ ∧ (∀ (j : ℕ) b, z'.live[j]? = some b →
        memHeapLo z'.state ≤ b.ptr ∧ b.ptr + b.size ≤ memHeapHi z'.state + 1) ∧
      ∀ (j k : ℕ) a b, j ≠ k → z'.live[j]? = some a → z'.live[k]? = some b →
        a.ptr + a.size ≤ b.ptr ∨ b.ptr + b.size ≤ a.ptr

/-- Initialising again after the run that ended in `y` gives a fresh allocator: no bin but the first
refers to a chunk of the old heap, and all runs are answered as at a first start. -/
def FreshAfterReinit (y : System) : Prop :=
  ∃ s, reinit y.state = some (0, s) ∧
    (∀ n L, 1 ≤ n → n < NUM_OF_BINS → y.state.heapChunks = some L → s.bin n ∉ L) ∧
    AnswersFresh ⟨s, []⟩

section Reinit

variable {full : Prop} {ext N n : ℕ} {y y' z : System} {σ : Session} {h : Heap} {s : State}
  {Allowed : System → Call → Prop} {cs : List Call} {ps : List Addr} {p : Addr} {es : List Event}

/-- What a bin points to is a chunk of the heap. -/
theorem Models.bin_mem (hm : Models s h) (hi : Inv full ext h) (h1 : 1 ≤ n) (hn : n < NUM_OF_BINS)
    (hne : s.bin n ≠ NULL) : ∃ c ∈ h.chunks, c.addr = s.bin n := by
  have hs := hi.shape
  have hmem : ∀ e : Slot, e ∈ h.bins.victimSlot + h.bins.binned → ∃ c ∈ h.chunks, c.addr = e.1 :=
    fun e he => by
      obtain ⟨pre, c, post, hL, rfl, -⟩ := hs.mem_free (Multiset.mem_add.mp he)
      exact ⟨c, Shape.mem_chunks hL, rfl⟩
  -- the victim, or the head of a list or a tree
  rcases h1.eq_or_lt with rfl | h2
  · have hv : s.bin 1 = pointer h.bins.victim := hm.victim
    cases hvic : h.bins.victim with
    | none =>
      rw [hvic] at hv
      exact absurd hv hne
    | some v =>
      rw [hv, hvic]
      exact hmem v (Multiset.mem_add.mpr (.inl (Bins.mem_victimSlot.mpr hvic)))
  · have hslot : ∀ a ∈ (h.bins.slots n).map Prod.fst, ∃ c ∈ h.chunks, c.addr = a := fun a ha => by
      obtain ⟨e, he, rfl⟩ := List.mem_map.mp ha
      exact hmem e (Multiset.mem_add.mpr (.inr (Bins.mem_binned.mpr ⟨n, hn, he⟩)))
    have hlist : ∀ l : List ℕ, s.bin n = l.headD NULL → s.bin n ∈ l := fun l hl => by
      cases l with
      | nil => exact absurd hl hne
      | cons a l =>
        rw [hl]
        exact List.mem_cons_self
    have hrep := hm.bin n h2 hn
    refine hslot _ ?_
    unfold BinRep at hrep
    split_ifs at hrep with hhuge hsmall
    · rw [Bins.slots, if_pos hhuge]
      exact hlist _ hrep.1
    · rw [Bins.slots_small hhuge hsmall, List.map_map]
      simpa [Function.comp_def] using hlist _ hrep.1
    · rw [Bins.slots_large (by omega)]
      have hroot : h.bins.large n ≠ .nil := fun h0 => hne (by rw [hrep.1, h0]; rfl)
      rw [hrep.1]
      exact root_mem hroot

/-- `my_reset_brk` leaves an empty heap. -/
theorem Tracks.fresh_reset (ht : Tracks full ext y σ) :
    Fresh { y.state with memBrk := y.state.memStartBrk } := by
  have hm := ht.follows.models
  have ha := ht.good.inv.shape.arena
  refine ⟨?_, rfl, ?_, ?_⟩
  · show y.state.memStartBrk ≠ NULL
    rw [hm.memStartBrk]
    exact ha.start_pos.ne'
  · show y.state.memMaxAddr = y.state.memStartBrk + MAX_HEAP
    rw [hm.memMaxAddr, hm.memStartBrk, ha.limit_eq]
  · show y.state.memMaxAddr + 2 ^ 31 ≤ 2 ^ 64
    rw [hm.memMaxAddr]
    exact ha.span

theorem runCalls_append {cs' : List Call} : runCalls ext (cs ++ cs') y =
    (runCalls ext cs y).bind fun r => (runCalls ext cs' r.2).map fun q => (r.1 ++ q.1, q.2) := by
  induction cs generalizing y with
  | nil => simp [runCalls]
  | cons c cs ih =>
    rw [List.cons_append, runCalls, runCalls]
    cases c.run ext y with
    | none => rfl
    | some r =>
      show (runCalls ext (cs ++ cs') r.2).bind _ = ((runCalls ext cs r.2).bind _).bind _
      rw [ih]
      cases runCalls ext cs r.2 with
      | none => rfl
      | some q =>
        show ((runCalls ext cs' q.2).map _).bind _ = (runCalls ext cs' q.2).map _
        cases runCalls ext cs' q.2 <;> rfl

/-- A run of calls alone is computed. -/
theorem Run.runCalls (hrun : Run ext Allowed y (cs.map .call) ps y') :
    runCalls ext cs y = some (ps, y') := by
  generalize hes : cs.map Event.call = es at hrun
  induction hrun generalizing cs with
  | nil =>
    obtain rfl := List.map_eq_nil_iff.mp hes
    rfl
  | @call es ps y' y'' c p hrun hc hcall ih =>
    obtain ⟨cs, ds, rfl, rfl, hd⟩ := List.map_eq_append_iff.mp hes
    obtain ⟨d, es, rfl, hd, hnil⟩ := List.map_eq_cons_iff.mp hd
    obtain rfl := Event.call.inj hd
    obtain rfl := List.map_eq_nil_iff.mp hnil
    rw [runCalls_append, ih rfl]
    show ((Dlmalloc.runCalls ext [d] y').map _) = _
    rw [Dlmalloc.runCalls, hcall]
    rfl
  | @write es ps y' i k v b hrun hb hk ih =>
    obtain ⟨cs, ds, rfl, -, hd⟩ := List.map_eq_append_iff.mp hes
    obtain ⟨d, es, -, hd, -⟩ := List.map_eq_cons_iff.mp hd
    cases hd

/-- Calls that are always allowed make a run if they return. -/
theorem run_of_runCalls (hA : ∀ c ∈ cs, ∀ y, Allowed y c) (h : runCalls ext cs y = some (ps, y')) :
    Run ext Allowed y (cs.map .call) ps y' := by
  induction cs using List.reverseRecOn generalizing ps y' with
  | nil =>
    obtain ⟨rfl, rfl⟩ := Prod.mk.inj (Option.some.inj h)
    exact .nil
  | append_singleton cs c ih =>
    rw [runCalls_append] at h
    obtain ⟨⟨qs, z⟩, hcs, h⟩ := Option.bind_eq_some_iff.mp h
    obtain ⟨⟨rs, z'⟩, hc, h⟩ := Option.map_eq_some_iff.mp h
    obtain ⟨rfl, rfl⟩ := Prod.mk.inj h
    rw [runCalls] at hc
    obtain ⟨⟨p, z₁⟩, hrun, hp⟩ := Option.bind_eq_some_iff.mp hc
    obtain ⟨rfl, rfl⟩ := Prod.mk.inj (Option.some.inj hp)
    rw [List.map_append]
    exact (ih (fun d hd => hA d (List.mem_append_left _ hd)) hcs).call (hA c (by simp) _) hrun

/-- Initialising runs `my_init` on an empty heap. -/
theorem reinit_apply : reinit s = myInit { s with memBrk := s.memStartBrk } := by
  rw [reinit, M.bind_apply, myResetBrk, memResetBrk, change_apply, Option.bind_some]

end Reinit

variable {y : System}

/-- **A second start is fresh if and only if the bins are empty**: `my_init` sets the first bin
only, so the rest of them must be empty already. -/
theorem fresh_after_reinit_iff (hy : Reachable EXTENSION_SIZE (Sized LARGEST_SIZE) y) :
    FreshAfterReinit y ↔ ∀ n, 1 ≤ n → n < NUM_OF_BINS → y.state.bin n = NULL := by
  obtain ⟨σ, ht⟩ := hy.tracks_default
  have hfresh := ht.fresh_reset
  obtain ⟨p, s, hinit, rfl, -, -, hbins, hstart, -⟩ := myInit_spec hfresh
  have hreinit : reinit y.state = some (0, s) := by rw [reinit_apply, hinit]
  have hbin : ∀ n, n ≠ END_OF_HEAP_BIN → s.bin n = y.state.bin n := hbins
  have hchunks := ht.follows.models.heapChunks_eq ht.good.inv.shape
  constructor
  · rintro ⟨s', hs', hold, -⟩ n h1 hn
    obtain rfl : s = s' := (Prod.mk.inj (Option.some.inj (hreinit.symm.trans hs'))).2
    by_contra hne
    obtain ⟨c, hc, hca⟩ := ht.follows.models.bin_mem ht.good.inv h1 hn hne
    refine hold n _ h1 hn hchunks (List.mem_map.mpr ⟨c, hc, ?_⟩)
    rw [hbin n (by unfold END_OF_HEAP_BIN; omega), hca]
  · intro hnull
    have hempty : ∀ n, n ≠ END_OF_HEAP_BIN → s.bin n = NULL := fun n hn => by
      rw [hbin n hn]
      by_cases hlt : n < NUM_OF_BINS
      · exact hnull n (Nat.pos_of_ne_zero hn) hlt
      · exact if_neg hlt
    refine ⟨s, hreinit, fun n L h1 hn hL hmem => ?_, fun y₀ es₀ ps₀ y' hy₀ hbase hrun₀ => ?_⟩
    · rw [hempty n (by unfold END_OF_HEAP_BIN; omega)] at hmem
      obtain rfl := Option.some.inj (hchunks.symm.trans hL)
      obtain ⟨c, hc, hc0⟩ := List.mem_map.mp hmem
      have h2 := (ht.good.inv.shape.bounds hc).1
      have h3 := ht.good.inv.shape.first_pos
      have h4 : c.addr = 0 := hc0
      omega
    -- both starts follow the same session
    have hz : Started ⟨s, []⟩ :=
      ⟨rfl, _, hfresh, fun n hn => (hbin n hn).symm.trans (hempty n hn), hinit⟩
    obtain ⟨b, hb, h0, hspan, hf⟩ := hy₀.follows
    obtain ⟨b', hb', -, -, hf'⟩ := hz.follows
    obtain rfl : b = b' := hb.symm.trans (hbase.trans hb')
    have hg : (Session.initial b).Good True EXTENSION_SIZE := Session.good_initial h0 hspan
    have hval : ∀ (y : System) (c : Call), Sized LARGEST_SIZE y c → c.Valid LARGEST_SIZE y.live :=
      fun _ _ h => h
    have htz : Tracks False EXTENSION_SIZE ⟨s, []⟩ (Session.initial b) :=
      ⟨hf', hg.weaken fun _ => trivial⟩
    have hty : Tracks False EXTENSION_SIZE y₀ (Session.initial b) :=
      ⟨hf, hg.weaken fun _ => trivial⟩
    obtain ⟨-, rfl⟩ := hrun₀.tracks hty extension_default (by decide) hval False.elim
    refine ⟨?_, fun es ps z' hrun hcalls => ?_⟩
    · obtain ⟨z', hrun, -⟩ := htz.exists_run _ _ extension_default (by decide)
        (hrun₀.valid hty extension_default (by decide) hval) fun _ _ _ h => h
      exact ⟨z', hrun⟩
    · obtain ⟨ht', rfl⟩ := hrun.tracks htz extension_default (by decide) hval False.elim
      rw [hcalls]
      exact ⟨rfl, fun j b hb => (ht'.live_inside hb).2, fun j k a b hjk ha hb =>
        ht'.live_apart ha hb hjk⟩

/-- A first run that fills a bin and empties it again, and leaves blocks live, does no harm. -/
theorem fresh_after_reinit_iff_refilled : ∃ y, Run EXTENSION_SIZE (Sized LARGEST_SIZE) (.blank 16)
    ([Call.malloc 1000, .malloc 24, .free 0, .malloc 1000].map .call) [32, 1040, NULL, 32] y ∧
    y.live = [⟨1040, 24⟩, ⟨32, 1000⟩] ∧ FreshAfterReinit y := by
  obtain ⟨hst, ht⟩ := tracks_blank EXTENSION_SIZE (b := 16) (by decide) (by decide)
  obtain ⟨y, hrun, hy⟩ := ht.exists_run (Sized LARGEST_SIZE)
    [.malloc 1000, .malloc 24, .free 0, .malloc 1000] (N := LARGEST_SIZE) extension_default
    (by decide) (by decide +kernel) fun _ _ _ h => h
  have hps : (Session.run EXTENSION_SIZE [.malloc 1000, .malloc 24, .free 0, .malloc 1000]
      (.initial 16)).1 = [32, 1040, NULL, 32] := by decide +kernel
  rw [hps] at hrun
  have hbins : (runCalls EXTENSION_SIZE [.malloc 1000, .malloc 24, .free 0, .malloc 1000]
      (.blank 16)).map (fun r => decide (∀ n < NUM_OF_BINS, 1 ≤ n → r.2.state.bin n = NULL)) =
      some true := by decide +kernel
  rw [hrun.runCalls, Option.map_some, Option.some.injEq, decide_eq_true_eq] at hbins
  refine ⟨y, hrun, ?_, (fresh_after_reinit_iff ⟨_, _, _, hst, hrun⟩).mpr
    fun n h1 hn => hbins n hn h1⟩
  rw [hy.follows.live]
  decide +kernel

/-- A victim of the first run is still the victim in the second. After the first run it is the rest
of the chunk of 1000 bytes, at 424. The second run starts on an empty heap, and its blocks are cut
from inside the first chunk of that heap, which stays free. -/
theorem not_always_fresh_after_reinit : ∃ y s z z',
    Run EXTENSION_SIZE (Sized LARGEST_SIZE) (.blank 16)
      ([Call.malloc 1000, .malloc 24, .free 0, .malloc 400].map .call) [32, 1040, NULL, 32] y ∧
    reinit y.state = some (0, s) ∧ s.bin VICTIM_BIN = 424 ∧
    Run EXTENSION_SIZE (Sized LARGEST_SIZE) ⟨s, []⟩ ([Call.malloc 24, .malloc 24].map .call)
      [440, 472] z ∧
    Run EXTENSION_SIZE (Sized LARGEST_SIZE) (.blank 16) ([Call.malloc 24, .malloc 24].map .call)
      [32, 64] z' ∧ ¬ FreshAfterReinit y := by
  obtain ⟨hst, ht⟩ := tracks_blank EXTENSION_SIZE (b := 16) (by decide) (by decide)
  obtain ⟨y, hrun, hty⟩ := ht.exists_run (Sized LARGEST_SIZE)
    [.malloc 1000, .malloc 24, .free 0, .malloc 400] (N := LARGEST_SIZE) extension_default
    (by decide) (by decide +kernel) fun _ _ _ h => h
  obtain ⟨z', hrun', -⟩ := ht.exists_run (Sized LARGEST_SIZE) [.malloc 24, .malloc 24]
    (N := LARGEST_SIZE) extension_default (by decide) (by decide +kernel) fun _ _ _ h => h
  have hps : (Session.run EXTENSION_SIZE [.malloc 1000, .malloc 24, .free 0, .malloc 400]
      (.initial 16)).1 = [32, 1040, NULL, 32] := by decide +kernel
  have hps' : (Session.run EXTENSION_SIZE [.malloc 24, .malloc 24] (.initial 16)).1 = [32, 64] := by
    decide +kernel
  rw [hps] at hrun
  rw [hps'] at hrun'
  -- the second start and the allocations after it, computed
  have hcomp : ((runCalls EXTENSION_SIZE [.malloc 1000, .malloc 24, .free 0, .malloc 400]
      (.blank 16)).bind fun r => (reinit r.2.state).bind fun q =>
        (runCalls EXTENSION_SIZE [.malloc 24, .malloc 24] ⟨q.2, []⟩).map fun t =>
          (q.1, q.2.memStartBrk, q.2.bin VICTIM_BIN, t.1)) = some (0, 16, 424, [440, 472]) := by
    decide +kernel
  rw [hrun.runCalls, Option.bind_some] at hcomp
  obtain ⟨⟨p, s⟩, hs, hcomp⟩ := Option.bind_eq_some_iff.mp hcomp
  obtain ⟨⟨qs, z⟩, hz, hcomp⟩ := Option.map_eq_some_iff.mp hcomp
  simp only [Prod.mk.injEq] at hcomp
  obtain ⟨rfl, hbase, hvictim, rfl⟩ := hcomp
  have hrunz : Run EXTENSION_SIZE (Sized LARGEST_SIZE) ⟨s, []⟩
      ([Call.malloc 24, .malloc 24].map .call) [440, 472] z := by
    refine run_of_runCalls (fun c hc y => ?_) hz
    have hc' : c = .malloc 24 := by simpa using hc
    subst hc'
    show 24 ≤ LARGEST_SIZE
    decide
  refine ⟨y, s, z, z', hrun, hs, hvictim, hrunz, hrun', ?_⟩
  rintro ⟨s', hs', -, hans⟩
  obtain rfl : s = s' := (Prod.mk.inj (Option.some.inj (hs.symm.trans hs'))).2
  -- the answers are not those of a first start
  have hstart : (System.blank 16).state.memStartBrk = s.memStartBrk := by
    rw [hbase]
    decide +kernel
  have hps := ((hans _ _ _ _ hst hstart hrun').2 _ _ _ hrunz rfl).1
  exact absurd hps (by decide)

/-! ### What a stale bin does -/

section Stale

variable {α β γ : Type} {full : Prop} {ext n r b : ℕ} {s s' : State} {c p : Addr} {x : M α}
  {k : α → M β} {part : State → γ} {σ : Session}

/-- The action leaves a part of the state as it is. -/
def Leaves (part : State → γ) (x : M α) : Prop :=
  ∀ s a s', x s = some (a, s') → part s' = part s

theorem Leaves.bind (hx : Leaves part x) (hk : ∀ a, Leaves part (k a)) :
    Leaves part (x >>= k) := by
  intro s b s' h
  obtain ⟨a, s₁, h₁, h₂⟩ := M.bind_eq_some.mp h
  exact (hk a s₁ b s' h₂).trans (hx s a s₁ h₁)

theorem leaves_pure (a : α) : Leaves part (pure a : M α) := by
  intro s b s' h
  rw [(M.pure_eq_some h).2]

theorem leaves_look (f : State → α) : Leaves part (look f) := by
  intro s a s' h
  rw [(Prod.mk.inj (Option.some.inj h)).2]

theorem leaves_load (f : Field) (c : Addr) : Leaves part (load f c) := by
  intro s a s' h
  rw [(load_eq_some h).2.2]

theorem leaves_change {f : State → State} (hf : ∀ s, part (f s) = part s) :
    Leaves part (change f) := by
  intro s a s' h
  rw [← (Prod.mk.inj (Option.some.inj h)).2]
  exact hf s

theorem leaves_bins_store (f : Field) (c : Addr) (v : ℕ) : Leaves State.bin (store f c v) :=
  leaves_change fun _ => rfl

theorem leaves_mem_memSbrk (i : ℤ) : Leaves State.mem (memSbrk i) := by
  refine .bind (leaves_look _) fun _ => .bind (leaves_change fun _ => rfl) fun _ =>
    .bind (leaves_look _) fun _ => .bind (leaves_look _) fun _ => ?_
  split_ifs
  · exact .bind (leaves_change fun _ => rfl) fun _ => leaves_pure _
  · exact leaves_pure _

/-- A small request that is served from a bin or from the victim. -/
theorem myMalloc_of_small (hr : Request r) (hsmall : ¬ isLargeSize r)
    (h : myMalloc ext r s = some (p, s')) : ∃ c s₁, smallMalloc r s = some (c, s₁) ∧
      (c ≠ NULL → p = chunkToUserPointer c ∧ s'.bin = s₁.bin) := by
  have hle : r ≤ 249 := not_lt.mp hsmall
  have hround : requestSize r = r := requestSize_of_request hr (by omega)
  have hr0 : r ≠ 0 := (Nat.lt_of_lt_of_le (by decide) hr.least).ne'
  unfold myMalloc at h
  rw [if_neg hr0] at h
  simp only [hround, if_neg hsmall] at h
  obtain ⟨c, s₁, hserved, h⟩ := M.bind_eq_some.mp h
  refine ⟨c, s₁, hserved, fun hc => ?_⟩
  rw [if_neg hc, if_pos hc] at h
  obtain ⟨⟨⟩, s₂, hcurrent, h⟩ := M.bind_eq_some.mp h
  obtain ⟨next, s₃, hnext, h⟩ := M.bind_eq_some.mp h
  obtain ⟨⟨⟩, s₄, hprevious, h⟩ := M.bind_eq_some.mp h
  obtain ⟨rfl, rfl⟩ := M.pure_eq_some h
  have h₁ := ((leaves_load _ _).bind fun _ => leaves_bins_store _ _ _) _ _ _ hcurrent
  have h₂ : s₃.bin = s₂.bin := leaves_look _ _ _ _ hnext
  have h₃ := ((leaves_load _ _).bind fun _ => leaves_bins_store _ _ _) _ _ _ hprevious
  exact ⟨rfl, h₃.trans (h₂.trans h₁)⟩

/-- What is left in a small bin is handed out to the first request of its size. -/
theorem smallMalloc_of_bin (hne : s.bin (smallRequestIndex r) ≠ NULL)
    (h : smallMalloc r s = some (c, s')) : c = s.bin (smallRequestIndex r) ∧
      ∃ x, removeSmallChunk (s.bin (smallRequestIndex r)) s = some (x, s') := by
  rw [smallMalloc, M.bind_of_run (bin_apply s _), if_pos hne] at h
  obtain ⟨x, s₁, hremove, hret⟩ := M.bind_eq_some.mp h
  obtain ⟨rfl, rfl⟩ := M.pure_eq_some hret
  exact ⟨rfl, x, hremove⟩

/-- A victim with room is handed out to a small request with an empty bin. -/
theorem smallMalloc_of_victim (hbin : s.bin (smallRequestIndex r) = NULL)
    (hne : s.bin VICTIM_BIN ≠ NULL) (hroom : r ≤ s.chunkSize (s.bin VICTIM_BIN))
    (h : smallMalloc r s = some (c, s')) : c = s.bin VICTIM_BIN := by
  rw [smallMalloc, M.bind_of_run (bin_apply s _), if_neg (not_not.mpr hbin)] at h
  obtain ⟨v, s₁, hv, h⟩ := M.bind_eq_some.mp h
  have hvictim : v = s.bin VICTIM_BIN := by
    rw [victimMalloc, M.bind_of_run (bin_apply s _), if_pos hne] at hv
    obtain ⟨fits, s₂, hfits, hv⟩ := M.bind_eq_some.mp hv
    obtain rfl : s = s₂ := (Prod.mk.inj (Option.some.inj hfits)).2
    cases fits with
    | true =>
      -- split
      rw [if_pos rfl] at hv
      obtain ⟨a, s₃, -, hv⟩ := M.bind_eq_some.mp hv
      obtain ⟨⟨⟩, s₄, -, hv⟩ := M.bind_eq_some.mp hv
      exact (M.pure_eq_some hv).1.symm
    | false =>
      -- too small to split, but large enough
      rw [if_neg (by decide), M.bind_of_run (chunkSize_apply s _), if_pos hroom] at hv
      obtain ⟨⟨⟩, s₃, -, hv⟩ := M.bind_eq_some.mp hv
      exact (M.pure_eq_some hv).1.symm
  rw [hvictim, if_pos hne] at h
  exact (M.pure_eq_some h).1.symm

/-- A chunk whose header says that it is too large for any bin is not taken out of one. -/
theorem removeSmallChunk_stale (hc : c ≠ NULL) {x : ℕ}
    (hsize : NUM_OF_BINS ≤ smallRequestIndex (s.chunkSize c))
    (h : removeSmallChunk c s = some (x, s')) : s'.bin = s.bin := by
  obtain ⟨i, hi⟩ : ∃ i, i = smallRequestIndex (s.chunkSize c) := ⟨_, rfl⟩
  rw [removeSmallChunk, M.bind_of_run (chunkSize_apply s c), removeFromList, ← hi] at h
  rw [← hi] at hsize
  obtain ⟨one, s₁, hone, h⟩ := M.bind_eq_some.mp h
  have h₁ : s₁.bin = s.bin := by
    refine ((leaves_load _ _).bind fun _ => ?_) _ _ _ hone
    split_ifs
    · exact (leaves_load _ _).bind fun _ => leaves_pure _
    · exact leaves_pure _
  rw [← h₁]
  cases one with
  | true =>
    -- the only chunk of its list: the store to `bins` has no outcome
    rw [if_pos rfl] at h
    obtain ⟨_, s₂, hset, -⟩ := M.bind_eq_some.mp h
    rw [setBin, if_neg (not_lt.mpr hsize)] at hset
    cases hset
  | false =>
    -- `bins` is read out of range, and only links are rewritten
    rw [if_neg (by decide), M.bind_of_run (bin_apply s₁ i)] at h
    have hnull : s₁.bin i ≠ c := by
      rw [State.bin, if_neg (not_lt.mpr hsize)]
      exact hc.symm
    dsimp only at h
    rw [if_neg hnull] at h
    exact ((leaves_load _ _).bind fun _ => (leaves_load _ _).bind fun _ =>
      (leaves_bins_store _ _ _).bind fun _ => (leaves_load _ _).bind fun _ =>
      (leaves_load _ _).bind fun _ => (leaves_bins_store _ _ _).bind fun _ =>
      (leaves_bins_store _ _ _).bind fun _ => (leaves_bins_store _ _ _).bind fun _ =>
      leaves_pure _) _ _ _ h

/-- At a first start the first request is served from the start of the heap. -/
theorem Session.call_malloc_initial (hr : Request r) (hsmall : ¬ isLargeSize r) :
    ((Session.initial b).call ext (.malloc r)).1 = ALIGN b + 16 := by
  have hle : r ≤ 249 := not_lt.mp hsmall
  have hround : requestSize r = r := requestSize_of_request hr (by omega)
  have hr0 : r ≠ 0 := (Nat.lt_of_lt_of_le (by decide) hr.least).ne'
  have hserved : (Heap.initial b).smallMalloc r = none :=
    smallMalloc_eq_none_iff.mpr ⟨rfl, fun v hv => (by cases hv), fun _ _ _ => rfl⟩
  have hend : (Heap.initial b).endMalloc ext r =
      some (ALIGN b, { Heap.initial b with
        chunks := carve (ALIGN b) r (Heap.initial b).chunks }) :=
    if_pos (show r + 32 ≤ 39184 by omega)
  have hmalloc : (Session.initial b).heap.malloc ext (requestSize r) =
      some (ALIGN b, Heap.occupy (ALIGN b) { Heap.initial b with
        chunks := carve (ALIGN b) r (Heap.initial b).chunks }) := by
    show (Heap.initial b).malloc ext (requestSize r) = _
    rw [hround, Heap.malloc, supply, if_neg hsmall, hserved, hend]
    rfl
  rw [Session.call, if_neg hr0, hmalloc]

/-- Two requests made one after the other. -/
theorem runCalls_malloc_twice {ps : List Addr} {y z : System}
    (h : runCalls ext [.malloc r, .malloc r] y = some (ps, z)) :
    ∃ (p q : ℕ) (s₁ s₂ : State), myMalloc ext r y.state = some (p, s₁) ∧
      myMalloc ext r s₁ = some (q, s₂) ∧ ps = [p, q] ∧
      (p ≠ NULL → q ≠ NULL → z.live = y.live ++ [⟨p, r⟩, ⟨q, r⟩]) := by
  obtain ⟨⟨_, _⟩, hcall₁, h⟩ := Option.bind_eq_some_iff.mp h
  obtain ⟨⟨_, _⟩, h, hps⟩ := Option.bind_eq_some_iff.mp h
  obtain ⟨⟨_, _⟩, hcall₂, h⟩ := Option.bind_eq_some_iff.mp h
  obtain ⟨⟨p, s₁⟩, hp, he⟩ := Option.map_eq_some_iff.mp hcall₁
  obtain ⟨rfl, rfl⟩ := Prod.mk.inj he
  obtain ⟨⟨q, s₂⟩, hq, he⟩ := Option.map_eq_some_iff.mp hcall₂
  obtain ⟨rfl, rfl⟩ := Prod.mk.inj he
  obtain ⟨rfl, rfl⟩ := Prod.mk.inj (Option.some.inj h)
  obtain ⟨rfl, rfl⟩ := Prod.mk.inj (Option.some.inj hps)
  exact ⟨p, q, s₁, s₂, hp, hq, rfl, fun hp0 hq0 => by simp [hp0, hq0]⟩

/-- At a first start two requests get two blocks, the first of them at the start of the heap. -/
theorem exists_run_malloc_twice (hr : Request r) (hsmall : ¬ isLargeSize r) (h0 : 0 < b)
    (hspan : b + MAX_HEAP + 2 ^ 31 ≤ 2 ^ 64) : ∃ (y' : System) (q : ℕ),
    Run EXTENSION_SIZE (Sized LARGEST_SIZE) (.blank b) ([Call.malloc r, .malloc r].map .call)
      [ALIGN b + 16, q] y' ∧ q ≠ ALIGN b + 16 := by
  have h24 := hr.least
  have hsize : r ≤ LARGEST_SIZE := (not_lt.mp hsmall).trans (by decide)
  obtain ⟨-, ht⟩ := tracks_blank EXTENSION_SIZE h0 hspan
  obtain ⟨y', hrun, ht'⟩ := ht.exists_run (Sized LARGEST_SIZE) [.malloc r, .malloc r]
    (N := LARGEST_SIZE) extension_default (by decide) ⟨hsize, hsize, trivial⟩ fun _ _ _ h => h
  obtain ⟨p, q, s₁, s₂, -, -, hps, hlive⟩ := runCalls_malloc_twice hrun.runCalls
  have hp : p = ALIGN b + 16 :=
    (List.cons.inj hps).1.symm.trans (Session.call_malloc_initial hr hsmall)
  have hp0 : p ≠ NULL := by
    rw [hp]
    exact Nat.succ_ne_zero _
  rw [hps, hp] at hrun
  refine ⟨y', q, hrun, fun hq => ?_⟩
  have hlive' : y'.live = [⟨p, r⟩, ⟨q, r⟩] := hlive hp0 (hq.trans hp.symm ▸ hp0)
  have hapart : p + r ≤ q ∨ q + r ≤ p := ht'.live_apart (j := 0) (k := 1) (a := ⟨p, r⟩)
    (b := ⟨q, r⟩) (by rw [hlive']; rfl) (by rw [hlive']; rfl) (by decide)
  omega

/-- Requests answered as at a first start get two blocks, the first at the start of the heap. -/
theorem AnswersFresh.malloc_twice (h : AnswersFresh ⟨s, []⟩) (hr : Request r)
    (hsmall : ¬ isLargeSize r) (hb : s.memStartBrk = b) (h0 : 0 < b)
    (hspan : b + MAX_HEAP + 2 ^ 31 ≤ 2 ^ 64) : ∃ (q : ℕ) (s₁ s₂ : State),
      myMalloc EXTENSION_SIZE r s = some (ALIGN b + 16, s₁) ∧
      myMalloc EXTENSION_SIZE r s₁ = some (q, s₂) ∧ q ≠ ALIGN b + 16 := by
  obtain ⟨hst, hbase⟩ := started_blank h0 hspan
  obtain ⟨y', q, hrun, hq⟩ := exists_run_malloc_twice hr hsmall h0 hspan
  obtain ⟨⟨z, hrunz⟩, -⟩ := h _ _ _ _ hst (hbase.trans hb.symm) hrun
  obtain ⟨p₁, p₂, s₁, s₂, hp₁, hp₂, hps, -⟩ := runCalls_malloc_twice hrunz.runCalls
  obtain ⟨hps₁, hps⟩ := List.cons.inj hps
  obtain ⟨rfl, -⟩ := List.cons.inj hps
  exact ⟨_, s₁, s₂, hps₁ ▸ hp₁, hp₂, hq⟩

/-- `my_init` writes one word of memory, the header of the first chunk. -/
theorem myInit_mem (h : myInit s = some (n, s')) {x : ℕ}
    (hx : x < s'.bin END_OF_HEAP_BIN + 8 ∨ s'.bin END_OF_HEAP_BIN + 16 ≤ x) :
    s'.mem x = s.mem x := by
  rw [myInit, M.bind_of_run (look_apply s _)] at h
  dsimp only at h
  have hlast : ∀ t : State, (do
      let firstChunk ← memSbrk (toInt (INITIAL_CHUNK_SIZE + 2 * 8))
      store .currentSize firstChunk INITIAL_CHUNK_SIZE
      setPreviousInuse firstChunk
      setBin END_OF_HEAP_BIN firstChunk
      return 0) t = some (n, s') → s'.mem x = t.mem x := by
    intro t ht
    obtain ⟨a, t₁, hsbrk, ht⟩ := M.bind_eq_some.mp ht
    rw [M.bind_of_run (store_apply ..), M.bind_of_run (setPreviousInuse_apply ..),
      M.bind_of_run (setBin_apply _ _ _ endOfHeapBin_lt)] at ht
    obtain ⟨-, rfl⟩ := M.pure_eq_some ht
    rw [State.bin_setBin_same (by decide)] at hx
    rw [State.setBin_mem, State.store_mem_of_notMem hx, State.store_mem_of_notMem hx,
      leaves_mem_memSbrk _ _ _ _ hsbrk]
  split_ifs at h
  · obtain ⟨_, t, hsbrk, ht⟩ := M.bind_eq_some.mp h
    rw [hlast t ht, leaves_mem_memSbrk _ _ _ _ hsbrk]
  · exact hlast s h

/-- What is there after initialising again. -/
theorem Tracks.reinit_spec (ht : Tracks full ext y σ) (hs : reinit y.state = some (0, s)) :
    ∃ b : ℕ, 0 < b ∧ b + MAX_HEAP + 2 ^ 31 ≤ 2 ^ 64 ∧ b = σ.heap.start ∧ s.memStartBrk = b ∧
      Headers s (Heap.initial b).chunks ∧
      (∀ m, m ≠ END_OF_HEAP_BIN → s.bin m = y.state.bin m) ∧
      ∀ x, x < ALIGN b + 8 ∨ ALIGN b + 16 ≤ x → s.mem x = y.state.mem x := by
  have ha := ht.good.inv.shape.arena
  obtain ⟨p, s₀, hinit, rfl, hheaders, htop, hbins, hstart, -⟩ := myInit_spec ht.fresh_reset
  have hreinit : reinit y.state = some (0, s₀) := by rw [reinit_apply, hinit]
  obtain rfl : s₀ = s := (Prod.mk.inj (Option.some.inj (hreinit.symm.trans hs))).2
  have hb : y.state.memStartBrk = σ.heap.start := ht.follows.models.memStartBrk
  have hspan := ha.span
  rw [ha.limit_eq] at hspan
  refine ⟨σ.heap.start, ha.start_pos, hspan, rfl, hstart.trans hb, hb ▸ hheaders, hbins,
    fun x hx => myInit_mem hinit ?_⟩
  rw [htop]
  show x < ALIGN y.state.memStartBrk + 8 ∨ ALIGN y.state.memStartBrk + 16 ≤ x
  rwa [hb]

/-- **A stale small bin does harm.** If a small bin is not empty at the end of a run, then after
initialising again two requests of its size are not answered as at a first start, what lies behind
the last bin being read as `NULL`. -/
theorem not_answersFresh_of_small (hy : Reachable EXTENSION_SIZE (Sized LARGEST_SIZE) y)
    (hs : reinit y.state = some (0, s)) (h3 : 3 ≤ n) (hn : n < 32) (hne : y.state.bin n ≠ NULL) :
    ¬ AnswersFresh ⟨s, []⟩ := by
  intro hfresh
  obtain ⟨σ, ht⟩ := hy.tracks_default
  have hm := ht.follows.models
  have hi := ht.good.inv
  obtain ⟨b, h0, hspan, -, hstart, hheaders, hbins, -⟩ := ht.reinit_spec hs
  have hr : Request (8 * n) := ⟨Nat.dvd_mul_right 8 n, by omega⟩
  have hsmall : ¬ isLargeSize (8 * n) := not_lt.mpr (show 8 * n ≤ 249 by omega)
  have hidx : smallRequestIndex (8 * n) = n := by
    rw [smallRequestIndex_eq hsmall]
    omega
  have hbin : s.bin n = y.state.bin n := hbins n (by unfold END_OF_HEAP_BIN; omega)
  obtain ⟨c, hc, hca⟩ := hm.bin_mem hi (by omega) (by unfold NUM_OF_BINS; omega) hne
  have hptr := (hi.shape.ptr hc).2
  obtain ⟨q, s₁, s₂, hfirst, hsecond, hq⟩ := hfresh.malloc_twice hr hsmall hstart h0 hspan
  -- the first request gets the chunk left, which must be the first one of the heap
  have hne₀ : s.bin (smallRequestIndex (8 * n)) ≠ NULL := by rwa [hidx, hbin]
  obtain ⟨a, t, ha, hanswer⟩ := myMalloc_of_small hr hsmall hfirst
  obtain ⟨rfl, x, hremove⟩ := smallMalloc_of_bin hne₀ ha
  obtain ⟨h₁, hsame⟩ := hanswer hne₀
  rw [hidx, hbin, ← hca] at h₁ hremove
  rw [hptr] at h₁
  have haddr : c.addr = ALIGN b := by
    have h₂ : (ALIGN b : ℕ) + 16 = c.addr + 16 := h₁
    omega
  -- its header is that of the whole heap, so it stays in its bin and is handed out once more
  have hsize : s.chunkSize c.addr = INITIAL_CHUNK_SIZE := by
    obtain ⟨d, hd⟩ : ∃ d : Chunk, d = ⟨ALIGN b, INITIAL_CHUNK_SIZE, .top, true⟩ := ⟨_, rfl⟩
    have hmem : d ∈ (Heap.initial b).chunks := List.mem_singleton.mpr hd
    have hs₀ : Shape EXTENSION_SIZE _ (Heap.initial b) :=
      (Session.good_initial h0 hspan).inv.shape
    have h₂ := (hs₀.fits hmem).chunkSize (hheaders d hmem).word
    rw [hd] at h₂
    rw [haddr]
    exact h₂
  have hc0 : c.addr ≠ NULL := by rwa [hca]
  have hkept : t.bin = s.bin := by
    refine removeSmallChunk_stale hc0 ?_ hremove
    rw [hsize]
    decide
  have hbin₁ : s₁.bin n = c.addr := by rw [hsame, hkept, hbin, hca]
  have hne₁ : s₁.bin (smallRequestIndex (8 * n)) ≠ NULL := by rwa [hidx, hbin₁]
  obtain ⟨a, u, ha, hanswer⟩ := myMalloc_of_small hr hsmall hsecond
  obtain ⟨rfl, -⟩ := smallMalloc_of_bin hne₁ ha
  have h₂ := (hanswer hne₁).1
  rw [hidx, hbin₁, hptr] at h₂
  exact hq (h₂.trans (by rw [haddr]))

/-- **A stale victim does harm** as well, unless it begins where the new heap does: the first small
request is served from it. -/
theorem not_answersFresh_of_victim (hy : Reachable EXTENSION_SIZE (Sized LARGEST_SIZE) y)
    (hs : reinit y.state = some (0, s)) (hne : y.state.bin VICTIM_BIN ≠ NULL)
    (hfirst : y.state.bin VICTIM_BIN ≠ y.state.firstChunk) : ¬ AnswersFresh ⟨s, []⟩ := by
  by_cases h3 : y.state.bin 3 = NULL
  swap
  · exact not_answersFresh_of_small hy hs le_rfl (by decide) h3
  intro hfresh
  obtain ⟨σ, ht⟩ := hy.tracks_default
  have hm := ht.follows.models
  have hi := ht.good.inv
  obtain ⟨b, h0, hspan, hb, hstart, -, hbins, hmem⟩ := ht.reinit_spec hs
  obtain ⟨c, hc, hca⟩ := hm.bin_mem hi (by decide) (by decide) hne
  have hptr := (hi.shape.ptr hc).2
  have hbin : s.bin VICTIM_BIN = c.addr := (hbins _ (by decide)).trans hca.symm
  have hne' : s.bin VICTIM_BIN ≠ NULL := by rwa [hbin, hca]
  have hr : Request 24 := ⟨by decide, le_rfl⟩
  have hsmall : ¬ isLargeSize 24 := by decide
  have hlow : ALIGN b = σ.heap.first := by
    rw [← hm.toRep.firstChunk_eq hi.shape, State.firstChunk, hm.memStartBrk, hb]
  have haddr : ALIGN b ≠ c.addr := by
    rw [hca, hlow, ← hm.toRep.firstChunk_eq hi.shape]
    exact hfirst.symm
  -- its header is the old one, and says that there is room
  have hsize : s.chunkSize c.addr = c.size := by
    have h₁ := (hi.shape.bounds hc).1
    have h₂ := hi.shape.addr_aligned hc
    have h₃ := hi.shape.arena.first_aligned
    rw [← hlow] at h₁ h₃
    have hload : s.load .currentSize c.addr = y.state.load .currentSize c.addr :=
      State.load_congr fun x h₄ _ => hmem x (.inr (by simp only [Field.offset] at h₄; omega))
    rw [← hm.toRep.chunkSize hi.shape hc, State.chunkSize, hload]
    rfl
  have hroom : 24 ≤ c.size := by
    by_cases htop : c.status = .top
    · exact (hi.shape.sizes c hc).topLeast htop
    · exact (hi.shape.sizes c hc).least htop
  obtain ⟨q, s₁, s₂, hserved, -⟩ := hfresh.malloc_twice hr hsmall hstart h0 hspan
  obtain ⟨a, t, ha, hanswer⟩ := myMalloc_of_small hr hsmall hserved
  have hempty : s.bin (smallRequestIndex 24) = NULL := (hbins 3 (by decide)).trans h3
  obtain rfl := smallMalloc_of_victim hempty hne' (by rwa [hbin, hsize]) ha
  have h₁ := (hanswer hne').1
  rw [hbin, hptr] at h₁
  have h₂ : (ALIGN b : ℕ) + 16 = c.addr + 16 := h₁
  exact haddr (Nat.add_right_cancel h₂)

end Stale

end Dlmalloc
