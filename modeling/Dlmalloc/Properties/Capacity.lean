import Dlmalloc.Abstract.Growth
import Dlmalloc.Refine.System

/-!
# When calls fail

The heap only grows, and by no more than what was asked for (`run_footprint`). A call fails only
where the heap ends (`fails_only_at_limit`), so a run whose requests sum up to less than the heap
has calls that all succeed.
-/

namespace Dlmalloc

open Heap

section Limit

variable {full : Prop} {ext : ℕ} {y y' : System} {σ σ' : Session} {es : List Event}
  {ps : List Addr} {c : Call}

/-- What is left of the simulated heap, in the state and in the session. -/
theorem Tracks.bounds (ht : Tracks full ext y σ) :
    y.state.memStartBrk = σ.heap.start ∧ y.state.memBrk = σ.heap.brk ∧
      y.state.memMaxAddr = σ.heap.limit :=
  ⟨ht.follows.models.memStartBrk, ht.follows.models.memBrk, ht.follows.models.memMaxAddr⟩

/-- A call fails only if what it asks for, rounded and with `EXTENSION_SIZE`, reaches past the
memory set aside for the heap. -/
theorem fails_only_at_limit (hy : Reachable EXTENSION_SIZE (Sized LARGEST_SIZE) y)
    (hc : c.Valid LARGEST_SIZE y.live) (hasks : ∃ size, c.asks = some size) (hpos : c ≠ .malloc 0)
    (hrun : c.run EXTENSION_SIZE y = some (NULL, y')) :
    y.state.memMaxAddr < y.state.memBrk + c.charge EXTENSION_SIZE := by
  obtain ⟨σ, ht⟩ := hy.tracks_default
  obtain ⟨y₁, hrun₁, -⟩ := ht.call extension_default (by decide) hc
  obtain ⟨-, hbrk, hmax⟩ := ht.bounds
  have hnull : (σ.call EXTENSION_SIZE c).1 = NULL :=
    (congrArg Prod.fst (Option.some.inj (hrun.symm.trans hrun₁))).symm
  rw [hbrk, hmax]
  by_contra hroom
  exact ht.good.call_ne_null (by decide) (ht.follows.live ▸ hc) hasks hpos (not_lt.mp hroom) hnull

/-- The largest size asks for more than the heap. -/
theorem fails_only_at_limit_blank :
    ∃ y', (Call.malloc LARGEST_SIZE).run EXTENSION_SIZE (.blank 16) = some (NULL, y') ∧
      (System.blank 16).state.memMaxAddr <
        (System.blank 16).state.memBrk + (Call.malloc LARGEST_SIZE).charge EXTENSION_SIZE := by
  obtain ⟨-, ht⟩ := tracks_blank EXTENSION_SIZE (b := 16) (by decide) (by decide)
  have hc : (Call.malloc LARGEST_SIZE).Valid LARGEST_SIZE (System.blank 16).live := by decide
  obtain ⟨y', hrun, -⟩ := ht.call extension_default (by decide) hc
  have hnull : ((Session.initial 16).call EXTENSION_SIZE (.malloc LARGEST_SIZE)).1 = NULL := by
    decide +kernel
  rw [hnull] at hrun
  exact ⟨y', hrun, fails_only_at_limit (reachable_blank (b := 16) (by decide) (by decide)) hc
    ⟨_, rfl⟩ (by decide) hrun⟩

/-- Over a run the break does not go down, and it goes up by at most what the calls ask for, each
size rounded and with `EXTENSION_SIZE`. If the heap has room for all that, no call fails but an
allocation of no bytes. -/
theorem run_footprint (hy : Reachable EXTENSION_SIZE (Sized LARGEST_SIZE) y)
    (hrun : Run EXTENSION_SIZE (Sized LARGEST_SIZE) y es ps y') :
    y.state.memBrk ≤ y'.state.memBrk ∧
      y'.state.memBrk ≤ y.state.memBrk + charges EXTENSION_SIZE (calls es) ∧
      (y.state.memBrk + charges EXTENSION_SIZE (calls es) ≤ y.state.memMaxAddr →
        List.Forall₂ (fun c p => (∃ size, c.asks = some size) → c ≠ .malloc 0 → p ≠ NULL)
          (calls es) ps) := by
  obtain ⟨σ, ht⟩ := hy.tracks_default
  have hval : ∀ (y : System) (c : Call), Sized LARGEST_SIZE y c → c.Valid LARGEST_SIZE y.live :=
    fun _ _ h => h
  obtain ⟨ht', rfl⟩ := hrun.tracks ht extension_default (by decide) hval False.elim
  have hv := hrun.valid ht extension_default (by decide) hval
  have hgrows := ht.good.run_grows extension_default (by decide) hv
  obtain ⟨-, hbrk, hmax⟩ := ht.bounds
  obtain ⟨-, hbrk', -⟩ := ht'.bounds
  rw [hbrk, hbrk', hmax]
  exact ⟨hgrows.brk, hgrows.most,
    fun hroom => ht.good.run_ne_null extension_default (by decide) (by decide) hv hroom⟩

theorem run_footprint_blank : ∃ ps y',
    Run EXTENSION_SIZE (Sized LARGEST_SIZE) (.blank 16) [.call (.malloc 100), .call (.malloc 24)]
      ps y' ∧ List.Forall₂ (fun c p => (∃ size, c.asks = some size) → c ≠ .malloc 0 → p ≠ NULL)
        [Call.malloc 100, .malloc 24] ps := by
  obtain ⟨-, ht⟩ := tracks_blank EXTENSION_SIZE (b := 16) (by decide) (by decide)
  obtain ⟨y', hrun, -⟩ := ht.exists_run (Sized LARGEST_SIZE) [.malloc 100, .malloc 24]
    (N := LARGEST_SIZE) extension_default (by decide) (by decide +kernel) fun _ _ _ h => h
  obtain ⟨-, hbrk, hmax⟩ := ht.bounds
  have hroom := (run_footprint (reachable_blank (b := 16) (by decide) (by decide)) hrun).2.2
  rw [hbrk, hmax] at hroom
  exact ⟨_, y', hrun, hroom (by decide)⟩

end Limit

end Dlmalloc
