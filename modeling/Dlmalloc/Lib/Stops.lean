import Dlmalloc.Lib.Total
import Mathlib.Tactic.Common

/-!
# Programs that may stop

A program with assertions is an `ExceptT ε` over a state-passing program: it returns, or does not
return, or stops with an `ε` at an assertion that fails. `Stops x s` says that `x`, started in `s`,
stops. Proofs follow the text of the program: `stops_bind_of_run` passes a statement that does not
stop, `stops_bind` splits at one that may. `Erases x y` says that `x` is `y` with assertions added.
-/

variable {ε σ α β : Type}

/-- `x` started in `s` stops. -/
def Stops (x : ExceptT ε (StateT σ Option) α) (s : σ) : Prop :=
  ∃ e t, x.run s = some (.error e, t)

/-- What `x` does without stopping, `y` does. -/
def Erases (x : ExceptT ε (StateT σ Option) α) (y : StateT σ Option α) : Prop :=
  ∀ ⦃s a t⦄, x.run s = some (.ok a, t) → y s = some (a, t)

/-- An assertion: a test of the state, and a stop with `e` if it fails. -/
def assertOr (e : ε) (p : σ → Prop) [DecidablePred p] : ExceptT ε (StateT σ Option) Unit :=
  ExceptT.mk fun s => some (if p s then .ok () else .error e, s)

section Stops

variable {x x' : ExceptT ε (StateT σ Option) α} {f : α → ExceptT ε (StateT σ Option) β}
  {k : Unit → ExceptT ε (StateT σ Option) β} {y : StateT σ Option α} {g : α → StateT σ Option β}
  {p : σ → Prop} [DecidablePred p] {s t : σ} {a : α} {e : ε}

theorem run_bind : (x >>= f).run s = (x.run s).bind fun o => ExceptT.bindCont f o.1 o.2 := rfl

theorem run_lift_eq : (liftM y : ExceptT ε (StateT σ Option) α).run s =
    (y s).map fun o => (Except.ok o.1, o.2) := by
  show ((y s).bind fun o => some (Except.ok o.1, o.2)) = _
  rw [Option.map_eq_bind]
  rfl

theorem run_lift (h : y s = some (a, t)) :
    (liftM y : ExceptT ε (StateT σ Option) α).run s = some (.ok a, t) := by
  rw [run_lift_eq, h]
  rfl

theorem run_assertOr : (assertOr e p).run s = some (if p s then .ok () else .error e, s) := rfl

/-- A statement that may stop: the run stops there or after it. -/
theorem stops_bind : Stops (x >>= f) s ↔
    Stops x s ∨ ∃ a t, x.run s = some (.ok a, t) ∧ Stops (f a) t := by
  unfold Stops
  rw [run_bind]
  cases hx : x.run s with
  | none => simp
  | some o =>
    obtain ⟨v, t⟩ := o
    cases v with
    | ok a =>
      have h : ExceptT.bindCont f (.ok a) t = (f a).run t := rfl
      simp [h]
    | error e =>
      have h : ExceptT.bindCont f (.error e) t = some (.error e, t) := rfl
      simp [h]

/-- A statement whose outcome is known is passed by computing it. -/
theorem stops_bind_of_run (h : x.run s = some (.ok a, t)) : Stops (x >>= f) s ↔ Stops (f a) t := by
  have hno : ¬ Stops x s := by
    rintro ⟨e, u, hu⟩
    rw [h] at hu
    cases hu
  rw [stops_bind, or_iff_right hno]
  constructor
  · rintro ⟨b, u, hu, hf⟩
    rw [h] at hu
    cases hu
    exact hf
  · intro hf
    exact ⟨a, t, h, hf⟩

theorem stops_lift_bind (h : y s = some (a, t)) : Stops (liftM y >>= f) s ↔ Stops (f a) t :=
  stops_bind_of_run (run_lift h)

/-- An assertion that holds is passed. -/
theorem stops_assertOr_bind (h : p s) : Stops (assertOr e p >>= k) s ↔ Stops (k ()) s :=
  stops_bind_of_run (by rw [run_assertOr, if_pos h])

/-- An assertion that fails stops the run. -/
theorem stops_assertOr_of_not (h : ¬ p s) : Stops (assertOr e p >>= k) s :=
  stops_bind.mpr (.inl ⟨e, s, by rw [run_assertOr, if_neg h]⟩)

/-- A statement without assertions does not stop. -/
theorem not_stops_lift : ¬ Stops (liftM y : ExceptT ε (StateT σ Option) α) s := by
  rintro ⟨e, t, h⟩
  rw [run_lift_eq, Option.map_eq_some_iff] at h
  obtain ⟨o, -, ho⟩ := h
  cases ho

theorem not_stops_pure : ¬ Stops (pure a : ExceptT ε (StateT σ Option) α) s := by
  rintro ⟨e, t, h⟩
  cases h

/-! ### What is left without the assertions -/

theorem Erases.lift : Erases (liftM y : ExceptT ε (StateT σ Option) α) y := by
  intro s a t h
  rw [run_lift_eq, Option.map_eq_some_iff] at h
  obtain ⟨⟨b, u⟩, hy, ho⟩ := h
  cases ho
  exact hy

theorem Erases.pure : Erases (Pure.pure a : ExceptT ε (StateT σ Option) α) (Pure.pure a) := by
  intro s b t h
  cases h
  rfl

theorem Erases.bind (hx : Erases x y) (hf : ∀ a, Erases (f a) (g a)) :
    Erases (x >>= f) (y >>= g) := by
  intro s b u h
  rw [run_bind, Option.bind_eq_some_iff] at h
  obtain ⟨⟨v, t⟩, h1, h2⟩ := h
  cases v with
  | error e => cases h2
  | ok a =>
    show (y s).bind (fun o => g o.1 o.2) = _
    rw [hx h1]
    exact hf a h2

/-- An assertion is erased to nothing. -/
theorem Erases.assertOr {z : StateT σ Option β} (hk : Erases (k ()) z) :
    Erases (assertOr e p >>= k) z := by
  intro s b u h
  rw [run_bind, run_assertOr, Option.bind_some] at h
  split_ifs at h with hp
  · exact hk h
  · cases h

end Stops
