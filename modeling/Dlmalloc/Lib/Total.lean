import Mathlib.Logic.Basic

/-!
# Total correctness of state-passing programs

A program over states `σ` is a `StateT σ Option` action: it either returns a value and a state,
or it does not return (`none`: a loop ran out of fuel). `Returns x s Q` says that `x`, started in
`s`, does return, and that what it returns satisfies `Q`. Proofs about a program follow its text:
`Returns.bind` passes a statement, `Returns.mono` weakens what was proved of it.
-/

variable {σ α β : Type}

/-- `x` started in `s` returns, with a value and a state that satisfy `Q`. -/
def Returns (x : StateT σ Option α) (s : σ) (Q : α → σ → Prop) : Prop :=
  ∃ a s', x s = some (a, s') ∧ Q a s'

namespace Returns

variable {x : StateT σ Option α} {f : α → StateT σ Option β} {s s' : σ} {a : α}
  {Q Q' : α → σ → Prop} {R : β → σ → Prop}

theorem intro {t : σ} (h : x s = some (a, t)) (hq : Q a t) : Returns x s Q := ⟨a, t, h, hq⟩

theorem pure (h : Q a s) : Returns (Pure.pure a) s Q := ⟨a, s, rfl, h⟩

theorem mono (h : Returns x s Q) (hq : ∀ a s', Q a s' → Q' a s') : Returns x s Q' := by
  obtain ⟨a, s', hx, h⟩ := h
  exact ⟨a, s', hx, hq a s' h⟩

theorem bind (h : Returns x s fun a s' => Returns (f a) s' R) : Returns (x >>= f) s R := by
  obtain ⟨a, s', hx, b, s'', hf, hr⟩ := h
  refine ⟨b, s'', ?_, hr⟩
  change (x s).bind (fun p => f p.1 p.2) = _
  rw [hx]
  exact hf

/-- A statement whose outcome is known is passed by computing it. -/
theorem bind_of_eq (h : x s = some (a, s')) (hf : Returns (f a) s' R) :
    Returns (x >>= f) s R :=
  bind ⟨a, s', h, hf⟩

/-- A statement with a known specification is passed by its postcondition. -/
theorem bind_of (h : Returns x s Q) (hf : ∀ a s', Q a s' → Returns (f a) s' R) :
    Returns (x >>= f) s R :=
  bind (h.mono hf)

/-- Two statements with a known specification are passed at once. -/
theorem bind_bind_of {γ : Type} {g : β → StateT σ Option γ} {P : β → σ → Prop}
    {R' : γ → σ → Prop} (h : Returns (x >>= f) s P)
    (hg : ∀ b s', P b s' → Returns (g b) s' R') :
    Returns (x >>= fun a => f a >>= g) s R' := by
  rw [← bind_assoc]
  exact h.bind_of hg

/-- A program that returns returns one thing. -/
theorem elim (h : Returns x s Q) (hx : x s = some (a, s')) : Q a s' := by
  obtain ⟨b, t, hb, hq⟩ := h
  rw [hx] at hb
  obtain ⟨rfl, rfl⟩ := Prod.mk.inj (Option.some.inj hb)
  exact hq

end Returns
