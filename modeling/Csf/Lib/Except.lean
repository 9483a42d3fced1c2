import Mathlib.Tactic.Common

/-!
# Inversion rules for `Except`

A computation written with `do` in `Except` succeeds exactly when every step
of it does. `bind_eq_ok` peels one step off.
-/

namespace Csf.Lib

universe u v

variable {ε : Type u} {α β : Type v}

/-- A sequence succeeds when its head does and its tail does on the value. -/
@[simp] theorem bind_eq_ok {x : Except ε α} {f : α → Except ε β} {b : β} :
    (x >>= f) = .ok b ↔ ∃ a, x = .ok a ∧ f a = .ok b := by
  cases x with
  | error e => simp [bind, Except.bind]
  | ok a => simp [bind, Except.bind]

@[simp] theorem ok_bind (a : α) (f : α → Except ε β) : (Except.ok a >>= f) = f a := rfl

@[simp] theorem error_bind (e : ε) (f : α → Except ε β) :
    (Except.error e >>= f) = .error e := rfl

@[simp] theorem pure_eq_ok {a b : α} : (pure a : Except ε α) = .ok b ↔ a = b := by
  simp [pure, Except.pure]

@[simp] theorem map_eq_ok {x : Except ε α} {f : α → β} {b : β} :
    x.map f = .ok b ↔ ∃ a, x = .ok a ∧ f a = b := by
  cases x with
  | error e => simp [Except.map]
  | ok a => simp [Except.map]

/-- What each step of a fold keeps, the fold keeps. -/
theorem foldlM_keeps {P : β → Prop} {γ : Type*} {f : β → γ → Except ε β} {l : List γ} {b b' : β}
    (h : l.foldlM f b = .ok b') (hb : P b)
    (hstep : ∀ x ∈ l, ∀ b b', P b → f b x = .ok b' → P b') : P b' := by
  induction l generalizing b with
  | nil => exact Except.ok.inj h ▸ hb
  | cons x l ih =>
      rw [List.foldlM_cons, bind_eq_ok] at h
      obtain ⟨b₁, hfirst, hrest⟩ := h
      exact ih hrest (hstep x List.mem_cons_self b b₁ hb hfirst)
        fun y hy => hstep y (List.mem_cons_of_mem _ hy)

end Csf.Lib
