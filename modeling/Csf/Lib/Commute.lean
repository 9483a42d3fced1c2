import Mathlib.Data.List.Basic

/-!
# Runs of actions that commute

Each action has a key, and neighbouring actions with different keys may change places.
Then what a run comes to is settled by the order of the actions of each key alone:
`Run.reorder` takes a run of one sequence to a run of any other that keeps these orders.
-/

namespace Csf.Lib.Commute

universe u v w

variable {σ : Type u} {α : Type v} {κ : Type w}

/-- A step relation does a sequence of actions, one after the other. -/
inductive Run (step : σ → α → σ → Prop) : σ → List α → σ → Prop
  | nil {s : σ} : Run step s [] s
  | cons {s s₁ s' : σ} {a : α} {rest : List α} (ha : step s a s₁) (hrest : Run step s₁ rest s') :
      Run step s (a :: rest) s'

/-- Neighbouring actions with different keys may change places. -/
def Commutes (step : σ → α → σ → Prop) (key : α → κ) : Prop :=
  ∀ ⦃s s₁ s₂ : σ⦄ ⦃a b : α⦄, key a ≠ key b → step s a s₁ → step s₁ b s₂ →
    ∃ s₃, step s b s₃ ∧ step s₃ a s₂

/-- Two sequences have the same actions of each key, in the same order. -/
def SameOrder [DecidableEq κ] (key : α → κ) (xs ys : List α) : Prop :=
  ∀ k, xs.filter (fun a => key a = k) = ys.filter (fun a => key a = k)

variable {step : σ → α → σ → Prop} {key : α → κ}

/-- An action may be done before the actions with other keys. -/
theorem Run.moveFront (hc : Commutes step key) {a : α} {after : List α} : ∀ {before : List α}
    {s s' : σ}, Run step s (before ++ a :: after) s' → (∀ b ∈ before, key b ≠ key a) →
    Run step s (a :: (before ++ after)) s' := by
  intro before
  induction before with
  | nil => exact fun hrun _ => hrun
  | cons b before ih =>
      intro s s' hrun hkeys
      cases hrun with
      | cons hb hrest =>
          -- `a` comes to the front of the rest, and then changes places with `b`
          cases ih hrest fun c hc' => hkeys c (List.mem_cons_of_mem _ hc') with
          | cons ha hrest' =>
              obtain ⟨s₃, ha', hb'⟩ := hc (hkeys b List.mem_cons_self) hb ha
              exact .cons ha' (.cons hb' hrest')

section

variable [DecidableEq κ] {xs ys : List α} {a : α}

theorem SameOrder.nil (h : SameOrder key xs []) : xs = [] := by
  cases xs with
  | nil => rfl
  | cons b xs =>
      have hb := h (key b)
      rw [List.filter_cons, if_pos (decide_eq_true rfl), List.filter_nil] at hb
      cases hb

/-- The first action of one sequence is the first of its key in the other. -/
theorem SameOrder.cons (h : SameOrder key xs (a :: ys)) : ∃ before after,
    xs = before ++ a :: after ∧ (∀ b ∈ before, key b ≠ key a) ∧
      SameOrder key (before ++ after) ys := by
  have hfirst := h (key a)
  rw [List.filter_cons (x := a), if_pos (decide_eq_true rfl), List.filter_eq_cons_iff] at hfirst
  obtain ⟨before, after, rfl, hbefore, -, -⟩ := hfirst
  have hkeys : ∀ b ∈ before, key b ≠ key a := by
    intro b hb hkey
    exact hbefore b hb (decide_eq_true hkey)
  refine ⟨before, after, rfl, hkeys, fun k => ?_⟩
  have hk := h k
  rw [List.filter_append] at hk ⊢
  by_cases hak : key a = k
  · subst hak
    have hnone : before.filter (fun b => key b = key a) = [] :=
      List.filter_eq_nil_iff.mpr fun b hb => by simpa using hkeys b hb
    rw [List.filter_cons, List.filter_cons, if_pos (decide_eq_true rfl),
      if_pos (decide_eq_true rfl), hnone, List.nil_append] at hk
    rw [hnone, List.nil_append]
    exact (List.cons.inj hk).2
  · have hno : ¬decide (key a = k) = true := fun hdec => hak (of_decide_eq_true hdec)
    rwa [List.filter_cons, List.filter_cons, if_neg hno, if_neg hno] at hk

/-- A run of one sequence is a run of every other with the same order for each key. -/
theorem Run.reorder (hc : Commutes step key) : ∀ {ys xs : List α} {s s' : σ},
    SameOrder key xs ys → Run step s xs s' → Run step s ys s' := by
  intro ys
  induction ys with
  | nil =>
      intro xs s s' hsame hrun
      rwa [hsame.nil] at hrun
  | cons a ys ih =>
      intro xs s s' hsame hrun
      obtain ⟨before, after, rfl, hkeys, hsame'⟩ := hsame.cons
      cases hrun.moveFront hc hkeys with
      | cons ha hrest => exact .cons ha (ih hsame' hrest)

end

end Csf.Lib.Commute
