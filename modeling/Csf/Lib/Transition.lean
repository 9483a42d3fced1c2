import Mathlib.Data.List.Basic
import Mathlib.Logic.Function.Iterate
import Mathlib.Tactic.Choose

/-!
# Labelled transition systems

A system shows a list of events at each step, the empty one at a silent step.
`Run h s` says that some run shows the events `h` and ends in `s`. An invariant
relates what a run has shown to where it is, and is proved one step at a time.
-/

namespace Csf.Lib

universe u v

/-- A labelled transition system. -/
structure TSys (σ : Type u) (ε : Type v) where
  init : σ → Prop
  step : σ → List ε → σ → Prop

/-- Where each state with a property has a successor with it, there is a run without an
end. -/
theorem exists_endless {σ : Type u} {r : σ → σ → Prop} {P : σ → Prop}
    (hstep : ∀ s, P s → ∃ s', r s s' ∧ P s') {s : σ} (hs : P s) :
    ∃ run : ℕ → σ, run 0 = s ∧ ∀ i, r (run i) (run (i + 1)) := by
  choose! next hnext hP using hstep
  let run : ℕ → σ := fun i => next^[i] s
  have hrun : ∀ i, P (run i) := by
    intro i
    induction i with
    | zero => exact hs
    | succ i ih =>
        show P (next^[i + 1] s)
        rw [Function.iterate_succ_apply']
        exact hP _ ih
  refine ⟨run, rfl, fun i => ?_⟩
  show r (run i) (next^[i + 1] s)
  rw [Function.iterate_succ_apply']
  exact hnext _ (hrun i)

namespace TSys

variable {σ : Type u} {ε : Type v}

/-- The runs: what has been shown and the state reached. -/
inductive Run (T : TSys σ ε) : List ε → σ → Prop
  | init {s : σ} (h₀ : T.init s) : Run T [] s
  | step {h es : List ε} {s s' : σ} (run : Run T h s) (hs : T.step s es s') : Run T (h ++ es) s'

/-- `I` holds along every run. -/
def Invariant (T : TSys σ ε) (I : List ε → σ → Prop) : Prop :=
  ∀ ⦃h s⦄, T.Run h s → I h s

variable {T : TSys σ ε} {I J : List ε → σ → Prop}

/-- What holds at first and is kept by every step from a state where `J` holds is
an invariant, when `J` is one. -/
theorem Invariant.of_step (hJ : T.Invariant J) (hinit : ∀ {s}, T.init s → I [] s)
    (hstep : ∀ {h es s s'}, J h s → I h s → T.step s es s' → I (h ++ es) s') :
    T.Invariant I := by
  intro h s hrun
  induction hrun with
  | init h₀ => exact hinit h₀
  | step run hs ih => exact hstep (hJ run) ih hs

/-- The rule without a `J`. -/
theorem invariant_of_step (hinit : ∀ {s}, T.init s → I [] s)
    (hstep : ∀ {h es s s'}, I h s → T.step s es s' → I (h ++ es) s') : T.Invariant I :=
  Invariant.of_step (J := fun _ _ => True) (fun _ _ _ => trivial) hinit fun _ => hstep

/-- Two invariants are one. -/
theorem Invariant.and (hI : T.Invariant I) (hJ : T.Invariant J) :
    T.Invariant fun h s => I h s ∧ J h s := by
  intro h s hrun
  exact ⟨hI hrun, hJ hrun⟩

end TSys

end Csf.Lib
