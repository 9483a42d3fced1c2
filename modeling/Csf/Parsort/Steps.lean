import Csf.Parsort.Funcs

/-!
# Parallel sort: what a step can do

`Moves` lists the steps of a tree of calls, one constructor for each. The rest of the
development argues about `Moves` by induction and does not unfold `step`.
-/

namespace Csf.Parsort

open Csf.Lib Csf.Lib.Region

variable {q : Qsort} {t : ℕ}

/-- The calls of a step: `Moves q t w fails arr c arr' c'`. -/
inductive Moves (q : Qsort) (t : ℕ) : Who → Bool → Mem → Call → Mem → Call → Prop
  | base {arr b e} (hlen : e - b ≤ t) : Moves q t .self false arr (.start b e) arr
      (.sorting b e (q.writes (slice arr b e)))
  | fork {arr b e} (hlen : t < e - b) : Moves q t .self false arr (.start b e) arr
      (.forked b ((e + b) / 2) e (.start b ((e + b) / 2)) (.start ((e + b) / 2) e))
  | forkFails {arr b e} (hlen : t < e - b) :
      Moves q t .self true arr (.start b e) arr (.exited b e)
  | write {arr b e i v ws} : Moves q t .self false arr (.sorting b e ((i, v) :: ws))
      (Function.update arr (b + i) v) (.sorting b e ws)
  | sorted {arr b e} : Moves q t .self false arr (.sorting b e []) arr (.returned b e)
  | join {arr b m e b' e' child} (hexit : Call.exitStatus child = some 0) :
      Moves q t .self false arr (.forked b m e child (.returned b' e')) arr
        (.merging b m e { left := b, right := m, temp := [] })
  | childFailed {arr b m e b' e' child n} (hexit : Call.exitStatus child = some (n + 1)) :
      Moves q t .self false arr (.forked b m e child (.returned b' e')) arr
        (.abandoned b m e child .childFailed)
  | waitFails {arr b m e b' e' child} :
      Moves q t .self true arr (.forked b m e child (.returned b' e')) arr
        (.abandoned b m e child .waitFailed)
  | merge {arr b m e s s'} (hs : mergeStep arr m e s = some s') :
      Moves q t .self false arr (.merging b m e s) arr (.merging b m e s')
  | merged {arr b m e s} (hs : mergeStep arr m e s = none) :
      Moves q t .self false arr (.merging b m e s) arr (.copying b e s.temp b)
  | copy {arr b e temp i v} (hi : i < e) (hv : temp[i - b]? = some v) :
      Moves q t .self false arr (.copying b e temp i) (Function.update arr i v)
        (.copying b e temp (i + 1))
  | copied {arr b e temp i} (hi : e ≤ i) :
      Moves q t .self false arr (.copying b e temp i) arr (.returned b e)
  | same {fails arr arr' b m e child parent parent'}
      (h : Moves q t .self fails arr parent arr' parent') :
      Moves q t .self fails arr (.forked b m e child parent) arr' (.forked b m e child parent')
  | inner {w fails arr arr' b m e child parent parent'}
      (h : Moves q t w fails arr parent arr' parent') :
      Moves q t (.inner w) fails arr (.forked b m e child parent) arr'
        (.forked b m e child parent')
  | child {w fails arr arr' b m e child child' parent}
      (h : Moves q t w fails arr child arr' child') :
      Moves q t (.child w) fails arr (.forked b m e child parent) arr'
        (.forked b m e child' parent)
  | orphan {w fails arr arr' b m e child child' cause}
      (h : Moves q t w fails arr child arr' child') :
      Moves q t (.child w) fails arr (.abandoned b m e child cause) arr'
        (.abandoned b m e child' cause)

/-! ## Steps are moves -/

theorem moves_of_advance {arr arr' : Mem} {c c' : Call}
    (h : advance q t arr c = some (arr', c')) : Moves q t .self false arr c arr' c' := by
  fun_induction advance q t arr c generalizing arr' c' with
  | case1 b e hlen =>
      cases h
      exact .base hlen
  | case2 b e mid =>
      cases h
      exact .fork (Nat.lt_of_not_le ‹¬e - b ≤ t›)
  | case3 b e =>
      cases h
      exact .sorted
  | case4 b e i v ws =>
      cases h
      exact .write
  | case5 b m e child b' e' hexit => cases h
  | case6 b m e child b' e' hexit =>
      cases h
      exact .join hexit
  | case7 b m e child b' e' n hexit =>
      cases h
      exact .childFailed hexit
  | case8 b m e child parent hne ih =>
      simp only [Option.map_eq_some_iff, Prod.exists, Prod.mk.injEq] at h
      obtain ⟨arr₁, parent₁, hparent, rfl, rfl⟩ := h
      exact .same (ih hparent)
  | case9 b m e s s' hs =>
      cases h
      exact .merge hs
  | case10 b m e s hs =>
      cases h
      exact .merged hs
  | case11 b e temp i hi =>
      simp only [Option.map_eq_some_iff, Prod.mk.injEq] at h
      obtain ⟨v, hv, rfl, rfl⟩ := h
      exact .copy hi hv
  | case12 b e temp i hi =>
      cases h
      exact .copied (Nat.le_of_not_lt hi)
  | case13 => cases h
  | case14 => cases h
  | case15 => cases h

theorem moves_of_failCall {arr : Mem} {c c' : Call} (h : failCall t c = some c') :
    Moves q t .self true arr c arr c' := by
  fun_induction failCall t c generalizing c' with
  | case1 b e hlen => cases h
  | case2 b e hlen =>
      cases h
      exact .forkFails (Nat.lt_of_not_le hlen)
  | case3 b m e child b' e' =>
      cases h
      exact .waitFails
  | case4 b m e child parent hne ih =>
      obtain ⟨parent', hparent, rfl⟩ := Option.map_eq_some_iff.mp h
      exact .same (ih hparent)
  | case5 => cases h

/-- A step is a move. -/
theorem moves_of_step {arr arr' : Mem} {w : Who} {fails : Bool} {c c' : Call}
    (h : step q t arr w fails c = some (arr', c')) : Moves q t w fails arr c arr' c' := by
  induction w generalizing c c' with
  | self =>
      cases fails with
      | false => exact moves_of_advance h
      | true =>
          simp only [step, Option.map_eq_some_iff, Prod.mk.injEq] at h
          obtain ⟨c₁, hc, rfl, rfl⟩ := h
          exact moves_of_failCall hc
  | child w ih =>
      cases c with
      | forked b m e child parent =>
          simp only [step, Option.map_eq_some_iff, Prod.exists, Prod.mk.injEq] at h
          obtain ⟨arr₁, child₁, hchild, rfl, rfl⟩ := h
          exact .child (ih hchild)
      | abandoned b m e child cause =>
          simp only [step, Option.map_eq_some_iff, Prod.exists, Prod.mk.injEq] at h
          obtain ⟨arr₁, child₁, hchild, rfl, rfl⟩ := h
          exact .orphan (ih hchild)
      | _ => cases h
  | inner w ih =>
      cases c with
      | forked b m e child parent =>
          simp only [step, Option.map_eq_some_iff, Prod.exists, Prod.mk.injEq] at h
          obtain ⟨arr₁, parent₁, hparent, rfl, rfl⟩ := h
          exact .inner (ih hparent)
      | _ => cases h

/-- A process that moves by itself has not returned from its call. -/
theorem Moves.not_returned {w : Who} {fails : Bool} {arr arr' : Mem} {c c' : Call}
    (h : Moves q t w fails arr c arr' c') : ∀ b e, c ≠ .returned b e := by
  intro b e hc
  subst hc
  cases h

/-- A move is a step. -/
theorem step_of_moves {arr arr' : Mem} {w : Who} {fails : Bool} {c c' : Call}
    (h : Moves q t w fails arr c arr' c') : step q t arr w fails c = some (arr', c') := by
  induction h with
  | base hlen => simp [step, advance, hlen]
  | fork hlen => simp [step, advance, Nat.not_le.mpr hlen]
  | forkFails hlen => simp [step, failCall, Nat.not_le.mpr hlen]
  | write => rfl
  | sorted => rfl
  | join hexit => simp [step, advance, hexit]
  | childFailed hexit => simp [step, advance, hexit]
  | waitFails => rfl
  | merge hs => simp [step, advance, hs]
  | merged hs => simp [step, advance, hs]
  | copy hi hv => simp [step, advance, hi, hv]
  | copied hi => simp [step, advance, Nat.not_lt.mpr hi]
  | @same fails arr arr' b m e child parent parent' h ih =>
      -- the equation for a running parent call needs that it has not returned
      have hreturned := h.not_returned
      cases fails with
      | false =>
          rw [step] at ih ⊢
          rw [advance, ih]
          · rfl
          · exact hreturned
      | true =>
          rw [step, Option.map_eq_some_iff] at ih ⊢
          obtain ⟨c₁, hc₁, heq⟩ := ih
          cases heq
          refine ⟨.forked b m e child parent', ?_, rfl⟩
          rw [failCall, hc₁]
          · rfl
          · exact hreturned
  | inner h ih => simp [step, ih]
  | child h ih => simp [step, ih]
  | orphan h ih => simp [step, ih]

end Csf.Parsort
