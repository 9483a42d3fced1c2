import Csf.Parsort.Ownership

/-!
# Parallel sort: every run ends

`Call.size` bounds the steps that the tree below a call has ahead: it goes down at
every step, whatever fails (`Moves.size_lt`), and until all processes have ended one
of them can go on (`Moves.exists_of_not_ended`). No waiting process is stuck: a child
that has ended has an exit status.

`Call.Failed` says that a `fork` or `waitpid` has failed below a call. It comes up with
such a failure, and stays until the end: no process merges over a child that failed.
-/

namespace Csf.Parsort

open Csf.Lib Csf.Lib.Region

/-! ## A bound on the steps -/

/-- A bound on the steps of a call on a range of length `n`. -/
def cost (qsort : Qsort) (threshold n : ℕ) : ℕ :=
  if n ≤ threshold ∨ n ≤ 1 then qsort.bound n + 2
  else cost qsort threshold (n / 2) + cost qsort threshold (n - n / 2) + 2 * n + 5
termination_by n

/-- A bound on the steps that the tree below a call has ahead. -/
def Call.size (qsort : Qsort) (threshold : ℕ) : Call → ℕ
  | .start b e => cost qsort threshold (e - b)
  | .sorting _ _ ws => ws.length + 1
  | .forked b _ e child parent =>
      child.size qsort threshold + parent.size qsort threshold + 2 * (e - b) + 4
  | .merging b mid e s => (mid - s.left) + (e - s.right) + (e - b) + 3
  | .copying _ e _ i => (e - i) + 1
  | .returned _ _ => 0
  | .exited _ _ => 0
  | .abandoned _ _ _ child _ => child.size qsort threshold

/-- All processes of the tree below a call have ended. -/
def Call.Ended : Call → Prop
  | .returned _ _ => True
  | .exited _ _ => True
  | .forked _ _ _ child parent => child.Ended ∧ parent.Ended ∧ parent.gaveUp.isSome
  | .abandoned _ _ _ child _ => child.Ended
  | _ => False

/-- A `fork` or `waitpid` has failed in the tree below a call. -/
def Call.Failed : Call → Prop
  | .exited _ _ => True
  | .abandoned _ _ _ _ _ => True
  | .forked _ _ _ child parent => child.Failed ∨ parent.Failed
  | _ => False

section

variable {q : Qsort} {t : ℕ} {orig arr arr' : Mem} {c c' : Call} {b e : ℕ}

theorem cost_of_le {n : ℕ} (h : n ≤ t) : cost q t n = q.bound n + 2 := by
  rw [cost, if_pos (Or.inl h)]

theorem cost_of_lt {n : ℕ} (ht : 1 ≤ t) (h : t < n) :
    cost q t n = cost q t (n / 2) + cost q t (n - n / 2) + 2 * n + 5 := by
  have hsplit : ¬(n ≤ t ∨ n ≤ 1) := by omega
  rw [cost, if_neg hsplit]

/-- The body of the loop of `merge` moves one pointer, and not past the end of its half. -/
theorem mergeStep_remaining {mid : ℕ} {s s' : MergeState} (hs : mergeStep arr mid e s = some s') :
    (mid - s'.left) + (e - s'.right) < (mid - s.left) + (e - s.right) := by
  have hleft : s.left < mid → (mid - (s.takeLeft arr).left) + (e - (s.takeLeft arr).right) <
      (mid - s.left) + (e - s.right) := by
    simp only [MergeState.takeLeft]
    omega
  have hright : s.right < e → (mid - (s.takeRight arr).left) + (e - (s.takeRight arr).right) <
      (mid - s.left) + (e - s.right) := by
    simp only [MergeState.takeRight]
    omega
  rw [mergeStep] at hs
  split_ifs at hs with hboth hendl hendr hcmp <;> cases hs
  · exact hright (by omega)
  · exact hleft (by omega)
  · exact hleft (Nat.lt_of_not_le hendl)
  · exact hright (Nat.lt_of_not_le hendr)

/-- A base case pays for the writes of `qsort`. -/
theorem size_sorting_lt (hlen : e - b ≤ t) :
    (Call.sorting b e (q.writes (slice arr b e))).size q t < (Call.start b e).size q t := by
  have hwrites := q.length_le (slice arr b e)
  rw [length_slice] at hwrites
  rw [Call.size, Call.size, cost_of_le hlen]
  omega

/-- Every step has fewer ahead of it. -/
theorem Moves.size_lt {w : Who} {fails : Bool} (ht : 1 ≤ t) (h : Moves q t w fails arr c arr' c')
    (ho : Owns orig arr c) : c'.size q t < c.size q t := by
  induction h with
  | base hlen => exact size_sorting_lt hlen
  | @fork arr b e hlen =>
      -- the split point is rounded down, and so is the length of the left half
      have hleft : (e + b) / 2 - b = (e - b) / 2 := by omega
      have hright : e - (e + b) / 2 = (e - b) - (e - b) / 2 := by omega
      rw [Call.size, Call.size, Call.size, Call.size, hleft, hright, cost_of_lt ht hlen]
      omega
  | forkFails hlen =>
      rw [Call.size, Call.size, cost_of_lt ht hlen]
      omega
  | write =>
      rw [Call.size, Call.size, List.length_cons]
      omega
  | sorted => exact Nat.succ_pos _
  | join hexit =>
      obtain ⟨-, -, -, -, hbm, hme, -, -⟩ := ho
      simp only [Call.size]
      omega
  | childFailed hexit =>
      simp only [Call.size]
      omega
  | waitFails =>
      simp only [Call.size]
      omega
  | merge hs =>
      have hless := mergeStep_remaining hs
      simp only [Call.size]
      omega
  | merged hs =>
      simp only [Call.size]
      omega
  | copy hi hv =>
      simp only [Call.size]
      omega
  | copied hi =>
      simp only [Call.size]
      omega
  | same h ih =>
      have hless := ih ho.parent
      simp only [Call.size]
      omega
  | inner h ih =>
      have hless := ih ho.parent
      simp only [Call.size]
      omega
  | child h ih =>
      have hless := ih ho.child
      simp only [Call.size]
      omega
  | orphan h ih => exact ih ho.orphan

/-- No run is longer than the bound. -/
theorem length_invariant (ht : 1 ≤ t) (hbe : b ≤ e) :
    (system q t orig b e).Invariant fun choices s =>
      choices.length + s.call.size q t ≤ cost q t (e - b) := by
  refine TSys.Invariant.of_step (kept_invariant hbe) ?_ ?_
  · rintro s rfl
    exact (Nat.zero_add _).le
  · rintro h choices s s' ⟨-, -, -, howns⟩ hle ⟨choice, rfl, hstep⟩
    have hless := (moves_of_step hstep).size_lt ht howns
    rw [List.length_append, List.length_singleton]
    omega

/-! ## Some process can go on -/

/-- A process that has ended has an exit status. -/
theorem Call.Ended.exitStatus_isSome (h : c.Ended) : c.exitStatus.isSome := by
  cases c with
  | returned b e => rfl
  | exited b e => rfl
  | forked b mid e child parent => exact h.2.2
  | abandoned b mid e child cause => rfl
  | _ => exact h.elim

/-- Until all processes have ended, one of them can go on without a failure. -/
theorem Moves.exists_of_not_ended (ho : Owns orig arr c) (hlive : ¬c.Ended) :
    ∃ w arr' c', Moves q t w false arr c arr' c' := by
  induction c with
  | start b e =>
      by_cases hlen : e - b ≤ t
      · exact ⟨_, _, _, .base hlen⟩
      · exact ⟨_, _, _, .fork (Nat.lt_of_not_le hlen)⟩
  | sorting b e ws =>
      cases ws with
      | nil => exact ⟨_, _, _, .sorted⟩
      | cons w ws => exact ⟨_, _, _, .write⟩
  | forked b mid e child parent ihc ihp =>
      by_cases hc : child.Ended
      · by_cases hp : parent.Ended
        · cases hgave : parent.gaveUp with
          | some n => exact absurd ⟨hc, hp, Option.isSome_iff_exists.mpr ⟨n, hgave⟩⟩ hlive
          | none =>
              -- the parent's own call has returned: its `waitpid` meets an ended child
              obtain ⟨n, hn⟩ := Option.isSome_iff_exists.mp hp.exitStatus_isSome
              obtain ⟨b', e', rfl⟩ : ∃ b' e', parent = .returned b' e' := by
                cases parent with
                | returned b' e' => exact ⟨b', e', rfl⟩
                | _ => exact absurd (hgave.symm.trans hn) (by simp)
              obtain ⟨m, hm⟩ := Option.isSome_iff_exists.mp hc.exitStatus_isSome
              cases m with
              | zero => exact ⟨_, _, _, .join hm⟩
              | succ m => exact ⟨_, _, _, .childFailed hm⟩
        · obtain ⟨w, arr', parent', hmove⟩ := ihp ho.parent hp
          exact ⟨_, _, _, .inner hmove⟩
      · obtain ⟨w, arr', child', hmove⟩ := ihc ho.child hc
        exact ⟨_, _, _, .child hmove⟩
  | merging b mid e s =>
      cases hs : mergeStep arr mid e s with
      | none => exact ⟨_, _, _, .merged hs⟩
      | some s' => exact ⟨_, _, _, .merge hs⟩
  | copying b e temp i =>
      obtain ⟨hbi, -, hlen, -, -, -⟩ := ho
      by_cases hi : i < e
      · have hin : i - b < temp.length := by omega
        exact ⟨_, _, _, .copy hi (List.getElem?_eq_getElem hin)⟩
      · exact ⟨_, _, _, .copied (Nat.le_of_not_lt hi)⟩
  | returned b e => exact absurd trivial hlive
  | exited b e => exact absurd trivial hlive
  | abandoned b mid e child cause ih =>
      obtain ⟨w, arr', child', hmove⟩ := ih ho.orphan hlive
      exact ⟨_, _, _, .orphan hmove⟩

/-- A run that has not ended goes on without a failure. -/
theorem exists_step_of_not_ended {choices : List Choice} {s : State} (hbe : b ≤ e)
    (hrun : (system q t orig b e).Run choices s) (hlive : ¬s.call.Ended) :
    ∃ who s', (system q t orig b e).Run (choices ++ [{ who := who, fails := false }]) s' := by
  obtain ⟨-, -, -, howns⟩ := kept_invariant hbe hrun
  obtain ⟨who, arr', c', hmove⟩ := Moves.exists_of_not_ended (q := q) (t := t) howns hlive
  exact ⟨who, { arr := arr', call := c' }, .step hrun ⟨_, rfl, step_of_moves hmove⟩⟩

/-- Every run can be finished without a further failure. -/
theorem exists_run_ended {choices : List Choice} {s : State} (ht : 1 ≤ t) (hbe : b ≤ e)
    (hrun : (system q t orig b e).Run choices s) :
    ∃ more s', (system q t orig b e).Run (choices ++ more) s' ∧ s'.call.Ended ∧
      ∀ c ∈ more, c.fails = false := by
  induction hn : s.call.size q t using Nat.strong_induction_on generalizing choices s with
  | _ n ih =>
      subst hn
      by_cases hended : s.call.Ended
      · refine ⟨[], s, ?_, hended, fun c hc => absurd hc List.not_mem_nil⟩
        rw [List.append_nil]
        exact hrun
      · obtain ⟨-, -, -, howns⟩ := kept_invariant hbe hrun
        obtain ⟨who, arr', c', hmove⟩ := Moves.exists_of_not_ended (q := q) (t := t) howns hended
        have hrun' : (system q t orig b e).Run (choices ++ [{ who := who, fails := false }])
            { arr := arr', call := c' } := .step hrun ⟨_, rfl, step_of_moves hmove⟩
        obtain ⟨more, s', hmore, hended', hsucceed⟩ := ih _ (hmove.size_lt ht howns) hrun' rfl
        refine ⟨{ who := who, fails := false } :: more, s', ?_, hended', fun c hc => ?_⟩
        · rw [← List.singleton_append, ← List.append_assoc]
          exact hmore
        · rcases List.mem_cons.mp hc with rfl | hc
          · rfl
          · exact hsucceed c hc

/-! ## Failures -/

/-- A process gives up for a failure. -/
theorem Call.Failed.of_gaveUp {n : ℕ} (h : c.gaveUp = some n) : c.Failed := by
  induction c with
  | exited b e => trivial
  | abandoned b mid e child cause ih => trivial
  | forked b mid e child parent ihc ihp => exact Or.inr (ihp h)
  | _ => exact absurd h (by simp [Call.gaveUp])

/-- A failure comes up at the step that meets it, and no step hides one. -/
theorem Moves.failed_iff {w : Who} {fails : Bool} (h : Moves q t w fails arr c arr' c') :
    c'.Failed ↔ c.Failed ∨ fails = true := by
  induction h with
  | base hlen => simp [Call.Failed]
  | fork hlen => simp [Call.Failed]
  | forkFails hlen => simp [Call.Failed]
  | write => simp [Call.Failed]
  | sorted => simp [Call.Failed]
  | join hexit =>
      -- a child with status 0 has returned, and no call fails below a call that returned
      obtain ⟨bc, ec, rfl⟩ := returned_of_exitStatus hexit
      simp [Call.Failed]
  | @childFailed arr b m e b' e' child n hexit =>
      have hchild : child.Failed := by
        cases child with
        | returned bc ec => exact absurd hexit (by simp [Call.exitStatus])
        | _ => exact Call.Failed.of_gaveUp hexit
      simp [Call.Failed, hchild]
  | waitFails => simp [Call.Failed]
  | merge hs => simp [Call.Failed]
  | merged hs => simp [Call.Failed]
  | copy hi hv => simp [Call.Failed]
  | copied hi => simp [Call.Failed]
  | same h ih => simp only [Call.Failed, ih, or_assoc]
  | inner h ih => simp only [Call.Failed, ih, or_assoc]
  | child h ih =>
      simp only [Call.Failed, ih]
      exact or_right_comm
  | orphan h ih => simp [Call.Failed]

/-- The tree shows a failure if and only if a choice of the run met one. -/
theorem failed_invariant : (system q t orig b e).Invariant fun choices s =>
    s.call.Failed ↔ ∃ c ∈ choices, c.fails = true := by
  refine TSys.invariant_of_step ?_ ?_
  · rintro s rfl
    simp [Call.Failed]
  · rintro h choices s s' hiff ⟨choice, rfl, hstep⟩
    rw [(moves_of_step hstep).failed_iff, hiff]
    simp only [List.mem_append, List.mem_singleton, or_and_right, exists_or, exists_eq_left]

/-- Where no call has failed, the root call returns. -/
theorem Call.Ended.returned_of_not_failed (h : c.Ended) (hnf : ¬c.Failed) :
    ∃ b e, c = .returned b e := by
  cases c with
  | returned b e => exact ⟨b, e, rfl⟩
  | exited b e => exact absurd trivial hnf
  | abandoned b mid e child cause => exact absurd trivial hnf
  | forked b mid e child parent =>
      obtain ⟨n, hn⟩ := Option.isSome_iff_exists.mp h.2.2
      exact absurd (Or.inr (Call.Failed.of_gaveUp hn)) hnf
  | _ => exact h.elim

end

end Csf.Parsort
