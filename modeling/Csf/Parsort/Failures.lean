import Csf.Parsort.Sorting

/-!
# Parallel sort: a failure destroys nothing and is reported

Any `fork` and any `waitpid` may fail, in any process. A process that meets a failure
exits at once, so nobody merges a range while an orphan may still sort in it; the status
goes up to the root, one `waitpid` after the other.
-/

namespace Csf.Parsort

open Csf.Lib Csf.Lib.Region

section

variable {q : Qsort} {t : ℕ} {orig arr : Mem} {c : Call} {b e : ℕ}

/-- Two halves that hold their first contents, in some order. -/
theorem perm_of_halves {mid : ℕ} (hbm : b ≤ mid) (hme : mid ≤ e)
    (hleft : (slice arr b mid).Perm (slice orig b mid))
    (hright : (slice arr mid e).Perm (slice orig mid e)) :
    (slice arr b e).Perm (slice orig b e) := by
  rw [← slice_append arr hbm hme, ← slice_append orig hbm hme]
  exact hleft.append hright

/-- Once nobody works below a call, its range holds its first contents, in some order. -/
theorem Owns.perm_of_ended (ho : Owns orig arr c) (hended : c.Ended) :
    (slice arr c.first c.last).Perm (slice orig c.first c.last) := by
  induction c with
  | returned b e => exact ho.2.perm
  | exited b e => exact ho.2
  | forked b mid e child parent ihc ihp =>
      obtain ⟨hc, hc', hp, hp', hbm, hme, hchild, hparent⟩ := ho
      have hleft := ihc hchild hended.1
      have hright := ihp hparent hended.2.1
      rw [hc, hc'] at hleft
      rw [hp, hp'] at hright
      exact perm_of_halves hbm hme hleft hright
  | abandoned b mid e child cause ih =>
      -- the child has the left half; the process gave up with its own half sorted
      obtain ⟨hc, hc', hbm, hme, hchild, hright⟩ := ho
      have hleft := ih hchild hended
      rw [hc, hc'] at hleft
      exact perm_of_halves hbm hme hleft hright
  | _ => exact hended.elim

/-- The root process exits with 0 only if no call of the run failed. -/
theorem succeeds_of_returned {choices : List Choice} {s : State} {b' e' : ℕ}
    (hrun : (system q t orig b e).Run choices s) (hs : s.call = .returned b' e') :
    Succeeds choices := by
  intro choice hmem
  refine Bool.eq_false_iff.mpr fun hfails => ?_
  have hfailed := (failed_invariant hrun).mpr ⟨choice, hmem, hfails⟩
  rw [hs] at hfailed
  exact hfailed

/-- `merge_sort(arr, b, e, threshold)`, with any calls of `fork` and `waitpid` failing. All
processes come to an end; then the array holds what it held, in some order, and the root
process has an exit status; this is 0 only if no call failed, with `[b, e)` in order. -/
theorem mergeSort_failures (ht : 1 ≤ t) (hbe : b ≤ e) {choices : List Choice} {s : State}
    (hrun : (system q t orig b e).Run choices s) :
    choices.length ≤ cost q t (e - b) ∧
    (s.call.Ended ∨ ∃ who s',
      (system q t orig b e).Run (choices ++ [{ who := who, fails := false }]) s') ∧
    (s.call.Ended → SameOutside b e orig s.arr ∧ (slice s.arr b e).Perm (slice orig b e) ∧
      ∃ status, s.call.exitStatus = some status) ∧
    (s.call.exitStatus = some 0 → s.call.Ended ∧ Succeeds choices ∧
      SameOutside b e orig s.arr ∧ Ascending (slice s.arr b e) ∧
      (slice s.arr b e).Perm (slice orig b e)) := by
  have hlength := length_invariant ht hbe hrun
  obtain ⟨hout, hfirst, hlast, howns⟩ := kept_invariant hbe hrun
  refine ⟨by omega, ?_, fun hended => ?_, fun hexit => ?_⟩
  · by_cases hended : s.call.Ended
    · exact Or.inl hended
    · exact Or.inr (exists_step_of_not_ended hbe hrun hended)
  · have hperm := howns.perm_of_ended hended
    rw [hfirst, hlast] at hperm
    exact ⟨hout, hperm, Option.isSome_iff_exists.mp hended.exitStatus_isSome⟩
  · obtain ⟨b', e', hs⟩ := returned_of_exitStatus hexit
    obtain ⟨hs', -, hsorted⟩ := sorted_of_returned hbe hrun hs
    refine ⟨?_, succeeds_of_returned hrun hs, hout, hsorted.ascending, hsorted.perm⟩
    rw [hs]
    trivial

end

/-- The root's second call cannot fork, so the root exits; its child sorts on. -/
theorem mergeSort_failures_fiveElements :
    ∃ choices s, (system copyQsort 1 fiveElements 0 5).Run choices s ∧ ¬Succeeds choices ∧
      s.call.Ended ∧ s.call.exitStatus ≠ some 0 ∧
      (slice s.arr 0 5).Perm [9, 5, -2, 3, 0] := by
  have hstart : (system copyQsort 1 fiveElements 0 5).Run [] ⟨fiveElements, .start 0 5⟩ :=
    .init rfl
  have hfork : (system copyQsort 1 fiveElements 0 5).Run [⟨.self, false⟩]
      ⟨fiveElements, .forked 0 2 5 (.start 0 2) (.start 2 5)⟩ :=
    .step hstart ⟨_, rfl, step_of_moves (.fork (by omega))⟩
  have hfail : (system copyQsort 1 fiveElements 0 5).Run [⟨.self, false⟩, ⟨.self, true⟩]
      ⟨fiveElements, .forked 0 2 5 (.start 0 2) (.exited 2 5)⟩ :=
    .step hfork ⟨_, rfl, step_of_moves (.same (.forkFails (by omega)))⟩
  obtain ⟨more, s, hrun, hended, -⟩ := exists_run_ended le_rfl (by omega) hfail
  obtain ⟨-, -, hfinal, hzero⟩ := mergeSort_failures le_rfl (by omega) hrun
  have hnot : ¬Succeeds ([⟨.self, false⟩, ⟨.self, true⟩] ++ more) :=
    fun h => Bool.false_ne_true (h ⟨.self, true⟩ (by simp)).symm
  exact ⟨_, s, hrun, hnot, hended, fun hexit => hnot (hzero hexit).2.1, (hfinal hended).2.1⟩

end Csf.Parsort
