import Csf.Parsort.Sorting

/-!
# Parallel sort: how many processes

A call forks until its ranges fit the threshold, so the recursion has `leaves` base cases, and
never more processes exist at once. `Moves.most_le` is the step lemma: what a call can still
bring about is bounded by its leaves, and no step raises it. `processes_le` adds that the
bound is reached, and puts it between two multiples of the length.
-/

namespace Csf.Parsort

open Csf.Lib Csf.Lib.Region

/-- The base cases of the recursion on a range of length `n`. -/
def leaves (t n : ℕ) : ℕ :=
  if n ≤ t ∨ n ≤ 1 then 1 else leaves t (n / 2) + leaves t (n - n / 2)
termination_by n

/-- The processes in the tree of a call; one that has ended counts until a `waitpid` has
returned it. -/
def Call.processes : Call → ℕ
  | .forked _ _ _ child parent => child.processes + parent.processes
  | .abandoned _ _ _ child _ => child.processes + 1
  | _ => 1

/-- A bound on the processes that the tree of a call still comes to. -/
def Call.most (t : ℕ) : Call → ℕ
  | .start b e => leaves t (e - b)
  | .forked _ _ _ child parent => child.most t + parent.most t
  | .abandoned _ _ _ child _ => child.most t + 1
  | _ => 1

section

variable {q : Qsort} {t n b e : ℕ} {orig arr arr' : Mem} {c c' : Call}

/-! ## Leaves -/

theorem leaves_of_le (h : n ≤ t) : leaves t n = 1 := by
  rw [leaves, if_pos (Or.inl h)]

theorem leaves_of_lt (ht : 1 ≤ t) (h : t < n) :
    leaves t n = leaves t (n / 2) + leaves t (n - n / 2) := by
  have hsplit : ¬(n ≤ t ∨ n ≤ 1) := by omega
  rw [leaves, if_neg hsplit]

theorem leaves_pos (t n : ℕ) : 1 ≤ leaves t n := by
  fun_induction leaves t n with
  | case1 n h => exact le_rfl
  | case2 n h ih₁ ih₂ => omega

/-- Every leaf sorts at most as many elements as the threshold says. -/
theorem le_leaves_mul (ht : 1 ≤ t) (n : ℕ) : n ≤ leaves t n * t := by
  fun_induction leaves t n with
  | case1 n h => omega
  | case2 n h ih₁ ih₂ =>
      rw [Nat.add_mul]
      omega

/-- And more than half as many, on the average. -/
theorem leaves_mul_le (ht : 1 ≤ t) (h : t < n) : leaves t n * (t + 1) ≤ 2 * n := by
  induction n using Nat.strong_induction_on with
  | _ n ih =>
      rw [leaves_of_lt ht h, Nat.add_mul]
      by_cases hleft : n / 2 ≤ t
      · rw [leaves_of_le hleft, Nat.one_mul]
        by_cases hright : n - n / 2 ≤ t
        · rw [leaves_of_le hright, Nat.one_mul]
          omega
        · -- the halves differ by one, so this one is just too long
          have hhalf : n - n / 2 = t + 1 := by omega
          have hbound := ih (n - n / 2) (by omega) (by omega)
          omega
      · have hleft' := ih (n / 2) (by omega) (by omega)
        have hright' := ih (n - n / 2) (by omega) (by omega)
        omega

/-- A smaller threshold has more leaves. -/
theorem leaves_anti {t' : ℕ} (ht : 1 ≤ t) (h : t ≤ t') (n : ℕ) : leaves t' n ≤ leaves t n := by
  induction n using Nat.strong_induction_on with
  | _ n ih =>
      by_cases hbase : n ≤ t'
      · rw [leaves_of_le hbase]
        exact leaves_pos t n
      · rw [leaves_of_lt (ht.trans h) (by omega), leaves_of_lt ht (by omega)]
        exact Nat.add_le_add (ih _ (by omega)) (ih _ (by omega))

/-! ## No more than the leaves -/

theorem processes_le_most (t : ℕ) (c : Call) : c.processes ≤ c.most t := by
  induction c with
  | start b e => exact leaves_pos t (e - b)
  | forked b mid e child parent ihc ihp => exact Nat.add_le_add ihc ihp
  | abandoned b mid e child cause ih => exact Nat.succ_le_succ ih
  | _ => exact le_rfl

/-- A fork shares the leaves of its call out. -/
theorem most_fork (ht : 1 ≤ t) (hlen : t < e - b) :
    (Call.forked b ((e + b) / 2) e (.start b ((e + b) / 2)) (.start ((e + b) / 2) e)).most t =
      (Call.start b e).most t := by
  have hleft : (e + b) / 2 - b = (e - b) / 2 := by omega
  have hright : e - (e + b) / 2 = (e - b) - (e - b) / 2 := by omega
  simp only [Call.most, hleft, hright, leaves_of_lt ht hlen]

/-- No step raises the bound. -/
theorem Moves.most_le {w : Who} {fails : Bool} (ht : 1 ≤ t)
    (h : Moves q t w fails arr c arr' c') : c'.most t ≤ c.most t := by
  induction h with
  | base hlen => exact leaves_pos t _
  | fork hlen => exact (most_fork ht hlen).le
  | forkFails hlen => exact leaves_pos t _
  | join hexit => exact Nat.le_add_left _ _
  | childFailed hexit => exact le_rfl
  | waitFails => exact le_rfl
  | same h ih => exact Nat.add_le_add_left ih _
  | inner h ih => exact Nat.add_le_add_left ih _
  | child h ih => exact Nat.add_le_add_right ih _
  | orphan h ih => exact Nat.add_le_add_right ih _
  | _ => exact le_rfl

theorem most_invariant (ht : 1 ≤ t) : (system q t orig b e).Invariant fun _ s =>
    s.call.most t ≤ leaves t (e - b) := by
  refine TSys.invariant_of_step ?_ ?_
  · rintro s rfl
    exact le_rfl
  · rintro h choices s s' hle ⟨choice, rfl, hstep⟩
    exact ((moves_of_step hstep).most_le ht).trans hle

/-! ## As many as the leaves -/

/-- A step that nothing fails in, and that leaves the array alone. -/
def Quiet (q : Qsort) (t : ℕ) (arr : Mem) (c c' : Call) : Prop :=
  ∃ w, Moves q t w false arr c arr c'

/-- A call from which every fork can come before anything else. -/
theorem exists_all_forked (ht : 1 ≤ t) (arr : Mem) (b e : ℕ) :
    ∃ c, Relation.ReflTransGen (Quiet q t arr) (.start b e) c ∧
      c.processes = leaves t (e - b) := by
  induction hn : e - b using Nat.strong_induction_on generalizing b e with
  | _ n ih =>
      subst hn
      by_cases hlen : e - b ≤ t
      · exact ⟨.start b e, .refl, (leaves_of_le hlen).symm⟩
      · have hleft : (e + b) / 2 - b = (e - b) / 2 := by omega
        have hright : e - (e + b) / 2 = (e - b) - (e - b) / 2 := by omega
        obtain ⟨child, hchild, hcount⟩ := ih _ (by omega) b ((e + b) / 2) rfl
        obtain ⟨parent, hparent, hcount'⟩ := ih _ (by omega) ((e + b) / 2) e rfl
        refine ⟨.forked b ((e + b) / 2) e child parent, ?_, ?_⟩
        · have hfork : Quiet q t arr (.start b e) _ := ⟨.self, .fork (Nat.lt_of_not_le hlen)⟩
          refine .head hfork (.trans (hchild.lift (Call.forked b _ e · _) ?_)
            (hparent.lift (Call.forked b _ e child ·) ?_))
          · exact fun c c' ⟨w, h⟩ => ⟨.child w, .child h⟩
          · exact fun c c' ⟨w, h⟩ => ⟨.inner w, .inner h⟩
        · rw [Call.processes, hcount, hcount', hleft, hright,
            leaves_of_lt ht (Nat.lt_of_not_le hlen)]

/-- Quiet steps are steps of a run. -/
theorem exists_run_of_quiet (h : Relation.ReflTransGen (Quiet q t orig) (.start b e) c) :
    ∃ choices, (system q t orig b e).Run choices { arr := orig, call := c } := by
  induction h with
  | refl => exact ⟨[], .init rfl⟩
  | tail _ hquiet ih =>
      obtain ⟨choices, hrun⟩ := ih
      obtain ⟨w, hmove⟩ := hquiet
      exact ⟨choices ++ [⟨w, false⟩], .step hrun ⟨_, rfl, step_of_moves hmove⟩⟩

/-- **Processes.** Whatever fails and however the processes are scheduled, never more exist
than the recursion has base cases, and some run comes to so many. They are at least as many
as it takes to sort by the threshold, and less than twice that. -/
theorem processes_le (q : Qsort) (ht : 1 ≤ t) (orig : Mem) (b e : ℕ) :
    (∀ choices s, (system q t orig b e).Run choices s →
      s.call.processes ≤ leaves t (e - b)) ∧
    (∃ choices s, (system q t orig b e).Run choices s ∧
      s.call.processes = leaves t (e - b)) ∧
    e - b ≤ leaves t (e - b) * t ∧ (t < e - b → leaves t (e - b) * (t + 1) ≤ 2 * (e - b)) ∧
    ∀ t', t ≤ t' → leaves t' (e - b) ≤ leaves t (e - b) := by
  refine ⟨fun choices s hrun => ?_, ?_, le_leaves_mul ht _, leaves_mul_le ht,
    fun t' h => leaves_anti ht h _⟩
  · exact (processes_le_most t s.call).trans (most_invariant ht hrun)
  · obtain ⟨c, hquiet, hcount⟩ := exists_all_forked (q := q) ht orig b e
    obtain ⟨choices, hrun⟩ := exists_run_of_quiet hquiet
    exact ⟨choices, _, hrun, hcount⟩

end

/-- With threshold 1 five elements are sorted by five processes. -/
theorem processes_le_fiveElements : leaves 1 5 = 5 ∧
    ∀ choices s, (system copyQsort 1 fiveElements 0 5).Run choices s → s.call.processes ≤ 5 := by
  have hleaves : leaves 1 5 = 5 := by simp [leaves]
  refine ⟨hleaves, fun choices s hrun => ?_⟩
  have hle := (processes_le copyQsort le_rfl fiveElements 0 5).1 choices s hrun
  rw [Nat.sub_zero, hleaves] at hle
  exact hle

end Csf.Parsort
