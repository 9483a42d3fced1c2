import Csf.Parsort.Progress

/-!
# Parallel sort: `merge_sort` sorts

A step reads nothing but the range of its call (`Moves.reads`), so a run can be
repeated on any array that agrees on the range. Where every `fork` and `waitpid`
succeeds, the root call returns, with its range sorted; as a list has one ascending
permutation, neither the order of the processes nor the threshold shows in the result.
-/

namespace Csf.Parsort

open Csf.Lib Csf.Lib.Region

section

variable {q : Qsort} {t : ℕ} {orig arr arr' arr₂ : Mem} {c c' : Call} {b e : ℕ}

/-! ## What is read -/

theorem mergeStep_congr {mid : ℕ} {s : MergeState} (ha : AgreeOn b e arr arr₂)
    (hl : b ≤ s.left) (hr : b ≤ s.right) (hm : mid ≤ e) :
    mergeStep arr₂ mid e s = mergeStep arr mid e s := by
  have hleft : s.left < mid → arr₂ s.left = arr s.left := fun h => ha _ hl (h.trans_le hm)
  have hright : s.right < e → arr₂ s.right = arr s.right := ha _ hr
  rw [mergeStep, mergeStep]
  split
  · rfl
  · next hboth =>
      split
      · next hendl => rw [MergeState.takeRight, MergeState.takeRight, hright (by omega)]
      · next hendl =>
          rw [MergeState.takeLeft, MergeState.takeLeft, hleft (Nat.lt_of_not_le hendl)]
          split
          · rfl
          · next hendr =>
              rw [MergeState.takeRight, MergeState.takeRight, hright (Nat.lt_of_not_le hendr)]

/-- The agreement on a larger range, from that on the range of a call that moved. -/
theorem Moves.agreeOn {w : Who} {fails : Bool} {arr₂' : Mem}
    (h : Moves q t w fails arr c arr' c') (h₂ : Moves q t w fails arr₂ c arr₂' c')
    (ho : Owns orig arr c) (ha : AgreeOn b e arr arr₂) (hb : b ≤ c.first) (he : c.last ≤ e)
    (ha' : AgreeOn c.first c.last arr' arr₂') : AgreeOn b e arr' arr₂' :=
  ha.of_part (h.kept ho).outside (h₂.kept (ho.congr (ha.mono hb he))).outside ha'

/-- A step reads its range only. -/
theorem Moves.reads {w : Who} {fails : Bool} (h : Moves q t w fails arr c arr' c')
    (ho : Owns orig arr c) (ha : AgreeOn c.first c.last arr arr₂) :
    ∃ arr₂', Moves q t w fails arr₂ c arr₂' c' ∧ AgreeOn c.first c.last arr' arr₂' := by
  induction h generalizing arr₂ with
  | @base arr b e hlen =>
      -- the writes of `qsort` follow from the contents of the range
      have hslice : slice arr₂ b e = slice arr b e := slice_congr ha
      have hbase : Moves q t .self false arr₂ _ _ _ := .base hlen
      rw [hslice] at hbase
      exact ⟨arr₂, hbase, ha⟩
  | fork hlen => exact ⟨arr₂, .fork hlen, ha⟩
  | forkFails hlen => exact ⟨arr₂, .forkFails hlen, ha⟩
  | write => exact ⟨_, .write, ha.update _ _⟩
  | sorted => exact ⟨arr₂, .sorted, ha⟩
  | join hexit => exact ⟨arr₂, .join hexit, ha⟩
  | childFailed hexit => exact ⟨arr₂, .childFailed hexit, ha⟩
  | waitFails => exact ⟨arr₂, .waitFails, ha⟩
  | @merge arr b m e s s' hs =>
      obtain ⟨hb, hl, hm, hr, -, -, -⟩ := ho
      have hsame := mergeStep_congr (b := b) (e := e) ha hb ((hb.trans hl).trans hm) (hm.trans hr)
      exact ⟨arr₂, .merge (hsame.trans hs), ha⟩
  | @merged arr b m e s hs =>
      obtain ⟨hb, hl, hm, hr, -, -, -⟩ := ho
      have hsame := mergeStep_congr (b := b) (e := e) ha hb ((hb.trans hl).trans hm) (hm.trans hr)
      exact ⟨arr₂, .merged (hsame.trans hs), ha⟩
  | copy hi hv => exact ⟨_, .copy hi hv, ha.update _ _⟩
  | copied hi => exact ⟨arr₂, .copied hi, ha⟩
  | @same fails arr arr' b m e child parent parent' hmove ih =>
      obtain ⟨-, -, hp, hp', hbm, -, -, hparent⟩ := ho
      have hb : b ≤ parent.first := hbm.trans_eq hp.symm
      obtain ⟨arr₂', hmove₂, hagree⟩ := ih hparent (ha.mono hb hp'.le)
      exact ⟨arr₂', .same hmove₂, hmove.agreeOn hmove₂ hparent ha hb hp'.le hagree⟩
  | @inner w fails arr arr' b m e child parent parent' hmove ih =>
      obtain ⟨-, -, hp, hp', hbm, -, -, hparent⟩ := ho
      have hb : b ≤ parent.first := hbm.trans_eq hp.symm
      obtain ⟨arr₂', hmove₂, hagree⟩ := ih hparent (ha.mono hb hp'.le)
      exact ⟨arr₂', .inner hmove₂, hmove.agreeOn hmove₂ hparent ha hb hp'.le hagree⟩
  | @child w fails arr arr' b m e child child' parent hmove ih =>
      obtain ⟨hc, hc', -, -, -, hme, hchild, -⟩ := ho
      have he : child.last ≤ e := hc'.trans_le hme
      obtain ⟨arr₂', hmove₂, hagree⟩ := ih hchild (ha.mono hc.ge he)
      exact ⟨arr₂', .child hmove₂, hmove.agreeOn hmove₂ hchild ha hc.ge he hagree⟩
  | @orphan w fails arr arr' b m e child child' cause hmove ih =>
      obtain ⟨hc, hc', -, hme, hchild, -⟩ := ho
      have he : child.last ≤ e := hc'.trans_le hme
      obtain ⟨arr₂', hmove₂, hagree⟩ := ih hchild (ha.mono hc.ge he)
      exact ⟨arr₂', .orphan hmove₂, hmove.agreeOn hmove₂ hchild ha hc.ge he hagree⟩

/-- A run can be repeated, choice by choice, on an array that agrees on the range. -/
theorem reads_invariant (hbe : b ≤ e) {orig₂ : Mem} (ha : AgreeOn b e orig orig₂) :
    (system q t orig b e).Invariant fun choices s =>
      ∃ arr₂, (system q t orig₂ b e).Run choices { arr := arr₂, call := s.call } ∧
        AgreeOn b e s.arr arr₂ := by
  refine TSys.Invariant.of_step (kept_invariant hbe) ?_ ?_
  · rintro s rfl
    exact ⟨orig₂, .init rfl, ha⟩
  · rintro h choices s s' ⟨-, hfirst, hlast, howns⟩ ⟨arr₂, hrun₂, hagree⟩ ⟨choice, rfl, hstep⟩
    have hmove := moves_of_step hstep
    rw [← hfirst, ← hlast] at hagree
    obtain ⟨arr₂', hmove₂, hagree'⟩ := hmove.reads howns hagree
    rw [hfirst, hlast] at hagree'
    exact ⟨arr₂', .step hrun₂ ⟨_, rfl, step_of_moves hmove₂⟩, hagree'⟩

/-! ## The result -/

/-- The choices of a run in which every `fork` and `waitpid` succeeds. -/
def Succeeds (choices : List Choice) : Prop := ∀ c ∈ choices, c.fails = false

theorem not_failed_of_succeeds {choices : List Choice} {s : State}
    (hrun : (system q t orig b e).Run choices s) (hsucceed : Succeeds choices) :
    ¬s.call.Failed := by
  intro hfailed
  obtain ⟨choice, hmem, hfails⟩ := (failed_invariant hrun).mp hfailed
  exact absurd ((hsucceed choice hmem).symm.trans hfails) Bool.false_ne_true

/-- A root call that has returned has sorted its range and nothing else. -/
theorem sorted_of_returned (hbe : b ≤ e) {choices : List Choice} {s : State} {b' e' : ℕ}
    (hrun : (system q t orig b e).Run choices s) (hs : s.call = .returned b' e') :
    s.call = .returned b e ∧ SameOutside b e orig s.arr ∧ Sorted orig s.arr b e := by
  obtain ⟨hout, hfirst, hlast, howns⟩ := kept_invariant hbe hrun
  rw [hs] at hfirst hlast howns
  obtain rfl : b' = b := hfirst
  obtain rfl : e' = e := hlast
  exact ⟨hs, hout, howns.2⟩

/-- Without failures, the root call has returned or some process can go on. -/
theorem returned_or_step (hbe : b ≤ e) {choices : List Choice} {s : State}
    (hrun : (system q t orig b e).Run choices s) (hsucceed : Succeeds choices) :
    s.call = .returned b e ∨ ∃ who s',
      (system q t orig b e).Run (choices ++ [{ who := who, fails := false }]) s' := by
  by_cases hended : s.call.Ended
  · obtain ⟨b', e', hs⟩ := hended.returned_of_not_failed (not_failed_of_succeeds hrun hsucceed)
    exact Or.inl (sorted_of_returned hbe hrun hs).1
  · exact Or.inr (exists_step_of_not_ended hbe hrun hended)

/-- A range has one sorted outcome. -/
theorem Sorted.unique (hout : SameOutside b e orig arr) (hsorted : Sorted orig arr b e)
    (hout' : SameOutside b e orig arr') (hsorted' : Sorted orig arr' b e) : arr' = arr := by
  have hslice : slice arr' b e = slice arr b e :=
    hsorted'.ascending.unique hsorted.ascending (hsorted'.perm.trans hsorted.perm.symm)
  have hback : SameOutside b e arr orig := fun i hi => (hout i hi).symm
  exact eq_of_agreeOn_of_sameOutside (agreeOn_of_slice_eq hslice) (hback.trans hout')

/-! ## A complete run -/

/-- Some run without failures returns. -/
theorem exists_run_returned (ht : 1 ≤ t) (hbe : b ≤ e) :
    ∃ choices s, (system q t orig b e).Run choices s ∧ Succeeds choices ∧
      s.call = .returned b e := by
  obtain ⟨choices, s, hrun, hended, hsucceed⟩ :=
    exists_run_ended ht hbe (.init (rfl : (system q t orig b e).init ⟨orig, .start b e⟩))
  obtain ⟨b', e', hs⟩ := hended.returned_of_not_failed (not_failed_of_succeeds hrun hsucceed)
  exact ⟨choices, s, hrun, hsucceed, (sorted_of_returned hbe hrun hs).1⟩

theorem foldl_set_zipIdx (zs : List Int64) (k : ℕ) (pre ys : List Int64) (hk : pre.length = k)
    (hlen : ys.length = zs.length) :
    ((zs.zipIdx k).map Prod.swap).foldl (fun ys w => ys.set w.1 w.2) (pre ++ ys) = pre ++ zs := by
  induction zs generalizing k pre ys with
  | nil => rw [List.eq_nil_of_length_eq_zero hlen, List.zipIdx_nil, List.map_nil, List.foldl_nil]
  | cons z zs ih =>
      cases ys with
      | nil => cases hlen
      | cons y ys =>
          have hset : (pre ++ y :: ys).set k z = (pre ++ [z]) ++ ys := by
            rw [← hk, List.set_append_right _ _ le_rfl, Nat.sub_self, List.set_cons_zero,
              List.append_assoc, List.singleton_append]
          rw [List.zipIdx_cons, List.map_cons, List.foldl_cons, Prod.swap_prod_mk, hset,
            ih (k + 1) (pre ++ [z]) ys (by rw [List.length_append, hk, List.length_singleton])
              (Nat.succ.inj hlen), List.append_assoc, List.singleton_append]

theorem foldl_copy (xs : List Int64) :
    ((xs.mergeSort leI64).zipIdx.map Prod.swap).foldl (fun ys w => ys.set w.1 w.2) xs =
      xs.mergeSort leI64 :=
  foldl_set_zipIdx (xs.mergeSort leI64) 0 [] xs rfl (List.length_mergeSort xs).symm

/-- A `qsort` that sorts a copy of the range and copies it back. -/
def copyQsort : Qsort where
  writes xs := (xs.mergeSort leI64).zipIdx.map Prod.swap
  bound n := n
  length_le xs := by rw [List.length_map, List.length_zipIdx, List.length_mergeSort]
  inRange xs w hw := by
    obtain ⟨p, hp, rfl⟩ := List.mem_map.mp hw
    have hlt := List.snd_lt_of_mem_zipIdx hp
    rwa [List.length_mergeSort] at hlt
  perm xs := (List.Perm.of_eq (foldl_copy xs)).trans (List.mergeSort_perm xs leI64)
  ascending xs := by
    rw [foldl_copy]
    exact ascending_iff_leI64.mpr (List.pairwise_mergeSort leI64_trans leI64_total xs)

/-! ## Sorting -/

/-- `merge_sort(arr, b, e, threshold)`, where every `fork` and `waitpid` succeeds. In every
order of the processes it comes to an end, with `[b, e)` in ascending order; it has read and
written nothing else; and another order, threshold or `qsort` would have left the same. -/
theorem mergeSort_sorts (ht : 1 ≤ t) (hbe : b ≤ e) {choices : List Choice} {s : State}
    (hrun : (system q t orig b e).Run choices s) (hsucceed : Succeeds choices) :
    choices.length ≤ cost q t (e - b) ∧
    (s.call = .returned b e ∨ ∃ who s',
      (system q t orig b e).Run (choices ++ [{ who := who, fails := false }]) s') ∧
    SameOutside b e orig s.arr ∧
    (∀ orig₂, AgreeOn b e orig orig₂ → ∃ arr₂,
      (system q t orig₂ b e).Run choices { arr := arr₂, call := s.call } ∧
        AgreeOn b e s.arr arr₂ ∧ SameOutside b e orig₂ arr₂) ∧
    (s.call = .returned b e →
      Ascending (slice s.arr b e) ∧ (slice s.arr b e).Perm (slice orig b e) ∧
      ∀ (q' : Qsort) (t' : ℕ) (choices' : List Choice) (s' : State),
        (system q' t' orig b e).Run choices' s' → s'.call = .returned b e →
        s'.arr = s.arr) := by
  have hlength := length_invariant ht hbe hrun
  refine ⟨by omega, returned_or_step hbe hrun hsucceed, (kept_invariant hbe hrun).1, ?_, ?_⟩
  · intro orig₂ ha
    obtain ⟨arr₂, hrun₂, hagree⟩ := reads_invariant hbe ha hrun
    exact ⟨arr₂, hrun₂, hagree, (kept_invariant hbe hrun₂).1⟩
  · intro hs
    obtain ⟨-, hout, hsorted⟩ := sorted_of_returned hbe hrun hs
    refine ⟨hsorted.ascending, hsorted.perm, fun q' t' choices' s' hrun' hs' => ?_⟩
    obtain ⟨-, hout', hsorted'⟩ := sorted_of_returned hbe hrun' hs'
    exact Sorted.unique hout hsorted hout' hsorted'

end

/-- An array of five elements. -/
def fiveElements : Mem := fun i => [9, 5, -2, 3, 0].getD i 0

theorem mergeSort_sorts_fiveElements :
    ∃ choices s, (system copyQsort 1 fiveElements 1 4).Run choices s ∧ Succeeds choices ∧
      s.call = .returned 1 4 ∧ slice s.arr 1 4 = [-2, 3, 5] ∧ s.arr 0 = 9 ∧ s.arr 4 = 0 := by
  have hreturns : ∃ choices s, (system copyQsort 1 fiveElements 1 4).Run choices s ∧
      Succeeds choices ∧ s.call = .returned 1 4 := exists_run_returned le_rfl (by omega)
  obtain ⟨choices, s, hrun, hsucceed, hs⟩ := hreturns
  obtain ⟨-, -, hout, -, hresult⟩ := mergeSort_sorts le_rfl (by omega) hrun hsucceed
  obtain ⟨hasc, hperm, -⟩ := hresult hs
  have hasc' : Ascending [-2, 3, 5] := by
    rw [Ascending]
    decide
  have hperm' : (slice fiveElements 1 4).Perm [-2, 3, 5] := by decide
  exact ⟨choices, s, hrun, hsucceed, hs, hasc.unique hasc' (hperm.trans hperm'),
    hout 0 (by omega), hout 4 (by omega)⟩

end Csf.Parsort
