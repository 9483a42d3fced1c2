import Csf.Parsort.Steps

/-!
# Parallel sort: every call owns its range

`Owns orig arr c` says what the range of a call holds, in terms of what it held at
first: the tree below a call touches that range and nothing else, and the ranges of
a child and of its parent's own call are disjoint. `Moves.kept` is the step lemma; it
carries the merge loop's invariant and the copy loop's.

Whatever fails, a range holds a permutation of its first contents, once nobody works
in it any more; and a call that has returned has sorted its range.
-/

namespace Csf.Parsort

open Csf.Lib Csf.Lib.Region

/-! ## Ascending lists -/

theorem compareI64_le {x y : Int64} : compareI64 x y ≤ 0 ↔ x ≤ y := by
  rw [compareI64]
  by_cases hgt : x > y
  · rw [if_pos hgt]
    exact iff_of_false (by decide) (Int64.not_le.mpr hgt)
  · rw [if_neg hgt]
    have hle : x ≤ y := Int64.not_lt.mp hgt
    split <;> simp [hle]

/-- The order that `merge` follows. -/
def leI64 (x y : Int64) : Bool := compareI64 x y ≤ 0

theorem leI64_iff {x y : Int64} : leI64 x y = true ↔ x ≤ y := by
  rw [leI64, decide_eq_true_iff, compareI64_le]

theorem ascending_iff {xs : List Int64} : Ascending xs ↔ xs.Pairwise (· ≤ ·) :=
  List.pairwise_iff_forall_sublist.trans
    ((forall₂_congr fun _ _ => forall_congr' fun _ => compareI64_le).trans
      List.pairwise_iff_forall_sublist.symm)

/-- A list has one ascending permutation. -/
theorem Ascending.unique {xs ys : List Int64} (hx : Ascending xs) (hy : Ascending ys)
    (h : xs.Perm ys) : xs = ys := by
  refine h.eq_of_pairwise (fun a b _ _ hab hba => ?_) (ascending_iff.mp hx) (ascending_iff.mp hy)
  exact Int64.le_antisymm hab hba

theorem leI64_trans (x y z : Int64) (hxy : leI64 x y = true) (hyz : leI64 y z = true) :
    leI64 x z = true := by
  rw [leI64_iff] at hxy hyz ⊢
  exact Int64.le_trans hxy hyz

theorem leI64_total (x y : Int64) : (leI64 x y || leI64 y x) = true := by
  rw [Bool.or_eq_true, leI64_iff, leI64_iff]
  exact Int64.le_total x y

theorem ascending_iff_leI64 {xs : List Int64} :
    Ascending xs ↔ xs.Pairwise fun x y => leI64 x y = true := by
  simp only [leI64, decide_eq_true_iff]
  rfl

/-- Merging ascending lists gives an ascending permutation of both. -/
theorem merge_spec {xs ys : List Int64} (hx : Ascending xs) (hy : Ascending ys) :
    Ascending (xs.merge ys leI64) ∧ (xs.merge ys leI64).Perm (xs ++ ys) := by
  rw [ascending_iff_leI64] at hx hy
  exact ⟨ascending_iff_leI64.mpr (List.pairwise_merge leI64_trans leI64_total _ _ hx hy),
    List.merge_perm_append leI64⟩

/-! ## What a range holds -/

/-- `[b, e)` holds its first contents in ascending order. -/
structure Sorted (orig arr : Mem) (b e : ℕ) : Prop where
  ascending : Ascending (slice arr b e)
  perm : (slice arr b e).Perm (slice orig b e)

/-- The range of a call. -/
def Call.first : Call → ℕ
  | .start b _ | .sorting b _ _ | .forked b _ _ _ _ | .merging b _ _ _ | .copying b _ _ _
  | .returned b _ | .exited b _ | .abandoned b _ _ _ _ => b

def Call.last : Call → ℕ
  | .start _ e | .sorting _ e _ | .forked _ _ e _ _ | .merging _ _ e _ | .copying _ e _ _
  | .returned _ e | .exited _ e | .abandoned _ _ e _ _ => e

/-- The loop of `merge` at work on two sorted halves: what it has written and what it has
still to merge make up the whole. -/
structure Merging (orig arr : Mem) (b mid e : ℕ) (s : MergeState) : Prop where
  begin_le : b ≤ s.left
  left_le : s.left ≤ mid
  mid_le : mid ≤ s.right
  right_le : s.right ≤ e
  left : Sorted orig arr b mid
  right : Sorted orig arr mid e
  temp : s.temp ++ (slice arr s.left mid).merge (slice arr s.right e) leI64 =
    (slice arr b mid).merge (slice arr mid e) leI64

/-- What the range of a call holds, where `orig` is the array at first. -/
def Owns (orig arr : Mem) : Call → Prop
  | .start b e => b ≤ e ∧ slice arr b e = slice orig b e
  | .sorting b e ws =>
      b ≤ e ∧ (∀ w ∈ ws, w.1 < e - b) ∧
        Ascending (ws.foldl (fun ys w => ys.set w.1 w.2) (slice arr b e)) ∧
        (ws.foldl (fun ys w => ys.set w.1 w.2) (slice arr b e)).Perm (slice orig b e)
  | .forked b mid e child parent =>
      child.first = b ∧ child.last = mid ∧ parent.first = mid ∧ parent.last = e ∧
        b ≤ mid ∧ mid ≤ e ∧ Owns orig arr child ∧ Owns orig arr parent
  | .merging b mid e s => Merging orig arr b mid e s
  | .copying b e temp i =>
      b ≤ i ∧ i ≤ e ∧ temp.length = e - b ∧ Ascending temp ∧ temp.Perm (slice orig b e) ∧
        slice arr b i = temp.take (i - b)
  | .returned b e => b ≤ e ∧ Sorted orig arr b e
  | .exited b e => b ≤ e ∧ (slice arr b e).Perm (slice orig b e)
  | .abandoned b mid e child _ =>
      child.first = b ∧ child.last = mid ∧ b ≤ mid ∧ mid ≤ e ∧ Owns orig arr child ∧
        (slice arr mid e).Perm (slice orig mid e)

section

variable {q : Qsort} {t : ℕ} {orig arr arr' : Mem} {c c' : Call} {b mid e : ℕ}

theorem Sorted.congr (h : Sorted orig arr b e) (ha : AgreeOn b e arr arr') :
    Sorted orig arr' b e := by
  have hslice := slice_congr ha
  exact ⟨hslice ▸ h.ascending, hslice ▸ h.perm⟩

theorem Merging.congr {s : MergeState} (h : Merging orig arr b mid e s)
    (ha : AgreeOn b e arr arr') : Merging orig arr' b mid e s := by
  obtain ⟨hb, hl, hm, hr, hleft, hright, htemp⟩ := h
  have hlow : AgreeOn b mid arr arr' := ha.mono le_rfl (hm.trans hr)
  have hhigh : AgreeOn mid e arr arr' := ha.mono (hb.trans hl) le_rfl
  refine ⟨hb, hl, hm, hr, hleft.congr hlow, hright.congr hhigh, ?_⟩
  rw [slice_congr hlow, slice_congr hhigh, slice_congr (hlow.mono hb le_rfl),
    slice_congr (hhigh.mono hm le_rfl)]
  exact htemp

/-- What a range holds depends on nothing but the range. -/
theorem Owns.congr (h : Owns orig arr c) (ha : AgreeOn c.first c.last arr arr') :
    Owns orig arr' c := by
  induction c with
  | start b e =>
      obtain ⟨hbe, hslice⟩ := h
      exact ⟨hbe, (slice_congr ha).trans hslice⟩
  | sorting b e ws =>
      obtain ⟨hbe, hin, hasc, hperm⟩ := h
      have hslice : slice arr' b e = slice arr b e := slice_congr ha
      exact ⟨hbe, hin, hslice ▸ hasc, hslice ▸ hperm⟩
  | forked b mid e child parent ihc ihp =>
      obtain ⟨hc, hc', hp, hp', hbm, hme, hchild, hparent⟩ := h
      refine ⟨hc, hc', hp, hp', hbm, hme, ihc hchild ?_, ihp hparent ?_⟩
      · rw [hc, hc']
        exact ha.mono le_rfl hme
      · rw [hp, hp']
        exact ha.mono hbm le_rfl
  | merging b mid e s => exact Merging.congr h ha
  | copying b e temp i =>
      obtain ⟨hbi, hie, hlen, hasc, hperm, hslice⟩ := h
      exact ⟨hbi, hie, hlen, hasc, hperm, (slice_congr (ha.mono le_rfl hie)).trans hslice⟩
  | returned b e =>
      obtain ⟨hbe, hsorted⟩ := h
      exact ⟨hbe, hsorted.congr ha⟩
  | exited b e =>
      obtain ⟨hbe, hperm⟩ := h
      have hslice : slice arr' b e = slice arr b e := slice_congr ha
      exact ⟨hbe, hslice ▸ hperm⟩
  | abandoned b mid e child cause ih =>
      obtain ⟨hc, hc', hbm, hme, hchild, hperm⟩ := h
      refine ⟨hc, hc', hbm, hme, ih hchild ?_, ?_⟩
      · rw [hc, hc']
        exact ha.mono le_rfl hme
      · have hslice : slice arr' mid e = slice arr mid e := slice_congr (ha.mono hbm le_rfl)
        exact hslice ▸ hperm

theorem Owns.child {child parent : Call} (h : Owns orig arr (.forked b mid e child parent)) :
    Owns orig arr child := h.2.2.2.2.2.2.1

theorem Owns.parent {child parent : Call} (h : Owns orig arr (.forked b mid e child parent)) :
    Owns orig arr parent := h.2.2.2.2.2.2.2

theorem Owns.orphan {child : Call} {cause : Cause}
    (h : Owns orig arr (.abandoned b mid e child cause)) : Owns orig arr child := h.2.2.2.2.1

/-! ## Exit statuses -/

/-- No process gives up with status 0. -/
theorem gaveUp_ne_zero (c : Call) : c.gaveUp ≠ some 0 := by
  induction c with
  | forked b mid e child parent ihc ihp => exact ihp
  | abandoned b mid e child cause ih => cases cause <;> exact fun h => nomatch h
  | _ => exact fun h => nomatch h

/-- A process exits with 0 only after the return of its call. -/
theorem returned_of_exitStatus (h : c.exitStatus = some 0) : ∃ b e, c = .returned b e := by
  cases c with
  | returned b e => exact ⟨b, e, rfl⟩
  | _ => exact absurd h (gaveUp_ne_zero _)

/-! ## The loops -/

/-- The body of the loop of `merge` takes the element that the merge of the remaining
halves begins with. -/
theorem Merging.step {s s' : MergeState} (h : Merging orig arr b mid e s)
    (hs : mergeStep arr mid e s = some s') : Merging orig arr b mid e s' := by
  obtain ⟨hb, hl, hm, hr, hleft, hright, htemp⟩ := h
  have htakeLeft : s.left < mid → (s.right ≥ e ∨ compareI64 (arr s.left) (arr s.right) ≤ 0) →
      Merging orig arr b mid e (s.takeLeft arr) := by
    intro hlt hle
    refine ⟨Nat.le_succ_of_le hb, hlt, hm, hr, hleft, hright, ?_⟩
    rw [← htemp, slice_cons arr hlt]
    show s.temp ++ [arr s.left] ++ (slice arr (s.left + 1) mid).merge (slice arr s.right e) leI64 =
      _
    rw [List.append_assoc]
    congr 1
    -- the right half may be used up, or its head is not below the left one
    rcases Nat.lt_or_ge s.right e with hlt' | hge
    · have hcmp : leI64 (arr s.left) (arr s.right) = true :=
        decide_eq_true (hle.resolve_left (Nat.not_le.mpr hlt'))
      rw [slice_cons arr hlt', List.cons_merge_cons_pos _ _ _ hcmp]
      rfl
    · rw [slice_eq_nil hge, List.merge_right, List.merge_right]
      rfl
  have htakeRight : s.right < e → (s.left ≥ mid ∨ ¬compareI64 (arr s.left) (arr s.right) ≤ 0) →
      Merging orig arr b mid e (s.takeRight arr) := by
    intro hlt hgt
    refine ⟨hb, hl, Nat.le_succ_of_le hm, hlt, hleft, hright, ?_⟩
    rw [← htemp, slice_cons arr hlt]
    show s.temp ++ [arr s.right] ++ (slice arr s.left mid).merge (slice arr (s.right + 1) e) leI64 =
      _
    rw [List.append_assoc]
    congr 1
    -- the left half may be used up, or its head is above the right one
    rcases Nat.lt_or_ge s.left mid with hlt' | hge
    · have hcmp : ¬leI64 (arr s.left) (arr s.right) = true := by
        rw [leI64, decide_eq_true_iff]
        exact hgt.resolve_left (Nat.not_le.mpr hlt')
      rw [slice_cons arr hlt', List.cons_merge_cons_neg _ _ _ hcmp]
      rfl
    · rw [slice_eq_nil hge, List.nil_merge, List.nil_merge]
      rfl
  rw [mergeStep] at hs
  split at hs
  · cases hs
  · next hbreak =>
      split at hs
      · next hendl =>
          cases hs
          exact htakeRight (by omega) (Or.inl hendl)
      · next hendl =>
          split at hs
          · next hendr =>
              cases hs
              exact htakeLeft (by omega) (Or.inl hendr)
          · next hendr =>
              split at hs
              · next hcmp =>
                  cases hs
                  exact htakeLeft (by omega) (Or.inr hcmp)
              · next hcmp =>
                  cases hs
                  exact htakeRight (by omega) (Or.inr hcmp)

/-- Where the loop of `merge` breaks, `temparr` holds the range in ascending order. -/
theorem Merging.break {s : MergeState} (h : Merging orig arr b mid e s)
    (hs : mergeStep arr mid e s = none) :
    s.temp.length = e - b ∧ Ascending s.temp ∧ s.temp.Perm (slice orig b e) := by
  obtain ⟨hb, hl, hm, hr, hleft, hright, htemp⟩ := h
  have hend : s.left ≥ mid ∧ s.right ≥ e := by
    rw [mergeStep] at hs
    by_contra hnot
    rw [if_neg hnot] at hs
    split_ifs at hs
  rw [slice_eq_nil hend.1, slice_eq_nil hend.2, List.nil_merge, List.append_nil] at htemp
  obtain ⟨hasc, hperm⟩ := merge_spec hleft.ascending hright.ascending
  have hbm : b ≤ mid := hb.trans hl
  have hme : mid ≤ e := hm.trans hr
  have hall := hperm.trans (hleft.perm.append hright.perm)
  rw [slice_append orig hbm hme, ← htemp] at hall
  refine ⟨?_, htemp ▸ hasc, hall⟩
  rw [hall.length_eq, length_slice]

/-! ## Steps -/

/-- What a step of a call leaves: nothing outside of the range has changed, the range is
the same, and it holds what it should. -/
structure Kept (orig arr : Mem) (c : Call) (arr' : Mem) (c' : Call) : Prop where
  outside : SameOutside c.first c.last arr arr'
  first : c'.first = c.first
  last : c'.last = c.last
  owns : Owns orig arr' c'

theorem Kept.of_parent {child parent parent' : Call}
    (ho : Owns orig arr (.forked b mid e child parent)) (h : Kept orig arr parent arr' parent') :
    Kept orig arr (.forked b mid e child parent) arr' (.forked b mid e child parent') := by
  obtain ⟨hc, hc', hp, hp', hbm, hme, hchild, -⟩ := ho
  obtain ⟨hout, hfirst, hlast, howns⟩ := h
  rw [hp, hp'] at hout
  refine ⟨hout.mono hbm le_rfl, rfl, rfl, hc, hc', hfirst.trans hp, hlast.trans hp', hbm, hme,
    hchild.congr ?_, howns⟩
  -- the parent's own call has worked to the right of the child's range
  rw [hc, hc']
  exact hout.agreeOn (Or.inl le_rfl)

theorem Kept.of_child {child child' parent : Call}
    (ho : Owns orig arr (.forked b mid e child parent)) (h : Kept orig arr child arr' child') :
    Kept orig arr (.forked b mid e child parent) arr' (.forked b mid e child' parent) := by
  obtain ⟨hc, hc', hp, hp', hbm, hme, -, hparent⟩ := ho
  obtain ⟨hout, hfirst, hlast, howns⟩ := h
  rw [hc, hc'] at hout
  refine ⟨hout.mono le_rfl hme, rfl, rfl, hfirst.trans hc, hlast.trans hc', hp, hp', hbm, hme,
    howns, hparent.congr ?_⟩
  -- the child has worked to the left of the range of the parent's own call
  rw [hp, hp']
  exact hout.agreeOn (Or.inr le_rfl)

/-- A process that gives up leaves its own half sorted, and its child at work. -/
theorem Owns.abandoned {child : Call} {b' e' : ℕ} (cause : Cause)
    (ho : Owns orig arr (.forked b mid e child (.returned b' e'))) :
    Owns orig arr (.abandoned b mid e child cause) := by
  obtain ⟨hc, hc', hp, hp', hbm, hme, hchild, -, hright⟩ := ho
  obtain ⟨rfl, rfl⟩ : b' = mid ∧ e' = e := ⟨hp, hp'⟩
  exact ⟨hc, hc', hbm, hme, hchild, hright.perm⟩

/-- A step of the tree below a call. -/
theorem Moves.kept {w : Who} {fails : Bool} (h : Moves q t w fails arr c arr' c')
    (ho : Owns orig arr c) : Kept orig arr c arr' c' := by
  induction h with
  | @base arr b e hlen =>
      obtain ⟨hbe, hslice⟩ := ho
      refine ⟨SameOutside.refl _ _ _, rfl, rfl, hbe, fun w hw => ?_, q.ascending _, ?_⟩
      · rw [← length_slice arr]
        exact q.inRange _ w hw
      · exact hslice ▸ q.perm _
  | @fork arr b e hlen =>
      obtain ⟨hbe, hslice⟩ := ho
      have hbm : b ≤ (e + b) / 2 := by omega
      have hme : (e + b) / 2 ≤ e := by omega
      have hagree := agreeOn_of_slice_eq hslice
      exact ⟨SameOutside.refl _ _ _, rfl, rfl, rfl, rfl, rfl, rfl, hbm, hme,
        ⟨hbm, slice_congr (hagree.mono le_rfl hme)⟩, ⟨hme, slice_congr (hagree.mono hbm le_rfl)⟩⟩
  | forkFails hlen =>
      obtain ⟨hbe, hslice⟩ := ho
      exact ⟨SameOutside.refl _ _ _, rfl, rfl, hbe, List.Perm.of_eq hslice⟩
  | @write arr b e i v ws =>
      obtain ⟨hbe, hin, hasc, hperm⟩ := ho
      have hi : i < e - b := hin (i, v) List.mem_cons_self
      have hlt : b + i < e := by omega
      have hslice := slice_update arr hi v
      refine ⟨sameOutside_update arr (Nat.le_add_right b i) hlt v, rfl, rfl, hbe,
        fun w hw => hin w (List.mem_cons_of_mem _ hw), ?_, ?_⟩
      · rw [hslice]
        exact hasc
      · rw [hslice]
        exact hperm
  | sorted =>
      obtain ⟨hbe, -, hasc, hperm⟩ := ho
      exact ⟨SameOutside.refl _ _ _, rfl, rfl, hbe, hasc, hperm⟩
  | @join arr b m e b' e' child hexit =>
      obtain ⟨hc, hc', hp, hp', hbm, hme, hchild, -, hright⟩ := ho
      -- the child has returned, so its range is sorted
      obtain ⟨bc, ec, rfl⟩ := returned_of_exitStatus hexit
      obtain ⟨-, hleft⟩ := hchild
      obtain ⟨rfl, rfl⟩ : bc = b ∧ ec = m := ⟨hc, hc'⟩
      obtain ⟨rfl, rfl⟩ : b' = ec ∧ e' = e := ⟨hp, hp'⟩
      exact ⟨SameOutside.refl _ _ _, rfl, rfl, le_rfl, hbm, le_rfl, hme, hleft, hright, rfl⟩
  | childFailed hexit => exact ⟨SameOutside.refl _ _ _, rfl, rfl, ho.abandoned _⟩
  | waitFails => exact ⟨SameOutside.refl _ _ _, rfl, rfl, ho.abandoned _⟩
  | merge hs =>
      have hmerging : Merging orig _ _ _ _ _ := ho
      exact ⟨SameOutside.refl _ _ _, rfl, rfl, hmerging.step hs⟩
  | @merged arr b m e s hs =>
      have hmerging : Merging orig arr b m e s := ho
      obtain ⟨hlen, hasc, hperm⟩ := hmerging.break hs
      have hbe : b ≤ e := (hmerging.begin_le.trans hmerging.left_le).trans
        (hmerging.mid_le.trans hmerging.right_le)
      refine ⟨SameOutside.refl _ _ _, rfl, rfl, le_rfl, hbe, hlen, hasc, hperm, ?_⟩
      rw [slice_self, Nat.sub_self, List.take_zero]
  | @copy arr b e temp i v hi hv =>
      obtain ⟨hbi, -, hlen, hasc, hperm, hslice⟩ := ho
      refine ⟨sameOutside_update arr hbi hi v, rfl, rfl, Nat.le_succ_of_le hbi, hi, hlen, hasc,
        hperm, ?_⟩
      have hsucc : i + 1 - b = (i - b) + 1 := by omega
      rw [slice_update_concat arr hbi, hslice, hsucc, List.take_add_one, hv]
      rfl
  | @copied arr b e temp i hi =>
      obtain ⟨hbi, hie, hlen, hasc, hperm, hslice⟩ := ho
      obtain rfl : i = e := le_antisymm hie hi
      rw [← hlen, List.take_length] at hslice
      exact ⟨SameOutside.refl _ _ _, rfl, rfl, hbi, hslice ▸ hasc, hslice ▸ hperm⟩
  | same _ ih => exact .of_parent ho (ih ho.parent)
  | inner _ ih => exact .of_parent ho (ih ho.parent)
  | child _ ih => exact .of_child ho (ih ho.child)
  | @orphan w fails arr arr' b m e child child' cause _ ih =>
      obtain ⟨hc, hc', hbm, hme, hchild, hperm⟩ := ho
      obtain ⟨hout, hfirst, hlast, howns⟩ := ih hchild
      rw [hc, hc'] at hout
      refine ⟨hout.mono le_rfl hme, rfl, rfl, hfirst.trans hc, hlast.trans hc', hbm, hme, howns, ?_⟩
      have hslice : slice arr' m e = slice arr m e := slice_congr (hout.agreeOn (Or.inr le_rfl))
      exact hslice ▸ hperm

/-- Every state of a run. -/
theorem kept_invariant (hbe : b ≤ e) : (system q t orig b e).Invariant fun _ s =>
    SameOutside b e orig s.arr ∧ s.call.first = b ∧ s.call.last = e ∧ Owns orig s.arr s.call := by
  refine TSys.invariant_of_step ?_ ?_
  · rintro s rfl
    exact ⟨SameOutside.refl _ _ _, rfl, rfl, hbe, rfl⟩
  · rintro h choices s s' ⟨hout, hfirst, hlast, howns⟩ ⟨choice, -, hstep⟩
    have hkept := (moves_of_step hstep).kept howns
    have hout' := hkept.outside
    rw [hfirst, hlast] at hout'
    exact ⟨hout.trans hout', hkept.first.trans hfirst, hkept.last.trans hlast, hkept.owns⟩

end

end Csf.Parsort
