import Csf.Parsort.Sorting

/-!
# Parallel sort: `merge` in memory

`merge` pointer by pointer, on one memory that holds `arr` and `temparr`. A run keeps the
addresses that it reads and those that it writes. The loop follows `mergeStep`, so what is
known of the merge loop of a call holds of it; and each element that is written is one of
the range, those of a half in their order.
-/

namespace Csf.Parsort

open Csf.Lib Csf.Lib.Region

/-- The memory, the pointers that move, and the accesses so far. -/
structure MergeRun where
  mem : Mem
  left : ℕ
  right : ℕ
  dst : ℕ
  reads : List ℕ
  writes : List ℕ

/-- `*dst++ = *p` -/
def MergeRun.copy (s : MergeRun) (p : ℕ) : MergeRun :=
  { s with
    mem := Function.update s.mem s.dst (s.mem p)
    dst := s.dst + 1
    reads := s.reads ++ [p]
    writes := s.writes ++ [s.dst] }

/-- `*dst++ = *left++` -/
def MergeRun.takeLeft (s : MergeRun) : MergeRun := { s.copy s.left with left := s.left + 1 }

/-- `*dst++ = *right++` -/
def MergeRun.takeRight (s : MergeRun) : MergeRun := { s.copy s.right with right := s.right + 1 }

/-- `compare_i64(left, right)` -/
def MergeRun.compare (s : MergeRun) : ℤ × MergeRun :=
  (compareI64 (s.mem s.left) (s.mem s.right), { s with reads := s.reads ++ [s.left, s.right] })

/-- The body of the loop, which may break. -/
def MergeRun.step (endl endr : ℕ) (s : MergeRun) : Option MergeRun :=
  if s.left ≥ endl ∧ s.right ≥ endr then none
  else if s.left ≥ endl then some s.takeRight
  else if s.right ≥ endr then some s.takeLeft
  else if s.compare.1 ≤ 0 then some s.compare.2.takeLeft
  else some s.compare.2.takeRight

/-- What the body does: it breaks, or it takes an element from one of the halves, perhaps
after a look at the next element of both. On indices it is `mergeStep`. -/
inductive MergeRun.Steps (endl endr : ℕ) (s : MergeRun) (temp : List Int64) :
    Option MergeRun → Option MergeState → Prop
  | done (hl : endl ≤ s.left) (hr : endr ≤ s.right) : Steps endl endr s temp none none
  | left {looked : List ℕ} (hl : s.left < endl)
      (hlooked : looked = [] ∨ s.right < endr ∧ looked = [s.left, s.right]) :
      Steps endl endr s temp (some ({ s with reads := s.reads ++ looked } : MergeRun).takeLeft)
        (some (MergeState.takeLeft ⟨s.left, s.right, temp⟩ s.mem))
  | right {looked : List ℕ} (hr : s.right < endr)
      (hlooked : looked = [] ∨ s.left < endl ∧ looked = [s.left, s.right]) :
      Steps endl endr s temp (some ({ s with reads := s.reads ++ looked } : MergeRun).takeRight)
        (some (MergeState.takeRight ⟨s.left, s.right, temp⟩ s.mem))

theorem MergeRun.steps (endl endr : ℕ) (s : MergeRun) (temp : List Int64) :
    s.Steps endl endr temp (s.step endl endr)
      (mergeStep s.mem endl endr ⟨s.left, s.right, temp⟩) := by
  have hnothing : ({ s with reads := s.reads ++ [] } : MergeRun) = s := by rw [List.append_nil]
  unfold MergeRun.step mergeStep MergeRun.compare
  split
  · next hboth => exact .done hboth.1 hboth.2
  · next hboth =>
      split
      · next hendl =>
          have hright : s.Steps endl endr temp
              (some ({ s with reads := s.reads ++ [] } : MergeRun).takeRight) _ :=
            .right (by omega) (.inl rfl)
          rwa [hnothing] at hright
      · next hendl =>
          split
          · next hendr =>
              have hleft : s.Steps endl endr temp
                  (some ({ s with reads := s.reads ++ [] } : MergeRun).takeLeft) _ :=
                .left (Nat.lt_of_not_le hendl) (.inl rfl)
              rwa [hnothing] at hleft
          · next hendr =>
              split
              · exact .left (Nat.lt_of_not_le hendl) (.inr ⟨Nat.lt_of_not_le hendr, rfl⟩)
              · exact .right (Nat.lt_of_not_le hendr) (.inr ⟨Nat.lt_of_not_le hendl, rfl⟩)

theorem MergeRun.step_lt {endl endr : ℕ} {s s' : MergeRun} (h : s.step endl endr = some s') :
    (endl - s'.left) + (endr - s'.right) < (endl - s.left) + (endr - s.right) := by
  have hsteps := s.steps endl endr []
  rw [h] at hsteps
  generalize mergeStep s.mem endl endr ⟨s.left, s.right, []⟩ = next at hsteps
  cases hsteps with
  | left hl _ =>
      show (endl - (s.left + 1)) + (endr - s.right) < _
      omega
  | right hr _ =>
      show (endl - s.left) + (endr - (s.right + 1)) < _
      omega

/-- The loop. -/
def mergeLoop (endl endr : ℕ) (s : MergeRun) : MergeRun :=
  match _h : s.step endl endr with
  | none => s
  | some s' => mergeLoop endl endr s'
termination_by (endl - s.left) + (endr - s.right)
decreasing_by exact MergeRun.step_lt ‹_›

/-- `merge`, of the elements `[b, e)` at the address `arr`. -/
def merge (mem : Mem) (arr b mid e temparr : ℕ) : MergeRun :=
  mergeLoop (arr + mid) (arr + e)
    { mem := mem, left := arr + b, right := arr + mid, dst := temparr, reads := [], writes := [] }

/-- What the body of the loop preserves holds at the end, where the loop breaks. -/
theorem mergeLoop_invariant {endl endr : ℕ} {I : MergeRun → Prop}
    (hstep : ∀ {s s'}, I s → s.step endl endr = some s' → I s') {s : MergeRun} (hs : I s) :
    I (mergeLoop endl endr s) ∧ (mergeLoop endl endr s).step endl endr = none := by
  induction s using mergeLoop.induct endl endr with
  | case1 s hbreak =>
      rw [mergeLoop, hbreak]
      exact ⟨hs, hbreak⟩
  | case2 s s' hnext ih =>
      rw [mergeLoop, hnext]
      exact ih (hstep hs hnext)

section

variable {mem : Mem} {b mid e temparr : ℕ} {s s' : MergeRun}

/-! ## Where the elements come from -/

/-- The addresses of the elements written, in their order: those of each half in the order
of the half. -/
structure Arranged (b mid left right : ℕ) (order : List ℕ) : Prop where
  low : order.filter (· < mid) = List.range' b (left - b)
  high : order.filter (mid ≤ ·) = List.range' mid (right - mid)

theorem Arranged.takeLeft {left right : ℕ} {order : List ℕ} (h : Arranged b mid left right order)
    (hb : b ≤ left) (hlt : left < mid) : Arranged b mid (left + 1) right (order ++ [left]) := by
  have hlen : left + 1 - b = (left - b) + 1 := by omega
  have hlast : b + (left - b) = left := by omega
  refine ⟨?_, ?_⟩
  · rw [List.filter_append, h.low, hlen, List.range'_concat, Nat.one_mul, hlast]
    simp [hlt]
  · rw [List.filter_append, h.high]
    simp [hlt]

theorem Arranged.takeRight {left right : ℕ} {order : List ℕ} (h : Arranged b mid left right order)
    (hm : mid ≤ right) : Arranged b mid left (right + 1) (order ++ [right]) := by
  have hlen : right + 1 - mid = (right - mid) + 1 := by omega
  have hlast : mid + (right - mid) = right := by omega
  refine ⟨?_, ?_⟩
  · rw [List.filter_append, h.low]
    simp [hm]
  · rw [List.filter_append, h.high, hlen, List.range'_concat, Nat.one_mul, hlast]
    simp [hm]

/-- Nothing is lost and nothing doubled. -/
theorem Arranged.perm {order : List ℕ} (h : Arranged b mid mid e order) (hbm : b ≤ mid)
    (hme : mid ≤ e) : order.Perm (List.range' b (e - b)) := by
  have hlen : e - b = (mid - b) + (e - mid) := by omega
  have hstart : b + 1 * (mid - b) = mid := by omega
  have hsplit : order.filter (fun p => !decide (p < mid)) = order.filter (mid ≤ ·) := by
    apply List.filter_congr
    intro p _
    rw [← decide_not, decide_eq_decide]
    exact Nat.not_lt
  rw [hlen, ← List.range'_append, hstart, ← h.low, ← h.high, ← hsplit]
  exact (List.filter_append_perm _ order).symm

/-! ## The invariant of the loop -/

/-- `temparr` has room for the range and does not meet it. -/
def Apart (b e temparr : ℕ) : Prop := temparr + (e - b) ≤ b ∨ e ≤ temparr

/-- What has been written so far, in terms of the memory at first. -/
structure Written (mem : Mem) (b e temparr : ℕ) (s : MergeRun) (temp : List Int64) : Prop where
  dst : temparr ≤ s.dst
  outside : SameOutside temparr s.dst mem s.mem
  reads : ∀ p ∈ s.reads, b ≤ p ∧ p < e
  writes : s.writes = List.range' temparr (s.dst - temparr)
  temp : slice s.mem temparr s.dst = temp

theorem Written.look {temp : List Int64} {looked : List ℕ} (h : Written mem b e temparr s temp)
    (hlooked : ∀ p ∈ looked, b ≤ p ∧ p < e) :
    Written mem b e temparr { s with reads := s.reads ++ looked } temp := by
  refine ⟨h.dst, h.outside, fun p hp => ?_, h.writes, h.temp⟩
  rcases List.mem_append.mp hp with hp | hp
  · exact h.reads p hp
  · exact hlooked p hp

/-- Copying an element of the range adds it to what has been written. -/
theorem Written.copy {temp : List Int64} {p : ℕ} (h : Written mem b e temparr s temp)
    (hapart : Apart b e temparr) (hdst : s.dst < temparr + (e - b)) (hb : b ≤ p) (he : p < e) :
    Written mem b e temparr (s.copy p) (temp ++ [mem p]) := by
  obtain ⟨hle, houtside, hreads, hwrites, htemp⟩ := h
  have hcell : s.mem p = mem p := by
    apply houtside
    rcases hapart with hapart | hapart <;> omega
  have hlen : s.dst + 1 - temparr = (s.dst - temparr) + 1 := by omega
  have hlast : temparr + (s.dst - temparr) = s.dst := by omega
  refine ⟨Nat.le_succ_of_le hle, ?_, ?_, ?_, ?_⟩
  · have hgrown : SameOutside temparr (s.dst + 1) mem s.mem := houtside.mono le_rfl (Nat.le_succ _)
    exact hgrown.trans (sameOutside_update s.mem hle (Nat.lt_succ_self _) _)
  · intro p' hp'
    rcases List.mem_append.mp hp' with hp' | hp'
    · exact hreads p' hp'
    · rw [List.mem_singleton.mp hp']
      exact ⟨hb, he⟩
  · show s.writes ++ [s.dst] = List.range' temparr (s.dst + 1 - temparr)
    rw [hwrites, hlen, List.range'_concat, Nat.one_mul, hlast]
  · show slice (Function.update s.mem s.dst (s.mem p)) temparr (s.dst + 1) = _
    rw [slice_update_concat _ hle, htemp, hcell]

/-- It is the same for pointers that have moved on. -/
theorem Written.halves {temp : List Int64} (h : Written mem b e temparr s temp) (left right : ℕ) :
    Written mem b e temparr { s with left := left, right := right } temp :=
  ⟨h.dst, h.outside, h.reads, h.writes, h.temp⟩

/-- The two pointers in their halves, and what has been written. -/
structure Halfway (mem : Mem) (b mid e temparr : ℕ) (s : MergeRun) : Prop where
  begin_le : b ≤ s.left
  left_le : s.left ≤ mid
  mid_le : mid ≤ s.right
  right_le : s.right ≤ e
  dst : s.dst = temparr + ((s.left - b) + (s.right - mid))
  written : ∃ order, Arranged b mid s.left s.right order ∧
    Written mem b e temparr s (order.map mem)
  merging : Ascending (slice mem b mid) → Ascending (slice mem mid e) →
    Merging mem mem b mid e ⟨s.left, s.right, slice s.mem temparr s.dst⟩

theorem Halfway.start (mem : Mem) (temparr : ℕ) (hbm : b ≤ mid) (hme : mid ≤ e) :
    Halfway mem b mid e temparr
      { mem := mem, left := b, right := mid, dst := temparr, reads := [], writes := [] } := by
  refine ⟨le_rfl, hbm, le_rfl, hme, by simp, ⟨[], ⟨by simp, by simp⟩, ?_⟩, ?_⟩
  · refine ⟨le_rfl, .refl _ _ _, fun p hp => absurd hp List.not_mem_nil, ?_, slice_self _ _⟩
    rw [Nat.sub_self]
    rfl
  · intro hlow hhigh
    refine ⟨le_rfl, hbm, le_rfl, hme, ⟨hlow, .refl _⟩, ⟨hhigh, .refl _⟩, ?_⟩
    rw [slice_self, List.nil_append]

/-- The range itself is as at first. -/
theorem Halfway.agreeOn (h : Halfway mem b mid e temparr s) (hapart : Apart b e temparr) :
    AgreeOn b e mem s.mem := by
  obtain ⟨hb, hl, hm, hr, hdst, ⟨order, -, hwritten⟩, -⟩ := h
  apply hwritten.outside.agreeOn
  rcases hapart with hapart | hapart
  · right
    omega
  · exact .inl hapart

/-- Both pointers of a look are in the range. -/
theorem Halfway.looked {looked : List ℕ} (h : Halfway mem b mid e temparr s)
    (hlooked : looked = [] ∨ s.left < mid ∧ s.right < e ∧ looked = [s.left, s.right]) :
    ∀ p ∈ looked, b ≤ p ∧ p < e := by
  obtain ⟨hb, -, hm, -, -, -, -⟩ := h
  intro p hp
  rcases hlooked with rfl | ⟨hl, hr, rfl⟩
  · exact absurd hp List.not_mem_nil
  · rcases List.mem_pair.mp hp with rfl | rfl <;> omega

theorem Halfway.step (h : Halfway mem b mid e temparr s) (hapart : Apart b e temparr)
    (hs : s.step mid e = some s') : Halfway mem b mid e temparr s' := by
  have hagree := h.agreeOn hapart
  obtain ⟨hb, hl, hm, hr, hdst, ⟨order, harranged, hwritten⟩, hmerging⟩ := id h
  have hcases := s.steps mid e (slice s.mem temparr s.dst)
  rw [hs] at hcases
  have hsame : mergeStep mem mid e ⟨s.left, s.right, slice s.mem temparr s.dst⟩ =
      mergeStep s.mem mid e ⟨s.left, s.right, slice s.mem temparr s.dst⟩ :=
    (mergeStep_congr hagree hb (hb.trans (hl.trans hm)) (hm.trans hr)).symm
  generalize hnext : mergeStep s.mem mid e ⟨s.left, s.right, slice s.mem temparr s.dst⟩ = next
    at hcases hsame
  cases hcases with
  | @left looked hlt hlooked =>
      have hlook := h.looked (hlooked.imp_right fun hright => ⟨hlt, hright⟩)
      have hcopy := (hwritten.look hlook).copy (p := s.left) hapart
        (show s.dst < _ by omega) hb (by omega)
      refine ⟨Nat.le_succ_of_le hb, hlt, hm, hr, ?_, ⟨order ++ [s.left], ?_, ?_⟩, ?_⟩
      · show s.dst + 1 = temparr + ((s.left + 1 - b) + (s.right - mid))
        omega
      · exact harranged.takeLeft hb hlt
      · rw [List.map_append]
        exact hcopy.halves (s.left + 1) s.right
      · intro hlow hhigh
        have hnew := (hmerging hlow hhigh).step hsame
        rw [MergeState.takeLeft, ← slice_update_concat _ hwritten.dst] at hnew
        exact hnew
  | @right looked hlt hlooked =>
      have hlook := h.looked (hlooked.imp_right fun hleft => ⟨hleft.1, hlt, hleft.2⟩)
      have hcopy := (hwritten.look hlook).copy (p := s.right) hapart
        (show s.dst < _ by omega) (by omega) hlt
      refine ⟨hb, hl, Nat.le_succ_of_le hm, hlt, ?_, ⟨order ++ [s.right], ?_, ?_⟩, ?_⟩
      · show s.dst + 1 = temparr + ((s.left - b) + (s.right + 1 - mid))
        omega
      · exact harranged.takeRight hm
      · rw [List.map_append]
        exact hcopy.halves s.left (s.right + 1)
      · intro hlow hhigh
        have hnew := (hmerging hlow hhigh).step hsame
        rw [MergeState.takeRight, ← slice_update_concat _ hwritten.dst] at hnew
        exact hnew

/-! ## The result -/

/-- The run of `merge` on the elements `[b, e)` of an array of `n` elements at `arr`: it has
left the loop; it has written `temparr[0]` to `temparr[e - b - 1]` in turn, and read elements
of the range only; the array is as before, and so is all but `temparr`. What it has written
are the elements of the range, each once and those of a half in their order; and they are
ascending if both halves are. -/
structure Merged (mem : Mem) (arr n b mid e temparr : ℕ) (s : MergeRun) : Prop where
  broke : s.step (arr + mid) (arr + e) = none
  writes : s.writes = List.range' temparr (e - b)
  reads : ∀ p ∈ s.reads, arr + b ≤ p ∧ p < arr + e
  array : AgreeOn arr (arr + n) mem s.mem
  outside : SameOutside temparr (temparr + (e - b)) mem s.mem
  order : ∃ order : List ℕ, slice s.mem temparr (temparr + (e - b)) = order.map mem ∧
    order.Perm (List.range' (arr + b) (e - b)) ∧
    order.filter (· < arr + mid) = List.range' (arr + b) (mid - b) ∧
    order.filter (arr + mid ≤ ·) = List.range' (arr + mid) (e - mid)
  ascending : Ascending (slice mem (arr + b) (arr + mid)) →
    Ascending (slice mem (arr + mid) (arr + e)) →
    Ascending (slice s.mem temparr (temparr + (e - b)))

/-- Where the loop breaks, both halves are used up. -/
theorem Halfway.break (h : Halfway mem b mid e temparr s) (hbreak : s.step mid e = none) :
    s.left = mid ∧ s.right = e ∧
      mergeStep s.mem mid e ⟨s.left, s.right, slice s.mem temparr s.dst⟩ = none := by
  obtain ⟨-, hl, -, hr, -, -, -⟩ := h
  have hcases := s.steps mid e (slice s.mem temparr s.dst)
  rw [hbreak] at hcases
  generalize mergeStep s.mem mid e ⟨s.left, s.right, slice s.mem temparr s.dst⟩ = next at hcases
  cases hcases with
  | done hl' hr' => exact ⟨Nat.le_antisymm hl hl', Nat.le_antisymm hr hr', rfl⟩

/-- `merge` does what it is for, on any array and any room for `temparr` that is not part of
the array, as `merge_sort` gives it. -/
theorem merge_merged (mem : Mem) {arr n temparr : ℕ} (hbm : b ≤ mid) (hme : mid ≤ e) (hen : e ≤ n)
    (hroom : temparr + (e - b) ≤ arr ∨ arr + n ≤ temparr) :
    Merged mem arr n b mid e temparr (merge mem arr b mid e temparr) := by
  have hapart : Apart (arr + b) (arr + e) temparr := by
    unfold Apart
    omega
  have hstart : Halfway mem (arr + b) (arr + mid) (arr + e) temparr _ :=
    .start mem temparr (Nat.add_le_add_left hbm arr) (Nat.add_le_add_left hme arr)
  obtain ⟨hend, hbreak⟩ := mergeLoop_invariant (fun hs hnext => Halfway.step hs hapart hnext) hstart
  change Halfway mem _ _ _ _ (merge mem arr b mid e temparr) at hend
  change (merge mem arr b mid e temparr).step _ _ = none at hbreak
  generalize merge mem arr b mid e temparr = s at hend hbreak
  obtain ⟨hleft, hright, hdone⟩ := hend.break hbreak
  have hagree := hend.agreeOn hapart
  obtain ⟨-, -, -, -, hdst, ⟨order, harranged, hwritten⟩, hmerging⟩ := hend
  have hlen : s.dst = temparr + (e - b) := by omega
  have hcount : s.dst - temparr = e - b := by omega
  have hlow : arr + mid - (arr + b) = mid - b := by omega
  have hhigh : arr + e - (arr + mid) = e - mid := by omega
  have hall : arr + e - (arr + b) = e - b := by omega
  rw [hleft, hright] at harranged
  have hperm := harranged.perm (Nat.add_le_add_left hbm arr) (Nat.add_le_add_left hme arr)
  refine ⟨hbreak, hcount ▸ hwritten.writes, hwritten.reads, ?_, hlen ▸ hwritten.outside, ?_, ?_⟩
  · apply hwritten.outside.agreeOn
    omega
  · refine ⟨order, ?_, hall ▸ hperm, hlow ▸ harranged.low, hhigh ▸ harranged.high⟩
    rw [← hlen]
    exact hwritten.temp
  · intro hascLow hascHigh
    have hmerged := hmerging hascLow hascHigh
    rw [mergeStep_congr hagree (by show _ ≤ s.left; omega) (by show _ ≤ s.right; omega)
      (Nat.add_le_add_left hme arr)] at hdone
    rw [← hlen]
    exact (hmerged.break hdone).2.1

/-- Two halves of an array of six elements, and room behind it. -/
theorem merge_merged_six : Merged (fun i => .ofNat (i % 3)) 0 6 1 3 6 6
    (merge (fun i => .ofNat (i % 3)) 0 1 3 6 6) :=
  merge_merged _ (by decide) (by decide) (by decide) (by decide)

end

end Csf.Parsort
