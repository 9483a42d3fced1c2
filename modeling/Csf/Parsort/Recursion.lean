import Csf.Lib.Conversion
import Csf.Parsort.Progress

/-!
# Parallel sort: the recursion of `merge_sort`

The ranges that `merge_sort` calls itself on, in the `size_t` arithmetic of the source,
and the threshold that `main` reads off its command line. With a threshold of at least
1 both recursive calls are on shorter ranges; with 0 a range of one element is split into
an empty one and itself.
-/

namespace Csf.Parsort

open Csf.Lib Csf.Lib.Decimal

/-! ## The command line -/

/-- How `main` processes its command line: the file name and the threshold, or what it
prints and the code it returns. -/
def parseArgs (prog : List UInt8) (args : List (List UInt8)) :
    Except (List UInt8 × ℕ) (List UInt8 × UInt64) :=
  match args with
  | [filename, arg] =>
      let (threshold, stop) := strtoul arg
      if stop ≠ arg.length then .error ("Error: invalid threshold.\n".toUTF8.toList, 2)
      else .ok (filename, threshold)
  | _ =>
      .error ("Usage: ".toUTF8.toList ++ prog ++
        " <filename> <sequential threshold>\n".toUTF8.toList, 1)

/-- `main` accepts every threshold that a `size_t` can hold. -/
theorem exists_args (prog filename : List UInt8) (t : UInt64) :
    ∃ arg, parseArgs prog [filename, arg] = .ok (filename, t) := by
  obtain ⟨arg, -, hdigits, hvalue⟩ := exists_numeral t.toNat
  refine ⟨arg, ?_⟩
  have hlt : value arg < 2 ^ 64 := hvalue ▸ t.toNat_lt
  rw [parseArgs, strtoul_digits hdigits hlt, hvalue, UInt64.ofNat_toNat]
  exact if_neg fun hne => hne rfl

/-! ## Ranges -/

/-- A range of the mapped array; its end has a byte offset, as that of the whole array is the
size of the file. -/
structure Range where
  b : UInt64
  e : UInt64
  ordered : b ≤ e
  addressable : e.toNat * 8 < 2 ^ 64
deriving DecidableEq

/-- `end - begin` -/
def Range.length (r : Range) : UInt64 := r.e - r.b

/-- `mid` -/
def Range.mid (r : Range) : UInt64 := (r.e + r.b) / 2

theorem Range.ordered_toNat (r : Range) : r.b.toNat ≤ r.e.toNat :=
  UInt64.le_iff_toNat_le.mp r.ordered

theorem Range.toNat_length (r : Range) : r.length.toNat = r.e.toNat - r.b.toNat :=
  UInt64.toNat_sub_of_le _ _ r.ordered

/-- The sum does not wrap. -/
theorem Range.toNat_mid (r : Range) : r.mid.toNat = (r.e.toNat + r.b.toNat) / 2 := by
  have hle := r.ordered_toNat
  have hfits := r.addressable
  rw [mid, UInt64.toNat_div, UInt64.toNat_add, Nat.mod_eq_of_lt (by omega)]
  rfl

/-- The range of the child's call. -/
def Range.left (r : Range) : Range where
  b := r.b
  e := r.mid
  ordered := by
    have hle := r.ordered_toNat
    rw [UInt64.le_iff_toNat_le, r.toNat_mid]
    omega
  addressable := by
    have hle := r.ordered_toNat
    have hfits := r.addressable
    rw [r.toNat_mid]
    omega

/-- The range of the parent's call. -/
def Range.right (r : Range) : Range where
  b := r.mid
  e := r.e
  ordered := by
    have hle := r.ordered_toNat
    rw [UInt64.le_iff_toNat_le, r.toNat_mid]
    omega
  addressable := r.addressable

theorem Range.toNat_length_left (r : Range) : r.left.length.toNat = r.length.toNat / 2 := by
  have hle := r.ordered_toNat
  rw [toNat_length, toNat_length]
  show r.mid.toNat - r.b.toNat = _
  rw [r.toNat_mid]
  omega

theorem Range.toNat_length_right (r : Range) :
    r.right.length.toNat = r.length.toNat - r.length.toNat / 2 := by
  have hle := r.ordered_toNat
  rw [toNat_length, toNat_length]
  show r.e.toNat - r.mid.toNat = _
  rw [r.toNat_mid]
  omega

/-- The state of a call of `merge_sort` on a range that has just begun. -/
def Range.call (r : Range) : Call := .start r.b.toNat r.e.toNat

/-! ## The recursion -/

/-- `merge_sort` sorts the range itself. -/
def Range.Base (t : UInt64) (r : Range) : Prop := r.length ≤ t

/-- A call on the first range makes one on the second. -/
inductive Recurses (t : UInt64) (r : Range) : Range → Prop
  | child (h : ¬r.Base t) : Recurses t r r.left
  | parent (h : ¬r.Base t) : Recurses t r r.right

/-- The recursion of `merge_sort` ends: no chain of calls goes on forever, a call that is no
base case is on a shorter range than its caller's, and the processes that are brought about
stop. -/
structure Terminates (t : UInt64) (r : Range) : Prop where
  chains : Acc (fun callee caller => Recurses t caller callee) r
  shorter : ∀ caller callee, Relation.ReflTransGen (Recurses t) r caller →
    Recurses t caller callee → ¬callee.Base t → callee.length < caller.length
  runs : ∀ (q : Qsort) (arr : Mem), ∃ n, ∀ choices s,
    (system q t.toNat arr r.b.toNat r.e.toNat).Run choices s → choices.length ≤ n

section

variable {q : Qsort} {arr arr' : Mem} {t : UInt64} {r : Range}

theorem Range.base_iff : r.Base t ↔ r.length.toNat ≤ t.toNat := UInt64.le_iff_toNat_le

/-- The calls of the recursion are those that a fork makes. -/
theorem advance_call : advance q t.toNat arr r.call =
    if r.length.toNat ≤ t.toNat
      then some (arr, .sorting r.b.toNat r.e.toNat (q.writes (Region.slice arr r.b.toNat r.e.toNat)))
      else some (arr, .forked r.b.toNat r.mid.toNat r.e.toNat r.left.call r.right.call) := by
  rw [Range.call, advance, r.toNat_length]
  show _ = if _ then _ else some (arr, Call.forked r.b.toNat r.mid.toNat r.e.toNat
    (.start r.b.toNat r.mid.toNat) (.start r.mid.toNat r.e.toNat))
  rw [r.toNat_mid]

/-- A base case makes no call. -/
theorem Recurses.not_base {r' : Range} (h : Recurses t r r') : ¬r.Base t := by
  cases h with
  | child h => exact h
  | parent h => exact h

/-! ## Thresholds of at least 1 -/

/-- With a threshold of at least 1 every recursive call is on a shorter range. -/
theorem Recurses.shorter {r' : Range} (ht : 1 ≤ t) (h : Recurses t r r') :
    r'.length < r.length := by
  have hone : 1 ≤ t.toNat := UInt64.le_iff_toNat_le.mp ht
  rw [UInt64.lt_iff_toNat_lt]
  cases h with
  | child h =>
      rw [Range.base_iff] at h
      rw [r.toNat_length_left]
      omega
  | parent h =>
      -- at least two elements, so the left half takes one of them away
      rw [Range.base_iff] at h
      rw [r.toNat_length_right]
      omega

theorem terminates_of_one_le (ht : 1 ≤ t) (r : Range) : Terminates t r where
  chains := by
    have hwf := (measure fun r : Range => r.length.toNat).wf.apply r
    exact Subrelation.accessible
      (fun h => UInt64.lt_iff_toNat_lt.mp (Recurses.shorter ht h)) hwf
  shorter caller callee _ h _ := h.shorter ht
  runs q arr := by
    refine ⟨cost q t.toNat (r.e.toNat - r.b.toNat), fun choices s hrun => ?_⟩
    have hle := length_invariant (UInt64.le_iff_toNat_le.mp ht) r.ordered_toNat hrun
    exact (Nat.le_add_right _ _).trans hle

/-! ## Empty ranges -/

/-- A call that has not forked and will not. -/
def Call.Single (t : ℕ) : Call → Prop
  | .start b e => e - b ≤ t
  | .sorting _ _ _ => True
  | .returned _ _ => True
  | _ => False

/-- Such a call stays one, and has fewer steps ahead of it after each. -/
theorem Moves.single {t : ℕ} {w : Who} {fails : Bool} {c c' : Call}
    (h : Moves q t w fails arr c arr' c') (hc : c.Single t) :
    c'.Single t ∧ c'.size q t < c.size q t := by
  cases h with
  | base hlen => exact ⟨trivial, size_sorting_lt hlen⟩
  | fork hlen => exact absurd hc (Nat.not_le_of_lt hlen)
  | forkFails hlen => exact absurd hc (Nat.not_le_of_lt hlen)
  | write =>
      refine ⟨trivial, ?_⟩
      rw [Call.size, Call.size, List.length_cons]
      omega
  | sorted => exact ⟨trivial, Nat.succ_pos _⟩
  | _ => exact hc.elim

/-- The run of a base case is a call of `qsort`. -/
theorem single_invariant {t b e : ℕ} (hlen : e - b ≤ t) :
    (system q t arr b e).Invariant fun choices s =>
      s.call.Single t ∧ choices.length + s.call.size q t ≤ cost q t (e - b) := by
  refine TSys.invariant_of_step ?_ ?_
  · rintro s rfl
    exact ⟨hlen, (Nat.zero_add _).le⟩
  · rintro h choices s s' ⟨hsingle, hle⟩ ⟨choice, rfl, hstep⟩
    obtain ⟨hsingle', hless⟩ := (moves_of_step hstep).single hsingle
    refine ⟨hsingle', ?_⟩
    rw [List.length_append, List.length_singleton]
    omega

theorem terminates_of_base (hbase : r.Base t) : Terminates t r where
  chains := Acc.intro r fun _ h => absurd hbase h.not_base
  shorter caller callee hreach h _ := by
    -- no call is made from `r`, so `r` is the caller
    rcases hreach.cases_head with rfl | ⟨r', h', -⟩
    · exact absurd hbase h.not_base
    · exact absurd hbase h'.not_base
  runs q arr := by
    rw [Range.base_iff, r.toNat_length] at hbase
    refine ⟨cost q t.toNat (r.e.toNat - r.b.toNat), fun choices s hrun => ?_⟩
    obtain ⟨-, hle⟩ := single_invariant hbase hrun
    exact (Nat.le_add_right _ _).trans hle

/-! ## A threshold of 0 -/

/-- A call whose own process is about to sort a range with elements. -/
def Call.Spawning : Call → Prop
  | .start b e => b < e
  | .forked _ _ _ _ parent => parent.Spawning
  | _ => False

/-- With a threshold of 0 that process forks, and is about to sort the right half, which has
elements again. -/
theorem Moves.exists_of_spawning {c : Call} (hc : c.Spawning) :
    ∃ c', Moves q 0 .self false arr c arr c' ∧ c'.Spawning := by
  induction c with
  | start b e =>
      have hlt : b < e := hc
      refine ⟨_, .fork (by omega), ?_⟩
      show (e + b) / 2 < e
      omega
  | forked b mid e child parent _ ih =>
      obtain ⟨parent', hmove, hspawning⟩ := ih hc
      exact ⟨_, .same hmove, hspawning⟩
  | _ => exact hc.elim

/-- No number of forks is the last. -/
theorem exists_run_spawning {b e : ℕ} (hlt : b < e) (n : ℕ) :
    ∃ c : Call, (system q 0 arr b e).Run (List.replicate n { who := .self, fails := false })
      { arr := arr, call := c } ∧ c.Spawning := by
  induction n with
  | zero => exact ⟨.start b e, .init rfl, hlt⟩
  | succ n ih =>
      obtain ⟨c, hrun, hspawning⟩ := ih
      obtain ⟨c', hmove, hspawning'⟩ :
          ∃ c', Moves q 0 .self false arr c arr c' ∧ c'.Spawning :=
        Moves.exists_of_spawning hspawning
      refine ⟨c', ?_, hspawning'⟩
      rw [List.replicate_succ']
      exact .step hrun ⟨_, rfl, step_of_moves hmove⟩

/-- A chain of calls on right halves goes on forever. -/
theorem not_acc_of_spawning (hlt : r.b < r.e) :
    ¬Acc (fun callee caller => Recurses 0 caller callee) r := by
  intro hacc
  induction hacc with
  | intro r _ ih =>
      have hltNat := UInt64.lt_iff_toNat_lt.mp hlt
      have hbase : ¬r.Base 0 := by
        rw [Range.base_iff, r.toNat_length, UInt64.toNat_zero]
        omega
      refine ih r.right (.parent hbase) ?_
      show r.mid < r.e
      rw [UInt64.lt_iff_toNat_lt, r.toNat_mid]
      omega

/-- **Recursion.** `merge_sort` ends on a range if and only if the threshold is not 0 or the
range is empty. -/
theorem terminates_iff (t : UInt64) (r : Range) : Terminates t r ↔ 1 ≤ t ∨ r.b = r.e := by
  constructor
  · intro hterm
    by_contra hnot
    obtain ⟨hzero, hne⟩ := not_or.mp hnot
    have ht : t = 0 := by
      rw [UInt64.le_iff_toNat_le] at hzero
      refine UInt64.toNat_inj.mp ?_
      have hone : (1 : UInt64).toNat = 1 := rfl
      rw [UInt64.toNat_zero]
      omega
    subst ht
    exact not_acc_of_spawning (UInt64.lt_of_le_of_ne r.ordered hne) hterm.chains
  · rintro (ht | hempty)
    · exact terminates_of_one_le ht r
    · refine terminates_of_base ?_
      rw [Range.base_iff, r.toNat_length, hempty, Nat.sub_self]
      exact Nat.zero_le _

end

/-- `main` accepts `0`, and `merge_sort` then never ends on one element. -/
theorem zero_never_terminates :
    ¬∀ prog filename arg t, parseArgs prog [filename, arg] = .ok (filename, t) →
      ∀ r, Terminates t r := by
  intro hall
  have haccept : parseArgs [] [[], [48]] = .ok ([], 0) := rfl
  have hterm := hall [] [] [48] 0 haccept
    { b := 0, e := 1, ordered := by decide, addressable := by decide }
  exact not_acc_of_spawning (by decide) hterm.chains

end Csf.Parsort
