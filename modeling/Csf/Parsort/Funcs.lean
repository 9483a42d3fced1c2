import Csf.Lib.Region
import Csf.Lib.Transition

/-!
# Parallel sort: the functions of `parsort.c`

`merge_sort` forks a process for the left half of its range and sorts the right
half itself; the array is a shared mapping, so all processes work on one memory.
A `Call` is the state of one call of `merge_sort`: a call that has forked holds the
call that its child process runs and the call that its own process runs, so the
tree of processes is the tree of calls. `step` lets one of the processes go on by
one access to the array, or by one call of `fork`, `waitpid` or `exit`; its first
argument is the process that the scheduler picks, its second whether the `fork` or
`waitpid` that this process is about to call fails. A process ends by `exit` or by the
return of `main`: none is killed, and `malloc` finds the memory for `temparr`.
-/

namespace Csf.Parsort

open Csf.Lib Csf.Lib.Region

/-- The elements of the mapped file, by index. -/
abbrev Mem := ℕ → Int64

/-- `compare_i64` -/
def compareI64 (left right : Int64) : ℤ :=
  if left > right then 1 else if left < right then -1 else 0

/-- Ascending, by `compare_i64`. -/
def Ascending (xs : List Int64) : Prop := xs.Pairwise fun x y => compareI64 x y ≤ 0

/-- An implementation of `qsort` with `compare_i64`: the writes that it makes to a range of
given contents, as positions in the range and values. It stays in the range and leaves the
contents in ascending order; how many writes it takes is bounded by the length. -/
structure Qsort where
  writes : List Int64 → List (ℕ × Int64)
  bound : ℕ → ℕ
  length_le : ∀ xs, (writes xs).length ≤ bound xs.length
  inRange : ∀ xs, ∀ w ∈ writes xs, w.1 < xs.length
  perm : ∀ xs, ((writes xs).foldl (fun ys w => ys.set w.1 w.2) xs).Perm xs
  ascending : ∀ xs, Ascending ((writes xs).foldl (fun ys w => ys.set w.1 w.2) xs)

/-! ## `merge` -/

/-- The pointers of `merge`, as indices of `arr`, and what it has written to `temparr`. -/
structure MergeState where
  left : ℕ
  right : ℕ
  temp : List Int64
deriving DecidableEq, Repr

/-- `*dst++ = *left++` -/
def MergeState.takeLeft (s : MergeState) (arr : Mem) : MergeState :=
  { s with left := s.left + 1, temp := s.temp ++ [arr s.left] }

/-- `*dst++ = *right++` -/
def MergeState.takeRight (s : MergeState) (arr : Mem) : MergeState :=
  { s with right := s.right + 1, temp := s.temp ++ [arr s.right] }

/-- The body of the loop of `merge`, which breaks when both halves are at their end. -/
def mergeStep (arr : Mem) (endl endr : ℕ) (s : MergeState) : Option MergeState :=
  if s.left ≥ endl ∧ s.right ≥ endr then none
  else if s.left ≥ endl then some (s.takeRight arr)
  else if s.right ≥ endr then some (s.takeLeft arr)
  else if compareI64 (arr s.left) (arr s.right) ≤ 0 then some (s.takeLeft arr)
  else some (s.takeRight arr)

/-! ## `merge_sort` -/

/-- Why a process that had forked gave up: `exit(9)` or `exit(11)`. -/
inductive Cause where
  | waitFailed
  | childFailed
deriving DecidableEq, Repr

def Cause.status : Cause → ℕ
  | .waitFailed => 9
  | .childFailed => 11

/-- The state of a call of `merge_sort` on `[b, e)`. -/
inductive Call where
  /-- it has been called -/
  | start (b e : ℕ)
  /-- it is in `qsort`, with these writes ahead -/
  | sorting (b e : ℕ) (writes : List (ℕ × Int64))
  /-- it has forked: `child` runs in the child process, `parent` is its own second call -/
  | forked (b mid e : ℕ) (child parent : Call)
  /-- it is in the loop of `merge` -/
  | merging (b mid e : ℕ) (s : MergeState)
  /-- it copies `temparr` back, from `arr[i]` on -/
  | copying (b e : ℕ) (temp : List Int64) (i : ℕ)
  /-- it has returned -/
  | returned (b e : ℕ)
  /-- `fork` failed in it, and its process called `exit(8)` -/
  | exited (b e : ℕ)
  /-- its process has exited after the fork; `child` may still run -/
  | abandoned (b mid e : ℕ) (child : Call) (cause : Cause)
deriving Repr

/-- The status with which the process of a call has given up. -/
def Call.gaveUp : Call → Option ℕ
  | .exited _ _ => some 8
  | .abandoned _ _ _ _ cause => some cause.status
  | .forked _ _ _ _ parent => parent.gaveUp
  | _ => none

/-- The exit status of the process that a call was the first of: `exit(0)` follows the
return of the call in a child, `return 0` that in `main`. -/
def Call.exitStatus : Call → Option ℕ
  | .returned _ _ => some 0
  | c => c.gaveUp

/-- The next step of the process of a call, if no call of `fork` or `waitpid` fails in it;
`none` if the process has ended or waits for its child. -/
def advance (qsort : Qsort) (threshold : ℕ) (arr : Mem) : Call → Option (Mem × Call)
  | .start b e =>
      -- no array is so long that the sum wraps
      let mid := (e + b) / 2
      if e - b ≤ threshold then some (arr, .sorting b e (qsort.writes (slice arr b e)))
      else some (arr, .forked b mid e (.start b mid) (.start mid e))
  | .sorting b e [] => some (arr, .returned b e)
  | .sorting b e ((i, v) :: ws) => some (Function.update arr (b + i) v, .sorting b e ws)
  | .forked b mid e child (.returned _ _) =>
      -- `waitpid` returns once the child has ended
      match child.exitStatus with
      | none => none
      | some 0 => some (arr, .merging b mid e { left := b, right := mid, temp := [] })
      | some (_ + 1) => some (arr, .abandoned b mid e child .childFailed)
  | .forked b mid e child parent =>
      (advance qsort threshold arr parent).map fun (arr, parent) =>
        (arr, .forked b mid e child parent)
  | .merging b mid e s =>
      match mergeStep arr mid e s with
      | some s => some (arr, .merging b mid e s)
      | none => some (arr, .copying b e s.temp b)
  | .copying b e temp i =>
      if i < e then
        temp[i - b]?.map fun v => (Function.update arr i v, .copying b e temp (i + 1))
      else some (arr, .returned b e)
  | .returned _ _ => none
  | .exited _ _ => none
  | .abandoned _ _ _ _ _ => none

/-- The next step of the process of a call, if this step is a call of `fork` or `waitpid`
and it fails. -/
def failCall (threshold : ℕ) : Call → Option Call
  | .start b e => if e - b ≤ threshold then none else some (.exited b e)
  | .forked b mid e child (.returned _ _) => some (.abandoned b mid e child .waitFailed)
  | .forked b mid e child parent =>
      (failCall threshold parent).map fun parent => .forked b mid e child parent
  | _ => none

/-- A process of the tree: that of the call itself, one in the tree of its child, or one
in the tree of its own second call. -/
inductive Who where
  | self
  | child (w : Who)
  | inner (w : Who)
deriving DecidableEq, Repr

/-- A step of process `who`. -/
def step (qsort : Qsort) (threshold : ℕ) (arr : Mem) : Who → Bool → Call → Option (Mem × Call)
  | .self, false, c => advance qsort threshold arr c
  | .self, true, c => (failCall threshold c).map fun c => (arr, c)
  | .child w, fails, .forked b mid e child parent =>
      (step qsort threshold arr w fails child).map fun (arr, child) =>
        (arr, .forked b mid e child parent)
  | .child w, fails, .abandoned b mid e child cause =>
      (step qsort threshold arr w fails child).map fun (arr, child) =>
        (arr, .abandoned b mid e child cause)
  | .inner w, fails, .forked b mid e child parent =>
      (step qsort threshold arr w fails parent).map fun (arr, parent) =>
        (arr, .forked b mid e child parent)
  | .child _, _, _ => none
  | .inner _, _, _ => none

/-! ## Runs -/

/-- A choice of the scheduler, and whether it meets a call that fails. -/
structure Choice where
  who : Who
  fails : Bool
deriving DecidableEq, Repr

/-- The array and the tree of calls. -/
structure State where
  arr : Mem
  call : Call

/-- The processes that `merge_sort(arr, b, e, threshold)` brings about. -/
def system (qsort : Qsort) (threshold : ℕ) (arr : Mem) (b e : ℕ) : TSys State Choice where
  init s := s = { arr := arr, call := .start b e }
  step s choices s' := ∃ c, choices = [c] ∧
    step qsort threshold s.arr c.who c.fails s.call = some (s'.arr, s'.call)

end Csf.Parsort
