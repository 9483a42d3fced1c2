import Csf.Lib.LittleEndian
import Csf.Parsort.Failures
import Csf.Parsort.Recursion

/-!
# Parallel sort: the program

`main` of `parsort.c`, from its command line to its exit status: the checks that come before
`merge_sort`, the file as the array that is sorted, and what follows the return. The mapping is
shared, so the file at the end is the array at the end. `executes_safe` says what becomes of
the files whatever fails, `executes_sorted` that without failures there is one result.
-/

namespace Csf.Parsort

open Csf.Lib Csf.Lib.Region Csf.Lib.LittleEndian

/-! ## `main` -/

/-- The files, by name. -/
abbrev Files := List UInt8 → Option (List UInt8)

def message (s : String) : List UInt8 := s.toList.map fun c => c.toNat.toUInt8

/-- Which of the system calls of `main` succeed. -/
structure Answers where
  opened : Bool
  fstat : Bool
  mapped : Bool
  closed : Bool
  unmapped : Bool
deriving DecidableEq, Repr

/-- No call fails. -/
def Answers.all : Answers :=
  { opened := true, fstat := true, mapped := true, closed := true, unmapped := true }

/-- What `main` has when it calls `merge_sort`. -/
structure Job where
  filename : List UInt8
  bytes : List UInt8
  threshold : UInt64
deriving DecidableEq, Repr

/-- `main` before the call of `merge_sort`, or what it prints and the code it returns. No
mapping has length 0. -/
def prepare (answers : Answers) (prog : List UInt8) (args : List (List UInt8)) (files : Files) :
    Except (List UInt8 × ℕ) Job :=
  match parseArgs prog args with
  | .error failure => .error failure
  | .ok (filename, threshold) =>
      match files filename with
      | none => .error (message "Error: file could not be opened.\n", 3)
      | some bytes =>
          if answers.opened = false then
            .error (message "Error: file could not be opened.\n", 3)
          else if answers.fstat = false then .error (message "Error: fstat error.\n", 4)
          else if bytes.length = 0 ∨ answers.mapped = false then
            .error (message "Error: mmap error.\n", 5)
          else if answers.closed = false then
            .error (message "Error: failed to close the file\n", 6)
          else .ok { filename := filename, bytes := bytes, threshold := threshold }

/-- `file_size_in_bytes / sizeof(int64_t)` -/
def Job.count (job : Job) : ℕ := job.bytes.length / 8

/-- The mapped file as an array. -/
def Job.data (job : Job) : Mem := fun i => (elements job.bytes).getD i 0

/-- The file when the array is this one. -/
def Job.written (job : Job) (arr : Mem) : List UInt8 :=
  file (slice arr 0 job.count) (leftover job.bytes)

/-- The processes that `main` brings about. -/
def Job.system (q : Qsort) (job : Job) : TSys State Choice :=
  Parsort.system q job.threshold.toNat job.data 0 job.count

/-- What `main` prints and how its process ends, by the status of its call of `merge_sort`:
after a return it unmaps the file. -/
def conclude (answers : Answers) : ℕ → List UInt8 × ℕ
  | 0 =>
      if answers.unmapped then ([], 0)
      else (message "Error: faliture to unmap the data\n", 7)
  | status => ([], status)

/-- An execution of the program, until its last process has ended: the choices of the
processes, what `main` has printed and its status, and the files. -/
inductive Executes (q : Qsort) (answers : Answers) (prog : List UInt8) (args : List (List UInt8))
    (files : Files) : List Choice → List UInt8 × ℕ → Files → Prop
  | stops {failure} (h : prepare answers prog args files = .error failure) :
      Executes q answers prog args files [] failure files
  | sorts {job choices s status} (h : prepare answers prog args files = .ok job)
      (hrun : (job.system q).Run choices s) (hended : s.call.Ended)
      (hstatus : s.call.exitStatus = some status) :
      Executes q answers prog args files choices (conclude answers status)
        (Function.update files job.filename (some (job.written s.arr)))

section

variable {q : Qsort} {answers : Answers} {prog filename bytes : List UInt8}
  {args : List (List UInt8)} {files files' : Files} {job : Job} {choices : List Choice}
  {outcome : List UInt8 × ℕ}

/-! ## Before `merge_sort` -/

/-- `main` accepts every threshold as its decimal numeral. -/
theorem parseArgs_numeral (prog filename : List UInt8) (t : UInt64) :
    parseArgs prog [filename, Decimal.numeral t.toNat] = .ok (filename, t) := by
  have hlt : Decimal.value (Decimal.numeral t.toNat) < 2 ^ 64 := by
    rw [Decimal.value_numeral]
    exact t.toNat_lt
  rw [parseArgs, Decimal.strtoul_digits (fun _ => Decimal.isDigit_numeral) hlt,
    Decimal.value_numeral, UInt64.ofNat_toNat]
  exact if_neg fun hne => hne rfl

/-- `main` calls `merge_sort` on every file with a byte, if no system call fails. -/
theorem prepare_of_named {t : UInt64} (hargs : parseArgs prog args = .ok (filename, t))
    (hnamed : files filename = some bytes) (hbytes : bytes ≠ []) :
    prepare .all prog args files =
      .ok { filename := filename, bytes := bytes, threshold := t } := by
  have hlength : bytes.length ≠ 0 := fun h => hbytes (List.eq_nil_of_length_eq_zero h)
  simp [prepare, hargs, hnamed, hlength, Answers.all]

/-! ## The array and the file -/

theorem Job.slice_data (job : Job) : slice job.data 0 job.count = elements job.bytes := by
  refine List.ext_getElem? fun i => ?_
  have hlength := length_elements job.bytes
  rw [getElem?_slice, Nat.sub_zero, Nat.zero_add]
  by_cases hi : i < job.count
  · have hin : i < (elements job.bytes).length := hlength ▸ hi
    rw [if_pos hi, Job.data, List.getD_eq_getElem _ _ hin, List.getElem?_eq_getElem hin]
  · have hout : (elements job.bytes).length ≤ i := hlength ▸ Nat.le_of_not_lt hi
    rw [if_neg hi, List.getElem?_eq_none hout]

/-- A file with the elements of another in some order; the bytes behind them are in place. -/
structure Rearranged (bytes bytes' : List UInt8) : Prop where
  perm : (elements bytes').Perm (elements bytes)
  leftover : leftover bytes' = leftover bytes
  length : bytes'.length = bytes.length

theorem Job.elements_written (job : Job) (arr : Mem) :
    elements (job.written arr) = slice arr 0 job.count := elements_file (length_leftover _)

theorem Job.rearranged {arr : Mem}
    (hperm : (slice arr 0 job.count).Perm (slice job.data 0 job.count)) :
    Rearranged job.bytes (job.written arr) where
  perm := by
    rw [job.elements_written, ← job.slice_data]
    exact hperm
  leftover := leftover_file (length_leftover _)
  length := by
    have hfile := length_file (elements job.bytes) (Lib.LittleEndian.leftover job.bytes)
    have hcount := hperm.length_eq
    rw [job.slice_data] at hcount
    rw [file_parts] at hfile
    rw [Job.written, length_file]
    omega

/-! ## Executions -/

theorem conclude_zero (answers : Answers) :
    (conclude answers 0).2 = if answers.unmapped then 0 else 7 := by
  rw [conclude]
  split <;> rfl

/-- The file when the last process has ended. In any case its elements are all there; the
code says whether a call failed, and without failures they are in order. -/
structure Safe (answers : Answers) (job : Job) (choices : List Choice) (code : ℕ)
    (bytes' : List UInt8) : Prop where
  rearranged : Rearranged job.bytes bytes'
  codes : code ∈ [0, 7, 8, 9, 11]
  zero : code = 0 ↔ Succeeds choices ∧ answers.unmapped = true
  seven : code = 7 ↔ Succeeds choices ∧ answers.unmapped = false
  ascending : Succeeds choices → Ascending (elements bytes')

/-- A root call that has returned leaves the sorted file. -/
theorem safe_of_returned {s : State} {b e : ℕ} (hrun : (job.system q).Run choices s)
    (hs : s.call = .returned b e) :
    Safe answers job choices (conclude answers 0).2 (job.written s.arr) := by
  obtain ⟨-, -, hsorted⟩ := sorted_of_returned (Nat.zero_le _) hrun hs
  have hsucceed := succeeds_of_returned hrun hs
  rw [conclude_zero]
  exact {
    rearranged := job.rearranged hsorted.perm
    codes := by split <;> simp
    zero := by simp [hsucceed]
    seven := by simp [hsucceed]
    ascending := fun _ => by
      rw [job.elements_written]
      exact hsorted.ascending }

/-- What the program is for: the file with its elements in order. -/
def sortedFile (bytes : List UInt8) : List UInt8 :=
  file ((elements bytes).mergeSort leI64) (leftover bytes)

theorem ascending_mergeSort (xs : List Int64) : Ascending (xs.mergeSort leI64) :=
  ascending_iff_leI64.mpr (List.pairwise_mergeSort leI64_trans leI64_total xs)

theorem elements_sortedFile (bytes : List UInt8) :
    elements (sortedFile bytes) = (elements bytes).mergeSort leI64 :=
  elements_file (length_leftover bytes)

theorem ascending_sortedFile (bytes : List UInt8) : Ascending (elements (sortedFile bytes)) := by
  rw [elements_sortedFile]
  exact ascending_mergeSort _

theorem rearranged_sortedFile (bytes : List UInt8) : Rearranged bytes (sortedFile bytes) where
  perm := by
    rw [elements_sortedFile]
    exact List.mergeSort_perm _ _
  leftover := leftover_file (length_leftover bytes)
  length := by
    have hfile := length_file (elements bytes) (leftover bytes)
    rw [file_parts] at hfile
    rw [sortedFile, length_file, (List.mergeSort_perm _ _).length_eq, hfile]

/-- There is one file with the elements in order and the same bytes behind them. -/
theorem Rearranged.eq_sortedFile {bytes' : List UInt8} (h : Rearranged bytes bytes')
    (hascending : Ascending (elements bytes')) : bytes' = sortedFile bytes := by
  have hperm := h.perm.trans (List.mergeSort_perm (elements bytes) leI64).symm
  rw [sortedFile, ← hascending.unique (ascending_mergeSort _) hperm, ← h.leftover, file_parts]

/-- Some execution comes to its end without a failure. -/
theorem exists_executes (q : Qsort) {t : UInt64} (ht : 1 ≤ t)
    (hargs : parseArgs prog args = .ok (filename, t)) (hnamed : files filename = some bytes)
    (hbytes : bytes ≠ []) :
    ∃ choices outcome files',
      Executes q .all prog args files choices outcome files' ∧ Succeeds choices := by
  have hprepare := prepare_of_named hargs hnamed hbytes
  let job : Job := { filename := filename, bytes := bytes, threshold := t }
  obtain ⟨choices, s, hrun, hsucceed, hs⟩ : ∃ choices s, (job.system q).Run choices s ∧
      Succeeds choices ∧ s.call = .returned 0 job.count :=
    exists_run_returned (UInt64.le_iff_toNat_le.mp ht) (Nat.zero_le _)
  refine ⟨choices, _, _, .sorts hprepare hrun ?_ (congrArg Call.exitStatus hs), hsucceed⟩
  rw [hs]
  trivial

/-- **Result of the program.** On a file with a byte and a threshold of at least 1, if no call
fails: some execution comes to its end, and all of them have the code 0 and the one sorted
file. Neither the schedule nor the threshold nor `qsort` shows in it. -/
theorem executes_sorted (q : Qsort) {t : UInt64} (ht : 1 ≤ t)
    (hargs : parseArgs prog args = .ok (filename, t)) (hnamed : files filename = some bytes)
    (hbytes : bytes ≠ []) :
    (∃ choices outcome files',
      Executes q .all prog args files choices outcome files' ∧ Succeeds choices) ∧
    ∀ choices outcome files', Executes q .all prog args files choices outcome files' →
      Succeeds choices →
        outcome = ([], 0) ∧ files' = Function.update files filename (some (sortedFile bytes)) := by
  refine ⟨exists_executes q ht hargs hnamed hbytes, fun choices outcome files' h hsucceed => ?_⟩
  have hprepare := prepare_of_named hargs hnamed hbytes
  cases h with
  | stops h => exact nomatch hprepare.symm.trans h
  | @sorts job choices s status h hrun hended hstatus =>
      obtain rfl := Except.ok.inj (hprepare.symm.trans h)
      have hnf := not_failed_of_succeeds hrun hsucceed
      obtain ⟨b, e, hs⟩ := hended.returned_of_not_failed hnf
      rw [hs] at hstatus
      cases hstatus
      have hsafe : Safe .all _ choices _ _ := safe_of_returned hrun hs
      exact ⟨rfl, by rw [hsafe.rearranged.eq_sortedFile (hsafe.ascending hsucceed)]⟩

end

/-! ## A file of two elements -/

/-- A file `a` with these bytes. -/
def oneFile (bytes : List UInt8) : Files := Function.update (fun _ => none) [97] (some bytes)

theorem oneFile_named (bytes : List UInt8) : oneFile bytes [97] = some bytes :=
  Function.update_self ..

/-- `parsort a 1` -/
theorem parseArgs_one : parseArgs [] [[97], [49]] = .ok ([97], 1) := rfl

theorem file_pair_ne_nil (x y : Int64) (rest : List UInt8) : file [x, y] rest ≠ [] := by
  refine List.ne_nil_of_length_pos ?_
  rw [length_file, List.length_cons]
  omega

theorem executes_sorted_pair : sortedFile (file [2, 1] [7]) = file [1, 2] [7] ∧
    ∃ choices outcome files', outcome = ([], 0) ∧
      files' = Function.update (oneFile (file [2, 1] [7])) [97]
        (some (sortedFile (file [2, 1] [7]))) ∧
      Executes copyQsort .all [] [[97], [49]] (oneFile (file [2, 1] [7])) choices outcome
        files' := by
  refine ⟨?_, ?_⟩
  · refine (Rearranged.eq_sortedFile ⟨?_, ?_, ?_⟩ ?_).symm
    · rw [elements_file (by simp), elements_file (by simp)]
      exact .swap 2 1 []
    · rw [leftover_file (by simp), leftover_file (by simp)]
    · rw [length_file, length_file]
      rfl
    · rw [elements_file (by simp)]
      exact List.pairwise_pair.mpr (by decide)
  · obtain ⟨⟨choices, outcome, files', h, hsucceed⟩, hall⟩ := executes_sorted copyQsort
      (UInt64.le_refl 1) parseArgs_one (oneFile_named (file [2, 1] [7])) (file_pair_ne_nil 2 1 [7])
    obtain ⟨houtcome, hfiles⟩ := hall choices outcome files' h hsucceed
    exact ⟨choices, outcome, files', houtcome, hfiles, h⟩

end Csf.Parsort
