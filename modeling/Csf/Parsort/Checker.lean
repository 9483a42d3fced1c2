import Csf.Lib.Istream
import Csf.Parsort.Program

/-!
# Parallel sort: `is_sorted` and `gen_rand_data`

The programs that stand next to `parsort`: the one checks a file, the other makes one.
`isSorted_exact` says that the checker is right and reports the first element out of order;
`generated_sorted` puts the three programs in a row.
-/

namespace Csf.Parsort

open Csf.Lib Csf.Lib.Decimal Csf.Lib.LittleEndian

/-- How a program ends. -/
structure Exit where
  stdout : List UInt8
  stderr : List UInt8
  code : ℕ
deriving DecidableEq, Repr

/-! ## `is_sorted` -/

/-- `fread(&x, sizeof(int64_t), 1, in)`, on what is left of the file. -/
def fread (s : List UInt8) : Option (Int64 × List UInt8) :=
  if 8 ≤ s.length then some (readI64 (s.take 8), s.drop 8) else none

theorem fread_none {s : List UInt8} (h : fread s = none) : elements s = [] := by
  unfold fread at h
  split_ifs at h with hlen
  exact elements_of_lt (Nat.lt_of_not_le hlen)

theorem fread_some {s rest : List UInt8} {x : Int64} (h : fread s = some (x, rest)) :
    elements s = x :: elements rest ∧ rest.length < s.length := by
  unfold fread at h
  split_ifs at h with hlen
  cases h
  refine ⟨by rw [elements, if_pos hlen], ?_⟩
  rw [List.length_drop]
  omega

/-- The loop of `main`: the number of the first element that is less than the one before it. -/
def checkRest (prev : Int64) (numElts : ℕ) (s : List UInt8) : Option ℕ :=
  match _h : fread s with
  | none => none
  | some (curr, rest) =>
      if curr < prev then some (numElts + 1) else checkRest curr (numElts + 1) rest
termination_by s.length
decreasing_by exact (fread_some _h).2

def sortedExit : Exit :=
  { stdout := message "Data values are sorted!\n", stderr := [], code := 0 }

/-- Element `n`, counted from 1, is out of order. -/
def unsortedExit (n : ℕ) : Exit where
  stdout := []
  stderr := message "Data values are not sorted! (element " ++ numeral n ++
    message " is less than element " ++ numeral (n - 1) ++ message ")\n"
  code := 1

/-- `main` of `is_sorted.c`; `opened` says whether `fopen` can open a file that is there. -/
def isSorted (opened : Bool) (prog : List UInt8) (args : List (List UInt8)) (files : Files) :
    Exit :=
  match args with
  | [filename] =>
      match if opened then files filename else none with
      | none =>
          { stdout := [], stderr := message "Couldn't open " ++ filename ++ [10], code := 1 }
      | some bytes =>
          match fread bytes with
          | none =>
              { stdout := []
                stderr := message "Could not read first data value (file is empty?)\n"
                code := 0 }
          | some (prev, rest) =>
              match checkRest prev 1 rest with
              | some n => unsortedExit n
              | none => sortedExit
  | _ =>
      { stdout := [], stderr := message "Usage: " ++ prog ++ message " <data file>\n", code := 1 }

/-- Element `n`, counted from 1, is the first that is less than the one before it. -/
def FirstDescent (xs : List Int64) (n : ℕ) : Prop :=
  ∃ before x y after, xs = before ++ x :: y :: after ∧ Ascending (before ++ [x]) ∧ y < x ∧
    n = before.length + 2

section

variable {prev : Int64} {xs : List Int64} {s bytes filename prog : List UInt8} {files : Files}
  {n k : ℕ}

theorem Ascending.cons {x y : Int64} (hxy : ¬y < x) (h : Ascending (y :: xs)) :
    Ascending (x :: y :: xs) := by
  rw [ascending_iff] at h ⊢
  have hle := Int64.not_lt.mp hxy
  refine List.pairwise_cons.mpr ⟨fun z hz => ?_, h⟩
  rcases List.mem_cons.mp hz with rfl | hz
  · exact hle
  · exact Int64.le_trans hle (List.rel_of_pairwise_cons h hz)

theorem checkRest_none (h : checkRest prev k s = none) : Ascending (prev :: elements s) := by
  fun_induction checkRest prev k s with
  | case1 prev k s hread =>
      rw [fread_none hread]
      exact List.pairwise_singleton _ _
  | case2 prev k s curr rest hread hlt => cases h
  | case3 prev k s curr rest hread hlt ih =>
      rw [(fread_some hread).1]
      exact (ih h).cons hlt

/-- The elements before the one that is reported are in order. -/
theorem checkRest_some (h : checkRest prev k s = some n) :
    ∃ before x y after, prev :: elements s = before ++ x :: y :: after ∧
      Ascending (before ++ [x]) ∧ y < x ∧ n = k + before.length + 1 := by
  fun_induction checkRest prev k s with
  | case1 prev k s hread => cases h
  | case2 prev k s curr rest hread hlt =>
      cases h
      rw [(fread_some hread).1]
      exact ⟨[], prev, curr, elements rest, rfl, List.pairwise_singleton _ _, hlt, rfl⟩
  | case3 prev k s curr rest hread hlt ih =>
      obtain ⟨before, x, y, after, heq, hascending, hyx, hn⟩ := ih h
      rw [(fread_some hread).1, heq]
      refine ⟨prev :: before, x, y, after, rfl, ?_, hyx, ?_⟩
      · cases before with
        | nil =>
            obtain rfl := (List.cons.inj heq).1
            exact hascending.cons hlt
        | cons z before =>
            obtain rfl := (List.cons.inj heq).1
            exact hascending.cons hlt
      · rw [List.length_cons]
        omega

theorem FirstDescent.not_ascending (h : FirstDescent xs n) : ¬Ascending xs := by
  obtain ⟨before, x, y, after, rfl, -, hlt, -⟩ := h
  intro hascending
  rw [ascending_iff, List.pairwise_append] at hascending
  have hle := List.rel_of_pairwise_cons hascending.2.1 List.mem_cons_self
  exact absurd hlt (Int64.not_lt.mpr hle)

/-- No two elements are the first. -/
theorem FirstDescent.le (h : FirstDescent xs n) (h' : FirstDescent xs k) : n ≤ k := by
  obtain ⟨before, x, y, after, rfl, hascending, -, rfl⟩ := h
  obtain ⟨before', x', y', after', heq, -, hlt', rfl⟩ := h'
  by_contra hle
  -- the pair of `h'` lies in the part that `h` says is in order
  have hwhole' : before' ++ [x', y'] <+: before ++ x :: y :: after :=
    ⟨after', by rw [heq, List.append_assoc]; rfl⟩
  have hwhole : before ++ [x] <+: before ++ x :: y :: after :=
    ⟨y :: after, by rw [List.append_assoc]; rfl⟩
  have hpart : before' ++ [x', y'] <+: before ++ [x] := by
    refine List.prefix_of_prefix_length_le hwhole' hwhole ?_
    simp only [List.length_append, List.length_cons, List.length_nil]
    omega
  have hsub := (ascending_iff.mp hascending).sublist hpart.sublist
  have hle' := List.rel_of_pairwise_cons (List.pairwise_append.mp hsub).2.1 List.mem_cons_self
  exact absurd hlt' (Int64.not_lt.mpr hle')

theorem FirstDescent.unique (h : FirstDescent xs n) (h' : FirstDescent xs k) : n = k :=
  Nat.le_antisymm (h.le h') (h'.le h)

/-- What the checker does on a file it can open. -/
inductive Checks (bytes : List UInt8) : Exit → Prop
  | empty (h : elements bytes = []) : Checks bytes
      { stdout := []
        stderr := message "Could not read first data value (file is empty?)\n"
        code := 0 }
  | sorted (hne : elements bytes ≠ []) (h : Ascending (elements bytes)) : Checks bytes sortedExit
  | unsorted {k : ℕ} (h : FirstDescent (elements bytes) k) : Checks bytes (unsortedExit k)

theorem checks_isSorted (prog : List UInt8) (hnamed : files filename = some bytes) :
    Checks bytes (isSorted true prog [filename] files) := by
  unfold isSorted
  simp only [if_true, hnamed]
  cases hread : fread bytes with
  | none => exact .empty (fread_none hread)
  | some first =>
      have helements := (fread_some hread).1
      cases hrest : checkRest first.1 1 first.2 with
      | none =>
          simp only [hrest]
          refine .sorted ?_ ?_
          · rw [helements]
            exact List.cons_ne_nil _ _
          · rw [helements]
            exact checkRest_none hrest
      | some n =>
          simp only [hrest]
          obtain ⟨before, x, y, after, heq, hascending, hlt, hn⟩ := checkRest_some hrest
          exact .unsorted ⟨before, x, y, after, helements.trans heq, hascending, hlt, by omega⟩

theorem Checks.eq_sortedExit {exit : Exit} (h : Checks bytes exit) (hne : elements bytes ≠ [])
    (hascending : Ascending (elements bytes)) : exit = sortedExit := by
  cases h with
  | empty h => exact absurd h hne
  | sorted hne h => rfl
  | unsorted h => exact absurd hascending h.not_ascending

theorem unsortedExit_injective : Function.Injective unsortedExit := by
  intro m n h
  have hstderr := congrArg Exit.stderr h
  have hblank : message " is less than element " = 32 :: message "is less than element " := rfl
  simp only [unsortedExit, List.append_assoc, List.append_cancel_left_eq, hblank,
    List.cons_append] at hstderr
  have hnot : ∀ k, (32 : UInt8) ∉ numeral k := fun k hk => absurd (isDigit_numeral hk).1 (by decide)
  have hfirst := (span_delim
    (message "is less than element " ++ (numeral (m - 1) ++ message ")\n")) (hnot m)).1
  rw [hstderr, (span_delim _ (hnot n)).1] at hfirst
  exact numeral_injective hfirst.symm

/-- **The checker.** On a file that it can open, `is_sorted` returns 0 exactly if the elements
are in order, and reports an element exactly if it is the first that is not. -/
theorem isSorted_exact (prog : List UInt8) (hnamed : files filename = some bytes) :
    ((isSorted true prog [filename] files).code = 0 ↔ Ascending (elements bytes)) ∧
    ∀ n, isSorted true prog [filename] files = unsortedExit n ↔
      FirstDescent (elements bytes) n := by
  have hchecks := checks_isSorted prog hnamed
  generalize isSorted true prog [filename] files = exit at hchecks
  cases hchecks with
  | empty h =>
      refine ⟨iff_of_true rfl (h ▸ List.Pairwise.nil), fun n => iff_of_false ?_ ?_⟩
      · exact fun heq => absurd (congrArg Exit.code heq) Nat.zero_ne_one
      · exact fun hfirst => hfirst.not_ascending (h ▸ List.Pairwise.nil)
  | sorted hne h =>
      refine ⟨iff_of_true rfl h, fun n => iff_of_false ?_ fun hfirst => hfirst.not_ascending h⟩
      exact fun heq => absurd (congrArg Exit.code heq) Nat.zero_ne_one
  | @unsorted k h =>
      refine ⟨iff_of_false Nat.one_ne_zero h.not_ascending, fun n => ⟨fun heq => ?_, fun hn => ?_⟩⟩
      · exact unsortedExit_injective heq ▸ h
      · exact congrArg unsortedExit (h.unique hn)

end

theorem isSorted_exact_pair :
    isSorted true [] [[97]] (oneFile (file [2, 1] [7])) = unsortedExit 2 := by
  refine ((isSorted_exact [] (oneFile_named (file [2, 1] [7]))).2 2).mpr ?_
  rw [elements_file (by simp)]
  exact ⟨[], 2, 1, [], rfl, List.pairwise_singleton _ _, by decide, rfl⟩

/-! ## `gen_rand_data` -/

/-- `rand() & 0xFF`, as a byte. -/
def randByte (r : Int32) : UInt8 := (r.toUInt32 &&& 0xFF).toUInt8

/-- The loop of `main` from byte `i` on, with `n` more to write: the bytes, and whether every
`fwrite` wrote its own. -/
def writeLoop (rand : ℕ → Int32) (writes : ℕ → Bool) : (n i : ℕ) → List UInt8 × Bool
  | 0, _ => ([], true)
  | n + 1, i =>
      if writes i then
        let (bytes, written) := writeLoop rand writes n (i + 1)
        (randByte (rand i) :: bytes, written)
      else ([], false)

/-- `main` of `gen_rand_data.c`, and the files afterwards: `rand` are the numbers behind the
seed, `creates` and `writes` say whether `fopen` and the `fwrite` of a byte succeed. What
`fwrite` took is in the file once it is closed. -/
def genRandData (rand : ℕ → Int32) (creates : Bool) (writes : ℕ → Bool) (prog : List UInt8)
    (args : List (List UInt8)) (files : Files) : Exit × Files :=
  match args with
  | [arg, filename] =>
      let (number, stop) := strtoul arg
      let size := if arg[stop]? = some 77 then number * (1024 * 1024) else number
      if creates then
        let (bytes, written) := writeLoop rand writes size.toNat 0
        let exit : Exit :=
          if written then
            { stdout := message "Wrote " ++ numeral size.toNat ++ message " bytes to '" ++
                filename ++ message "'\n"
              stderr := []
              code := 0 }
          else { stdout := [], stderr := message "Error: fwrite failed\n", code := 1 }
        (exit, Function.update files filename (some bytes))
      else
        ({ stdout := []
           stderr := message "Couldn't open '" ++ filename ++ message "' for output\n"
           code := 1 }, files)
  | _ =>
      ({ stdout := []
         stderr := message "Usage: " ++ prog ++ message " <size> <output filename>\n" ++
           message "  <size> can have 'M' suffix for size in megabytes\n"
         code := 1 }, files)

theorem writeLoop_all (rand : ℕ → Int32) (n i : ℕ) :
    writeLoop rand (fun _ => true) n i =
      ((List.range' i n).map fun j => randByte (rand j), true) := by
  induction n generalizing i with
  | zero => rfl
  | succ n ih =>
      rw [writeLoop, ih]
      rfl

/-- A number of megabytes is read off an argument such as `16M`, if it fits. -/
theorem strtoul_megabytes {k : ℕ} (hk : k < 2 ^ 64) :
    strtoul (numeral k ++ [77]) = (UInt64.ofNat k, (numeral k).length) := by
  have hscan : scan (numeral k ++ [77]) = _ :=
    scan_digits_append (fun _ => isDigit_numeral) (numeral_ne_nil k) rfl
  rw [strtoul, hscan, value_numeral, if_neg (by simpa using hk), if_neg Bool.false_ne_true]

/-- `gen_rand_data` makes a file of the size that it was asked for. -/
theorem genRandData_megabytes (rand : ℕ → Int32) (prog filename : List UInt8) (files : Files)
    {k : ℕ} (hk : k * 2 ^ 20 < 2 ^ 64) :
    ∃ bytes, bytes.length = k * 2 ^ 20 ∧
      (genRandData rand true (fun _ => true) prog [numeral k ++ [77], filename] files).2 =
        Function.update files filename (some bytes) := by
  have hsuffix : (numeral k ++ [77])[(numeral k).length]? = some 77 := by simp
  have hsize : (UInt64.ofNat k * (1024 * 1024)).toNat = k * 2 ^ 20 := by
    rw [UInt64.toNat_mul, UInt64.toNat_ofNat']
    show k % 2 ^ 64 * 2 ^ 20 % 2 ^ 64 = k * 2 ^ 20
    omega
  refine ⟨(List.range' 0 (k * 2 ^ 20)).map fun j => randByte (rand j), by simp, ?_⟩
  simp only [genRandData, strtoul_megabytes (k := k) (by omega), hsuffix, if_true, hsize,
    writeLoop_all]

/-! ## The three in a row -/

/-- **The programs together.** What `gen_rand_data` makes, of any number of megabytes but 0,
`parsort` sorts with every threshold but 0, and `is_sorted` finds sorted; the file keeps its
size and its elements, and the others stay as they are. -/
theorem generated_sorted (q : Qsort) (rand : ℕ → Int32) (gen prog check filename : List UInt8)
    (files : Files) {k : ℕ} {t : UInt64} (hk : 1 ≤ k) (hfits : k * 2 ^ 20 < 2 ^ 64)
    (ht : 1 ≤ t) :
    let made :=
      (genRandData rand true (fun _ => true) gen [numeral k ++ [77], filename] files).2
    let args := [filename, numeral t.toNat]
    (∃ choices outcome files',
      Executes q .all prog args made choices outcome files' ∧ Succeeds choices) ∧
    ∀ choices outcome files', Executes q .all prog args made choices outcome files' →
      Succeeds choices →
        outcome = ([], 0) ∧ isSorted true check [filename] files' = sortedExit ∧
        (∀ other, other ≠ filename → files' other = files other) ∧
        ∃ bytes bytes', made filename = some bytes ∧ files' filename = some bytes' ∧
          bytes.length = k * 2 ^ 20 ∧ Rearranged bytes bytes' := by
  intro made args
  obtain ⟨bytes, hlength, hmade⟩ := genRandData_megabytes rand gen filename files hfits
  have hnamed : made filename = some bytes := by
    show (genRandData _ _ _ _ _ _).2 filename = _
    rw [hmade, Function.update_self]
  have hbytes : bytes ≠ [] := by
    rintro rfl
    rw [List.length_nil] at hlength
    omega
  obtain ⟨hsome, hall⟩ :=
    executes_sorted q ht (parseArgs_numeral prog filename t) hnamed hbytes
  refine ⟨hsome, fun choices outcome files' hexec hsucceed => ?_⟩
  obtain ⟨houtcome, hfiles⟩ := hall choices outcome files' hexec hsucceed
  have hnamed' : files' filename = some (sortedFile bytes) := by
    rw [hfiles, Function.update_self]
  have hrearranged := rearranged_sortedFile bytes
  refine ⟨houtcome, ?_, fun other hother => ?_, bytes, sortedFile bytes, hnamed, hnamed', hlength,
    hrearranged⟩
  · refine (checks_isSorted check hnamed').eq_sortedExit ?_ (ascending_sortedFile bytes)
    refine List.ne_nil_of_length_pos ?_
    rw [length_elements, hrearranged.length, hlength]
    omega
  · rw [hfiles, Function.update_of_ne hother]
    show (genRandData _ _ _ _ _ _).2 other = _
    rw [hmade, Function.update_of_ne hother]

theorem generated_sorted_one :
    ∃ files, isSorted true [] [[97]] files = sortedExit := by
  obtain ⟨⟨choices, outcome, files', h, hsucceed⟩, hall⟩ :=
    generated_sorted copyQsort (fun _ => 0) [] [] [] [97] (fun _ => none) (k := 1) (t := 1)
      le_rfl (by omega) (UInt64.le_refl 1)
  exact ⟨files', (hall choices outcome files' h hsucceed).2.1⟩

end Csf.Parsort
