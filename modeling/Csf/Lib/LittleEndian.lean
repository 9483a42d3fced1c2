import Mathlib

/-!
# Files of 64-bit integers

The bytes of an `int64_t` on a little-endian machine, and a file as its complete elements and
the bytes that are left over at its end. `file_parts` and `elements_file` say that these
determine each other.
-/

namespace Csf.Lib.LittleEndian

/-- The number with these bytes, the least significant one first. -/
def number : List UInt8 → ℕ
  | [] => 0
  | b :: bytes => b.toNat + 256 * number bytes

/-- The low `n` bytes of a number. -/
def bytesOf : (n : ℕ) → ℕ → List UInt8
  | 0, _ => []
  | n + 1, v => UInt8.ofNat v :: bytesOf n (v / 256)

/-- The integer that eight bytes hold. -/
def readI64 (bytes : List UInt8) : Int64 := .ofBitVec (.ofNat 64 (number bytes))

/-- The eight bytes that hold an integer. -/
def writeI64 (v : Int64) : List UInt8 := bytesOf 8 v.toBitVec.toNat

/-- The complete elements of a file. -/
def elements (bytes : List UInt8) : List Int64 :=
  if 8 ≤ bytes.length then readI64 (bytes.take 8) :: elements (bytes.drop 8) else []
termination_by bytes.length
decreasing_by
  rw [List.length_drop]
  omega

/-- The bytes behind them. -/
def leftover (bytes : List UInt8) : List UInt8 := bytes.drop (8 * (bytes.length / 8))

/-- The file with these elements, and these bytes behind them. -/
def file (xs : List Int64) (rest : List UInt8) : List UInt8 := xs.flatMap writeI64 ++ rest

variable {bytes rest : List UInt8} {xs : List Int64}

/-! ## One integer -/

@[simp] theorem length_bytesOf (n v : ℕ) : (bytesOf n v).length = n := by
  induction n generalizing v with
  | zero => rfl
  | succ n ih => rw [bytesOf, List.length_cons, ih]

@[simp] theorem length_writeI64 (v : Int64) : (writeI64 v).length = 8 := length_bytesOf 8 _

theorem number_bytesOf (n v : ℕ) : number (bytesOf n v) = v % 256 ^ n := by
  induction n generalizing v with
  | zero => rw [bytesOf, number, pow_zero, Nat.mod_one]
  | succ n ih =>
      have hbyte : (UInt8.ofNat v).toNat = v % 256 := UInt8.toNat_ofNat'
      rw [bytesOf, number, ih, hbyte, pow_succ', Nat.mod_mul]

theorem number_lt (bytes : List UInt8) : number bytes < 256 ^ bytes.length := by
  induction bytes with
  | nil => exact Nat.one_pos
  | cons b bytes ih =>
      have hb := b.toNat_lt
      rw [number, List.length_cons, pow_succ]
      omega

theorem bytesOf_number (bytes : List UInt8) : bytesOf bytes.length (number bytes) = bytes := by
  induction bytes with
  | nil => rfl
  | cons b bytes ih =>
      have hb := b.toNat_lt
      have hlow : UInt8.ofNat (b.toNat + 256 * number bytes) = b := by
        rw [← UInt8.toNat_inj, UInt8.toNat_ofNat']
        omega
      have hhigh : (b.toNat + 256 * number bytes) / 256 = number bytes := by omega
      rw [List.length_cons, bytesOf, number, hlow, hhigh, ih]

theorem pow_eight : 256 ^ 8 = 2 ^ 64 := rfl

theorem readI64_writeI64 (v : Int64) : readI64 (writeI64 v) = v := by
  rw [readI64, writeI64, number_bytesOf, pow_eight, Nat.mod_eq_of_lt v.toBitVec.isLt,
    BitVec.ofNat_toNat, BitVec.setWidth_eq, Int64.ofBitVec_toBitVec]

theorem writeI64_readI64 (h : bytes.length = 8) : writeI64 (readI64 bytes) = bytes := by
  have hlt := number_lt bytes
  rw [h, pow_eight] at hlt
  show bytesOf 8 (BitVec.ofNat 64 (number bytes)).toNat = bytes
  rw [BitVec.toNat_ofNat, Nat.mod_eq_of_lt hlt, ← h, bytesOf_number]

/-! ## Files -/

theorem elements_of_lt (h : bytes.length < 8) : elements bytes = [] := by
  rw [elements, if_neg (by omega)]

theorem elements_append {first : List UInt8} (h : first.length = 8) (rest : List UInt8) :
    elements (first ++ rest) = readI64 first :: elements rest := by
  have hlen : 8 ≤ (first ++ rest).length := by
    rw [List.length_append]
    omega
  rw [elements, if_pos hlen, List.take_left' h, List.drop_left' h]

theorem length_elements (bytes : List UInt8) : (elements bytes).length = bytes.length / 8 := by
  fun_induction elements bytes with
  | case1 bytes h ih =>
      rw [List.length_cons, ih, List.length_drop]
      omega
  | case2 bytes h => exact (Nat.div_eq_of_lt (by omega)).symm

theorem length_leftover (bytes : List UInt8) : (leftover bytes).length < 8 := by
  rw [leftover, List.length_drop]
  omega

/-- A file is its elements and what is left over. -/
theorem file_parts (bytes : List UInt8) : file (elements bytes) (leftover bytes) = bytes := by
  fun_induction elements bytes with
  | case1 bytes h ih =>
      have hfirst : (bytes.take 8).length = 8 := List.length_take_of_le h
      have hrest : leftover bytes = leftover (bytes.drop 8) := by
        rw [leftover, leftover, List.drop_drop, List.length_drop]
        congr 1
        omega
      rw [file, List.flatMap_cons, writeI64_readI64 hfirst, List.append_assoc, hrest]
      show bytes.take 8 ++ file _ _ = bytes
      rw [ih, List.take_append_drop]
  | case2 bytes h =>
      have hzero : bytes.length / 8 = 0 := Nat.div_eq_of_lt (by omega)
      rw [file, leftover, hzero]
      rfl

theorem length_file (xs : List Int64) (rest : List UInt8) :
    (file xs rest).length = 8 * xs.length + rest.length := by
  induction xs with
  | nil => simp [file]
  | cons x xs ih =>
      rw [file, List.length_append] at ih
      rw [file, List.flatMap_cons, List.length_append, List.length_append, length_writeI64,
        List.length_cons]
      omega

/-- And these are found in it. -/
theorem elements_file (h : rest.length < 8) : elements (file xs rest) = xs := by
  induction xs with
  | nil => exact elements_of_lt h
  | cons x xs ih =>
      rw [file, List.flatMap_cons, List.append_assoc, elements_append (length_writeI64 x),
        readI64_writeI64]
      exact congrArg (x :: ·) ih

theorem leftover_file (h : rest.length < 8) : leftover (file xs rest) = rest := by
  have hlen : 8 * ((file xs rest).length / 8) = (xs.flatMap writeI64).length := by
    have hfile := length_file xs rest
    have hall : (file xs rest).length = (xs.flatMap writeI64).length + rest.length :=
      List.length_append
    omega
  rw [leftover, hlen]
  exact List.drop_left

end Csf.Lib.LittleEndian
