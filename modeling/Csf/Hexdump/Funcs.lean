import Mathlib

/-!
# Hexdump: the C program

`c_hexfuncs.c` and `c_hexmain.c`, function by function. A `char` array of `n`
elements is a `Vector UInt8 n`; reading or writing outside it is `Fault.undefined`.
A `char` passed as an `unsigned char` is the same byte, so bytes are `UInt8`
throughout.

The outside world is a list of results of `read(0, buf, 16)`, consumed one per
call, and the bytes passed to `write(1, ..)`, which is assumed to take them all.
-/

namespace Csf.Hexdump

inductive Fault where
  /-- an access outside an array, or an `int` past its range -/
  | undefined
  /-- a `read` for which there is no result -/
  | blocked
deriving DecidableEq, Repr

/-- What one `read(0, buf, 16)` stores. -/
abbrev Chunk := { bytes : List UInt8 // bytes.length ≤ 16 }

/-- A result of `read(0, buf, 16)`: bytes (none at the end of the input), or -1. -/
inductive ReadResult where
  | bytes (chunk : Chunk)
  | error
deriving DecidableEq, Repr

variable {n : Nat}

/-- `s[i] = c` -/
def store (s : Vector UInt8 n) (i : Int) (c : UInt8) : Except Fault (Vector UInt8 n) :=
  if h : 0 ≤ i ∧ i.toNat < n then .ok (s.set i.toNat c h.2) else .error .undefined

/-- `s[i]` -/
def load (s : Vector UInt8 n) (i : Nat) : Except Fault UInt8 :=
  if h : i < n then .ok s[i] else .error .undefined

/-- The kernel's side of `read`: `bytes` replace the front of the buffer. -/
def readInto (bytes : List UInt8) (s : Vector UInt8 n) : Except Fault (Vector UInt8 n) :=
  if h : bytes.length ≤ n then
    .ok ⟨(bytes ++ s.toList.drop bytes.length).toArray, by simp; omega⟩
  else .error .undefined

/-- `hex_read` -/
def hexRead (result : ReadResult) (dataBuf : Vector UInt8 n) :
    Except Fault (UInt32 × Vector UInt8 n) :=
  match result with
  | .bytes chunk => do
      let nread := UInt32.ofNat chunk.val.length
      let dataBuf ← readInto chunk.val dataBuf
      let dataBuf ← store dataBuf nread.toNat 0
      pure (nread, dataBuf)
  | .error => do
      -- `(unsigned) -1`
      let nread : UInt32 := 0xffffffff
      let dataBuf ← store dataBuf nread.toNat 0
      pure (nread, dataBuf)

/-- The loop of `hex_write_string`, over the characters from position `length` on. -/
def stringLength : List UInt8 → (length : Nat) → Except Fault Nat
  | [], _ => .error .undefined
  | c :: rest, length =>
      if c = 0 then .ok length
      else if length + 1 < 2 ^ 31 then stringLength rest (length + 1)
      else .error .undefined

/-- `hex_write_string`: the bytes it passes to `write`. -/
def hexWriteString (s : Vector UInt8 n) : Except Fault (List UInt8) := do
  let length ← stringLength s.toList 0
  pure (s.toList.take length)

theorem toNat_shiftRight_four (value : UInt32) : (value >>> 4).toNat = value.toNat / 16 := by
  simp [Nat.shiftRight_eq_div_pow]

theorem toNat_shiftRight_four_lt {value : UInt32} (h : value ≠ 0) :
    (value >>> 4).toNat < value.toNat := by
  have := mt UInt32.toNat_inj.mp h
  rw [toNat_shiftRight_four]
  simp at this
  omega

/-- The `while` loop shared by `hex_format_offset` and `hex_format_byte_as_hex`:
store the digits of `value` leftwards from position `j`. -/
def formatDigits (value : UInt32) (j : Int) (sbuf : Vector UInt8 n) :
    Except Fault (Vector UInt8 n) :=
  if _h : value = 0 then .ok sbuf
  else
    let temp := value % 16
    let temp := if temp < 10 then temp + 48 else temp + 87
    match store sbuf j temp.toUInt8 with
    | .error f => .error f
    | .ok sbuf => formatDigits (value >>> 4) (j - 1) sbuf
termination_by value.toNat
decreasing_by exact toNat_shiftRight_four_lt ‹_›

/-- The `for` loop of `hex_format_offset`. -/
def fillZeros : (count : Nat) → (i : Nat) → Vector UInt8 n → Except Fault (Vector UInt8 n)
  | 0, _, sbuf => .ok sbuf
  | count + 1, i, sbuf => do
      let sbuf ← store sbuf i 48
      fillZeros count (i + 1) sbuf

/-- `hex_format_offset` -/
def hexFormatOffset (offset : UInt32) (sbuf : Vector UInt8 n) :
    Except Fault (Vector UInt8 n) := do
  let sbuf ← fillZeros 8 0 sbuf
  let sbuf ← formatDigits offset 7 sbuf
  store sbuf 8 0

/-- `hex_format_byte_as_hex` -/
def hexFormatByteAsHex (byteval : UInt8) (sbuf : Vector UInt8 n) :
    Except Fault (Vector UInt8 n) := do
  let sbuf ← store sbuf 0 48
  let sbuf ← store sbuf 1 48
  let sbuf ← store sbuf 2 0
  formatDigits byteval.toUInt32 1 sbuf

/-- `hex_to_printable` -/
def hexToPrintable (byteval : UInt8) : UInt8 :=
  if byteval < 32 ∨ byteval > 126 then 46 else byteval

/-! ## `main` -/

/-- The locals of `main` that change. -/
structure Frame where
  offset : UInt32
  dataBuf : Vector UInt8 17
  offset2 : Vector UInt8 9
  asciival : Vector UInt8 3
deriving DecidableEq

def space : Vector UInt8 2 := #v[32, 0]

def colon : Vector UInt8 3 := #v[58, 32, 0]

def newline : Vector UInt8 2 := #v[10, 0]

/-- One round of the hex column loop: what it writes, and `asciival` after it. -/
def hexColumn (nread : UInt32) (dataBuf : Vector UInt8 17) (i : Nat)
    (asciival : Vector UInt8 3) : Except Fault (List UInt8 × Vector UInt8 3) :=
  if i < nread.toNat then do
    let c ← load dataBuf i
    let asciival ← hexFormatByteAsHex c asciival
    let digits ← hexWriteString asciival
    let gap ← hexWriteString space
    pure (digits ++ gap, asciival)
  else do
    let gap ← hexWriteString space
    pure (gap ++ gap ++ gap, asciival)

/-- The hex column loop, `count` rounds from `i` on. -/
def hexColumns (nread : UInt32) (dataBuf : Vector UInt8 17) :
    (count : Nat) → (i : Nat) → Vector UInt8 3 → Except Fault (List UInt8 × Vector UInt8 3)
  | 0, _, asciival => .ok ([], asciival)
  | count + 1, i, asciival => do
      let (column, asciival) ← hexColumn nread dataBuf i asciival
      let (columns, asciival) ← hexColumns nread dataBuf count (i + 1) asciival
      pure (column ++ columns, asciival)

/-- The loop that makes `data_buf` printable, `count` rounds from `i` on. -/
def printableLoop : (count : Nat) → (i : Nat) → Vector UInt8 17 →
    Except Fault (Vector UInt8 17)
  | 0, _, dataBuf => .ok dataBuf
  | count + 1, i, dataBuf => do
      let c ← load dataBuf i
      let dataBuf ← store dataBuf i (hexToPrintable c)
      printableLoop count (i + 1) dataBuf

/-- The body of `main`'s loop after a read of `nread` bytes. -/
def printLine (nread : UInt32) (f : Frame) : Except Fault (List UInt8 × Frame) := do
  let offset2 ← hexFormatOffset f.offset f.offset2
  let address ← hexWriteString offset2
  let sep ← hexWriteString colon
  let (columns, asciival) ← hexColumns nread f.dataBuf 16 0 f.asciival
  let gap ← hexWriteString space
  let dataBuf ← printableLoop nread.toNat 0 f.dataBuf
  let text ← hexWriteString dataBuf
  let eol ← hexWriteString newline
  pure (address ++ sep ++ columns ++ gap ++ text ++ eol,
    { offset := f.offset + 16, dataBuf := dataBuf, offset2 := offset2, asciival := asciival })

/-- `main`'s loop: the bytes it writes and the read results it leaves. -/
def mainLoop : List ReadResult → Frame → Except Fault (List UInt8 × List ReadResult)
  | [], _ => .error .blocked
  | result :: rest, f => do
      let (nread, dataBuf) ← hexRead result f.dataBuf
      if nread = 0 then pure ([], rest)
      else
        let (line, f) ← printLine nread { f with dataBuf := dataBuf }
        let (lines, rest) ← mainLoop rest f
        pure (line ++ lines, rest)

/-- `main`, whatever its arrays hold at the start. -/
def main (locals : Frame) (reads : List ReadResult) :
    Except Fault (List UInt8 × List ReadResult) :=
  mainLoop reads { locals with offset := 0 }

/-- The results of `read` that deliver `chunks` and then the end of the input. -/
def delivered (chunks : List Chunk) (rest : List ReadResult) : List ReadResult :=
  chunks.map .bytes ++ .bytes ⟨[], Nat.zero_le 16⟩ :: rest

/-- The bytes of a list of chunks. -/
def stream (chunks : List Chunk) : List UInt8 := (chunks.map Subtype.val).flatten

end Csf.Hexdump
