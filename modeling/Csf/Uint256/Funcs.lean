import Mathlib

/-!
# 256-bit integers: the functions of `uint256.c`

A `UInt256` is four limbs of 64 bits, least significant first; `UInt256.value`
is the number it denotes. The functions are the loops of the source: addition
ripples a carry through the limbs, the shift moves every bit by one place at a
time, the product is shift-and-add over the bits of the left operand.
-/

namespace Csf.Uint256

/-- There are four limbs: literals are indices of them. -/
scoped instance neZero_limbs : NeZero 4 := ⟨Nat.succ_ne_zero 3⟩

/-- `UInt256` -/
structure UInt256 where
  data : Vector UInt64 4
deriving DecidableEq, Repr

/-- The number that a value denotes. -/
def UInt256.value (v : UInt256) : ℕ := Nat.ofDigits (2 ^ 64) (v.data.toList.map UInt64.toNat)

/-- `uint256_create` -/
def uint256Create (data : Vector UInt64 4) : UInt256 := { data := data }

/-- `uint256_create_from_u64` -/
def uint256CreateFromU64 (val : UInt64) : UInt256 := { data := #v[val, 0, 0, 0] }

/-- `uint256_get_bits`, at an index of the array. -/
def uint256GetBits (val : UInt256) (index : Fin 4) : UInt64 := val.data[index]

/-- The carry that `uint256_add` passes on. -/
def carryOut (one two carry : UInt64) : UInt64 :=
  let tempSum := one + two + carry
  if tempSum < one ∨ tempSum < two then 1 else 0

/-- The body of the loop of `uint256_add`. -/
def addStep (left right : UInt256) (s : UInt256 × UInt64) (i : Fin 4) : UInt256 × UInt64 :=
  let one := uint256GetBits left i
  let two := uint256GetBits right i
  let tempSum := one + two + s.2
  ({ data := s.1.data.set i tempSum }, carryOut one two s.2)

/-- `uint256_add` -/
def uint256Add (left right : UInt256) : UInt256 :=
  ((List.finRange 4).foldl (addStep left right) ({ data := #v[0, 0, 0, 0] }, 0)).1

/-- `uint256_negate` -/
def uint256Negate (val : UInt256) : UInt256 :=
  uint256Add { data := val.data.map (~~~·) } { data := #v[1, 0, 0, 0] }

/-- `uint256_sub` -/
def uint256Sub (left right : UInt256) : UInt256 := uint256Add left (uint256Negate right)

/-- `one << k` -/
def bit (k : ℕ) : UInt64 := 1 <<< k.toUInt64

/-- `data |= (one << k)` or `data &= ~(one << k)`. -/
def putBit (data : UInt64) (k : ℕ) (b : Bool) : UInt64 :=
  if b then data ||| bit k else data &&& ~~~bit k

/-- The body of the two inner loops of `uint256_leftShift`: bit `k` of limb `j` becomes
the bit on its right. -/
def moveBit (j : Fin 4) (result : UInt256) (k : ℕ) : UInt256 :=
  let fromRight : Bool :=
    if k = 0 then
      if j = 0 then false else result.data[j - 1] &&& bit 63 ≠ 0
    else result.data[j] &&& bit (k - 1) ≠ 0
  { data := result.data.set j (putBit result.data[j] k fromRight) }

/-- The loop over `k` of `uint256_leftShift`, from 63 down to 0. -/
def moveLimb (result : UInt256) (j : Fin 4) : UInt256 :=
  (List.range 64).reverse.foldl (moveBit j) result

/-- The loop over `j` of `uint256_leftShift`, from 3 down to 0. -/
def shiftOnce (result : UInt256) : UInt256 := (List.finRange 4).reverse.foldl moveLimb result

/-- `uint256_leftShift`; a shift that is negative as an `int` does nothing. -/
def uint256LeftShift (val : UInt256) (shift : UInt32) : UInt256 :=
  shiftOnce^[shift.toInt32.toInt.toNat] val

/-- The body of the loops of `uint256_mul`, on bit `j` of limb `i`. -/
def mulStep (left right : UInt256) (i : Fin 4) (product : UInt256) (j : ℕ) : UInt256 :=
  if left.data[i] &&& bit j ≠ 0 then
    uint256Add product (uint256LeftShift right (UInt32.ofNat (j + i * 64)))
  else product

/-- `uint256_mul` -/
def uint256Mul (left right : UInt256) : UInt256 :=
  (List.finRange 4).foldl
    (fun product i => (List.range 64).foldl (mulStep left right i) product)
    { data := #v[0, 0, 0, 0] }

end Csf.Uint256
