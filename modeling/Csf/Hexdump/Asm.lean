import Csf.Hexdump.Funcs
import Csf.Lib.X86.Machine

/-!
# Hexdump: the assembly program

`asm_hexfuncs.S` and `asm_hexmain.S`, line by line: `movb 48 (idx 0 rsi r10)`
is `movb $48, (%rsi, %r10, 1)`. The two outside functions are `read` and
`write`. Of libc it is assumed that they leave their count in `%rax`, keep the
callee-saved registers and `%rdi`, and change no memory above the stack pointer
other than the buffer of `read`; everything else they leave behind is a
parameter, `Libc`.
-/

namespace Csf.Hexdump.Asm

open Csf.Lib.X86 Csf.Lib.X86.Reg

/-- The labels of both files. -/
inductive Label where
  | hexRead
  | hexWriteString | lengthLoop | writeString
  | hexFormatOffset | fillZero | fillChar | remLessThanTen | finishFormat
  | hexFormatByteAsHex | formatByteLoop | remainderNotLessThanTen | remainderIfEnd
  | formatByteFinish
  | hexToPrintable | convertToPeriod
  | main | printLoop | printHexLineLoop | indexNotLessThanCharsRead
  | indexNotLessThanCharsReadExit | printHexLineLoopExit | turnToPrintableLoop
  | turnToPrintableLoopExit | printLoopExit
deriving DecidableEq, Repr

/-- The functions called from libc. -/
inductive Extern where
  | read
  | write
deriving DecidableEq, Repr

abbrev Code := List (Line Label Extern)

/-! ## Mnemonics -/

section

variable {L X : Type}

def movb (src dst : Operand) : Line L X := .op (.mov .b src dst)
def movl (src dst : Operand) : Line L X := .op (.mov .l src dst)
def movq (src dst : Operand) : Line L X := .op (.mov .q src dst)
def leaq (src : Addr) (dst : Reg) : Line L X := .op (.lea src dst)
def addl (src dst : Operand) : Line L X := .op (.add .l src dst)
def addq (src dst : Operand) : Line L X := .op (.add .q src dst)
def subq (src dst : Operand) : Line L X := .op (.sub .q src dst)
def incl (dst : Operand) : Line L X := .op (.inc .l dst)
def decq (dst : Operand) : Line L X := .op (.dec .q dst)
def shr (count : Nat) (dst : Reg) : Line L X := .op (.shr .q count dst)
def divq (src : Operand) : Line L X := .op (.div src)
def cmpb (src dst : Operand) : Line L X := .op (.cmp .b src dst)
def cmpl (src dst : Operand) : Line L X := .op (.cmp .l src dst)
def cmpq (src dst : Operand) : Line L X := .op (.cmp .q src dst)
def pushq (src : Reg) : Line L X := .op (.push src)
def popq (dst : Reg) : Line L X := .op (.pop dst)
def je (l : L) : Line L X := .jcc .e l
def jl (l : L) : Line L X := .jcc .l l
def jge (l : L) : Line L X := .jcc .ge l
def jg (l : L) : Line L X := .jcc .g l
def jle (l : L) : Line L X := .jcc .le l
def jb (l : L) : Line L X := .jcc .b l
def jbe (l : L) : Line L X := .jcc .be l

end

/-! ## `asm_hexfuncs.S` -/

def hexReadCode : Code :=
  [ .label .hexRead,
    pushq r12,
    movq rdi r12,
    movl 0 rdi,
    movq r12 rsi,
    movq 16 rdx,
    .external .read,
    movb 0 (idx 0 r12 rax),
    popq r12,
    .ret ]

def hexWriteStringCode : Code :=
  [ .label .hexWriteString,
    pushq r12,
    movq 0 r12,
    .label .lengthLoop,
    cmpb 0 (idx 0 rdi r12),
    jle .writeString,
    addq 1 r12,
    .jmp .lengthLoop,
    .label .writeString,
    movq rdi rsi,
    movl 1 rdi,
    movq r12 rdx,
    .external .write,
    popq r12,
    .ret ]

def hexFormatOffsetCode : Code :=
  [ .label .hexFormatOffset,
    pushq r14,
    movq 0 r10,
    movq 7 r11,
    .label .fillZero,
    cmpq 8 r10,
    jge .fillChar,
    movb 48 (idx 0 rsi r10),
    addq 1 r10,
    .jmp .fillZero,
    .label .fillChar,
    cmpq 0 rdi,
    jbe .finishFormat,
    movq rdi rax,
    movq 0 rdx,
    movq 16 r14,
    divq r14,
    cmpq 10 rdx,
    jb .remLessThanTen,
    addq 87 rdx,
    movb rdx (idx 0 rsi r11),
    subq 1 r11,
    shr 4 rdi,
    .jmp .fillChar,
    .label .remLessThanTen,
    addq 48 rdx,
    movb rdx (idx 0 rsi r11),
    subq 1 r11,
    shr 4 rdi,
    .jmp .fillChar,
    .label .finishFormat,
    movq 8 r11,
    movb 0 (idx 0 rsi r11),
    popq r14,
    .ret ]

def hexFormatByteAsHexCode : Code :=
  [ .label .hexFormatByteAsHex,
    pushq r12,
    pushq r13,
    pushq r14,
    movq rdi r12,
    movq 0 r13,
    movb 48 (idx 0 rsi r13),
    movq 1 r13,
    movb 48 (idx 0 rsi r13),
    movq 2 r13,
    movb 0 (idx 0 rsi r13),
    decq r13,
    .jmp .formatByteLoop,
    .label .formatByteLoop,
    cmpq 0 r12,
    je .formatByteFinish,
    movq 0 rdx,
    movq r12 rax,
    movq 16 r14,
    divq r14,
    cmpq 10 rdx,
    jge .remainderNotLessThanTen,
    addq 48 rdx,
    .jmp .remainderIfEnd,
    .label .remainderNotLessThanTen,
    addq 87 rdx,
    .label .remainderIfEnd,
    movb rdx (idx 0 rsi r13),
    decq r13,
    shr 4 r12,
    .jmp .formatByteLoop,
    .label .formatByteFinish,
    popq r14,
    popq r13,
    popq r12,
    .ret ]

def hexToPrintableCode : Code :=
  [ .label .hexToPrintable,
    pushq r12,
    movq rdi r12,
    cmpq 32 r12,
    jl .convertToPeriod,
    cmpq 126 r12,
    jg .convertToPeriod,
    movq r12 rax,
    popq r12,
    .ret,
    .label .convertToPeriod,
    movq 46 rax,
    popq r12,
    .ret ]

/-! ## `asm_hexmain.S` -/

def mainCode : Code :=
  [ .label .main,
    subq 17 rsp,
    subq 9 rsp,
    subq 3 rsp,
    subq 2 rsp,
    subq 3 rsp,
    subq 2 rsp,
    subq 4 rsp,
    movq rsp rbp,
    subq 8 rsp,
    movl 0 (ptr 0 rbp),
    movb 10 (ptr 4 rbp),
    movb 0 (ptr 5 rbp),
    movb 58 (ptr 6 rbp),
    movb 32 (ptr 7 rbp),
    movb 0 (ptr 8 rbp),
    movb 32 (ptr 9 rbp),
    movb 0 (ptr 10 rbp),
    leaq (ptr 23 rbp) rdi,
    .call .hexRead,
    movl rax r12,
    .label .printLoop,
    cmpl 0 r12,
    je .printLoopExit,
    movl (ptr 0 rbp) rdi,
    leaq (ptr 14 rbp) rsi,
    .call .hexFormatOffset,
    leaq (ptr 14 rbp) rdi,
    .call .hexWriteString,
    leaq (ptr 6 rbp) rdi,
    .call .hexWriteString,
    movl 0 r13,
    .label .printHexLineLoop,
    cmpl 16 r13,
    je .printHexLineLoopExit,
    cmpl r12 r13,
    jge .indexNotLessThanCharsRead,
    movb (idx 23 rbp r13) rdi,
    leaq (ptr 11 rbp) rsi,
    .call .hexFormatByteAsHex,
    leaq (ptr 11 rbp) rdi,
    .call .hexWriteString,
    leaq (ptr 9 rbp) rdi,
    .call .hexWriteString,
    .jmp .indexNotLessThanCharsReadExit,
    .label .indexNotLessThanCharsRead,
    leaq (ptr 9 rbp) rdi,
    .call .hexWriteString,
    leaq (ptr 9 rbp) rdi,
    .call .hexWriteString,
    leaq (ptr 9 rbp) rdi,
    .call .hexWriteString,
    .label .indexNotLessThanCharsReadExit,
    incl r13,
    .jmp .printHexLineLoop,
    .label .printHexLineLoopExit,
    leaq (ptr 9 rbp) rdi,
    .call .hexWriteString,
    movl 0 r13,
    .label .turnToPrintableLoop,
    cmpl r12 r13,
    jge .turnToPrintableLoopExit,
    movb (idx 23 rbp r13) rdi,
    .call .hexToPrintable,
    movb rax (idx 23 rbp r13),
    incl r13,
    .jmp .turnToPrintableLoop,
    .label .turnToPrintableLoopExit,
    leaq (ptr 23 rbp) rdi,
    .call .hexWriteString,
    leaq (ptr 4 rbp) rdi,
    .call .hexWriteString,
    addl 16 (ptr 0 rbp),
    leaq (ptr 23 rbp) rdi,
    .call .hexRead,
    movl rax r12,
    .jmp .printLoop,
    .label .printLoopExit,
    addq 10 rsp,
    addq 4 rsp,
    addq 3 rsp,
    addq 2 rsp,
    addq 3 rsp,
    addq 9 rsp,
    addq 17 rsp,
    .ret ]

/-- The linked program. -/
@[irreducible] def program : Code :=
  hexReadCode ++ hexWriteStringCode ++ hexFormatOffsetCode ++ hexFormatByteAsHexCode ++
    hexToPrintableCode ++ mainCode

/-! ## libc -/

/-- The results of `read` to come and the bytes written so far. -/
structure World where
  input : List ReadResult
  output : List UInt8
deriving DecidableEq

abbrev Cpu := State World

/-- What a libc function leaves where it may leave anything: in the other
caller-saved registers and below the stack pointer. -/
structure Libc where
  reg : Cpu → Reg → Word
  stack : Cpu → Memory

/-- A libc that leaves zeros. -/
def quietLibc : Libc := { reg := fun _ _ => 0, stack := fun _ _ => 0 }

/-- The registers that `read` and `write` leave as they were. -/
def kept : List Reg := [rbx, rbp, rsp, r12, r13, r14, r15, rdi]

/-- The state after a libc function returns `result`. -/
def Libc.leave (lib : Libc) (s : Cpu) (result : Word) (mem : Memory) (world : World) : Cpu :=
  { s with
    regs := fun r =>
      if r = rax then result else if r ∈ kept then s.regs r else lib.reg s r
    mem := fun a => if a < s.regs rsp then lib.stack s a else mem a
    flags := none
    world := world }

/-- Memory once `bytes` are copied to `a`. -/
def copyIn (mem : Memory) (a : Word) (bytes : List UInt8) : Memory := fun x =>
  bytes[(x - a).toNat]?.getD (mem x)

/-- The `n` bytes from `a` on. -/
def copyOut (mem : Memory) (a : Word) (n : Nat) : List UInt8 :=
  (List.range n).map fun i => mem (off a i)

/-- `read(0, %rsi, 16)` and `write(1, %rsi, %rdx)` -/
def Libc.run (lib : Libc) : Extern → Cpu → Option Cpu
  | .read, s =>
      if s.regs rdi = 0 ∧ s.regs rdx = 16 then
        match s.world.input with
        | [] => none
        | .bytes chunk :: input =>
            some (lib.leave s (BitVec.ofNat 64 chunk.val.length)
              (copyIn s.mem (s.regs rsi) chunk.val) { s.world with input := input })
        | .error :: input =>
            some (lib.leave s (-1) s.mem { s.world with input := input })
      else none
  | .write, s =>
      if s.regs rdi = 1 then
        some (lib.leave s (s.regs rdx) s.mem { s.world with
          output := s.world.output ++ copyOut s.mem (s.regs rsi) (s.regs rdx).toNat })
      else none

/-- libc, refusing the calls of `read` that `ok` does not accept. -/
def Libc.guarded (lib : Libc) (ok : Cpu → Bool) : Extern → Cpu → Option Cpu
  | .read, s => if ok s then lib.run .read s else none
  | .write, s => lib.run .write s

theorem Libc.restricts_guarded (lib : Libc) (ok : Cpu → Bool) :
    Restricts (lib.guarded ok) lib.run := by
  intro x s s' h
  cases x with
  | read =>
      rw [Libc.guarded] at h
      split at h
      · exact h
      · exact absurd h (by simp)
  | write => exact h

end Csf.Hexdump.Asm
