import Csf.Lib.X86.Memory

/-!
# A fragment of x86-64

Integer instructions in AT&T operand order (source first), over registers of 64
bits, a byte memory and a condition that only comparisons leave behind: the
flags of the other arithmetic instructions are not tracked, and a conditional
jump on them is stuck. Code is a list of lines, a code address is the number of
a line, and `call` and `ret` move such addresses through memory. Calls that
leave the code are a parameter.

`Eventually` is total correctness of a run; its rules step over a block of data
instructions or over one jump.
-/

namespace Csf.Lib.X86

inductive Reg where
  | rax | rbx | rcx | rdx | rsi | rdi | rbp | rsp
  | r8 | r9 | r10 | r11 | r12 | r13 | r14 | r15
deriving DecidableEq, Repr

/-- Operand sizes: the suffixes `b`, `l` and `q`. -/
inductive Width where
  | b | l | q
deriving DecidableEq, Repr

def Width.bytes : Width → Nat
  | .b => 1
  | .l => 4
  | .q => 8

def Width.bits (w : Width) : Nat := 8 * w.bytes

/-- The low part of a word. -/
def Width.trunc (w : Width) (v : Word) : Word := BitVec.ofNat 64 (v.toNat % 256 ^ w.bytes)

/-- What writing the low part of a register leaves in it: a byte keeps the rest,
32 bits clear it. -/
def Width.merge (w : Width) (old v : Word) : Word :=
  match w with
  | .b => BitVec.ofNat 64 (old.toNat / 256 * 256 + v.toNat % 256)
  | .l => Width.l.trunc v
  | .q => v

@[simp] theorem Width.toNat_trunc (w : Width) (v : Word) :
    (w.trunc v).toNat = v.toNat % 256 ^ w.bytes := by
  have hle : v.toNat % 256 ^ w.bytes ≤ v.toNat := Nat.mod_le _ _
  rw [Width.trunc, BitVec.toNat_ofNat, Nat.mod_eq_of_lt (lt_of_le_of_lt hle v.isLt)]

/-- A word that fits is its own low part. -/
theorem Width.trunc_of_lt {w : Width} {v : Word} (h : v.toNat < 256 ^ w.bytes) :
    w.trunc v = v :=
  BitVec.eq_of_toNat_eq (by rw [Width.toNat_trunc, Nat.mod_eq_of_lt h])

@[simp] theorem Width.trunc_q (v : Word) : Width.q.trunc v = v := Width.trunc_of_lt v.isLt

@[simp] theorem Width.merge_q (old v : Word) : Width.q.merge old v = v := rfl

@[simp] theorem Width.merge_l (old v : Word) : Width.l.merge old v = Width.l.trunc v := rfl

/-- Writing the low byte of a register whose other bytes are zero. -/
theorem Width.merge_b {old v : Word} (h : old.toNat < 256) :
    Width.b.merge old v = Width.b.trunc v := by
  rw [Width.merge, Nat.div_eq_of_lt h, Nat.zero_mul, Nat.zero_add]
  rfl

/-- `disp(base)` or `disp(base,index,1)` -/
structure Addr where
  disp : Word
  base : Reg
  index : Option Reg
deriving DecidableEq, Repr

inductive Operand where
  | imm (v : Word)
  | reg (r : Reg)
  | mem (a : Addr)
deriving DecidableEq, Repr

instance (n : Nat) : OfNat Operand n := ⟨.imm (BitVec.ofNat 64 n)⟩

instance : Coe Reg Operand := ⟨.reg⟩

/-- `disp(base)` -/
def ptr (disp : Nat) (base : Reg) : Addr := ⟨BitVec.ofNat 64 disp, base, none⟩

/-- `disp(base,index,1)` -/
def idx (disp : Nat) (base index : Reg) : Addr := ⟨BitVec.ofNat 64 disp, base, some index⟩

instance : Coe Addr Operand := ⟨.mem⟩

/-- Instructions that go on to the next line. -/
inductive Op where
  | mov (w : Width) (src dst : Operand)
  | lea (src : Addr) (dst : Reg)
  | add (w : Width) (src dst : Operand)
  | sub (w : Width) (src dst : Operand)
  | inc (w : Width) (dst : Operand)
  | dec (w : Width) (dst : Operand)
  | shr (w : Width) (count : Nat) (dst : Operand)
  /-- unsigned division of `%rdx:%rax` -/
  | div (src : Operand)
  | cmp (w : Width) (src dst : Operand)
  | push (src : Reg)
  | pop (dst : Reg)
deriving DecidableEq, Repr

/-- Conditions of the jumps `je`, `jl`, `jge`, `jg`, `jle`, `jb` and `jbe`. -/
inductive Cond where
  | e | l | ge | g | le | b | be
deriving DecidableEq, Repr

/-- A line of code over labels `L` and outside functions `X`. -/
inductive Line (L X : Type) where
  | label (l : L)
  | op (o : Op)
  | jmp (l : L)
  | jcc (c : Cond) (l : L)
  | call (l : L)
  | external (x : X)
  | ret
deriving DecidableEq, Repr

/-- What `cmp` leaves for the jumps: ZF, SF ≠ OF, CF. -/
structure Flags where
  equal : Bool
  less : Bool
  below : Bool
deriving DecidableEq, Repr

/-- The state of a run; `world` is whatever the outside functions act on. -/
structure State (W : Type) where
  pc : Nat
  regs : Reg → Word
  mem : Memory
  flags : Option Flags
  world : W

variable {L X W : Type}

/-! ## Data instructions -/

namespace State

def next (s : State W) : State W := { s with pc := s.pc + 1 }

def goto (s : State W) (pc : Nat) : State W := { s with pc := pc }

def setReg (s : State W) (r : Reg) (v : Word) : State W :=
  { s with regs := Function.update s.regs r v }

def store (s : State W) (w : Width) (a v : Word) : State W :=
  { s with mem := writeBytes s.mem w.bytes a v.toNat }

def setFlags (s : State W) (flags : Option Flags) : State W := { s with flags := flags }

def addr (s : State W) (a : Addr) : Word :=
  match a.index with
  | none => s.regs a.base + a.disp
  | some index => s.regs a.base + s.regs index + a.disp

def read (s : State W) (w : Width) : Operand → Word
  | .imm v => w.trunc v
  | .reg r => w.trunc (s.regs r)
  | .mem a => BitVec.ofNat 64 (readBytes s.mem w.bytes (s.addr a))

def write (s : State W) (w : Width) : Operand → Word → Option (State W)
  | .imm _, _ => none
  | .reg r, v => some (s.setReg r (w.merge (s.regs r) v))
  | .mem a, v => some (s.store w (s.addr a) v)

/-- Push a word. -/
def push (s : State W) (v : Word) : State W :=
  let top := s.regs .rsp - 8
  (s.setReg .rsp top).store .q top v

/-- The word on top of the stack. -/
def top (s : State W) : Word := BitVec.ofNat 64 (readBytes s.mem 8 (s.regs .rsp))

/-- Drop the word on top of the stack. -/
def drop (s : State W) : State W := s.setReg .rsp (s.regs .rsp + 8)

/-! ### Fields of updated states -/

@[simp] theorem next_pc (s : State W) : s.next.pc = s.pc + 1 := rfl
@[simp] theorem next_regs (s : State W) : s.next.regs = s.regs := rfl
@[simp] theorem next_mem (s : State W) : s.next.mem = s.mem := rfl
@[simp] theorem next_flags (s : State W) : s.next.flags = s.flags := rfl
@[simp] theorem next_world (s : State W) : s.next.world = s.world := rfl

@[simp] theorem goto_pc (s : State W) (pc : Nat) : (s.goto pc).pc = pc := rfl
@[simp] theorem goto_regs (s : State W) (pc : Nat) : (s.goto pc).regs = s.regs := rfl
@[simp] theorem goto_mem (s : State W) (pc : Nat) : (s.goto pc).mem = s.mem := rfl
@[simp] theorem goto_flags (s : State W) (pc : Nat) : (s.goto pc).flags = s.flags := rfl
@[simp] theorem goto_world (s : State W) (pc : Nat) : (s.goto pc).world = s.world := rfl

@[simp] theorem setReg_pc (s : State W) (r : Reg) (v : Word) : (s.setReg r v).pc = s.pc := rfl
@[simp] theorem setReg_regs (s : State W) (r r' : Reg) (v : Word) :
    (s.setReg r v).regs r' = if r' = r then v else s.regs r' := Function.update_apply ..
@[simp] theorem setReg_mem (s : State W) (r : Reg) (v : Word) : (s.setReg r v).mem = s.mem := rfl
@[simp] theorem setReg_flags (s : State W) (r : Reg) (v : Word) :
    (s.setReg r v).flags = s.flags := rfl
@[simp] theorem setReg_world (s : State W) (r : Reg) (v : Word) :
    (s.setReg r v).world = s.world := rfl

@[simp] theorem store_pc (s : State W) (w : Width) (a v : Word) : (s.store w a v).pc = s.pc := rfl
@[simp] theorem store_regs (s : State W) (w : Width) (a v : Word) :
    (s.store w a v).regs = s.regs := rfl
@[simp] theorem store_mem (s : State W) (w : Width) (a v : Word) :
    (s.store w a v).mem = writeBytes s.mem w.bytes a v.toNat := rfl
@[simp] theorem store_flags (s : State W) (w : Width) (a v : Word) :
    (s.store w a v).flags = s.flags := rfl
@[simp] theorem store_world (s : State W) (w : Width) (a v : Word) :
    (s.store w a v).world = s.world := rfl

@[simp] theorem setFlags_pc (s : State W) (f : Option Flags) : (s.setFlags f).pc = s.pc := rfl
@[simp] theorem setFlags_regs (s : State W) (f : Option Flags) :
    (s.setFlags f).regs = s.regs := rfl
@[simp] theorem setFlags_mem (s : State W) (f : Option Flags) : (s.setFlags f).mem = s.mem := rfl
@[simp] theorem setFlags_flags (s : State W) (f : Option Flags) : (s.setFlags f).flags = f := rfl
@[simp] theorem setFlags_world (s : State W) (f : Option Flags) :
    (s.setFlags f).world = s.world := rfl

end State

/-- The flags of `dst` compared with `src`. -/
def Flags.compare (w : Width) (src dst : Word) : Flags :=
  { equal := dst == src
    less := (dst.setWidth w.bits).slt (src.setWidth w.bits)
    below := dst.ult src }

/-- A word small enough for the sign not to matter. -/
theorem toInt_setWidth_of_lt {w : Width} {v : Word} (hv : v.toNat < 2 ^ (w.bits - 1)) :
    (v.setWidth w.bits).toInt = v.toNat := by
  have hpos : 0 < w.bits := by cases w <;> decide
  have hpow : 2 * 2 ^ (w.bits - 1) = 2 ^ w.bits := by rw [← pow_succ', Nat.sub_add_cancel hpos]
  have hval : (v.setWidth w.bits).toNat = v.toNat := by
    rw [BitVec.toNat_setWidth, Nat.mod_eq_of_lt (by omega)]
  rw [BitVec.toInt_eq_toNat_of_lt (by rw [hval]; omega), hval]

/-- On such words `less` is the order. -/
theorem Flags.compare_less {w : Width} {src dst : Word} (hs : src.toNat < 2 ^ (w.bits - 1))
    (hd : dst.toNat < 2 ^ (w.bits - 1)) :
    (Flags.compare w src dst).less = decide (dst.toNat < src.toNat) := by
  rw [Bool.eq_iff_iff, decide_eq_true_iff]
  show (dst.setWidth w.bits).slt (src.setWidth w.bits) = true ↔ _
  rw [BitVec.slt_iff_toInt_lt, toInt_setWidth_of_lt hs, toInt_setWidth_of_lt hd]
  omega

/-- With its sign set, a word is less than every such word. -/
theorem Flags.compare_less_of_neg {w : Width} {src dst : Word}
    (hs : src.toNat < 2 ^ (w.bits - 1)) (hd : 2 ^ (w.bits - 1) ≤ dst.toNat % 2 ^ w.bits) :
    (Flags.compare w src dst).less = true := by
  have hpos : 0 < w.bits := by cases w <;> decide
  have hpow : 2 * 2 ^ (w.bits - 1) = 2 ^ w.bits := by rw [← pow_succ', Nat.sub_add_cancel hpos]
  have hneg : (dst.setWidth w.bits).toInt < 0 := by
    rw [BitVec.toInt_neg_iff, BitVec.toNat_setWidth]
    omega
  show (dst.setWidth w.bits).slt (src.setWidth w.bits) = true
  rw [BitVec.slt_iff_toInt_lt, toInt_setWidth_of_lt hs]
  omega

theorem Flags.compare_below (w : Width) (src dst : Word) :
    (Flags.compare w src dst).below = decide (dst.toNat < src.toNat) := rfl

theorem Flags.compare_equal (w : Width) (src dst : Word) :
    (Flags.compare w src dst).equal = decide (dst.toNat = src.toNat) := by
  rw [Bool.eq_iff_iff, decide_eq_true_iff]
  exact beq_iff_eq.trans BitVec.toNat_inj.symm

def Op.exec (s : State W) : Op → Option (State W)
  | .mov w src dst => s.write w dst (s.read w src)
  | .lea src dst => some (s.setReg dst (s.addr src))
  | .add w src dst =>
      (s.write w dst (w.trunc (s.read w dst + s.read w src))).map (·.setFlags none)
  | .sub w src dst =>
      (s.write w dst (w.trunc (s.read w dst - s.read w src))).map (·.setFlags none)
  | .inc w dst => (s.write w dst (w.trunc (s.read w dst + 1))).map (·.setFlags none)
  | .dec w dst => (s.write w dst (w.trunc (s.read w dst - 1))).map (·.setFlags none)
  | .shr w count dst => (s.write w dst (s.read w dst >>> count)).map (·.setFlags none)
  | .div src =>
      let divisor := (s.read .q src).toNat
      let dividend := (s.regs .rdx).toNat * 2 ^ 64 + (s.regs .rax).toNat
      if divisor = 0 ∨ 2 ^ 64 ≤ dividend / divisor then none
      else some (((s.setReg .rax (BitVec.ofNat 64 (dividend / divisor))).setReg .rdx
        (BitVec.ofNat 64 (dividend % divisor))).setFlags none)
  | .cmp w src dst => some (s.setFlags (some (.compare w (s.read w src) (s.read w dst))))
  | .push src => some (s.push (s.regs src))
  | .pop dst => some (s.drop.setReg dst s.top)

/-! ## Steps -/

def Cond.holds (f : Flags) : Cond → Bool
  | .e => f.equal
  | .l => f.less
  | .ge => !f.less
  | .g => !(f.less || f.equal)
  | .le => f.less || f.equal
  | .b => f.below
  | .be => f.below || f.equal

section

variable {w : Width} {src dst : Word}

theorem Cond.holds_e : Cond.e.holds (.compare w src dst) = decide (dst.toNat = src.toNat) :=
  Flags.compare_equal w src dst

theorem Cond.holds_b : Cond.b.holds (.compare w src dst) = decide (dst.toNat < src.toNat) :=
  Flags.compare_below w src dst

theorem Cond.holds_be : Cond.be.holds (.compare w src dst) = decide (dst.toNat ≤ src.toNat) := by
  rw [Cond.holds, Flags.compare_below, Flags.compare_equal, Bool.eq_iff_iff, Bool.or_eq_true,
    decide_eq_true_iff, decide_eq_true_iff, decide_eq_true_iff]
  omega

variable (hs : src.toNat < 2 ^ (w.bits - 1)) (hd : dst.toNat < 2 ^ (w.bits - 1))

include hs hd

theorem Cond.holds_l : Cond.l.holds (.compare w src dst) = decide (dst.toNat < src.toNat) :=
  Flags.compare_less hs hd

theorem Cond.holds_ge : Cond.ge.holds (.compare w src dst) = decide (src.toNat ≤ dst.toNat) := by
  rw [Cond.holds, Flags.compare_less hs hd, Bool.eq_iff_iff, Bool.not_eq_true',
    decide_eq_false_iff_not, decide_eq_true_iff]
  omega

theorem Cond.holds_g : Cond.g.holds (.compare w src dst) = decide (src.toNat < dst.toNat) := by
  rw [Cond.holds, Flags.compare_less hs hd, Flags.compare_equal, Bool.eq_iff_iff,
    Bool.not_eq_true', Bool.or_eq_false_iff, decide_eq_false_iff_not, decide_eq_false_iff_not,
    decide_eq_true_iff]
  omega

theorem Cond.holds_le : Cond.le.holds (.compare w src dst) = decide (dst.toNat ≤ src.toNat) := by
  rw [Cond.holds, Flags.compare_less hs hd, Flags.compare_equal, Bool.eq_iff_iff,
    Bool.or_eq_true, decide_eq_true_iff, decide_eq_true_iff, decide_eq_true_iff]
  omega

end

/-- The number of the line that carries a label. -/
def labelIndex [DecidableEq L] (code : List (Line L X)) (l : L) : Option Nat :=
  code.findIdx? fun line => match line with
    | .label l' => l' = l
    | _ => false

/-- One step. A run outside its code is over. -/
def step [DecidableEq L] (code : List (Line L X)) (ext : X → State W → Option (State W))
    (s : State W) : Option (State W) :=
  match code[s.pc]? with
  | none => none
  | some (.label _) => some s.next
  | some (.op o) => (o.exec s).map State.next
  | some (.jmp l) => (labelIndex code l).map s.goto
  | some (.jcc c l) =>
      match s.flags with
      | none => none
      | some f => if c.holds f then (labelIndex code l).map s.goto else some s.next
  | some (.call l) =>
      (labelIndex code l).map (s.push (BitVec.ofNat 64 (s.pc + 1))).goto
  | some (.external x) => (ext x s).map State.next
  | some .ret => some (s.drop.goto s.top.toNat)

/-- `n` steps. -/
def steps [DecidableEq L] (code : List (Line L X)) (ext : X → State W → Option (State W)) :
    Nat → State W → Option (State W)
  | 0, s => some s
  | n + 1, s => (step code ext s).bind (steps code ext n)

/-! ## Runs -/

section

variable [DecidableEq L] {code : List (Line L X)} {ext : X → State W → Option (State W)}
  {s s' : State W} {Q R : State W → Prop}

/-- The run from a state reaches one that satisfies `Q`. -/
inductive Eventually (code : List (Line L X)) (ext : X → State W → Option (State W))
    (Q : State W → Prop) : State W → Prop where
  | now {s : State W} : Q s → Eventually code ext Q s
  | later {s s' : State W} :
      step code ext s = some s' → Eventually code ext Q s' → Eventually code ext Q s

theorem Eventually.trans (h : Eventually code ext R s)
    (hQ : ∀ t, R t → Eventually code ext Q t) : Eventually code ext Q s := by
  induction h with
  | now hR => exact hQ _ hR
  | later hstep _ ih => exact .later hstep ih

/-- A run that eventually satisfies `Q` does so after some number of steps. -/
theorem Eventually.steps (h : Eventually code ext Q s) :
    ∃ n s', X86.steps code ext n s = some s' ∧ Q s' := by
  induction h with
  | now hQ => exact ⟨0, _, rfl, hQ⟩
  | later hstep _ ih =>
      obtain ⟨n, s', hn, hQ⟩ := ih
      exact ⟨n + 1, s', by rw [X86.steps, hstep]; exact hn, hQ⟩

/-- A block of data instructions. -/
def execOps : List Op → State W → Option (State W)
  | [], s => some s
  | o :: os, s => (o.exec s).bind fun s => execOps os s.next

theorem State.write_pc {w : Width} {dst : Operand} {v : Word}
    (h : s.write w dst v = some s') : s'.pc = s.pc := by
  cases dst with
  | imm _ => exact absurd h (by simp [State.write])
  | reg r => rw [← Option.some.inj h]; rfl
  | mem a => rw [← Option.some.inj h]; rfl

/-- Data instructions do not jump. -/
theorem Op.exec_pc {o : Op} (h : o.exec s = some s') : s'.pc = s.pc := by
  have hmap : ∀ {w : Width} {dst : Operand} {v : Word},
      (s.write w dst v).map (·.setFlags none) = some s' → s'.pc = s.pc := by
    intro w dst v h
    obtain ⟨t, ht, rfl⟩ := Option.map_eq_some_iff.mp h
    show t.pc = s.pc
    exact State.write_pc ht
  cases o with
  | mov w src dst => exact State.write_pc h
  | lea src dst => rw [← Option.some.inj h]; rfl
  | add w src dst => exact hmap h
  | sub w src dst => exact hmap h
  | inc w dst => exact hmap h
  | dec w dst => exact hmap h
  | shr w count dst => exact hmap h
  | div src =>
      simp only [Op.exec] at h
      split at h
      · exact absurd h (by simp)
      · rw [← Option.some.inj h]; rfl
  | cmp w src dst => rw [← Option.some.inj h]; rfl
  | push src => rw [← Option.some.inj h]; rfl
  | pop dst => rw [← Option.some.inj h]; rfl

/-- Step over a block of data instructions. -/
theorem Eventually.ops (os : List Op)
    (hcode : (code.drop s.pc).take os.length = os.map .op) (hexec : execOps os s = some s')
    (h : Eventually code ext Q s') : Eventually code ext Q s := by
  induction os generalizing s with
  | nil =>
      rw [← Option.some.inj hexec] at h
      exact h
  | cons o os ih =>
      cases hdrop : code.drop s.pc with
      | nil =>
          rw [hdrop] at hcode
          exact absurd hcode (by simp)
      | cons line rest =>
          rw [hdrop, List.length_cons, List.take_succ_cons, List.map_cons, List.cons.injEq] at hcode
          obtain ⟨rfl, hrest⟩ := hcode
          have hget : code[s.pc]? = some (.op o) := by
            rw [← List.head?_drop, hdrop]
            rfl
          have hnext : code.drop (s.pc + 1) = rest := by
            rw [← List.tail_drop, hdrop]
            rfl
          obtain ⟨t, ht, hos⟩ := Option.bind_eq_some_iff.mp hexec
          have hpc : t.next.pc = s.pc + 1 := congrArg (· + 1) (Op.exec_pc ht)
          apply Eventually.later
          · rw [step, hget]
            show (o.exec s).map State.next = _
            rw [ht, Option.map_some]
          · exact ih (by rw [hpc, hnext]; exact hrest) hos

/-- Step over a division of a word. -/
theorem Eventually.div (src : Operand) (n : Nat) (hline : code[s.pc]? = some (.op (.div src)))
    (hdx : s.regs .rdx = 0) (hsrc : (s.read .q src).toNat = n) (hn : 0 < n)
    (h : Eventually code ext Q (((s.setReg .rax (BitVec.ofNat 64 ((s.regs .rax).toNat / n))).setReg
      .rdx (BitVec.ofNat 64 ((s.regs .rax).toNat % n))).setFlags none).next) :
    Eventually code ext Q s := by
  have hquot : ¬ (n = 0 ∨ 2 ^ 64 ≤ (s.regs .rax).toNat / n) := by
    have hle := Nat.div_le_self (s.regs .rax).toNat n
    have hlt := (s.regs .rax).isLt
    omega
  have hexec : (Op.div src).exec s = some (((s.setReg .rax (BitVec.ofNat 64
      ((s.regs .rax).toNat / n))).setReg .rdx
        (BitVec.ofNat 64 ((s.regs .rax).toNat % n))).setFlags none) := by
    have hzero : (0 : Word).toNat * 2 ^ 64 + (s.regs .rax).toNat = (s.regs .rax).toNat := by
      simp
    simp only [Op.exec, hsrc, hdx, hzero, if_neg hquot]
  exact .later (by rw [step, hline]; exact congrArg (Option.map State.next) hexec) h

theorem Eventually.label {l : L} (hline : code[s.pc]? = some (.label l))
    (h : Eventually code ext Q s.next) : Eventually code ext Q s :=
  .later (by rw [step, hline]) h

theorem Eventually.jmp {l : L} {n : Nat} (hline : code[s.pc]? = some (.jmp l))
    (hl : labelIndex code l = some n) (h : Eventually code ext Q (s.goto n)) :
    Eventually code ext Q s :=
  .later (by rw [step, hline]; exact congrArg (Option.map s.goto) hl) h

/-- A conditional jump: one run for each outcome of the comparison. -/
theorem Eventually.jcc {c : Cond} {l : L} {n : Nat} {f : Flags}
    (hline : code[s.pc]? = some (.jcc c l)) (hf : s.flags = some f)
    (hl : labelIndex code l = some n)
    (htaken : c.holds f = true → Eventually code ext Q (s.goto n))
    (hnext : c.holds f = false → Eventually code ext Q s.next) : Eventually code ext Q s := by
  cases hc : c.holds f with
  | true =>
      refine .later ?_ (htaken hc)
      rw [step, hline]
      simp only [hf, hc, if_true, hl, Option.map_some]
  | false =>
      refine .later ?_ (hnext hc)
      rw [step, hline]
      simp only [hf, hc, Bool.false_eq_true, if_false]

theorem Eventually.call {l : L} {n : Nat} (hline : code[s.pc]? = some (.call l))
    (hl : labelIndex code l = some n)
    (h : Eventually code ext Q ((s.push (BitVec.ofNat 64 (s.pc + 1))).goto n)) :
    Eventually code ext Q s :=
  .later (by rw [step, hline]; exact congrArg (Option.map _) hl) h

theorem Eventually.external {x : X} (hline : code[s.pc]? = some (.external x))
    (hx : ext x s = some s') (h : Eventually code ext Q s'.next) : Eventually code ext Q s :=
  .later (by rw [step, hline]; exact congrArg (Option.map _) hx) h

theorem Eventually.ret (hline : code[s.pc]? = some .ret)
    (h : Eventually code ext Q (s.drop.goto s.top.toNat)) : Eventually code ext Q s :=
  .later (by rw [step, hline]) h
/-- A run has one end: two conditions that only ends satisfy are satisfied by
the same one. -/
theorem Eventually.meet (hQ : Eventually code ext Q s) (hR : Eventually code ext R s)
    (hQend : ∀ t, Q t → step code ext t = none) (hRend : ∀ t, R t → step code ext t = none) :
    ∃ t, Q t ∧ R t := by
  induction hQ with
  | now hq =>
      cases hR with
      | now hr => exact ⟨_, hq, hr⟩
      | later hstep _ =>
          rw [hQend _ hq] at hstep
          exact absurd hstep (by simp)
  | later hstep _ ih =>
      cases hR with
      | now hr =>
          rw [hRend _ hr] at hstep
          exact absurd hstep (by simp)
      | later hstep' hR =>
          rw [hstep] at hstep'
          obtain rfl := Option.some.inj hstep'
          exact ih hR

/-! ### Watching the outside functions

To show that a run calls the outside functions in the right states only, run it
with functions that refuse all other states. -/

/-- `ext'` does what `ext` does, where it does anything. -/
def Restricts (ext' ext : X → State W → Option (State W)) : Prop :=
  ∀ x s s', ext' x s = some s' → ext x s = some s'

variable {ext' : X → State W → Option (State W)}

theorem Restricts.step (h : Restricts ext' ext) (hstep : X86.step code ext' s = some s') :
    X86.step code ext s = some s' := by
  unfold X86.step at hstep ⊢
  split at hstep
  case h_7 x hline =>
      obtain ⟨t, ht, rfl⟩ := Option.map_eq_some_iff.mp hstep
      rw [h x s t ht, Option.map_some]
  all_goals exact hstep

/-- Refusing nothing that happens, they leave the run as it is. -/
theorem Eventually.of_restricts (hres : Restricts ext' ext) (h : Eventually code ext' Q s) :
    Eventually code ext Q s := by
  induction h with
  | now hQ => exact .now hQ
  | later hstep _ ih => exact .later (hres.step hstep) ih

/-- No call on the way to the end of a restricted run is one it refuses. -/
theorem Eventually.not_refused (hres : Restricts ext' ext) (h : Eventually code ext' Q s)
    (hend : ∀ t, Q t → X86.step code ext t = none) : ∀ {n : Nat} {u v : State W} {x : X},
    X86.steps code ext n s = some u → code[u.pc]? = some (.external x) → ext x u = some v →
    ext' x u = some v := by
  induction h with
  | now hQ =>
      intro n u v x hrun hline hx
      cases n with
      | zero =>
          obtain rfl := Option.some.inj hrun
          have hstuck := hend _ hQ
          rw [X86.step, hline] at hstuck
          simp only [hx, Option.map_some] at hstuck
          exact absurd hstuck (by simp)
      | succ n =>
          rw [X86.steps, hend _ hQ] at hrun
          exact absurd hrun (by simp)
  | @later s s' hstep _ ih =>
      intro n u v x hrun hline hx
      cases n with
      | zero =>
          obtain rfl := Option.some.inj hrun
          rw [X86.step, hline] at hstep
          obtain ⟨t, ht, -⟩ := Option.map_eq_some_iff.mp hstep
          rw [ht, ← hx, hres x _ t ht]
      | succ n =>
          rw [X86.steps, hres.step hstep] at hrun
          exact ih hrun hline hx

end

end Csf.Lib.X86
