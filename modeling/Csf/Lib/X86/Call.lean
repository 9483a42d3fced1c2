import Csf.Lib.X86.Machine

/-!
# Calls

What a function owes its caller, and how its body keeps to it. The window of
memory is based 64 bytes below the return address, so that offsets below 72 are
the callee's and the return address, and offsets from 72 up to `top` the
caller's.

`Inside` is the invariant of a function body: the registers it has pushed are in
their slots, the other callee-saved ones are as they were, and the caller's
memory is too, outside one region. Its rules step over `push`, `pop` and `ret`.
-/

namespace Csf.Lib.X86

open Reg

/-- The callee-saved registers other than the stack pointer. -/
def saved : List Reg := [rbx, rbp, r12, r13, r14, r15]

section

variable {L X W : Type} [DecidableEq L] {code : List (Line L X)}
  {ext : X → State W → Option (State W)} {base : Word} {ret : Nat} {s t : State W}
  {Q : State W → Prop}

/-- A function has just been called: its return address is on top of the stack,
64 bytes into the window. -/
structure Entered (base : Word) (pc ret : Nat) (s : State W) : Prop where
  pc : s.pc = pc
  sp : s.regs rsp = off base 64
  ret : readBytes s.mem 8 (off base 64) = ret

/-- The caller's bytes that lie outside a region are as before. -/
def Unchanged (base : Word) (top lo hi : Nat) (m m' : Memory) : Prop :=
  ∀ i, 72 ≤ i → i < top → i < lo ∨ hi ≤ i → m' (off base i) = m (off base i)

/-- A function has returned to its caller, having stored between `lo` and `hi`. -/
structure Returned (base : Word) (top ret lo hi : Nat) (s s' : State W) : Prop where
  pc : s'.pc = ret
  sp : s'.regs rsp = off base 72
  saved : ∀ r ∈ saved, s'.regs r = s.regs r
  unchanged : Unchanged base top lo hi s.mem s'.mem

/-- A word in the window is not touched by a store next to it. -/
theorem readBytes_writeBytes_of_disjoint {m : Memory} {i j n k v : Nat}
    (h : i + n ≤ j ∨ j + k ≤ i) (hi : i + n ≤ 2 ^ 64) (hj : j + k ≤ 2 ^ 64) :
    readBytes (writeBytes m k (off base j) v) n (off base i) = readBytes m n (off base i) :=
  readBytes_congr fun p hp hp' => writeBytes_off_of_outside (by omega) hj (by omega)

/-! ## Saved registers -/

/-- The slots below the return address hold what the registers `slots`, last
pushed first, were worth on entry. -/
def Slots (base : Word) (s : State W) (m : Memory) : List Reg → Prop
  | [] => True
  | r :: slots =>
      readBytes m 8 (off base (56 - 8 * slots.length)) = (s.regs r).toNat ∧ Slots base s m slots

/-- `t` is a state inside the function entered at `s`, which has pushed `slots`
and has stored into its caller's memory between `lo` and `hi` only. -/
structure Inside (base : Word) (top ret lo hi : Nat) (slots : List Reg) (s t : State W) :
    Prop where
  top_ge : 72 ≤ top
  top_le : top ≤ 2 ^ 64
  sp : t.regs rsp = off base (64 - 8 * slots.length)
  ret : readBytes t.mem 8 (off base 64) = ret
  stacked : Slots base s t.mem slots
  kept : ∀ r ∈ saved, r ∉ slots → t.regs r = s.regs r
  unchanged : Unchanged base top lo hi s.mem t.mem

variable {top lo hi : Nat} {slots : List Reg}

/-- A function body starts behind its label. -/
theorem Entered.inside {pc : Nat} (h : Entered base pc ret s) (lo hi : Nat) (htop : 72 ≤ top)
    (htop' : top ≤ 2 ^ 64) : Inside base top ret lo hi [] s s.next :=
  ⟨htop, htop', h.sp, h.ret, trivial, fun _ _ _ => rfl, fun _ _ _ _ => rfl⟩

/-- Saved registers stay saved while the memory at and above the stack pointer
does. -/
theorem Slots.congr {m m' : Memory} (h : Slots base s m slots) (hdepth : slots.length ≤ 7)
    (hm : ∀ i, 64 - 8 * slots.length ≤ i → i < 64 → m' (off base i) = m (off base i)) :
    Slots base s m' slots := by
  induction slots with
  | nil => trivial
  | cons r slots ih =>
      rw [List.length_cons] at hdepth hm
      refine ⟨?_, ih h.2 (by omega) fun i hi => hm i (by omega)⟩
      rw [← h.1]
      exact readBytes_congr fun k hk hk' => hm k (by omega) (by omega)

/-- Whatever a step does to the other registers and to memory between `lo` and
`hi` or below the stack pointer, it stays inside the function. -/
theorem Inside.mono {t' : State W} (h : Inside base top ret lo hi slots s t) (hlo : 72 ≤ lo)
    (hdepth : slots.length ≤ 7) (hrsp : t'.regs rsp = t.regs rsp)
    (hregs : ∀ r ∈ saved, r ∉ slots → t'.regs r = t.regs r)
    (hmem : ∀ i, 64 - 8 * slots.length ≤ i → i < top → i < lo ∨ hi ≤ i →
      t'.mem (off base i) = t.mem (off base i)) :
    Inside base top ret lo hi slots s t' := by
  have htop := h.top_ge
  refine ⟨htop, h.top_le, hrsp.trans h.sp, ?_, ?_, ?_, ?_⟩
  · rw [← h.ret]
    exact readBytes_congr fun k hk hk' => hmem k (by omega) (by omega) (by omega)
  · exact h.stacked.congr hdepth fun i hi hi' => hmem i hi (by omega) (by omega)
  · intro r hr hn
    rw [hregs r hr hn, h.kept r hr hn]
  · intro i hi hi' hout
    rw [hmem i (by omega) hi' hout, h.unchanged i hi hi' hout]

/-- Less of the caller's memory to look at. -/
theorem Inside.narrow {top' : Nat} (h : Inside base top ret lo hi slots s t) (htop : 72 ≤ top')
    (hle : top' ≤ top) : Inside base top' ret lo hi slots s t :=
  ⟨htop, hle.trans h.top_le, h.sp, h.ret, h.stacked, h.kept,
    fun i hi hi' => h.unchanged i hi (lt_of_lt_of_le hi' hle)⟩

/-- Whatever has become of the caller's memory so far. -/
theorem Inside.rebase (h : Inside base top ret lo hi slots s t) (lo' hi' : Nat) :
    Inside base top ret lo' hi' slots { s with mem := t.mem } t := by
  refine ⟨h.top_ge, h.top_le, h.sp, h.ret, ?_, h.kept, fun _ _ _ _ => rfl⟩
  have hstacked := h.stacked
  clear h
  induction slots with
  | nil => trivial
  | cons r slots ih => exact ⟨hstacked.1, ih hstacked.2⟩

theorem Inside.pushq (h : Inside base top ret lo hi slots s t) (r : Reg) (hdepth : slots.length ≤ 6)
    (hr : r ∈ saved) (hnew : r ∉ slots) (hline : code[t.pc]? = some (.op (.push r)))
    (hnext : ∀ t' : State W, t'.pc = t.pc + 1 → Inside base top ret lo hi (r :: slots) s t' →
      (∀ q, q ≠ rsp → t'.regs q = t.regs q) → t'.world = t.world →
      (∀ i, 72 ≤ i → i < top → t'.mem (off base i) = t.mem (off base i)) →
      Eventually code ext Q t') :
    Eventually code ext Q t := by
  have hslot : t.regs rsp - 8 = off base (56 - 8 * slots.length) := by
    rw [h.sp]
    show off base (64 - 8 * slots.length) - BitVec.ofNat 64 8 = _
    rw [off_sub (by omega)]
    congr 1
    omega
  have htop := h.top_le
  have hmem : (t.push (t.regs r)).mem =
      writeBytes t.mem 8 (off base (56 - 8 * slots.length)) (t.regs r).toNat := by
    simp [State.push, Width.bytes, ← hslot]
  have hout : ∀ i, 64 - 8 * slots.length ≤ i → i < 2 ^ 64 →
      (t.push (t.regs r)).mem (off base i) = t.mem (off base i) := by
    intro i hi hi'
    rw [hmem]
    exact writeBytes_off_of_outside hi' (by omega) (by omega)
  apply Eventually.later (by rw [step, hline]; rfl)
  apply hnext
  · simp [State.push]
  · refine ⟨h.top_ge, htop, ?_, ?_, ⟨?_, ?_⟩, ?_, ?_⟩
    · simp only [State.push, State.next_regs, State.store_regs, State.setReg_regs, hslot, if_true,
        List.length_cons]
      congr 1
      omega
    · rw [← h.ret]
      exact readBytes_congr fun k hk hk' => hout k (by omega) (by omega)
    · rw [State.next_mem, hmem, readBytes_writeBytes (by omega) (t.regs r).isLt,
        h.kept r hr hnew]
    · exact h.stacked.congr (by omega) fun i hi hi' => hout i hi (by omega)
    · intro q hq hn
      have hsp : q ≠ rsp := by rintro rfl; exact absurd hq (by decide)
      rw [List.mem_cons, not_or] at hn
      simpa [State.push, hsp] using h.kept q hq hn.2
    · intro i hi hi' ho
      rw [State.next_mem, hout i (by omega) (by omega), h.unchanged i hi hi' ho]
  · intro q hq
    simp [State.push, hq]
  · simp [State.push]
  · intro i hi hi'
    rw [State.next_mem, hout i (by omega) (by omega)]

theorem Inside.popq {r : Reg} (h : Inside base top ret lo hi (r :: slots) s t)
    (hdepth : slots.length ≤ 6) (hr : r ∈ saved) (hline : code[t.pc]? = some (.op (.pop r)))
    (hnext : ∀ t' : State W, t'.pc = t.pc + 1 → Inside base top ret lo hi slots s t' →
      (∀ q, q ≠ rsp → q ≠ r → t'.regs q = t.regs q) → t'.world = t.world → t'.mem = t.mem →
      Eventually code ext Q t') :
    Eventually code ext Q t := by
  have hsp : r ≠ rsp := by rintro rfl; exact absurd hr (by decide)
  have hrsp : t.regs rsp = off base (56 - 8 * slots.length) := by
    rw [h.sp, List.length_cons]
    congr 1
    omega
  have htop : t.top = s.regs r := by
    rw [State.top, hrsp, h.stacked.1, BitVec.ofNat_toNat, BitVec.setWidth_eq]
  apply Eventually.later (by rw [step, hline]; rfl)
  apply hnext
  · simp [State.drop]
  · refine ⟨h.top_ge, h.top_le, ?_, h.ret, h.stacked.2, ?_, h.unchanged⟩
    · simp only [State.drop, State.next_regs, State.setReg_regs, hsp.symm, if_false, if_true, hrsp]
      show off base _ + BitVec.ofNat 64 8 = _
      rw [off_add]
      congr 1
      omega
    · intro q hq hn
      have hqsp : q ≠ rsp := by rintro rfl; exact absurd hq (by decide)
      simp only [State.drop, State.next_regs, State.setReg_regs, hqsp, if_false, htop]
      split
      · next heq => rw [heq]
      · next hne => exact h.kept q hq (by simp [hne, hn])
  · intro q hqsp hqr
    simp [State.drop, hqsp, hqr]
  · simp [State.drop]
  · simp [State.drop]

theorem Inside.retq (h : Inside base top ret lo hi [] s t) (hline : code[t.pc]? = some .ret)
    (hdone : ∀ t' : State W, Returned base top ret lo hi s t' →
      (∀ q, q ≠ rsp → t'.regs q = t.regs q) → t'.world = t.world → t'.mem = t.mem → Q t') :
    Eventually code ext Q t := by
  have hrsp : t.regs rsp = off base 64 := h.sp
  have hlt : ret < 2 ^ 64 := h.ret ▸ readBytes_lt t.mem 8 (off base 64)
  have hmem : (t.drop.goto t.top.toNat).mem = t.mem := by simp [State.drop]
  refine Eventually.ret hline (.now ?_)
  apply hdone
  · refine ⟨?_, ?_, ?_, ?_⟩
    · simp only [State.goto_pc, State.top, hrsp, h.ret, BitVec.toNat_ofNat, Nat.mod_eq_of_lt hlt]
    · simp only [State.goto_regs, State.drop, State.setReg_regs, if_true, hrsp]
      exact off_add base 64 8
    · intro q hq
      have hqsp : q ≠ rsp := by rintro rfl; exact absurd hq (by decide)
      simpa [State.drop, hqsp] using h.kept q hq List.not_mem_nil
    · rw [hmem]
      exact h.unchanged
  · intro q hq
    simp [State.drop, hq]
  · simp [State.drop]
  · exact hmem

/-- The end of a function that saved one register. -/
theorem Inside.leave {r : Reg} (h : Inside base top ret lo hi [r] s t) (hr : r ∈ saved)
    (hpop : code[t.pc]? = some (.op (.pop r))) (hret : code[t.pc + 1]? = some .ret)
    (hdone : ∀ t' : State W, Returned base top ret lo hi s t' →
      (∀ q, q ≠ rsp → q ≠ r → t'.regs q = t.regs q) → t'.world = t.world → t'.mem = t.mem →
      Q t') :
    Eventually code ext Q t := by
  refine h.popq (by decide) hr hpop fun t₁ hpc₁ hin₁ hregs₁ hworld₁ hmem₁ => ?_
  refine hin₁.retq (by rw [hpc₁]; exact hret) fun t₂ hdone₂ hregs₂ hworld₂ hmem₂ => ?_
  refine hdone t₂ hdone₂ (fun q hq hqr => ?_) (by rw [hworld₂, hworld₁]) (by rw [hmem₂, hmem₁])
  rw [hregs₂ q hq, hregs₁ q hq hqr]

end

end Csf.Lib.X86
