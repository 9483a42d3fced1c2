import Mathlib

/-!
# Chat: robust I/O

The functions of `csapp.c` that a `Connection` calls. The kernel is the list of
results that `read` and `write` on the descriptor have yet to return; a call for
which there is none blocks, which is `none`. Strings are lists of bytes.
-/

namespace Csf.Chat

abbrev Str := List UInt8

/-- A string constant of the source. -/
def ascii (s : String) : Str := s.toList.map fun c => c.toNat.toUInt8

/-- A result of `read`: bytes (none at the end of the stream), or -1 with
`errno == EINTR` or another error. -/
inductive ReadResult where
  | bytes (text : Str)
  | failed (eintr : Bool)
deriving DecidableEq, Repr

/-- A result of `write`: a number of bytes taken, or nothing taken with
`errno == EINTR` or not. -/
inductive WriteResult where
  | wrote (count : Nat) (pos : 0 < count)
  | nothing (eintr : Bool)
deriving DecidableEq, Repr

/-- `rio_t`: the unread bytes of the internal buffer, and the descriptor. -/
structure Rio where
  buf : Str
  fd : List ReadResult
deriving DecidableEq, Repr

/-- What reading one byte comes to. -/
inductive Item where
  | byte (c : UInt8)
  | eof
  | error
deriving DecidableEq, Repr

/-- The refill loop of `rio_read`, and the first byte it makes available. -/
def refill : List ReadResult → Option (Item × Rio)
  | [] => none
  | .bytes [] :: fd => some (.eof, ⟨[], fd⟩)
  | .bytes (c :: text) :: fd => some (.byte c, ⟨text, fd⟩)
  | .failed true :: fd => refill fd
  | .failed false :: fd => some (.error, ⟨[], fd⟩)

/-- `rio_read(rp, &c, 1)` -/
def rioRead (rp : Rio) : Option (Item × Rio) :=
  match rp.buf with
  | [] => refill rp.fd
  | c :: text => some (.byte c, ⟨text, rp.fd⟩)

/-- A result of `rio_readlineb`: the characters stored before the terminator, 0,
or -1. -/
inductive LineResult where
  | line (text : Str)
  | eof
  | error
deriving DecidableEq, Repr

/-- The loop of `rio_readlineb`, with room for `left` more characters. -/
def readlineLoop : (left : Nat) → (text : Str) → Rio → Option (LineResult × Rio)
  | 0, text, rp => some (.line text, rp)
  | left + 1, text, rp =>
      match rioRead rp with
      | none => none
      | some (.byte c, rp) =>
          if c = 10 then some (.line (text ++ [c]), rp) else readlineLoop left (text ++ [c]) rp
      | some (.eof, rp) => some (if text = [] then .eof else .line text, rp)
      | some (.error, rp) => some (.error, rp)

/-- `rio_readlineb` -/
def rioReadlineb (rp : Rio) (maxlen : Nat) : Option (LineResult × Rio) :=
  readlineLoop (maxlen - 1) [] rp

/-- `rio_writen`: whether it returns `n`, what it has written, and the results of
`write` it leaves. -/
def rioWriten : List WriteResult → Str → Option (Bool × Str × List WriteResult)
  | writes, [] => some (true, [], writes)
  | [], _ :: _ => none
  | .wrote count _ :: writes, c :: text =>
      (rioWriten writes ((c :: text).drop count)).map fun (ok, written, writes) =>
        (ok, (c :: text).take count ++ written, writes)
  | .nothing true :: writes, c :: text => rioWriten writes (c :: text)
  | .nothing false :: writes, _ :: _ => some (false, [], writes)

/-! ## The stream behind a reader -/

/-- What one result of `read` adds to the stream. -/
def ReadResult.items : ReadResult → List Item
  | .bytes [] => [.eof]
  | .bytes text => text.map .byte
  | .failed true => []
  | .failed false => [.error]

/-- The stream that is still to be read, however it is cut into results. -/
def Rio.items (rp : Rio) : List Item := rp.buf.map .byte ++ rp.fd.flatMap ReadResult.items

/-- The refill loop yields the head of the stream. -/
theorem refill_cons {i : Item} {rest : List Item} : ∀ {fd : List ReadResult},
    fd.flatMap ReadResult.items = i :: rest →
    ∃ rp, refill fd = some (i, rp) ∧ rp.items = rest := by
  intro fd
  induction fd with
  | nil => exact fun h => absurd h (by simp)
  | cons result fd ih =>
      intro h
      rw [List.flatMap_cons] at h
      match result with
      | .bytes [] =>
          obtain ⟨rfl, rfl⟩ := List.cons.inj h
          exact ⟨⟨[], fd⟩, rfl, rfl⟩
      | .bytes (c :: text) =>
          obtain ⟨rfl, rfl⟩ := List.cons.inj h
          exact ⟨⟨text, fd⟩, rfl, rfl⟩
      | .failed true => exact ih h
      | .failed false =>
          obtain ⟨rfl, rfl⟩ := List.cons.inj h
          exact ⟨⟨[], fd⟩, rfl, rfl⟩

/-- So reading a byte depends on the stream alone. -/
theorem rioRead_cons {rp : Rio} {i : Item} {rest : List Item} (h : rp.items = i :: rest) :
    ∃ rp', rioRead rp = some (i, rp') ∧ rp'.items = rest := by
  obtain ⟨buf, fd⟩ := rp
  cases buf with
  | nil => exact refill_cons h
  | cons c text =>
      obtain ⟨rfl, rfl⟩ := List.cons.inj h
      exact ⟨⟨text, fd⟩, rfl, rfl⟩

/-- Bytes that are no newline go to the buffer as long as it has room. -/
theorem readlineLoop_text (left : Nat) {rest : List Item} (text : Str) :
    ∀ (before : Str) {rp : Rio}, rp.items = text.map .byte ++ rest → 10 ∉ text →
    ∃ rp', rp'.items = rest ∧
      readlineLoop (text.length + left) before rp = readlineLoop left (before ++ text) rp' := by
  induction text with
  | nil =>
      intro before rp h _
      exact ⟨rp, h, by simp⟩
  | cons c text ih =>
      intro before rp h hn
      rw [List.mem_cons, not_or] at hn
      obtain ⟨rp₁, hread, hitems⟩ := rioRead_cons h
      obtain ⟨rp₂, hrest, hloop⟩ := ih (before ++ [c]) hitems hn.2
      refine ⟨rp₂, hrest, ?_⟩
      have hlen : (c :: text).length + left = text.length + left + 1 := by
        rw [List.length_cons]
        omega
      rw [hlen, readlineLoop, hread]
      simp only [Ne.symm hn.1, if_false, hloop, List.append_assoc, List.singleton_append]

/-- A line that fits is read whole. -/
theorem rioReadlineb_line {rp : Rio} {text : Str} {rest : List Item} {maxlen : Nat}
    (h : rp.items = (text ++ [10]).map .byte ++ rest) (hn : 10 ∉ text)
    (hlen : text.length + 1 < maxlen) :
    ∃ rp', rioReadlineb rp maxlen = some (.line (text ++ [10]), rp') ∧ rp'.items = rest := by
  rw [List.map_append, List.append_assoc] at h
  obtain ⟨left, hleft⟩ : ∃ left, maxlen - 1 = text.length + (left + 1) :=
    ⟨maxlen - 1 - text.length - 1, by omega⟩
  obtain ⟨rp₁, hitems, hloop⟩ := readlineLoop_text (left + 1) text [] h hn
  obtain ⟨rp₂, hread, hrest⟩ := rioRead_cons hitems
  refine ⟨rp₂, ?_, hrest⟩
  rw [rioReadlineb, hleft, hloop, readlineLoop, hread]
  simp

/-- Of a line that does not fit, the buffer takes what there is room for. -/
theorem rioReadlineb_cut {rp : Rio} {text : Str} {rest : List Item} {maxlen : Nat}
    (h : rp.items = text.map .byte ++ rest) (hn : 10 ∉ text) (hlen : text.length + 1 = maxlen) :
    ∃ rp', rioReadlineb rp maxlen = some (.line text, rp') ∧ rp'.items = rest := by
  obtain ⟨rp₁, hitems, hloop⟩ := readlineLoop_text 0 text [] h hn
  refine ⟨rp₁, ?_, hitems⟩
  have hroom : maxlen - 1 = text.length + 0 := by omega
  rw [rioReadlineb, hroom, hloop]
  rfl

/-! ## What is written -/

/-- `rio_writen` writes all of its text if it returns `n`, else a part of it from
the start. -/
theorem rioWriten_spec : ∀ {writes writes' : List WriteResult} {text written : Str} {ok : Bool},
    rioWriten writes text = some (ok, written, writes') →
    written <+: text ∧ (ok = true → written = text) := by
  intro writes
  induction writes with
  | nil =>
      intro writes' text written ok h
      cases text with
      | nil =>
          rw [rioWriten, Option.some.injEq, Prod.mk.injEq, Prod.mk.injEq] at h
          obtain ⟨-, rfl, -⟩ := h
          exact ⟨List.prefix_rfl, fun _ => rfl⟩
      | cons c text => exact absurd h (by simp [rioWriten])
  | cons w writes ih =>
      intro writes' text written ok h
      cases text with
      | nil =>
          rw [rioWriten, Option.some.injEq, Prod.mk.injEq, Prod.mk.injEq] at h
          obtain ⟨-, rfl, -⟩ := h
          exact ⟨List.prefix_rfl, fun _ => rfl⟩
      | cons c text =>
          match w with
          | .wrote count pos =>
              rw [rioWriten] at h
              obtain ⟨⟨ok₁, written₁, writes₁⟩, hrest, hsplit⟩ := Option.map_eq_some_iff.mp h
              rw [Prod.mk.injEq, Prod.mk.injEq] at hsplit
              obtain ⟨rfl, rfl, rfl⟩ := hsplit
              obtain ⟨⟨more, hmore⟩, hall⟩ := ih hrest
              refine ⟨⟨more, ?_⟩, fun hok => ?_⟩
              · rw [List.append_assoc, hmore, List.take_append_drop]
              · rw [hall hok, List.take_append_drop]
          -- an interrupted write is tried again
          | .nothing true => exact ih h
          | .nothing false =>
              rw [rioWriten, Option.some.injEq, Prod.mk.injEq, Prod.mk.injEq] at h
              obtain ⟨rfl, rfl, -⟩ := h
              exact ⟨List.nil_prefix, fun hok => absurd hok (by decide)⟩

end Csf.Chat
