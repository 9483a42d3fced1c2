import Csf.Chat.Grammar
import Csf.Chat.Wire

/-!
# Chat: reading and writing a part of a stream

What a side of a connection has read is a part of what the other side writes, from its
start. On a part of a line the reader waits for the rest, so a `receive` that returns has had
the whole line; and what is written of a message is a part of it, from its start as well.
-/

namespace Csf.Chat

/-- The line of a message, without its newline. -/
def Message.line (msg : Message) : Str := msg.tag ++ [58] ++ msg.data

variable {c c' : Connection} {msg : Message} {line part more : Str}

/-! ## Reading -/

/-- A reader with room in its buffer waits for the end of the line. -/
theorem receive_pending (into : Message) (h : c.fdbuf.items = part.map .byte) (hn : 10 ∉ part)
    (hlen : part.length + 1 < maxLen) : c.receive into = none := by
  obtain ⟨left, hleft⟩ : ∃ left, maxLen - 1 = part.length + (left + 1) :=
    ⟨maxLen - 1 - part.length - 1, by omega⟩
  obtain ⟨rp, hitems, hloop⟩ :=
    readlineLoop_text (left + 1) part [] (h.trans (List.append_nil _).symm) hn
  have hread : rioReadlineb c.fdbuf maxLen = none := by
    rw [rioReadlineb, hleft, hloop, readlineLoop, rioRead_nil hitems]
  rw [Connection.receive, hread]
  rfl

/-- What `receive` returns on a part of a stream is the first line of the stream, which it
has taken off the part. -/
theorem receive_part {into : Message} {result : Bool × Message × Connection}
    (h : c.receive into = some result) (hitems : c.fdbuf.items = part.map .byte)
    (hpart : part <+: line ++ [10] ++ more) (hn : 10 ∉ line) (hlen : line.length + 1 < maxLen) :
    ∃ fdbuf part', result = c.accept (line ++ [10]) fdbuf ∧ part = line ++ [10] ++ part' ∧
      part' <+: more ∧ fdbuf.items = part'.map .byte := by
  have hwhole : line ++ [10] <+: part := by
    rcases List.prefix_or_prefix_of_prefix hpart (List.prefix_append (line ++ [10]) more) with
      hshort | hwhole
    · rcases List.prefix_concat_iff.mp hshort with rfl | hshort
      · exact List.prefix_rfl
      · -- the newline has not come yet
        have hpending := receive_pending into hitems (fun hc => hn (hshort.subset hc))
          (by have hle := hshort.length_le; omega)
        rw [hpending] at h
        cases h
    · exact hwhole
  obtain ⟨part', rfl⟩ := hwhole
  rw [List.map_append] at hitems
  obtain ⟨fdbuf, hrest, hreceive⟩ := receive_line into hitems hn hlen
  refine ⟨fdbuf, part', ?_, rfl, (List.prefix_append_right_inj _).mp hpart, hrest⟩
  exact Option.some.inj (h.symm.trans hreceive)

theorem encode_eq_line (msg : Message) : encode msg = msg.line ++ [10] := rfl

/-- A line is accepted or not. -/
theorem accept_cases {ok : Bool} {fdbuf : Rio} (h : (ok, msg, c') = c.accept line fdbuf) :
    msg = parse (cString line) ∧ c'.fdbuf = fdbuf ∧ c'.output = c.output ∧
      (ok = true ↔ msg.tag ∈ standardTags) := by
  unfold Connection.accept at h
  by_cases htag : (parse (cString line)).tag ∈ standardTags
  · obtain ⟨rfl, rfl, rfl⟩ : ok = true ∧ msg = _ ∧ c' = _ := by simpa [htag] using h
    exact ⟨rfl, rfl, rfl, by simpa using htag⟩
  · obtain ⟨rfl, rfl, rfl⟩ : ok = false ∧ msg = _ ∧ c' = _ := by simpa [htag] using h
    exact ⟨rfl, rfl, rfl, by simpa using htag⟩

/-- The same for the encoding of a short message. -/
theorem receive_message {into : Message} {result : Bool × Message × Connection} (hp : Plain msg)
    (hlen : (encode msg).length < maxLen) (h : c.receive into = some result)
    (hitems : c.fdbuf.items = part.map .byte) (hpart : part <+: encode msg ++ more) :
    ∃ fdbuf part',
      result = (true, received msg, { c with fdbuf := fdbuf, lastResult := .success }) ∧
      part = encode msg ++ part' ∧ part' <+: more ∧ fdbuf.items = part'.map .byte := by
  rw [encode_eq_line, List.length_append, List.length_singleton] at hlen
  obtain ⟨fdbuf, part', rfl, hsplit, hmore, hrest⟩ :=
    receive_part h hitems hpart hp.unterminated hlen
  exact ⟨fdbuf, part', hp.accept_encode fdbuf, hsplit, hmore, hrest⟩

/-! ## Writing -/

/-- `send` writes a part of the message, and all of it if it succeeds. -/
theorem send_part {ok : Bool} (h : c.send msg = some (ok, c')) :
    ∃ written, written <+: encode msg ∧ (ok = true → written = encode msg) ∧
      c'.output = c.output ++ written ∧ c'.fdbuf = c.fdbuf ∧ c'.isOpen = ok := by
  obtain ⟨⟨ok₁, written, writes⟩, hwrite, hsplit⟩ := Option.map_eq_some_iff.mp h
  rw [Prod.mk.injEq] at hsplit
  obtain ⟨rfl, rfl⟩ := hsplit
  obtain ⟨hpart, hall⟩ := rioWriten_spec hwrite
  refine ⟨written, hpart, hall, rfl, rfl, ?_⟩
  cases ok₁ <;> rfl

/-- No `write` to come fails. -/
def Connection.Writable (c : Connection) : Prop := .nothing false ∉ c.writes

theorem rioWriten_writable : ∀ {writes writes' : List WriteResult} {text written : Str}
    {ok : Bool}, .nothing false ∉ writes → rioWriten writes text = some (ok, written, writes') →
    ok = true ∧ .nothing false ∉ writes' := by
  intro writes
  induction writes with
  | nil =>
      intro writes' text written ok hw h
      cases text with
      | nil =>
          rw [rioWriten, Option.some.injEq, Prod.mk.injEq, Prod.mk.injEq] at h
          obtain ⟨rfl, -, rfl⟩ := h
          exact ⟨rfl, hw⟩
      | cons c text => exact absurd h (by simp [rioWriten])
  | cons w writes ih =>
      intro writes' text written ok hw h
      cases text with
      | nil =>
          rw [rioWriten, Option.some.injEq, Prod.mk.injEq, Prod.mk.injEq] at h
          obtain ⟨rfl, -, rfl⟩ := h
          exact ⟨rfl, hw⟩
      | cons c text =>
          have hrest : .nothing false ∉ writes := fun hmem => hw (List.mem_cons_of_mem _ hmem)
          cases w with
          | wrote count pos =>
              rw [rioWriten] at h
              obtain ⟨⟨ok₁, written₁, writes₁⟩, hmore, hsplit⟩ := Option.map_eq_some_iff.mp h
              rw [Prod.mk.injEq, Prod.mk.injEq] at hsplit
              obtain ⟨rfl, -, rfl⟩ := hsplit
              exact ih hrest hmore
          | nothing eintr =>
              cases eintr with
              | true => exact ih hrest h
              | false => exact absurd List.mem_cons_self hw

theorem Connection.Writable.send {ok : Bool} (hw : c.Writable) (h : c.send msg = some (ok, c')) :
    ok = true ∧ c'.Writable := by
  obtain ⟨⟨ok₁, written, writes⟩, hwrite, hsplit⟩ := Option.map_eq_some_iff.mp h
  rw [Prod.mk.injEq] at hsplit
  obtain ⟨rfl, rfl⟩ := hsplit
  exact rioWriten_writable hw hwrite

end Csf.Chat
