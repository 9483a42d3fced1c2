import Csf.Chat.Rio

/-!
# Chat: messages and connections

`message.h` and `connection.cpp`. A `Connection` is its buffered reader, the
results of `write` to come on its socket, what it has written, and the result of
its last operation. An operation that blocks is `none`.
-/

namespace Csf.Chat

/-! ## `message.h` -/

def maxLen : Nat := 255

structure Message where
  tag : Str
  data : Str
deriving DecidableEq, Repr

def tagErr : Str := ascii "err"
def tagOk : Str := ascii "ok"
def tagSlogin : Str := ascii "slogin"
def tagRlogin : Str := ascii "rlogin"
def tagJoin : Str := ascii "join"
def tagLeave : Str := ascii "leave"
def tagSendall : Str := ascii "sendall"
def tagSenduser : Str := ascii "senduser"
def tagQuit : Str := ascii "quit"
def tagDelivery : Str := ascii "delivery"
def tagEmpty : Str := ascii "empty"

/-- The tags that `receive` accepts. -/
def standardTags : List Str :=
  [tagErr, tagOk, tagSlogin, tagRlogin, tagJoin, tagLeave, tagSendall, tagSenduser, tagQuit,
    tagDelivery, tagEmpty]

instance (tag : Str) : Decidable (tag ∈ standardTags) :=
  inferInstanceAs (Decidable (tag ∈ [_, _, _, _, _, _, _, _, _, _, _]))

/-- A standard tag has neither a colon nor a newline nor a NUL in it. -/
theorem plain_of_standard {tag : Str} (h : tag ∈ standardTags) :
    58 ∉ tag ∧ 10 ∉ tag ∧ 0 ∉ tag := by
  have hall : ∀ tag ∈ standardTags, 58 ∉ tag ∧ 10 ∉ tag ∧ 0 ∉ tag := by decide
  exact hall tag h

/-! ## `connection.cpp` -/

/-- `Connection::Result` -/
inductive Result where
  | success
  | eofOrError
  | invalidMsg
deriving DecidableEq, Repr

structure Connection where
  fdbuf : Rio
  writes : List WriteResult
  output : Str
  lastResult : Result
deriving DecidableEq, Repr

/-- `Connection(fd)` -/
def Connection.new (fd : List ReadResult) (writes : List WriteResult) : Connection :=
  { fdbuf := ⟨[], fd⟩, writes := writes, output := [], lastResult := .success }

/-- `is_open` -/
def Connection.isOpen (c : Connection) : Bool := c.lastResult ≠ .eofOrError

/-- What `send` writes for a message. -/
def encode (msg : Message) : Str := msg.tag ++ [58] ++ msg.data ++ [10]

/-- `send` -/
def Connection.send (c : Connection) (msg : Message) : Option (Bool × Connection) :=
  (rioWriten c.writes (encode msg)).map fun (ok, written, writes) =>
    (ok, { c with writes := writes, output := c.output ++ written
                  lastResult := if ok then .success else .eofOrError })

/-- `std::string message(buf)` for a buffer that holds a line. -/
def cString (line : Str) : Str := line.takeWhile (· ≠ 0)

/-- The tag and data of a string: `find(":")` yields -1 where there is no colon,
and then both substrings are the whole string. -/
def parse (message : Str) : Message :=
  match message.idxOf? 58 with
  | some index => { tag := message.take index, data := message.drop (index + 1) }
  | none => { tag := message, data := message }

/-- `receive`: its result, what it leaves in `msg`, and the connection. -/
def Connection.receive (c : Connection) (msg : Message) : Option (Bool × Message × Connection) :=
  (rioReadlineb c.fdbuf maxLen).map fun (result, fdbuf) =>
    match result with
    | .line line =>
        let msg := parse (cString line)
        if msg.tag ∈ standardTags then
          (true, msg, { c with fdbuf := fdbuf, lastResult := .success })
        else (false, msg, { c with fdbuf := fdbuf, lastResult := .invalidMsg })
    | _ => (false, { msg with tag := tagEmpty },
        { c with fdbuf := fdbuf, lastResult := .eofOrError })

/-! ## Parsing -/

theorem idxOf_colon {tag rest : Str} (h : 58 ∉ tag) :
    (tag ++ 58 :: rest).idxOf? 58 = some tag.length := by
  induction tag with
  | nil => rfl
  | cons c tag ih =>
      rw [List.mem_cons, not_or] at h
      have hne : (c == 58) = false := by simpa using Ne.symm h.1
      rw [List.cons_append, List.idxOf?_cons, hne, ih h.2]
      rfl

/-- The tag ends at the first colon. -/
theorem parse_colon {tag data : Str} (h : 58 ∉ tag) :
    parse (tag ++ 58 :: data) = { tag := tag, data := data } := by
  have hsplit : tag ++ 58 :: data = (tag ++ [58]) ++ data := by simp
  have hlen : (tag ++ [58]).length = tag.length + 1 := by simp
  rw [parse, idxOf_colon h]
  show Message.mk ((tag ++ 58 :: data).take tag.length)
    ((tag ++ 58 :: data).drop (tag.length + 1)) = _
  rw [List.take_left, hsplit, ← hlen, List.drop_left]

/-- Without a colon, tag and data are the whole string. -/
theorem parse_plain {message : Str} (h : 58 ∉ message) :
    parse message = { tag := message, data := message } := by
  have hnone : message.idxOf? 58 = none := List.idxOf?_eq_none_iff.mpr h
  rw [parse, hnone]

/-- The strings that are parsed to a message with a standard tag. -/
theorem parse_eq_iff {s : Str} {msg : Message} (htag : msg.tag ∈ standardTags) :
    parse s = msg ↔ s = msg.tag ++ 58 :: msg.data ∨ s = msg.tag ∧ s = msg.data := by
  obtain ⟨hplain, -, -⟩ := plain_of_standard htag
  constructor
  · rintro rfl
    by_cases hcolon : 58 ∈ s
    · left
      obtain ⟨tag, data, rfl, hfirst⟩ := List.eq_append_cons_of_mem hcolon
      rw [parse_colon hfirst]
    · right
      rw [parse_plain hcolon]
      exact ⟨rfl, rfl⟩
  · rintro (hs | ⟨htag', hdata⟩)
    · rw [hs, parse_colon hplain]
    · rw [parse_plain (htag'.symm ▸ hplain)]
      exact congrArg₂ Message.mk htag' hdata

/-- A string is a standard tag, or one followed by a colon. -/
def Begins (s : Str) : Prop := ∃ tag ∈ standardTags, s = tag ∨ tag ++ [58] <+: s

theorem begins_iff {s : Str} : Begins s ↔ (parse s).tag ∈ standardTags := by
  constructor
  · rintro ⟨tag, htag, rfl | ⟨data, rfl⟩⟩
    · rw [parse_plain (plain_of_standard htag).1]
      exact htag
    · rw [List.append_assoc, List.singleton_append, parse_colon (plain_of_standard htag).1]
      exact htag
  · intro htag
    rcases (parse_eq_iff htag).mp rfl with hs | ⟨hs, -⟩
    · exact ⟨_, htag, .inr ⟨(parse s).data, by rw [List.append_assoc]; exact hs.symm⟩⟩
    · exact ⟨_, htag, .inl hs⟩

theorem cString_of_no_nul {line : Str} (h : 0 ∉ line) : cString line = line := by
  rw [cString, List.takeWhile_eq_self_iff]
  intro c hc
  have hne : c ≠ 0 := by
    rintro rfl
    exact h hc
  simpa using hne

/-- Before a NUL the string goes on. -/
theorem cString_append {text rest : Str} (h : 0 ∉ text) :
    cString (text ++ rest) = text ++ cString rest := by
  have hpos : ∀ c ∈ text, decide (c ≠ 0) = true := by
    intro c hc
    have hne : c ≠ 0 := by
      rintro rfl
      exact h hc
    simpa using hne
  exact List.takeWhile_append_of_pos hpos

/-- A string ends at its first NUL. -/
theorem cString_nul {text rest : Str} (h : 0 ∉ text) : cString (text ++ 0 :: rest) = text := by
  rw [cString_append h, cString]
  simp

/-- The data end the string. -/
theorem parse_data_suffix (message : Str) : (parse message).data <:+ message := by
  rw [parse]
  split
  · exact List.drop_suffix _ _
  · exact List.suffix_rfl

theorem cString_prefix_line (line : Str) : cString line <+: line := List.takeWhile_prefix _

/-- What ends in a character of the line is there without its newline. -/
theorem prefix_of_prefix_newline {c : UInt8} {part text : Str} (hc : c ≠ 10)
    (h : part ++ [c] <+: text ++ [10]) : part ++ [c] <+: text := by
  rcases List.prefix_concat_iff.mp h with heq | hprefix
  · exact absurd (List.append_inj_right' heq rfl) (by simpa using hc)
  · exact hprefix

theorem nul_notMem_cString (line : Str) : 0 ∉ cString line := by
  intro h
  have hne := List.mem_takeWhile_imp h
  exact absurd hne (by decide)

/-- Only the last character of a part of a line can be a newline. -/
theorem newline_notMem_dropLast {line text : Str} (h : text <:+: line) (hn : 10 ∉ line.dropLast) :
    10 ∉ text.dropLast := by
  obtain ⟨before, after, rfl⟩ := h
  intro hc
  have hne : text ≠ [] := by
    rintro rfl
    exact absurd hc (by simp)
  apply hn
  cases after with
  | nil =>
      rw [List.append_nil, List.dropLast_append_of_ne_nil hne]
      exact List.mem_append_right _ hc
  | cons c after =>
      rw [List.dropLast_append_cons]
      exact List.mem_append_left _ (List.mem_append_right _ (List.mem_of_mem_dropLast hc))

/-! ## Operations on a given stream -/

section

variable {c : Connection} {msg : Message} {line : Str} {rest : List Item}

/-- What `receive` makes of a line it has read. -/
def Connection.accept (c : Connection) (line : Str) (fdbuf : Rio) : Bool × Message × Connection :=
  let msg := parse (cString line)
  if msg.tag ∈ standardTags then (true, msg, { c with fdbuf := fdbuf, lastResult := .success })
  else (false, msg, { c with fdbuf := fdbuf, lastResult := .invalidMsg })

theorem receive_of_line {fdbuf : Rio}
    (h : rioReadlineb c.fdbuf maxLen = some (.line line, fdbuf)) :
    c.receive msg = some (c.accept line fdbuf) := by
  rw [Connection.receive, h]
  rfl

/-- What `receive` accepts is the message of a line, with a standard tag. -/
theorem receive_eq_true {into : Message} {c' : Connection}
    (h : c.receive into = some (true, msg, c')) :
    ∃ line fdbuf, rioReadlineb c.fdbuf maxLen = some (.line line, fdbuf) ∧
      parse (cString line) = msg ∧ msg.tag ∈ standardTags := by
  obtain ⟨⟨result, fdbuf⟩, hread, hsplit⟩ := Option.map_eq_some_iff.mp h
  cases result with
  | eof => exact absurd hsplit (by simp)
  | error => exact absurd hsplit (by simp)
  | line line =>
      simp only at hsplit
      split at hsplit
      · next htag =>
          obtain rfl := (Prod.mk.inj (Prod.mk.inj hsplit).2).1
          exact ⟨line, fdbuf, hread, rfl, htag⟩
      · exact absurd hsplit (by simp)

/-- A line that fits is received whole. -/
theorem receive_line (into : Message)
    (h : c.fdbuf.items = (line ++ [10]).map .byte ++ rest) (hn : 10 ∉ line)
    (hlen : line.length + 1 < maxLen) :
    ∃ fdbuf, fdbuf.items = rest ∧ c.receive into = some (c.accept (line ++ [10]) fdbuf) := by
  obtain ⟨fdbuf, hread, hrest⟩ := rioReadlineb_line h hn hlen
  exact ⟨fdbuf, hrest, receive_of_line hread⟩

/-- The data in a line have no newline but at their end, and no NUL. -/
theorem parse_data_clean {line : Str} (h : 10 ∉ line.dropLast) :
    10 ∉ (parse (cString line)).data.dropLast ∧ 0 ∉ (parse (cString line)).data := by
  have hpart := parse_data_suffix (cString line)
  have hinfix := hpart.isInfix.trans (cString_prefix_line line).isInfix
  refine ⟨newline_notMem_dropLast hinfix h, ?_⟩
  exact fun hc => nul_notMem_cString line (hpart.subset hc)

/-- `receive` leaves alone what concerns writing. -/
theorem receive_output {into : Message} {ok : Bool} {c' : Connection}
    (h : c.receive into = some (ok, msg, c')) : c'.output = c.output ∧ c'.writes = c.writes := by
  obtain ⟨⟨result, fdbuf⟩, -, hsplit⟩ := Option.map_eq_some_iff.mp h
  cases result with
  | line line =>
      simp only at hsplit
      split at hsplit
      · obtain rfl := (Prod.mk.inj (Prod.mk.inj hsplit).2).2
        exact ⟨rfl, rfl⟩
      · obtain rfl := (Prod.mk.inj (Prod.mk.inj hsplit).2).2
        exact ⟨rfl, rfl⟩
  | eof =>
      obtain rfl := (Prod.mk.inj (Prod.mk.inj hsplit).2).2
      exact ⟨rfl, rfl⟩
  | error =>
      obtain rfl := (Prod.mk.inj (Prod.mk.inj hsplit).2).2
      exact ⟨rfl, rfl⟩

theorem send_of_rioWriten {written : Str} {writes : List WriteResult}
    (h : rioWriten c.writes (encode msg) = some (true, written, writes)) :
    c.send msg = some (true, { c with
      writes := writes, output := c.output ++ encode msg, lastResult := .success }) := by
  obtain rfl := (rioWriten_spec h).2 rfl
  rw [Connection.send, h]
  rfl

/-- `send` reads nothing. -/
theorem send_fdbuf {ok : Bool} {c' : Connection} (h : c.send msg = some (ok, c')) :
    c'.fdbuf = c.fdbuf := by
  obtain ⟨⟨ok₁, written, writes⟩, -, hsplit⟩ := Option.map_eq_some_iff.mp h
  rw [← (Prod.mk.inj hsplit).2]

/-- A send that succeeds has written the whole encoding. -/
theorem send_output {c' : Connection} (h : c.send msg = some (true, c')) :
    c'.output = c.output ++ encode msg ∧ c'.fdbuf = c.fdbuf ∧ c'.lastResult = .success := by
  obtain ⟨⟨ok, written, writes⟩, hwrite, hsplit⟩ := Option.map_eq_some_iff.mp h
  rw [Prod.mk.injEq] at hsplit
  obtain ⟨rfl, rfl⟩ := hsplit
  rw [(rioWriten_spec hwrite).2 rfl]
  exact ⟨rfl, rfl, rfl⟩

end

end Csf.Chat
