import Csf.Chat.Connection

/-!
# Chat: messages on the wire

One side sends messages one after the other, the other side receives as many.
The reader has `maxLen` bytes for a line and its terminator, so it reads one
character less than an encoded message may have: sequences survive exactly when
no message has the full length.
-/

namespace Csf.Chat

/-- A message of the protocol: a standard tag, and data that do not end the line
or the string. -/
structure Plain (msg : Message) : Prop where
  tag : msg.tag ∈ standardTags
  newline : 10 ∉ msg.data
  nul : 0 ∉ msg.data

theorem length_encode (msg : Message) :
    (encode msg).length = msg.tag.length + msg.data.length + 2 := by
  simp only [encode, List.length_append, List.length_singleton]
  omega

/-- A message of the protocol that a line has room for. -/
theorem plain_and_short {tag data : Str} (htag : tag ∈ standardTags) (hnewline : 10 ∉ data)
    (hnul : 0 ∉ data) (hlen : tag.length + data.length + 2 < maxLen) :
    Plain { tag := tag, data := data } ∧
      (encode { tag := tag, data := data }).length < maxLen := by
  rw [length_encode]
  exact ⟨⟨htag, hnewline, hnul⟩, hlen⟩

/-- A message as it is received: its data with the newline behind. -/
def received (msg : Message) : Message := { tag := msg.tag, data := msg.data ++ [10] }

theorem received_inj {msg msg' : Message} (h : received msg = received msg') : msg = msg' := by
  obtain ⟨tag, data⟩ := msg
  obtain ⟨htag, hdata⟩ := Message.mk.inj h
  have hsame := List.append_inj_left' hdata rfl
  simp only at htag hsame
  rw [htag, hsame]

/-- `send` each message. -/
def Connection.sendAll : Connection → List Message → Option (List Bool × Connection)
  | c, [] => some ([], c)
  | c, msg :: msgs => do
      let (ok, c) ← c.send msg
      let (oks, c) ← c.sendAll msgs
      pure (ok :: oks, c)

/-- `receive` into `n` new messages. -/
def Connection.receiveAll : (n : Nat) → Connection → Option (List (Bool × Message) × Connection)
  | 0, c => some ([], c)
  | n + 1, c => do
      let (ok, msg, c) ← c.receive { tag := [], data := [] }
      let (msgs, c) ← c.receiveAll n
      pure ((ok, msg) :: msgs, c)

/-- Exactly these messages are received, and nothing is left to read. -/
def Received (r : Connection) (msgs : List Message) : Prop :=
  ∃ r', r.receiveAll msgs.length = some (msgs.map fun msg => (true, received msg), r') ∧
    r'.fdbuf.items = []

section

variable {c c' r : Connection} {msg : Message} {msgs : List Message} {rest : List Item}

/-! ## One message -/

/-- A protocol message without its newline. -/
theorem Plain.unterminated (h : Plain msg) : 10 ∉ msg.tag ++ [58] ++ msg.data := by
  obtain ⟨-, htag, -⟩ := plain_of_standard h.tag
  have hdata := h.newline
  simp [htag, hdata]

theorem Plain.no_nul (h : Plain msg) : 0 ∉ msg.tag ++ [58] ++ msg.data := by
  obtain ⟨-, -, htag⟩ := plain_of_standard h.tag
  have hdata := h.nul
  simp [htag, hdata]

/-- The line of a protocol message is accepted as that message. -/
theorem Plain.accept_encode (h : Plain msg) (fdbuf : Rio) :
    c.accept (encode msg) fdbuf =
      (true, received msg, { c with fdbuf := fdbuf, lastResult := .success }) := by
  obtain ⟨hcolon, -, -⟩ := plain_of_standard h.tag
  have hnul : 0 ∉ encode msg := by
    have hpart := h.no_nul
    simp [encode] at hpart ⊢
    exact hpart
  have hparse : parse (encode msg) = received msg := by
    have hshape : encode msg = msg.tag ++ 58 :: (msg.data ++ [10]) := by simp [encode]
    rw [hshape, parse_colon hcolon]
    rfl
  have htag : (received msg).tag ∈ standardTags := h.tag
  rw [Connection.accept, cString_of_no_nul hnul, hparse]
  exact if_pos htag

/-- A short message is received as it was sent. -/
theorem receive_encode (h : Plain msg) (hitems : r.fdbuf.items = (encode msg).map .byte ++ rest)
    (hlen : (encode msg).length < maxLen) (into : Message) :
    ∃ r', r'.fdbuf.items = rest ∧ r.receive into = some (true, received msg, r') := by
  have hline : (encode msg).length = (msg.tag ++ [58] ++ msg.data).length + 1 := by
    rw [encode, List.length_append, List.length_singleton]
  obtain ⟨fdbuf, hrest, hreceive⟩ :=
    receive_line into hitems h.unterminated (by rw [← hline]; exact hlen)
  exact ⟨_, hrest, hreceive.trans (congrArg some (h.accept_encode fdbuf))⟩

/-- Of a message that is not short, the reader takes what it has room for and
leaves the rest for the next call. -/
theorem receive_encode_long (h : Plain msg)
    (hitems : r.fdbuf.items = (encode msg).map .byte ++ rest)
    (hlen : maxLen ≤ (encode msg).length) (into : Message) :
    ∃ r' n, n ≤ msg.data.length ∧ msg.tag.length + n + 2 = maxLen ∧
      r.receive into = some (true, { tag := msg.tag, data := msg.data.take n }, r') := by
  have hshort : ∀ tag ∈ standardTags, tag.length + 2 ≤ maxLen := by decide
  have htag := hshort msg.tag h.tag
  obtain ⟨hcolon, -, -⟩ := plain_of_standard h.tag
  have hline := length_encode msg
  obtain ⟨n, hn⟩ : ∃ n, maxLen - 1 = msg.tag.length + 1 + n :=
    ⟨maxLen - 1 - msg.tag.length - 1, by omega⟩
  have hfits : n ≤ msg.data.length := by omega
  -- what the buffer holds, and what stays behind
  have hsplit : encode msg =
      (msg.tag ++ 58 :: msg.data.take n) ++ (msg.data.drop n ++ [10]) := by
    have hdata : msg.data ++ [10] = msg.data.take n ++ (msg.data.drop n ++ [10]) := by
      rw [← List.append_assoc, List.take_append_drop]
    simp [encode, hdata]
  have hlength : (msg.tag ++ 58 :: msg.data.take n).length + 1 = maxLen := by
    simp
    omega
  have hnewline : 10 ∉ msg.tag ++ 58 :: msg.data.take n := by
    have hall := h.unterminated
    simp at hall ⊢
    exact ⟨hall.1, fun hc => hall.2 (List.mem_of_mem_take hc)⟩
  have hnul : 0 ∉ msg.tag ++ 58 :: msg.data.take n := by
    have hall := h.no_nul
    simp at hall ⊢
    exact ⟨hall.1, fun hc => hall.2 (List.mem_of_mem_take hc)⟩
  rw [hsplit, List.map_append, List.append_assoc] at hitems
  obtain ⟨fdbuf, hread, -⟩ := rioReadlineb_cut hitems hnewline hlength
  have haccept : r.accept (msg.tag ++ 58 :: msg.data.take n) fdbuf =
      (true, { tag := msg.tag, data := msg.data.take n },
        { r with fdbuf := fdbuf, lastResult := .success }) := by
    rw [Connection.accept, cString_of_no_nul hnul, parse_colon hcolon]
    exact if_pos h.tag
  exact ⟨_, n, hfits, by omega, (receive_of_line hread).trans (congrArg some haccept)⟩

/-! ## Sequences -/

/-- Sends that succeed write the encodings one after the other. -/
theorem sendAll_output : ∀ {msgs : List Message} {c c' : Connection},
    c.sendAll msgs = some (msgs.map fun _ => true, c') →
    c'.output = c.output ++ msgs.flatMap encode := by
  intro msgs
  induction msgs with
  | nil =>
      intro c c' h
      obtain rfl : c = c' := by simpa [Connection.sendAll] using h
      simp
  | cons msg msgs ih =>
      intro c c' h
      rw [Connection.sendAll] at h
      obtain ⟨⟨ok, c₁⟩, hsend, h⟩ := Option.bind_eq_some_iff.mp h
      obtain ⟨⟨oks, c₂⟩, hrest, h⟩ := Option.bind_eq_some_iff.mp h
      rw [List.map_cons] at h
      obtain ⟨⟨rfl, rfl⟩, rfl⟩ : (ok = true ∧ oks = msgs.map fun _ => true) ∧ c₂ = c' := by
        simpa using h
      rw [ih hrest, (send_output hsend).1, List.append_assoc, List.flatMap_cons]

theorem receiveAll_succ {n : Nat} {ok : Bool} {r₁ : Connection}
    (h : r.receive { tag := [], data := [] } = some (ok, msg, r₁)) :
    r.receiveAll (n + 1) = (r₁.receiveAll n).map fun (msgs, c) => ((ok, msg) :: msgs, c) := by
  rw [Connection.receiveAll, h]
  show (r₁.receiveAll n).bind _ = _
  cases r₁.receiveAll n <;> rfl

/-- The messages of a stream are received one by one, as long as they are
short. -/
theorem received_iff : ∀ {msgs : List Message} {r : Connection},
    (∀ msg ∈ msgs, Plain msg) → r.fdbuf.items = (msgs.flatMap encode).map .byte →
    (Received r msgs ↔ ∀ msg ∈ msgs, (encode msg).length < maxLen) := by
  intro msgs
  induction msgs with
  | nil =>
      intro r _ hitems
      refine ⟨fun _ _ h => absurd h List.not_mem_nil, fun _ => ⟨r, rfl, hitems⟩⟩
  | cons msg msgs ih =>
      intro r hplain hitems
      have hmsg := hplain msg List.mem_cons_self
      rw [List.flatMap_cons, List.map_append] at hitems
      by_cases hlen : (encode msg).length < maxLen
      · obtain ⟨r₁, hrest, hreceive⟩ := receive_encode hmsg hitems hlen { tag := [], data := [] }
        have htail := ih (fun m hm => hplain m (List.mem_cons_of_mem _ hm)) hrest
        have hstep : Received r (msg :: msgs) ↔ Received r₁ msgs := by
          constructor
          · intro h
            obtain ⟨r', hall, hleft⟩ := h
            rw [List.length_cons, receiveAll_succ hreceive, List.map_cons] at hall
            obtain ⟨⟨more, c₁⟩, hmore, hsplit⟩ := Option.map_eq_some_iff.mp hall
            rw [Prod.mk.injEq, List.cons.injEq] at hsplit
            obtain ⟨⟨-, rfl⟩, rfl⟩ := hsplit
            exact ⟨_, hmore, hleft⟩
          · intro h
            obtain ⟨r', hall, hleft⟩ := h
            refine ⟨r', ?_, hleft⟩
            rw [List.length_cons, receiveAll_succ hreceive, hall]
            rfl
        rw [hstep, htail, List.forall_mem_cons]
        exact ⟨fun h => ⟨hlen, h⟩, fun h => h.2⟩
      · -- what is received has no newline behind its data
        obtain ⟨r₁, n, hn, -, hreceive⟩ :=
          receive_encode_long hmsg hitems (Nat.le_of_not_lt hlen) { tag := [], data := [] }
        constructor
        · intro h
          obtain ⟨r', hall, -⟩ := h
          rw [List.length_cons, receiveAll_succ hreceive, List.map_cons] at hall
          obtain ⟨⟨more, c₁⟩, -, hsplit⟩ := Option.map_eq_some_iff.mp hall
          rw [Prod.mk.injEq, List.cons.injEq, Prod.mk.injEq] at hsplit
          have hdata := congrArg (fun m : Message => m.data.length) hsplit.1.1.2
          simp [received] at hdata
          omega
        · intro h
          exact absurd (h msg List.mem_cons_self) hlen

/-- No other messages than those in the stream are received from it. -/
theorem received_eq : ∀ {msgs others : List Message} {r : Connection},
    (∀ msg ∈ msgs, Plain msg) → r.fdbuf.items = (msgs.flatMap encode).map .byte →
    Received r others → others.length = msgs.length → others = msgs := by
  intro msgs
  induction msgs with
  | nil => exact fun _ _ _ hlength => List.eq_nil_of_length_eq_zero hlength
  | cons msg msgs ih =>
      intro others r hplain hitems hreceived hlength
      obtain ⟨other, others, rfl⟩ := List.exists_cons_of_length_eq_add_one hlength
      have hmsg := hplain msg List.mem_cons_self
      rw [List.flatMap_cons, List.map_append] at hitems
      obtain ⟨r', hall, hleft⟩ := hreceived
      by_cases hlen : (encode msg).length < maxLen
      · obtain ⟨r₁, hrest, hreceive⟩ := receive_encode hmsg hitems hlen { tag := [], data := [] }
        rw [List.length_cons, receiveAll_succ hreceive, List.map_cons] at hall
        obtain ⟨⟨more, c₁⟩, hmore, hsplit⟩ := Option.map_eq_some_iff.mp hall
        rw [Prod.mk.injEq, List.cons.injEq] at hsplit
        obtain ⟨⟨hhead, rfl⟩, rfl⟩ := hsplit
        have htail := ih (fun m hm => hplain m (List.mem_cons_of_mem _ hm)) hrest
          ⟨_, hmore, hleft⟩ (Nat.succ.inj hlength)
        rw [htail, received_inj (Prod.mk.inj hhead).2]
      · -- what is cut has no newline behind its data
        obtain ⟨r₁, n, hn, -, hreceive⟩ :=
          receive_encode_long hmsg hitems (Nat.le_of_not_lt hlen) { tag := [], data := [] }
        rw [List.length_cons, receiveAll_succ hreceive, List.map_cons] at hall
        obtain ⟨⟨more, c₁⟩, -, hsplit⟩ := Option.map_eq_some_iff.mp hall
        rw [Prod.mk.injEq, List.cons.injEq, Prod.mk.injEq] at hsplit
        have hdata : msg.data.take n = other.data ++ [10] := congrArg Message.data hsplit.1.1.2
        have hmem : 10 ∈ msg.data.take n := by
          rw [hdata]
          exact List.mem_append_right _ List.mem_cons_self
        exact absurd (List.mem_of_mem_take hmem) hmsg.newline

/-- Messages sent one after the other and read back through any cutting of the
stream into results of `read`: they are received exactly when each of them is
shorter than the documented limit. -/
theorem received_iff_below_limit (stream : Str)
    (hplain : ∀ msg ∈ msgs, Plain msg)
    (hsend : c.sendAll msgs = some (msgs.map fun _ => true, c'))
    (hwritten : c'.output = c.output ++ stream) (hitems : r.fdbuf.items = stream.map .byte) :
    Received r msgs ↔ ∀ msg ∈ msgs, (encode msg).length < maxLen := by
  apply received_iff hplain
  rw [sendAll_output hsend, List.append_cancel_left_eq] at hwritten
  rw [hitems, hwritten]

end

/-- A join request of the documented full length. -/
def fullJoin : Message := { tag := tagJoin, data := List.replicate 249 97 }

/-- Sent in one `write` and read back in one `read`, it is not what is
received. -/
theorem fullJoin_not_received :
    Plain fullJoin ∧ (encode fullJoin).length = maxLen ∧
      (∃ c', (Connection.new [] [.wrote 255 (by decide)]).sendAll [fullJoin] = some ([true], c') ∧
        c'.output = encode fullJoin) ∧
      (Connection.new [.bytes (encode fullJoin)] []).fdbuf.items = (encode fullJoin).map .byte ∧
      ¬ Received (Connection.new [.bytes (encode fullJoin)] []) [fullJoin] := by
  have hplain : Plain fullJoin := ⟨by decide, by decide +kernel, by decide +kernel⟩
  have hitems : (Connection.new [.bytes (encode fullJoin)] []).fdbuf.items =
      (encode fullJoin).map .byte ++ [] := by decide +kernel
  refine ⟨hplain, by decide +kernel, ⟨_, rfl, by decide +kernel⟩, by decide +kernel, ?_⟩
  intro h
  obtain ⟨r', hall, -⟩ := h
  obtain ⟨r₁, n, hn, -, hreceive⟩ :=
    receive_encode_long hplain hitems (by decide +kernel) { tag := [], data := [] }
  rw [List.length_singleton, receiveAll_succ hreceive] at hall
  obtain ⟨⟨more, c₁⟩, -, hsplit⟩ := Option.map_eq_some_iff.mp hall
  rw [List.map_cons, Prod.mk.injEq, List.cons.injEq, Prod.mk.injEq] at hsplit
  have hdata := congrArg (fun m : Message => m.data.length) hsplit.1.1.2
  simp [received] at hdata
  omega

/-- Two requests, the first with a colon in its text and the second without
data. -/
def twoRequests : List Message :=
  [{ tag := tagSendall, data := ascii "a:b" }, { tag := tagLeave, data := [] }]

/-- They arrive in three pieces and with an interruption. -/
theorem received_iff_below_limit_two :
    Received (Connection.new [.bytes (ascii "senda"), .failed true, .bytes (ascii "ll:a:b\nle"),
      .bytes (ascii "ave:\n")] []) twoRequests := by
  have hplain : ∀ msg ∈ twoRequests, Plain msg := by
    intro msg hmsg
    rcases List.mem_pair.mp hmsg with rfl | rfl
    · exact ⟨by decide, by decide, by decide⟩
    · exact ⟨by decide, by decide, by decide⟩
  refine (received_iff_below_limit (c := Connection.new [] [.wrote 5 (by decide), .nothing true,
    .wrote 7 (by decide), .wrote 7 (by decide)]) (twoRequests.flatMap encode) hplain rfl (by decide)
    (by decide)).mpr ?_
  decide

end Csf.Chat
