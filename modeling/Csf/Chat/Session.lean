import Csf.Chat.Conversation
import Csf.Chat.Delivery
import Csf.Chat.Joining

/-!
# Chat: a session

The sender client and its worker from their starts, each run on what it has read so far. That
is a part of what the other side has written so far, which is all that is asked of the network:
bytes arrive late or in pieces, but none is lost, added or changed.
-/

namespace Csf.Chat

open Csf.Lib

/-! ## The whole programs -/

section

variable {username input part : Str} {n m : ℕ} {c : Connection}

/-- A name that a login and its confirmation have room for. -/
structure NameFits (username : Str) : Prop where
  newline : 10 ∉ username
  nul : 0 ∉ username
  length : username.length + 17 < maxLen

theorem NameFits.plain_request (h : NameFits username) :
    Plain (loginRequest username) ∧ (encode (loginRequest username)).length < maxLen := by
  refine plain_and_short (by decide) h.newline h.nul ?_
  have hlen := h.length
  show 6 + username.length + 2 < maxLen
  omega

theorem NameFits.plain_confirmation (h : NameFits username) :
    Plain (loginConfirmation username) ∧
      (encode (loginConfirmation username)).length < maxLen := by
  have hgreeting : 10 ∉ ascii "Logged in as " ∧ 0 ∉ ascii "Logged in as " ∧
      (ascii "Logged in as ").length = 13 := by decide
  refine plain_and_short (by decide) ?_ ?_ ?_
  · exact fun hc => (List.mem_append.mp hc).elim hgreeting.1 h.newline
  · exact fun hc => (List.mem_append.mp hc).elim hgreeting.2.1 h.nul
  · have hlen := h.length
    rw [List.length_append, hgreeting.2.2]
    show 2 + (13 + username.length) + 2 < maxLen
    omega

/-- `ask` sends its message and receives what follows. -/
theorem ask_cases {msg response : Message} {conn' : Connection} (hw : c.Writable)
    (h : c.ask msg = some (response, conn')) : ∃ (conn : Connection) (ok : Bool),
      conn.fdbuf = c.fdbuf ∧ conn.output = c.output ++ encode msg ∧
      conn.receive { tag := [], data := [] } = some (ok, response, conn') ∧
      conn'.output = c.output ++ encode msg ∧ conn'.Writable := by
  obtain ⟨⟨sent, conn⟩, hsend, h⟩ := Option.bind_eq_some_iff.mp h
  obtain ⟨⟨ok, response₁, conn₁⟩, hreceive, h⟩ := Option.bind_eq_some_iff.mp h
  obtain ⟨rfl, rfl⟩ := Prod.mk.inj (Option.some.inj h)
  obtain ⟨rfl, hw'⟩ := hw.send hsend
  obtain ⟨houtput, hfdbuf, -⟩ := send_output hsend
  obtain ⟨houtput', hwrites⟩ := receive_output hreceive
  refine ⟨conn, ok, hfdbuf, houtput, hreceive, houtput'.trans houtput, ?_⟩
  rw [Connection.Writable, hwrites]
  exact hw'

/-- The answer to a message is the next message of the stream. -/
theorem ask_answered {msg response reply : Message} {conn' : Connection} {more : Str}
    (hw : c.Writable) (hp : Plain reply) (hlen : (encode reply).length < maxLen)
    (hitems : c.fdbuf.items = part.map .byte) (hpart : part <+: encode reply ++ more)
    (h : c.ask msg = some (response, conn')) :
    response = received reply ∧ conn'.Writable ∧ ∃ part', part = encode reply ++ part' ∧
      part' <+: more ∧ conn'.fdbuf.items = part'.map .byte := by
  obtain ⟨conn, ok, hfdbuf, -, hreceive, -, hw'⟩ := ask_cases hw h
  obtain ⟨fdbuf, part', hresult, hsplit, hmore, hleft⟩ :=
    receive_message hp hlen hreceive (by rw [hfdbuf]; exact hitems) hpart
  rw [Prod.mk.injEq, Prod.mk.injEq] at hresult
  obtain ⟨-, hresponse, hconn⟩ := hresult
  exact ⟨hresponse, hw', part', hsplit, hmore, by rw [hconn]; exact hleft⟩

/-- A login asks, and goes on if the answer is an ok. -/
theorem login_cases {s : SenderClient} {turn : Turn SenderClient}
    (h : s.login username = some turn) :
    ∃ response conn', s.conn.ask (loginRequest username) = some (response, conn') ∧
      turn.state.cin = s.cin ∧ turn.state.conn = conn' ∧
      (response.tag = tagOk → turn = .next { s with conn := conn' }) := by
  obtain ⟨⟨response, conn'⟩, hask, rfl⟩ := Option.map_eq_some_iff.mp h
  refine ⟨response, conn', hask, ?_, ?_, ?_⟩
  · simp only
    split_ifs <;> rfl
  · simp only
    split_ifs <;> rfl
  · intro htag
    simp [htag]

/-- Whatever the client reads, it writes a part of its login and its requests. -/
theorem sender_part {turn : Turn SenderClient} (hw : c.Writable)
    (h : sender n username c input = some turn) :
    ∃ written, written <+: encode (loginRequest username) ++
        (requestsFor (nextLines n (.new input))).flatMap encode ∧
      turn.state.conn.output = c.output ++ written := by
  obtain ⟨first, hlogin, hmore⟩ := Option.bind_eq_some_iff.mp h
  obtain ⟨response, conn', hask, hcin, hconn, -⟩ := login_cases hlogin
  obtain ⟨-, -, -, -, -, houtput, -⟩ := ask_cases hw hask
  have hfirst : first.state.conn.output = c.output ++ encode (loginRequest username) := by
    rw [hconn, houtput]
  rcases andThen_cases hmore with ⟨how, s, rfl, rfl⟩ | ⟨s, rfl, hmore⟩
  · exact ⟨_, List.prefix_append _ _, hfirst⟩
  · obtain ⟨written, hpart, houtput'⟩ := rounds_part hmore
    have hlines : nextLines n s.cin = nextLines n (.new input) := congrArg (nextLines n) hcin
    rw [hlines] at hpart
    refine ⟨_, (List.prefix_append_right_inj _).mpr hpart, ?_⟩
    rw [houtput', ← List.append_assoc]
    exact congrArg (· ++ written) hfirst

/-- On a part of what the client writes, the worker is in a session with a sender. -/
theorem worker_part {user : User} {rounds : List Round} {final : Sender} {typed : List Str}
    (hname : NameFits username) (htyped : ∀ line ∈ typed, Typable line)
    (hitems : c.fdbuf.items = part.map .byte)
    (hpart : part <+: encode (loginRequest username) ++ (requestsFor typed).flatMap encode)
    (h : worker m c = some (.sender user rounds final)) :
    user = User.new username ∧ rounds <+: serve user (requestLines typed) ∧
      ∃ written, final.conn.output = c.output ++ written ∧
        written <+: encode (loginConfirmation username) ++ (replies rounds).flatMap encode := by
  obtain ⟨⟨ok, login, c₁⟩, hreceive, h⟩ := Option.bind_eq_some_iff.mp h
  obtain ⟨hplain, hlen⟩ := hname.plain_request
  obtain ⟨fdbuf, part', hresult, -, hmore, hleft⟩ :=
    receive_message hplain hlen hreceive hitems hpart
  obtain ⟨rfl, rfl, rfl⟩ : ok = true ∧ login = received (loginRequest username) ∧ c₁ = _ := by
    simpa using hresult
  have hdata : (received (loginRequest username)).data.dropLast = username := by
    simp [received, loginRequest]
  have htag : (received (loginRequest username)).tag = tagSlogin := rfl
  have hne : tagSlogin ≠ tagRlogin := by decide
  simp only [if_true, htag, hne, if_false, hdata] at h
  obtain ⟨⟨sent, c₂⟩, hsend, h⟩ := Option.bind_eq_some_iff.mp h
  obtain ⟨⟨rounds₁, final₁⟩, hrun, h⟩ := Option.bind_eq_some_iff.mp h
  have hsession := Option.some.inj h
  rw [Session.sender.injEq] at hsession
  obtain ⟨rfl, rfl, rfl⟩ := hsession
  obtain ⟨confirmed, hconfirmed, hall, houtput, hfdbuf, hopen⟩ := send_part hsend
  refine ⟨rfl, ?_⟩
  have hstream : (requestsFor typed).flatMap encode =
      (requestLines typed).flatMap (· ++ [10]) := by
    rw [List.flatMap_map]
    rfl
  rw [hstream] at hmore
  obtain ⟨hrounds, written, hwritten, houtput'⟩ :=
    chatWithSender_part (fits_requestLines htyped) (hfdbuf ▸ hleft) hmore hrun
  refine ⟨hrounds, confirmed ++ written, ?_, ?_⟩
  · rw [houtput', houtput, List.append_assoc]
  · cases sent with
    | true =>
        rw [hall rfl]
        exact (List.prefix_append_right_inj _).mpr hwritten
    | false =>
        -- the connection is not open, so there has been no round
        rcases chatWithSender_cases hrun with ⟨rfl, -⟩ | ⟨_, _, _, _, -, hyes, -⟩
        · obtain rfl := List.prefix_nil.mp hwritten
          rw [List.append_nil]
          exact hconfirmed.trans (List.prefix_append _ _)
        · exact absurd (hopen.symm.trans hyes) Bool.false_ne_true

/-- On a part of what the worker writes, the client is in a session with the worker. -/
theorem sender_answered {user : User} {turn : Turn SenderClient} (hw : c.Writable)
    (hname : NameFits username) (hitems : c.fdbuf.items = part.map .byte)
    (hpart : part <+: encode (loginConfirmation username) ++
      (replies (serve user (requestLines (nextLines n (.new input))))).flatMap encode)
    (h : sender n username c input = some turn) :
    turn.ended = ending (nextLines n (.new input)) ∧
      turn.state.cerr = shown (nextLines n (.new input))
        (replies (serve user (requestLines (nextLines n (.new input))))) ∧
      turn.state.conn.output = c.output ++ encode (loginRequest username) ++
        (requestsFor (nextLines n (.new input))).flatMap encode ∧
      part = encode (loginConfirmation username) ++
        (replies (serve user (requestLines (nextLines n (.new input))))).flatMap encode := by
  obtain ⟨first, hlogin, hmore⟩ := Option.bind_eq_some_iff.mp h
  obtain ⟨response, conn', hask, -, -, hgo⟩ := login_cases hlogin
  obtain ⟨hplain, hlen⟩ := hname.plain_confirmation
  obtain ⟨-, -, -, -, -, houtput, -⟩ := ask_cases hw hask
  obtain ⟨rfl, hw', part', hsplit, hpart', hleft⟩ :=
    ask_answered hw hplain hlen hitems hpart hask
  obtain rfl := hgo rfl
  obtain ⟨hended, hcerr, houtput', rfl⟩ := rounds_answered hw' hleft hpart' hmore
  refine ⟨hended, ?_, ?_, hsplit⟩
  · rw [hcerr]
    rfl
  · rw [houtput']
    exact congrArg (· ++ _) houtput

end

/-! ## The lines that are typed -/

section

variable {is : Istream UInt8} {n : ℕ} {line input : Str}

/-- The rounds read the lines that are left, as long as there are any. -/
theorem nextLines_eq : ∀ {n : ℕ} {is : Istream UInt8}, is.Sound →
    n ≤ (lines 10 is.text).length → nextLines n is = (lines 10 is.text).take n := by
  intro n
  induction n with
  | zero =>
      intro is _ _
      rfl
  | succ n ih =>
      intro is hsound hn
      have htext : is.text ≠ [] := by
        intro htext
        rw [lines_eq_nil_iff.mpr htext] at hn
        exact absurd hn (by simp)
      have hnew := hsound.eq_new htext
      have hlines : lines 10 is.text = _ := lines_getline htext []
      rw [← hnew] at hlines
      rw [hlines, List.length_cons, Nat.add_le_add_iff_right] at hn
      rw [nextLines, ih (hsound.getline []) hn, hlines, List.take_succ_cons]

theorem nextLines_new (hn : n ≤ (lines 10 input).length) :
    nextLines n (.new input) = typed n input :=
  nextLines_eq (Istream.sound_new input) hn

/-- A line has no newline in it. -/
theorem newline_notMem_lines : ∀ {text : Str}, ∀ line ∈ lines 10 text, 10 ∉ line := by
  intro text
  induction text with
  | nil => exact fun line h => absurd h List.not_mem_nil
  | cons c text ih =>
      intro line h
      rw [lines] at h
      split at h
      · rcases List.mem_cons.mp h with rfl | h
        · exact List.not_mem_nil
        · exact ih line h
      · next hc =>
          split at h
          · rw [List.mem_singleton.mp h]
            simpa using Ne.symm hc
          · next first more hlines =>
              rcases List.mem_cons.mp h with rfl | h
              · have hfirst := ih first (hlines ▸ List.mem_cons_self)
                simp [hfirst, Ne.symm hc]
              · exact ih line (hlines ▸ List.mem_cons_of_mem _ h)

theorem typable_of_fits (h : ∀ line ∈ typed n input, LineFits line) :
    ∀ line ∈ typed n input, Typable line :=
  fun line hline => ⟨newline_notMem_lines line (List.mem_of_mem_take hline), (h line hline).2⟩

end

/-! ## What is said -/

/-- The broadcast that a call makes. -/
def Call.broadcast : Call → Option Broadcast
  | .broadcastMessage roomName senderUsername messageText =>
      some { roomName := roomName, senderUsername := senderUsername, messageText := messageText }
  | _ => none

/-- The broadcasts of some rounds. -/
def broadcastsOf (rounds : List Round) : List Broadcast :=
  (rounds.flatMap Round.calls).filterMap Call.broadcast

/-- What is said with some lines in a room, or outside of rooms if the name is empty: each line
of text in a room is a broadcast to it, until a line that leaves the client. -/
def said (username : Str) : (room : Str) → List Str → List Broadcast
  | _, [] => []
  | room, line :: typed =>
      if Leaves line then []
      else if ascii "/join" <+: line then said username (line.drop 6) typed
      else if ascii "/leave" <+: line then said username [] typed
      else if ascii "/" <+: line ∨ room = [] then said username room typed
      else { roomName := room, senderUsername := username, messageText := line } ::
        said username room typed

section

variable {line rest username room : Str} {typed : List Str} {msg : Message}
  {loopExitCase : Bool} {user : User} {c : UInt8}

/-- The data of a request, as the worker takes them. -/
theorem lineMessage_data (h : command line = .send msg loopExitCase) (hnul : 0 ∉ line) :
    (lineMessage msg.line).data.dropLast = msg.data := by
  have hline : msg.tag ++ [58] <+: msg.line := ⟨msg.data, rfl⟩
  obtain ⟨htag, -, hdata, -⟩ := command_send h
  have hparts := lineMessage_of_tag htag hline
  have hdrop : msg.line.drop (msg.tag.length + 1) = msg.data := List.drop_left' (by simp)
  have hfree : 0 ∉ msg.data ++ [10] := by
    rw [List.mem_append, not_or]
    exact ⟨fun hc => hnul (hdata 0 hc), by decide⟩
  rw [hparts.2, hdrop, cString_of_no_nul hfree, List.dropLast_concat]

/-- The broadcasts for a request and those after it. -/
theorem broadcastsOf_serve (h : command line = .send msg false) :
    broadcastsOf (serve user (requestLines (line :: typed))) =
      (handleRequest user (lineMessage msg.line)).calls.filterMap Call.broadcast ++
        broadcastsOf (serve (handleRequest user (lineMessage msg.line)).user
          (requestLines typed)) := by
  rw [serve_requests h, broadcastsOf, List.flatMap_cons, List.filterMap_append]
  rfl

theorem not_leaves_send (h : command line = .send msg false) : ¬Leaves line := by
  rw [leaves_iff, h]
  simp

theorem said_leaves (h : Leaves line) : said username room (line :: typed) = [] := if_pos h

theorem said_join : said username room ((ascii "/join" ++ c :: rest) :: typed) =
    said username rest typed := by
  rw [said, if_neg (not_leaves_send command_join), if_pos ⟨_, rfl⟩]
  rfl

theorem said_leave : said username room ((ascii "/leave" ++ rest) :: typed) =
    said username [] typed := by
  have hjoin : ¬ascii "/join" <+: ascii "/leave" ++ rest := by
    simp [ascii_join, ascii_leave]
  rw [said, if_neg (not_leaves_send command_leave), if_neg hjoin, if_pos ⟨_, rfl⟩]

theorem said_noCommand (h : NoCommand line) : said username room (line :: typed) =
    said username room typed := by
  have hleaves : ¬Leaves line := by
    rw [leaves_iff, command_noCommand h]
    simp
  rw [said, if_neg hleaves, if_neg h.join, if_neg h.leave, if_pos (.inl h.slash)]

theorem said_text (h : ¬ascii "/" <+: line) : said username room (line :: typed) =
    if room = [] then said username room typed
    else { roomName := room, senderUsername := username, messageText := line } ::
      said username room typed := by
  have hword : ∀ rest, ascii "/" <+: ascii "/" ++ rest := List.prefix_append _
  have hjoin : ¬ascii "/join" <+: line := fun hp => h ((hword _).trans hp)
  have hleave : ¬ascii "/leave" <+: line := fun hp => h ((hword _).trans hp)
  rw [said, if_neg (not_leaves_send (command_text h)), if_neg hjoin, if_neg hleave]
  simp only [h, false_or]

/-- The worker broadcasts what is said. -/
theorem broadcastsOf_requestLines : ∀ {typed : List Str} {user : User},
    (∀ line ∈ typed, LineFits line) →
      broadcastsOf (serve user (requestLines typed)) = said user.username user.roomName typed := by
  intro typed
  induction typed with
  | nil => exact fun {_} _ => rfl
  | cons line typed ih =>
      intro user hfits
      obtain ⟨⟨hnul, -⟩, hfits⟩ := List.forall_mem_cons.mp hfits
      have ih : ∀ {user : User}, broadcastsOf (serve user (requestLines typed)) =
          said user.username user.roomName typed := ih hfits
      rcases line_cases line with rfl | ⟨c, rest, rfl⟩ | ⟨rest, rfl⟩ | ⟨rest, rfl⟩ | hline | hline
      · rw [said_leaves (.inr rfl), requestLines, requestsFor_outOfRange command_outOfRange]
        rfl
      · -- a join: what follows is said in the room that it names
        have hcommand : command (ascii "/join" ++ c :: rest) = .send ⟨tagJoin, rest⟩ false :=
          command_join
        rw [said_join, broadcastsOf_serve hcommand, ih,
          handleRequest_join (lineMessage_tag hcommand), lineMessage_data hcommand hnul]
        rfl
      · -- a leave: outside of rooms, as is one that is answered err
        have hcommand : command (ascii "/leave" ++ rest) = .send ⟨tagLeave, []⟩ false :=
          command_leave
        have htag := lineMessage_tag hcommand
        rw [said_leave, broadcastsOf_serve hcommand, ih]
        by_cases hroom : user.roomName = []
        · rw [handleRequest_leave_outside htag hroom, hroom]
          rfl
        · rw [handleRequest_leave htag hroom]
          rfl
      · have hcommand : command (ascii "/quit" ++ rest) = .send ⟨tagQuit, []⟩ true :=
          command_quit
        rw [said_leaves (.inl ⟨rest, rfl⟩), serve_requests hcommand,
          handleRequest_quit (lineMessage_tag hcommand)]
        rfl
      · rw [said_noCommand hline, requestLines, requestsFor_invalid (command_noCommand hline)]
        exact ih
      · have htag := lineMessage_tag (command_text hline)
        rw [said_text hline, broadcastsOf_serve (command_text hline), ih]
        by_cases hroom : user.roomName = []
        · rw [handleRequest_sendall_outside htag hroom, if_pos hroom]
          rfl
        · rw [handleRequest_sendall htag hroom, if_neg hroom,
            lineMessage_data (command_text hline) hnul]
          rfl

end

/-! ## A session -/

section

variable {n m k : ℕ} {username input : Str} {reads reads' : List ReadResult}
  {writes writes' : List WriteResult} {turn : Turn SenderClient} {user : User}
  {rounds : List Round} {final : Sender}

/-- What a side has read: a part of what the other has written, and neither its end nor an
error. -/
def ReadsFrom (reads : List ReadResult) (written : Str) : Prop :=
  ∃ part, part <+: written ∧ reads.flatMap ReadResult.items = part.map .byte

/-- Rounds whose replies are all there are all the rounds. -/
theorem rounds_complete {all : List Round} (hrounds : rounds <+: all)
    (hreplied : ∀ round ∈ all, round.reply ≠ none)
    (hreplies : (replies all).flatMap encode <+: (replies rounds).flatMap encode) :
    rounds = all := by
  obtain ⟨rest, rfl⟩ := hrounds
  cases rest with
  | nil => exact (List.append_nil _).symm
  | cons round rest =>
      obtain ⟨reply, hreply⟩ : ∃ reply, round.reply = some reply :=
        Option.ne_none_iff_exists'.mp (hreplied round (by simp))
      have hsplit : (replies (rounds ++ round :: rest)).flatMap encode =
          (replies rounds).flatMap encode ++ (encode reply ++ (replies rest).flatMap encode) := by
        simp [replies, hreply]
      have hle := hreplies.length_le
      have hpos := encode_ne_nil reply
      rw [hsplit, List.length_append, List.length_append] at hle
      omega

/-- How far the client and its worker have come on their own does not matter: the worker has
served the requests for the lines that the client has read. -/
theorem session_rounds (hname : NameFits username)
    (hn : n ≤ (lines 10 input).length) (htyped : ∀ line ∈ typed n input, LineFits line)
    (hwrites : .nothing false ∉ writes)
    (hclient : sender n username (.new reads writes) input = some turn)
    (hworker : worker m (.new reads' writes') = some (.sender user rounds final))
    (hreads : ReadsFrom reads final.conn.output)
    (hreads' : ReadsFrom reads' turn.state.conn.output) :
    user = User.new username ∧ rounds = serve user (requestLines (typed n input)) ∧
      final.conn.output =
        encode (loginConfirmation username) ++ (replies rounds).flatMap encode ∧
      reads.flatMap ReadResult.items = final.conn.output.map .byte := by
  have hw : (Connection.new reads writes).Writable := hwrites
  have htypable := typable_of_fits htyped
  obtain ⟨part, hpart, hitems⟩ := hreads
  obtain ⟨part', hpart', hitems'⟩ := hreads'
  -- the requests do not depend on the replies
  obtain ⟨sent, hsent, houtput⟩ := sender_part hw hclient
  obtain rfl : turn.state.conn.output = sent := houtput
  rw [nextLines_new hn] at hsent
  -- so the worker serves these
  obtain ⟨rfl, hrounds, written, houtput', hwritten⟩ :=
    worker_part (c := .new reads' writes') hname htypable hitems' (hpart'.trans hsent) hworker
  obtain rfl : final.conn.output = written := houtput'
  have hreplies : (replies rounds).flatMap encode <+:
      (replies (serve (User.new username) (requestLines (typed n input)))).flatMap encode := by
    obtain ⟨rest, hrest⟩ := hrounds
    rw [← hrest, replies, replies, List.filterMap_append, List.flatMap_append]
    exact List.prefix_append _ _
  have hstream := hwritten.trans ((List.prefix_append_right_inj _).mpr hreplies)
  rw [← nextLines_new hn] at hstream
  -- and the client gets the replies to these
  obtain ⟨-, -, -, rfl⟩ := sender_answered hw hname hitems (hpart.trans hstream) hclient
  rw [nextLines_new hn] at hpart hitems
  have hcomplete := rounds_complete hrounds replied_of_serve
    ((List.prefix_append_right_inj _).mp (hpart.trans hwritten))
  rw [← hcomplete] at hpart hitems
  have hall := hpart.eq_of_length (hpart.length_le.antisymm hwritten.length_le)
  exact ⟨rfl, hcomplete, hall.symm, hall ▸ hitems⟩

/-- **A session.** However far the client and its worker have come on their own, the client has
made the requests for the lines it has read; the worker has served them all, once each and in
their order, and has broadcast what the lines say; and the client has shown the replies and has
ended as the lines make it. -/
theorem session (hname : NameFits username)
    (hn : n ≤ (lines 10 input).length) (htyped : ∀ line ∈ typed n input, LineFits line)
    (hwrites : .nothing false ∉ writes)
    (hclient : sender n username (.new reads writes) input = some turn)
    (hworker : worker m (.new reads' writes') = some (.sender user rounds final))
    (hreads : ReadsFrom reads final.conn.output)
    (hreads' : ReadsFrom reads' turn.state.conn.output) :
    turn.state.conn.output =
        encode (loginRequest username) ++ (requestsFor (typed n input)).flatMap encode ∧
      user = User.new username ∧ rounds = serve user (requestLines (typed n input)) ∧
      final.conn.output =
        encode (loginConfirmation username) ++ (replies rounds).flatMap encode ∧
      broadcastsOf rounds = said username [] (typed n input) ∧
      turn.state.cerr = shown (typed n input) (replies rounds) ∧
      turn.ended = ending (typed n input) := by
  obtain ⟨rfl, hrounds, hfinal, hitems⟩ :=
    session_rounds hname hn htyped hwrites hclient hworker hreads hreads'
  have hall : final.conn.output = encode (loginConfirmation username) ++
      (replies (serve (User.new username)
        (requestLines (nextLines n (.new input))))).flatMap encode := by
    rw [hfinal, hrounds, nextLines_new hn]
  obtain ⟨hended, hcerr, houtput, -⟩ := sender_answered (c := .new reads writes) hwrites hname
    hitems ⟨[], (List.append_nil _).trans hall⟩ hclient
  rw [nextLines_new hn] at hended hcerr houtput
  rw [← hrounds] at hcerr
  have hsaid : broadcastsOf rounds = said username [] (typed n input) := by
    rw [hrounds]
    exact broadcastsOf_requestLines htyped
  exact ⟨houtput, rfl, hrounds, hfinal, hsaid, hcerr, hended⟩

/-- Ann types before she joins, then joins and says hello. -/
def annInput : Str := ascii "hi\n/join r\nhello\n/quit\n"

/-- What her client reads, the first reply in two pieces. -/
def annReads : List ReadResult :=
  [.bytes (ascii "ok:Logged in as ann\nerr:Must join"), .failed true,
    .bytes (ascii " room before sending message.\n"), .bytes (ascii "ok:Joined room!\n"),
    .bytes (ascii "ok:Message sent!\nok:Good bye!\n")]

/-- What her worker reads. -/
def annRequests : List ReadResult :=
  [.bytes (ascii "slogin:ann\nsendall:hi\n"), .bytes (ascii "join:r\nsend"),
    .bytes (ascii "all:hello\nquit:\n")]

/-- A write of a byte and `count` more. -/
def WriteResult.more (count : ℕ) : WriteResult := .wrote (count + 1) (Nat.succ_pos count)

def annWrites : List WriteResult :=
  [.more 10, .more 10, .more 6, .nothing true, .more 13, .more 5]

def annReplies : List WriteResult := [.more 19, .more 42, .more 15, .more 16, .more 12]

/-- The two of them have come to their ends. -/
theorem ann_runs : ∃ turn rounds final,
    sender 4 (ascii "ann") (.new annReads annWrites) annInput = some turn ∧
      worker 4 (.new annRequests annReplies) =
        some (.sender (User.new (ascii "ann")) rounds final) ∧
      ReadsFrom annReads final.conn.output ∧ ReadsFrom annRequests turn.state.conn.output ∧
      requests rounds = [⟨tagSendall, ascii "hi\n"⟩, ⟨tagJoin, ascii "r\n"⟩,
        ⟨tagSendall, ascii "hello\n"⟩, ⟨tagQuit, ascii "\n"⟩] := by
  obtain ⟨turn, hclient, houtput⟩ : ∃ turn,
      sender 4 (ascii "ann") (.new annReads annWrites) annInput = some turn ∧
        turn.state.conn.output =
          ascii "slogin:ann\nsendall:hi\njoin:r\nsendall:hello\nquit:\n" :=
    ⟨_, rfl, by decide⟩
  obtain ⟨rounds, final, hworker, houtput', hrequests⟩ : ∃ rounds final,
      worker 4 (.new annRequests annReplies) =
          some (.sender (User.new (ascii "ann")) rounds final) ∧
        final.conn.output = ascii "ok:Logged in as ann\n" ++
          ascii "err:Must join room before sending message.\nok:Joined room!\n" ++
          ascii "ok:Message sent!\nok:Good bye!\n" ∧
        requests rounds = _ :=
    ⟨_, _, rfl, by decide, rfl⟩
  refine ⟨turn, rounds, final, hclient, hworker, ⟨_, List.prefix_rfl, ?_⟩,
    ⟨_, List.prefix_rfl, ?_⟩, ?_⟩
  · rw [houtput']
    decide
  · rw [houtput]
    decide
  · rw [hrequests]
    decide

theorem fits_ann : NameFits (ascii "ann") := ⟨by decide, by decide, by decide⟩

theorem session_ann : ∃ turn rounds final,
    sender 4 (ascii "ann") (.new annReads annWrites) annInput = some turn ∧
      worker 4 (.new annRequests annReplies) =
        some (.sender (User.new (ascii "ann")) rounds final) ∧
      turn.state.cerr = ascii "Must join room before sending message.\n" ∧
      turn.ended = some (.status 0) ∧
      broadcastsOf rounds = [{ roomName := ascii "r", senderUsername := ascii "ann"
                               messageText := ascii "hello" }] := by
  obtain ⟨turn, rounds, final, hclient, hworker, hreads, hreads', -⟩ := ann_runs
  obtain ⟨-, -, hrounds, -, hsaid, hcerr, hended⟩ :=
    session fits_ann (by decide) (by decide) (by decide) hclient hworker hreads hreads'
  refine ⟨turn, rounds, final, hclient, hworker, ?_, ?_, ?_⟩
  · rw [hcerr, hrounds]
    decide
  · rw [hended]
    decide
  · rw [hsaid]
    decide

end

end Csf.Chat
