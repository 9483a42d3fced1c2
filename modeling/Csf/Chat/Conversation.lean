import Csf.Chat.Parts
import Csf.Chat.Replies
import Csf.Chat.SenderLoop

/-!
# Chat: a sender and its worker

The sender client and its worker, with a stream of bytes each way. A side is run on what it
has read so far, which is a part of what the other side has written so far. Neither side
knows how far the other is, and yet each run is what it is when the two take turns: the
requests of the client depend on its input alone, so the worker's rounds depend on them
alone, and so do the replies that the client gets.
-/

namespace Csf.Chat

open Csf.Lib

/-! ## The two sides without their connection -/

/-- The lines that a client reads in `n` rounds, as long as there are so many. -/
def typed (n : ℕ) (input : Str) : List Str := (lines 10 input).take n

/-- The requests for some lines, up to a line after which the loop is left. -/
def requestsFor : List Str → List Message
  | [] => []
  | line :: typed =>
      match command line with
      | .send msg loopExitCase => msg :: if loopExitCase then [] else requestsFor typed
      | .invalid => requestsFor typed
      | .outOfRange => []

/-- How the loop is left, if one of the lines makes it leave. -/
def ending : List Str → Option Exit
  | [] => none
  | line :: typed =>
      match command line with
      | .send _ loopExitCase => if loopExitCase then some (.status 0) else ending typed
      | .invalid => ending typed
      | .outOfRange => some .terminate

/-- What the client prints of a reply, on its error output. -/
def remark (reply : Message) : Str := if reply.tag = tagErr then reply.data ++ [10] else []

/-- What the client prints for some lines, given the replies to its requests. -/
def shown : List Str → List Message → Str
  | [], _ => []
  | line :: typed, replies =>
      match command line, replies with
      | .send _ _, [] => []
      | .send _ loopExitCase, reply :: replies =>
          remark reply ++ if loopExitCase then [] else shown typed replies
      | .invalid, replies => ascii "Error: invalid command\n" ++ shown typed replies
      | .outOfRange, _ => []

/-- How a client has ended. -/
def Turn.ended {S : Type} : Turn S → Option Exit
  | .next _ => none
  | .exit how _ => some how

/-- The login request of a sender. -/
def loginRequest (username : Str) : Message := { tag := tagSlogin, data := username }

/-! ## Lines and their requests -/

section

variable {line : Str} {msg : Message} {loopExitCase : Bool}

/-- What the request for a line can be. -/
theorem command_send (h : command line = .send msg loopExitCase) :
    msg.tag ∈ standardTags ∧ (loopExitCase = true ↔ msg.tag = tagQuit) ∧
      (∀ c ∈ msg.data, c ∈ line) ∧ msg.line.length ≤ line.length + 8 := by
  have hstandard : tagJoin ∈ standardTags ∧ tagSendall ∈ standardTags := by decide
  rcases line_cases line with rfl | ⟨c, rest, rfl⟩ | ⟨rest, rfl⟩ | ⟨rest, rfl⟩ | hline | hline
  · exact absurd h (by simp [command_outOfRange])
  · rw [command_join] at h
    obtain ⟨rfl, rfl⟩ := Command.send.inj h
    refine ⟨hstandard.1, by simp, ?_, by simp [Message.line, tagJoin, ascii]⟩
    intro c' hc
    exact List.mem_append_right _ (List.mem_cons_of_mem _ hc)
  · rw [command_leave] at h
    obtain ⟨rfl, rfl⟩ := Command.send.inj h
    exact ⟨by decide, by decide, by simp, by simp [Message.line, tagLeave, ascii]⟩
  · rw [command_quit] at h
    obtain ⟨rfl, rfl⟩ := Command.send.inj h
    exact ⟨by decide, by decide, by simp, by simp [Message.line, tagQuit, ascii]⟩
  · exact absurd h (by simp [command_noCommand hline])
  · rw [command_text hline] at h
    obtain ⟨rfl, rfl⟩ := Command.send.inj h
    exact ⟨hstandard.2, by simp, fun c hc => hc, by simp [Message.line, tagSendall, ascii]⟩

/-- A line that the worker reads whole, if the client's line is not too long. -/
theorem fits_of_command (h : command line = .send msg loopExitCase) (hn : 10 ∉ line)
    (hlen : line.length + 9 < maxLen) : Fits msg.line := by
  obtain ⟨htag, -, hdata, hle⟩ := command_send h
  refine ⟨?_, by omega⟩
  have hfree := (plain_of_standard htag).2.1
  have hrest : 10 ∉ msg.data := fun hc => hn (hdata 10 hc)
  simp [Message.line, hfree, hrest]

/-- A line without a NUL, short enough for its request to be read whole. -/
def LineFits (line : Str) : Prop := 0 ∉ line ∧ line.length + 9 < maxLen

instance (line : Str) : Decidable (LineFits line) := inferInstanceAs (Decidable (_ ∧ _))

/-- A line is fit to be typed: it has no newline in it, and its request is read whole. -/
def Typable (line : Str) : Prop := 10 ∉ line ∧ line.length + 9 < maxLen

/-- The worker takes the line of a request as a request with the same tag. -/
theorem lineMessage_tag (h : command line = .send msg loopExitCase) :
    (lineMessage msg.line).tag = msg.tag := by
  have hline : msg.tag ++ [58] <+: msg.line := ⟨msg.data, rfl⟩
  have hparts := lineMessage_of_tag (command_send h).1 hline
  exact hparts.1

end

/-- The lines of the requests for some lines. -/
abbrev requestLines (typed : List Str) : List Str := (requestsFor typed).map Message.line

section

variable {line : Str} {typed : List Str} {msg : Message} {loopExitCase : Bool} {user : User}

theorem requestsFor_send (h : command line = .send msg loopExitCase) :
    requestsFor (line :: typed) = msg :: if loopExitCase then [] else requestsFor typed := by
  rw [requestsFor, h]

theorem requestsFor_invalid (h : command line = .invalid) :
    requestsFor (line :: typed) = requestsFor typed := by
  rw [requestsFor, h]

theorem requestsFor_outOfRange (h : command line = .outOfRange) :
    requestsFor (line :: typed) = [] := by
  rw [requestsFor, h]

theorem shown_invalid (h : command line = .invalid) (replies : List Message) :
    shown (line :: typed) replies = ascii "Error: invalid command\n" ++ shown typed replies := by
  rw [shown.eq_def]
  simp only [h]

theorem shown_outOfRange (h : command line = .outOfRange) (replies : List Message) :
    shown (line :: typed) replies = [] := by
  rw [shown.eq_def]
  simp only [h]

/-- The worker answers the request for a line, and is done after a quit as the client is. -/
theorem serve_requests (h : command line = .send msg loopExitCase) :
    serve user (requestLines (line :: typed)) =
      { request := some (lineMessage msg.line)
        reply := some (handleRequest user (lineMessage msg.line)).reply
        calls := (handleRequest user (lineMessage msg.line)).calls } ::
      if loopExitCase then []
      else serve (handleRequest user (lineMessage msg.line)).user (requestLines typed) := by
  obtain ⟨htag, hquit, -⟩ := command_send h
  have hmsg := lineMessage_tag h
  have hexit : (handleRequest user (lineMessage msg.line)).exitCase = loopExitCase := by
    rw [Bool.eq_iff_iff, handleRequest_exit_iff, hmsg]
    exact hquit.symm
  rw [requestLines, requestsFor_send h, List.map_cons, serve_request (hmsg ▸ htag), hexit]
  cases loopExitCase <;> rfl

/-- Every request gets a reply. -/
theorem replied_of_serve : ∀ {typed : List Str} {user : User},
    ∀ round ∈ serve user (requestLines typed), round.reply ≠ none := by
  intro typed
  induction typed with
  | nil =>
      intro user round h
      exact absurd h List.not_mem_nil
  | cons line typed ih =>
      intro user round h
      cases hcommand : command line with
      | send msg loopExitCase =>
          rw [serve_requests hcommand] at h
          rcases List.mem_cons.mp h with rfl | h
          · simp
          · cases loopExitCase with
            | true => exact absurd h List.not_mem_nil
            | false => exact ih round h
      | invalid =>
          rw [requestLines, requestsFor_invalid hcommand] at h
          exact ih round h
      | outOfRange =>
          rw [requestLines, requestsFor_outOfRange hcommand] at h
          exact absurd h List.not_mem_nil

theorem fits_requestLines (h : ∀ line ∈ typed, Typable line) :
    ∀ text ∈ requestLines typed, Fits text := by
  induction typed with
  | nil => exact fun text h => absurd h List.not_mem_nil
  | cons line typed ih =>
      intro text htext
      obtain ⟨hn, hlen⟩ := h line List.mem_cons_self
      have hrest := ih fun line h' => h line (List.mem_cons_of_mem _ h')
      cases hcommand : command line with
      | send msg loopExitCase =>
          rw [requestLines, requestsFor_send hcommand] at htext
          rcases List.mem_cons.mp htext with rfl | htext
          · exact fits_of_command hcommand hn hlen
          · cases loopExitCase with
            | true => exact absurd htext List.not_mem_nil
            | false => exact hrest text htext
      | invalid =>
          rw [requestLines, requestsFor_invalid hcommand] at htext
          exact hrest text htext
      | outOfRange =>
          rw [requestLines, requestsFor_outOfRange hcommand] at htext
          exact absurd htext List.not_mem_nil

end

/-! ## The worker -/

/-- On a part of a stream of lines, the worker has served some of them, and has written a part
of its replies. -/
theorem chatWithSender_part : ∀ {texts : List Str} {s final : Sender} {part : Str} {n : ℕ}
    {rounds : List Round}, (∀ text ∈ texts, Fits text) →
    s.conn.fdbuf.items = part.map .byte → part <+: texts.flatMap (· ++ [10]) →
    chatWithSender n s = some (rounds, final) →
    rounds <+: serve s.user texts ∧ ∃ written, written <+: (replies rounds).flatMap encode ∧
      final.conn.output = s.conn.output ++ written := by
  intro texts
  induction texts with
  | nil =>
      intro s final part n rounds _ hitems hpart hrun
      obtain rfl := List.prefix_nil.mp hpart
      rcases chatWithSender_cases hrun with ⟨rfl, rfl⟩ | ⟨m, round, rest, s₁, -, -, -, hround, -⟩
      · exact ⟨List.nil_prefix, [], List.nil_prefix, (List.append_nil _).symm⟩
      · -- with nothing to read there is no round
        have hpending : s.conn.receive s.clientMsg = none :=
          receive_pending s.clientMsg hitems List.not_mem_nil (by decide)
        rw [senderRound, hpending] at hround
        cases hround
  | cons text texts ih =>
      intro s final part n rounds hfits hitems hpart hrun
      obtain ⟨hn, hlen⟩ := hfits text List.mem_cons_self
      have hfits' : ∀ t ∈ texts, Fits t := fun t ht => hfits t (List.mem_cons_of_mem _ ht)
      rw [List.flatMap_cons] at hpart
      rcases chatWithSender_cases hrun with ⟨rfl, rfl⟩ | ⟨m, round, rest, s₁, -, -, -, hround,
        hrest, rfl⟩
      · exact ⟨List.nil_prefix, [], List.nil_prefix, (List.append_nil _).symm⟩
      rcases senderRound_cases hround with ⟨msg, conn, hreceive, rfl, rfl⟩ |
        ⟨msg, conn, sent, conn', hreceive, hsend, rfl, rfl⟩
      · -- the line is no message, and the loop goes on
        obtain ⟨fdbuf, part', haccept, -, hmore, hleft⟩ :=
          receive_part hreceive hitems hpart hn hlen
        obtain ⟨rfl, rfl, houtput, htag⟩ := accept_cases haccept
        obtain ⟨hrounds, written, hwritten, houtput'⟩ := ih hfits' hleft hmore hrest
        rw [serve_silent (by simpa using htag), List.prefix_cons_inj]
        exact ⟨hrounds, written, hwritten, houtput'.trans (by rw [← houtput])⟩
      · obtain ⟨fdbuf, part', haccept, -, hmore, hleft⟩ :=
          receive_part hreceive hitems hpart hn hlen
        obtain ⟨rfl, rfl, houtput, htag⟩ := accept_cases haccept
        obtain ⟨written, hpartial, hall, houtput₁, hfdbuf, -⟩ := send_part hsend
        rw [serve_request (htag.mp rfl), List.prefix_cons_inj]
        by_cases hleave : ((handleRequest s.user (lineMessage text)).exitCase || !sent) = true
        · -- a quit, or a reply that was not sent: no round follows
          have hover := (chatWithSender_exit hleave).symm.trans hrest
          obtain ⟨rfl, rfl⟩ := Prod.mk.inj (Option.some.inj hover)
          refine ⟨List.nil_prefix, written, ?_, ?_⟩
          · simpa [replies] using hpartial
          · rw [← houtput]
            exact houtput₁
        · rw [Bool.not_eq_true, Bool.or_eq_false_iff, Bool.not_eq_false'] at hleave
          obtain ⟨hexit, rfl⟩ := hleave
          obtain rfl := hall rfl
          rw [hexit, if_neg Bool.false_ne_true]
          obtain ⟨hrounds, written, hwritten, houtput₂⟩ := ih hfits' (hfdbuf ▸ hleft) hmore hrest
          refine ⟨hrounds, encode (handleRequest s.user (lineMessage text)).reply ++ written, ?_, ?_⟩
          · simpa [replies] using hwritten
          · rw [houtput₂, houtput₁, houtput, List.append_assoc]

/-! ## The client -/

/-- The lines that the next `n` rounds read. -/
def nextLines : ℕ → Istream UInt8 → List Str
  | 0, _ => []
  | n + 1, cin => (getline 10 cin []).1 :: nextLines n (getline 10 cin []).2

/-- What the client makes of the result of `receive`. -/
def SenderClient.heed (s : SenderClient) (ok : Bool) (received : Message) (loopExitCase : Bool) :
    Turn SenderClient :=
  let again := fun (s : SenderClient) =>
    if loopExitCase then Turn.exit (.status 0) s else Turn.next s
  if ok then
    if received.tag = tagErr then again (s.complain received.data)
    else if received.tag ≠ tagOk then
      .exit (.status 7) (s.complain (ascii "unexpected server response tag"))
    else again s
  else if !s.conn.isOpen then
    .exit (.status 8) (s.complain (ascii "could not receive due to EOF or Error"))
  else again (s.complain (ascii "could not receive due to invalid format"))

section

variable {s : SenderClient} {turn : Turn SenderClient} {msg reply : Message}
  {ok loopExitCase : Bool} {part more : Str}

/-- An exchange ends the client, or sends its request and heeds what it receives. -/
theorem exchange_cases (h : s.exchange msg loopExitCase = some turn) :
    (∃ conn, s.conn.send msg = some (false, conn) ∧ turn = .exit (.status 6)
      (({ s with conn := conn } : SenderClient).complain
        (ascii "Error: cannot send message.\n"))) ∨
    ∃ conn ok received conn', s.conn.send msg = some (true, conn) ∧
      conn.receive { tag := [], data := [] } = some (ok, received, conn') ∧
      turn = ({ s with conn := conn' } : SenderClient).heed ok received loopExitCase := by
  obtain ⟨⟨sent, conn⟩, hsend, h⟩ := Option.bind_eq_some_iff.mp h
  cases sent with
  | false =>
      obtain rfl := Option.some.inj h
      exact .inl ⟨conn, hsend, rfl⟩
  | true =>
      obtain ⟨⟨ok, received, conn'⟩, hreceive, h⟩ := Option.bind_eq_some_iff.mp h
      refine .inr ⟨conn, ok, received, conn', hsend, hreceive, ?_⟩
      unfold SenderClient.heed
      simp only at h ⊢
      split_ifs at h ⊢ <;> exact (Option.some.inj h).symm

/-- Heeding a reply leaves the input and the connection, and goes on only if the loop does. -/
theorem heed_state (s : SenderClient) (ok : Bool) (received : Message) (loopExitCase : Bool) :
    (s.heed ok received loopExitCase).state.cin = s.cin ∧
      (s.heed ok received loopExitCase).state.conn = s.conn ∧
      ((s.heed ok received loopExitCase).ended = none → loopExitCase = false) := by
  unfold SenderClient.heed
  simp only
  split_ifs <;> simp_all [Turn.state, Turn.ended, SenderClient.complain]

@[simp] theorem complain_cin (s : SenderClient) (text : Str) : (s.complain text).cin = s.cin := rfl

@[simp] theorem complain_conn (s : SenderClient) (text : Str) :
    (s.complain text).conn = s.conn := rfl

@[simp] theorem complain_cerr (s : SenderClient) (text : Str) :
    (s.complain text).cerr = s.cerr ++ text := rfl

/-- A reply with a tag that the worker uses is printed if it is an err. -/
theorem heed_reply (hreply : reply.tag = tagOk ∨ reply.tag = tagErr) :
    s.heed true (received reply) loopExitCase =
      if loopExitCase then .exit (.status 0) (s.complain (remark reply))
      else .next (s.complain (remark reply)) := by
  have hnothing : s.complain [] = s := by
    unfold SenderClient.complain
    rw [List.append_nil]
  unfold SenderClient.heed remark
  rcases hreply with htag | htag
  · simp [received, htag, hnothing]
  · simp [received, htag]

/-- Whatever is read, an exchange writes a part of its request, and all of it if the loop goes
on. -/
theorem exchange_part (h : s.exchange msg loopExitCase = some turn) :
    turn.state.cin = s.cin ∧ ∃ written, written <+: encode msg ∧
      turn.state.conn.output = s.conn.output ++ written ∧
      (turn.ended = none → written = encode msg ∧ loopExitCase = false) := by
  rcases exchange_cases h with ⟨conn, hsend, rfl⟩ | ⟨conn, ok, received, conn', hsend, hreceive, rfl⟩
  · obtain ⟨written, hpart, -, houtput, -, -⟩ := send_part hsend
    exact ⟨rfl, written, hpart, houtput, fun hgo => absurd hgo (by simp [Turn.ended])⟩
  · obtain ⟨written, hpart, hall, houtput, -, -⟩ := send_part hsend
    obtain ⟨hcin, hconn, hgo⟩ :=
      heed_state { s with conn := conn' } ok received loopExitCase
    refine ⟨hcin, written, hpart, ?_, fun hnone => ⟨hall rfl, hgo hnone⟩⟩
    rw [hconn, ← houtput]
    exact (receive_output hreceive).1

/-- An exchange whose reply is the next message of the stream. -/
theorem exchange_answered (hw : s.conn.Writable) (hp : Plain reply)
    (hlen : (encode reply).length < maxLen) (hreply : reply.tag = tagOk ∨ reply.tag = tagErr)
    (hitems : s.conn.fdbuf.items = part.map .byte) (hpart : part <+: encode reply ++ more)
    (h : s.exchange msg loopExitCase = some turn) :
    ∃ conn part', turn = (if loopExitCase then
        .exit (.status 0) ({ s with conn := conn }.complain (remark reply))
      else .next ({ s with conn := conn }.complain (remark reply))) ∧
      part = encode reply ++ part' ∧ part' <+: more ∧ conn.fdbuf.items = part'.map .byte ∧
      conn.Writable ∧ conn.output = s.conn.output ++ encode msg := by
  rcases exchange_cases h with ⟨conn, hsend, -⟩ | ⟨conn, ok, received, conn', hsend, hreceive, rfl⟩
  · exact absurd (hw.send hsend).1 Bool.false_ne_true
  · obtain ⟨written, -, hall, houtput, hfdbuf, -⟩ := send_part hsend
    obtain ⟨fdbuf, part', hresult, hsplit, hmore, hleft⟩ :=
      receive_message hp hlen hreceive (hfdbuf ▸ hitems) hpart
    obtain ⟨rfl, rfl, rfl⟩ : ok = true ∧ received = Csf.Chat.received reply ∧ conn' = _ := by
      simpa using hresult
    refine ⟨_, part', heed_reply hreply, hsplit, hmore, hleft, (hw.send hsend).2, ?_⟩
    rw [houtput, hall rfl]

theorem nextLines_succ (n : ℕ) (s : SenderClient) : nextLines (n + 1) s.cin =
    s.line :: nextLines n (getline 10 s.cin []).2 := rfl

theorem rounds_succ {S : Type} {round : S → Option (Turn S)} {n : ℕ} {s : S} {turn : Turn S}
    (h : rounds round (n + 1) s = some turn) :
    ∃ first, round s = some first ∧ first.andThen (rounds round n) = some turn :=
  Option.bind_eq_some_iff.mp h

/-- A loop that has ended stays as it is. -/
theorem andThen_cases {S : Type} {f : S → Option (Turn S)} {first turn : Turn S}
    (h : first.andThen f = some turn) :
    (∃ how s, first = .exit how s ∧ turn = .exit how s) ∨
      ∃ s, first = .next s ∧ f s = some turn := by
  cases first with
  | next s => exact .inr ⟨s, rfl, h⟩
  | exit how s => exact .inl ⟨how, s, rfl, (Option.some.inj h).symm⟩

/-- Whatever the client reads, it writes a part of the requests for its lines. -/
theorem rounds_part : ∀ {n : ℕ} {s : SenderClient} {turn : Turn SenderClient},
    rounds SenderClient.round n s = some turn →
    ∃ written, written <+: (requestsFor (nextLines n s.cin)).flatMap encode ∧
      turn.state.conn.output = s.conn.output ++ written := by
  intro n
  induction n with
  | zero =>
      intro s turn h
      obtain rfl := Option.some.inj h
      exact ⟨[], List.nil_prefix, (List.append_nil _).symm⟩
  | succ n ih =>
      intro s turn h
      obtain ⟨first, hround, hmore⟩ := rounds_succ h
      rw [round_eq] at hround
      rw [nextLines_succ]
      cases hcommand : command s.line with
      | send msg loopExitCase =>
          simp only [hcommand] at hround
          obtain ⟨hcin, written, hpart, houtput, hgo⟩ := exchange_part hround
          rw [requestsFor_send hcommand, List.flatMap_cons]
          rcases andThen_cases hmore with ⟨how, s', rfl, rfl⟩ | ⟨s', rfl, hmore⟩
          · exact ⟨written, hpart.trans (List.prefix_append _ _), houtput⟩
          · obtain ⟨rfl, rfl⟩ := hgo rfl
            obtain ⟨written, hpart, houtput'⟩ := ih hmore
            have hlines : nextLines n s'.cin = nextLines n (getline 10 s.cin []).2 :=
              congrArg (nextLines n) hcin
            rw [hlines] at hpart
            refine ⟨encode msg ++ written, (List.prefix_append_right_inj _).mpr hpart, ?_⟩
            rw [houtput', ← List.append_assoc]
            exact congrArg (· ++ written) houtput
      | invalid =>
          simp only [hcommand] at hround
          obtain rfl := Option.some.inj hround
          rw [requestsFor_invalid hcommand]
          exact ih hmore
      | outOfRange =>
          simp only [hcommand] at hround
          obtain rfl := Option.some.inj hround
          obtain rfl := Option.some.inj hmore
          exact ⟨[], List.nil_prefix, (List.append_nil _).symm⟩

/-- The replies of the worker are short messages of the protocol. -/
theorem handleRequest_plain (user : User) (msg : Message) :
    Plain (handleRequest user msg).reply ∧
      (encode (handleRequest user msg).reply).length < maxLen := by
  have hreply : ∀ reply : Message, (reply.tag ∈ standardTags ∧ 10 ∉ reply.data ∧
      0 ∉ reply.data ∧ reply.tag.length + reply.data.length + 2 < maxLen) →
      Plain reply ∧ (encode reply).length < maxLen := by
    rintro reply ⟨htag, hnewline, hnul, hlen⟩
    exact plain_and_short htag hnewline hnul hlen
  apply hreply
  unfold handleRequest
  split_ifs <;> simp only <;> decide

/-- On a part of the worker's replies, the rounds that return are those of the two sides without
the connection, and they have read all the replies. -/
theorem rounds_answered : ∀ {n : ℕ} {s : SenderClient} {user : User} {part : Str}
    {turn : Turn SenderClient}, s.conn.Writable → s.conn.fdbuf.items = part.map .byte →
    part <+: (replies (serve user (requestLines (nextLines n s.cin)))).flatMap encode →
    rounds SenderClient.round n s = some turn →
    turn.ended = ending (nextLines n s.cin) ∧
      turn.state.cerr = s.cerr ++
        shown (nextLines n s.cin) (replies (serve user (requestLines (nextLines n s.cin)))) ∧
      turn.state.conn.output =
        s.conn.output ++ (requestsFor (nextLines n s.cin)).flatMap encode ∧
      part = (replies (serve user (requestLines (nextLines n s.cin)))).flatMap encode := by
  intro n
  induction n with
  | zero =>
      intro s user part turn _ _ hpart h
      obtain rfl := Option.some.inj h
      obtain rfl := List.prefix_nil.mp hpart
      exact ⟨rfl, (List.append_nil _).symm, (List.append_nil _).symm, rfl⟩
  | succ n ih =>
      intro s user part turn hw hitems hpart h
      obtain ⟨first, hround, hmore⟩ := rounds_succ h
      rw [round_eq] at hround
      rw [nextLines_succ] at hpart ⊢
      cases hcommand : command s.line with
      | send msg loopExitCase =>
          simp only [hcommand] at hround
          rw [serve_requests hcommand] at hpart ⊢
          obtain ⟨hplain, hlen⟩ := handleRequest_plain user (lineMessage msg.line)
          have hreply := handleRequest_reply user (lineMessage msg.line)
          obtain ⟨conn, part', hfirst, rfl, hpart', hleft, hw', houtput⟩ :=
            exchange_answered (s := { s with cin := (getline 10 s.cin []).2 }) hw hplain hlen
              hreply hitems hpart hround
          rw [requestsFor_send hcommand]
          cases loopExitCase with
          | true =>
              -- a quit is the last request, and its reply the last one
              obtain rfl : first = .exit (.status 0) _ := hfirst
              obtain rfl := Option.some.inj hmore
              obtain rfl := List.prefix_nil.mp hpart'
              refine ⟨?_, ?_, ?_, ?_⟩
              · simp [ending, hcommand, Turn.ended]
              · simp [shown, hcommand, replies, Turn.state, SenderClient.complain]
              · simpa [Turn.state, SenderClient.complain] using houtput
              · simp [replies]
          | false =>
              obtain rfl : first = .next _ := hfirst
              obtain ⟨hended, hcerr, houtput', hall⟩ := ih hw' hleft hpart' hmore
              refine ⟨?_, ?_, ?_, ?_⟩
              · simpa [ending, hcommand] using hended
              · rw [hcerr]
                simp [shown, hcommand, replies]
              · rw [houtput']
                simp [houtput]
              · rw [hall]
                simp [replies]
      | invalid =>
          simp only [hcommand] at hround
          obtain rfl := Option.some.inj hround
          rw [requestLines, requestsFor_invalid hcommand] at hpart ⊢
          obtain ⟨hended, hcerr, houtput, hall⟩ :=
            ih (s := ({ s with cin := (getline 10 s.cin []).2 } : SenderClient).complain
              (ascii "Error: invalid command\n")) hw hitems hpart hmore
          refine ⟨?_, ?_, houtput, hall⟩
          · rw [hended, ending, hcommand]
            rfl
          · rw [hcerr, shown_invalid hcommand, complain_cerr, List.append_assoc]
            rfl
      | outOfRange =>
          simp only [hcommand] at hround
          obtain rfl := Option.some.inj hround
          obtain rfl := Option.some.inj hmore
          rw [requestLines, requestsFor_outOfRange hcommand] at hpart ⊢
          obtain rfl := List.prefix_nil.mp hpart
          refine ⟨?_, ?_, (List.append_nil _).symm, rfl⟩
          · rw [ending, hcommand]
            rfl
          · rw [shown_outOfRange hcommand, List.append_nil]
            rfl

end

/-! ## Rounds that return -/

/-- A message that the socket takes. -/
theorem SendsSucceed.send {c : Connection} {msg : Message} {msgs : List Message}
    (h : SendsSucceed c.writes (msg :: msgs)) :
    ∃ conn, c.send msg = some (true, conn) ∧ conn.fdbuf = c.fdbuf ∧
      conn.output = c.output ++ encode msg ∧ SendsSucceed conn.writes msgs := by
  obtain ⟨written, writes, hwrite, hmore⟩ := h
  exact ⟨_, send_of_rioWriten hwrite, rfl, rfl, hmore⟩

end Csf.Chat
