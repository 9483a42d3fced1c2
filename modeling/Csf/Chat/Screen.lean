import Csf.Chat.Receivers
import Csf.Chat.ReceiverLoop
import Csf.Chat.Requests

/-!
# Chat: what a receiver shows

The receiver client and its worker, each run on what it has read so far, and the worker as one
of the server's threads. What is on the screen are the broadcasts that the room has seen since
the worker joined it, the first of them, each as it is to be printed.
-/

namespace Csf.Chat

open Csf.Lib

/-! ## The rounds of the client -/

/-- A broadcast that is received as one delivery and taken apart as it was put together: there
are no colons in it but the two that separate its strings. -/
structure Broadcast.Fits (d : Broadcast) : Prop where
  named : d.Named
  text : 58 ∉ d.messageText
  length : (encode d.message).length < maxLen

/-- Such a broadcast is printed whole, whatever is left in the client of earlier ones. -/
theorem deliver_shown {d : Broadcast} (h : d.Fits) (r : ReceiverClient) :
    (r.deliver d.roomName (d.fields (d.messageText ++ [10]))).cout = r.cout ++ d.shown ∧
      (r.deliver d.roomName (d.fields (d.messageText ++ [10]))).cerr = r.cerr ∧
      (r.deliver d.roomName (d.fields (d.messageText ++ [10]))).conn = r.conn := by
  obtain ⟨hnamed, hcolon, -⟩ := h
  have hend : 58 ∉ d.messageText ++ [10] := by simpa using hcolon
  obtain ⟨hcout, hcerr⟩ := deliver_fields (r := r) hnamed (d.messageText ++ [10])
  refine ⟨?_, hcerr, ?_⟩
  · rw [hcout, getline_end hend]
    simp [Broadcast.shown]
  · unfold ReceiverClient.deliver
    simp only [ReceiverClient.print]
    split <;> rfl

/-- On a part of a stream of deliveries, the rounds that return have printed one each. -/
theorem rounds_shown {roomName : Str} : ∀ {n : ℕ} {ds : List Broadcast} {r : ReceiverClient}
    {part : Str} {turn : Turn ReceiverClient}, (∀ d ∈ ds, d.Fits ∧ d.roomName = roomName) →
    r.conn.fdbuf.items = part.map .byte → part <+: ds.flatMap (fun d => encode d.message) →
    rounds (ReceiverClient.round roomName) n r = some turn →
    n ≤ ds.length ∧ turn.ended = none ∧ turn.state.cerr = r.cerr ∧
      turn.state.cout = r.cout ++ (ds.take n).flatMap Broadcast.shown := by
  intro n
  induction n with
  | zero =>
      intro ds r part turn _ _ _ h
      obtain rfl := Option.some.inj h
      exact ⟨Nat.zero_le _, rfl, rfl, (List.append_nil _).symm⟩
  | succ n ih =>
      intro ds r part turn hfits hitems hpart h
      obtain ⟨first, hround, hmore⟩ := rounds_succ h
      obtain ⟨⟨ok, response, conn⟩, hreceive, hturn⟩ := Option.map_eq_some_iff.mp hround
      cases ds with
      | nil =>
          obtain rfl := List.prefix_nil.mp hpart
          have hpending : r.conn.receive { tag := [], data := [] } = none :=
            receive_pending _ hitems List.not_mem_nil (by decide)
          rw [hpending] at hreceive
          cases hreceive
      | cons d ds =>
          obtain ⟨hd, rfl⟩ := hfits d List.mem_cons_self
          rw [List.flatMap_cons] at hpart
          obtain ⟨fdbuf, part', hresult, -, hpart', hleft⟩ :=
            receive_message hd.named.plain hd.length hreceive hitems hpart
          obtain ⟨rfl, rfl, hfdbuf⟩ :
              ok = true ∧ response = received d.message ∧ conn.fdbuf = fdbuf := by
            rw [Prod.mk.injEq, Prod.mk.injEq] at hresult
            exact ⟨hresult.1, hresult.2.1, by rw [hresult.2.2]⟩
          rw [received_message] at hreceive
          obtain rfl := Option.some.inj (hround.symm.trans (round_delivery hreceive d.roomName))
          obtain ⟨hcout, hcerr, hconn⟩ := deliver_shown hd { r with conn := conn }
          obtain ⟨hle, hended, hcerr', hcout'⟩ :=
            ih (fun d' h' => hfits d' (List.mem_cons_of_mem _ h'))
              (by rw [hconn, hfdbuf]; exact hleft) hpart' hmore
          refine ⟨Nat.succ_le_succ hle, hended, hcerr'.trans hcerr, ?_⟩
          rw [hcout', hcout, List.take_succ_cons, List.flatMap_cons, List.append_assoc]

/-- The rounds of a receiver write nothing. -/
theorem rounds_output {roomName : Str} : ∀ {n : ℕ} {r : ReceiverClient}
    {turn : Turn ReceiverClient}, rounds (ReceiverClient.round roomName) n r = some turn →
    turn.state.conn.output = r.conn.output := by
  intro n
  induction n with
  | zero =>
      intro r turn h
      obtain rfl := Option.some.inj h
      rfl
  | succ n ih =>
      intro r turn h
      obtain ⟨first, hround, hmore⟩ := rounds_succ h
      have hfirst : first.state.conn.output = r.conn.output := by
        obtain ⟨⟨ok, response, conn⟩, hreceive, rfl⟩ := Option.map_eq_some_iff.mp hround
        have hconn := (receive_output hreceive).1
        simp only
        split_ifs
        · unfold ReceiverClient.deliver
          simp only [Turn.state]
          split_ifs <;> exact hconn
        all_goals exact hconn
      rcases andThen_cases hmore with ⟨how, r', rfl, rfl⟩ | ⟨r', rfl, hmore⟩
      · exact hfirst
      · exact (ih hmore).trans hfirst

/-! ## The whole programs -/

/-- The requests of a receiver. -/
def receiverLogin (username : Str) : Message := { tag := tagRlogin, data := username }

def joinRequest (roomName : Str) : Message := { tag := tagJoin, data := roomName }

/-- The answer to the join. -/
def joinReply : Message := { tag := tagOk, data := ascii "Joined room welcome to the party" }

section

variable {username roomName part : Str} {n m : ℕ} {c : Connection}

/-- A name of a room that a join has room for. -/
structure RoomFits (roomName : Str) : Prop where
  newline : 10 ∉ roomName
  nul : 0 ∉ roomName
  length : roomName.length + 6 < maxLen

theorem RoomFits.plain (h : RoomFits roomName) :
    Plain (joinRequest roomName) ∧ (encode (joinRequest roomName)).length < maxLen := by
  refine plain_and_short (by decide) h.newline h.nul ?_
  have hlen := h.length
  show 4 + roomName.length + 2 < maxLen
  omega

theorem NameFits.plain_receiver (h : NameFits username) :
    Plain (receiverLogin username) ∧ (encode (receiverLogin username)).length < maxLen := by
  refine plain_and_short (by decide) h.newline h.nul ?_
  have hlen := h.length
  show 6 + username.length + 2 < maxLen
  omega

theorem plain_joinReply : Plain joinReply ∧ (encode joinReply).length < maxLen :=
  plain_and_short (by decide) (by decide) (by decide) (by decide)

/-- A request asks, and goes on if the answer is an ok. -/
theorem request_cases {r : ReceiverClient} {msg : Message} {turn : Turn ReceiverClient}
    (h : r.request msg = some turn) :
    ∃ response conn', r.conn.ask msg = some (response, conn') ∧ turn.state.conn = conn' ∧
      (response.tag = tagOk → turn = .next { r with conn := conn' }) := by
  obtain ⟨⟨response, conn'⟩, hask, rfl⟩ := Option.map_eq_some_iff.mp h
  refine ⟨response, conn', hask, ?_, ?_⟩
  · simp only
    split_ifs <;> rfl
  · intro htag
    simp [htag]

/-- Whatever the client reads, it writes a part of its two requests. -/
theorem receiver_part {turn : Turn ReceiverClient} (hw : c.Writable)
    (h : receiver n username roomName c = some turn) :
    ∃ written, written <+: encode (receiverLogin username) ++ encode (joinRequest roomName) ∧
      turn.state.conn.output = c.output ++ written := by
  obtain ⟨first, hlogin, h⟩ := Option.bind_eq_some_iff.mp h
  obtain ⟨second, hjoin, hmore⟩ := Option.bind_eq_some_iff.mp h
  obtain ⟨response, conn, hask, hconn, -⟩ := request_cases hlogin
  obtain ⟨-, -, -, -, -, houtput, hw'⟩ := ask_cases hw hask
  rcases andThen_cases hjoin with ⟨how, r, rfl, rfl⟩ | ⟨r, rfl, hjoin⟩
  · obtain rfl := Option.some.inj hmore
    exact ⟨_, List.prefix_append _ _, (congrArg _ hconn).trans houtput⟩
  · obtain rfl : r.conn = conn := hconn
    obtain ⟨response', conn', hask', hconn', -⟩ := request_cases hjoin
    obtain ⟨-, -, -, -, -, houtput', -⟩ := ask_cases hw' hask'
    have hall : second.state.conn.output =
        c.output ++ (encode (receiverLogin username) ++ encode (joinRequest roomName)) := by
      rw [hconn', houtput', houtput, List.append_assoc]
      rfl
    refine ⟨_, List.prefix_rfl, ?_⟩
    rcases andThen_cases hmore with ⟨how, r', rfl, rfl⟩ | ⟨r', rfl, hmore⟩
    · exact hall
    · exact (rounds_output hmore).trans hall

/-- On a part of what the worker writes, the client prints one delivery a round. -/
theorem receiver_shown {ds : List Broadcast} {turn : Turn ReceiverClient} (hw : c.Writable)
    (hname : NameFits username)
    (hfits : ∀ d ∈ ds, d.Fits ∧ d.roomName = roomName) (hitems : c.fdbuf.items = part.map .byte)
    (hpart : part <+: encode (loginConfirmation username) ++ (encode joinReply ++
      ds.flatMap fun d => encode d.message))
    (h : receiver n username roomName c = some turn) :
    n ≤ ds.length ∧ turn.ended = none ∧ turn.state.cerr = [] ∧
      turn.state.cout = (ds.take n).flatMap Broadcast.shown := by
  obtain ⟨first, hlogin, h⟩ := Option.bind_eq_some_iff.mp h
  obtain ⟨second, hjoin, hmore⟩ := Option.bind_eq_some_iff.mp h
  obtain ⟨response, conn, hask, -, hgo⟩ := request_cases hlogin
  obtain ⟨hplain, hlen⟩ := hname.plain_confirmation
  obtain ⟨rfl, hw', part', -, hpart', hleft⟩ := ask_answered hw hplain hlen hitems hpart hask
  obtain rfl := hgo rfl
  obtain ⟨response', conn', hask', -, hgo'⟩ := request_cases hjoin
  obtain ⟨hplain', hlen'⟩ := plain_joinReply
  obtain ⟨rfl, -, part'', -, hpart'', hleft'⟩ :=
    ask_answered hw' hplain' hlen' hleft hpart' hask'
  obtain rfl := hgo' rfl
  exact rounds_shown hfits hleft' hpart'' hmore

/-- While no write fails, the loop of the worker goes on. -/
theorem deliverLoop_open : ∀ {results : List (Option Message)} {c c' : Connection},
    c.Writable → c.isOpen = true → deliverLoop results c = some c' → c'.isOpen = true := by
  intro results
  induction results with
  | nil =>
      intro c c' _ hopen h
      obtain rfl := Option.some.inj h
      exact hopen
  | cons result results ih =>
      intro c c' hw hopen h
      cases result with
      | none =>
          simp only [deliverLoop, hopen, if_true] at h
          exact ih hw hopen h
      | some broadcast =>
          simp only [deliverLoop, hopen, if_true] at h
          obtain ⟨⟨sent, conn⟩, hsend, h⟩ := Option.bind_eq_some_iff.mp h
          obtain ⟨rfl, hw'⟩ := hw.send hsend
          obtain ⟨-, -, -, -, -, hopen'⟩ := send_part hsend
          exact ih hw' hopen' h

/-- On a part of what the client writes, the worker lets it join and sends what it dequeues. -/
theorem worker_delivers {user : User} {join : Round} {joined : Option User}
    {conn final : Connection} {results : List (Option Message)} (hw : c.Writable)
    (hname : NameFits username) (hroom : RoomFits roomName)
    (hitems : c.fdbuf.items = part.map .byte)
    (hpart : part <+: encode (receiverLogin username) ++ encode (joinRequest roomName))
    (h : worker m c = some (.receiver user join joined conn))
    (hdeliver : deliverLoop results conn = some final) :
    joined = some { username := username, roomName := roomName } ∧
      join.calls = [.findOrCreateRoom roomName, .addMember roomName] ∧
      final.output = c.output ++ (encode (loginConfirmation username) ++ (encode joinReply ++
        results.reduceOption.flatMap encode)) := by
  obtain ⟨⟨ok, login, c₁⟩, hreceive, h⟩ := Option.bind_eq_some_iff.mp h
  obtain ⟨hplain, hlen⟩ := hname.plain_receiver
  obtain ⟨fdbuf, part', hresult, -, hmore, hleft⟩ :=
    receive_message hplain hlen hreceive hitems hpart
  rw [Prod.mk.injEq, Prod.mk.injEq] at hresult
  obtain ⟨rfl, rfl, rfl⟩ := hresult
  have hdata : (received (receiverLogin username)).data.dropLast = username := by
    simp [received, receiverLogin]
  have htag : (received (receiverLogin username)).tag = tagRlogin := rfl
  simp only [if_true, htag, hdata] at h
  obtain ⟨⟨sent, c₂⟩, hsend, h⟩ := Option.bind_eq_some_iff.mp h
  obtain ⟨⟨join₁, joined₁, conn₁⟩, hjoin, h⟩ := Option.bind_eq_some_iff.mp h
  have hsession := Option.some.inj h
  rw [Session.receiver.injEq] at hsession
  obtain ⟨rfl, rfl, rfl, rfl⟩ := hsession
  obtain ⟨rfl, hw₂⟩ :=
    Connection.Writable.send (c := { c with fdbuf := fdbuf, lastResult := .success }) hw hsend
  obtain ⟨houtput, hfdbuf, -⟩ := send_output hsend
  obtain ⟨⟨ok', msg, c₃⟩, hreceive', hjoin⟩ := Option.bind_eq_some_iff.mp hjoin
  obtain ⟨hplain', hlen'⟩ := hroom.plain
  obtain ⟨fdbuf', part'', hresult', -, -, -⟩ := receive_message hplain' hlen' hreceive'
    (by rw [hfdbuf]; exact hleft) (by rw [List.append_nil]; exact hmore)
  rw [Prod.mk.injEq, Prod.mk.injEq] at hresult'
  obtain ⟨rfl, rfl, rfl⟩ := hresult'
  have hne : (received (joinRequest roomName)).data ≠ [] := by simp [received]
  have hdata' : (received (joinRequest roomName)).data.dropLast = roomName := by
    simp [received, joinRequest]
  simp only at hjoin
  rw [if_pos ⟨trivial, rfl, hne⟩, hdata'] at hjoin
  obtain ⟨⟨sent', c₄⟩, hsend', hjoin⟩ := Option.bind_eq_some_iff.mp hjoin
  have hresult := Option.some.inj hjoin
  rw [Prod.mk.injEq, Prod.mk.injEq] at hresult
  obtain ⟨rfl, rfl, rfl⟩ := hresult
  obtain ⟨rfl, hw₄⟩ := Connection.Writable.send
    (c := { c₂ with fdbuf := fdbuf', lastResult := .success }) hw₂ hsend'
  obtain ⟨houtput', -, hlast⟩ := send_output hsend'
  have hopen : c₄.isOpen = true := by simp [Connection.isOpen, hlast]
  refine ⟨rfl, rfl, ?_⟩
  rw [deliverLoop_output hdeliver hopen (deliverLoop_open hw₄ hopen hdeliver), houtput', houtput]
  simp only [List.append_assoc]
  rfl

end

/-! ## The screen -/

section

variable {W : Type} [LinearOrder W] {s : State W} {h : List (Event W)} {w u : W}

/-- The broadcast that is made with an event. -/
def Event.made : Event W → Option Broadcast
  | .broadcast _ t senderUsername messageText =>
      some { roomName := t.name, senderUsername := senderUsername, messageText := messageText }
  | _ => none

/-- The broadcasts that `u` is to get. -/
def heardBroadcasts (u : W) (h : List (Event W)) : List Broadcast :=
  (heard u h).filterMap fun i => (h[i]?).bind Event.made

theorem deliveries_heard (u : W) (h : List (Event W)) :
    deliveries h (heard u h) = (heardBroadcasts u h).map Broadcast.message := by
  have hdelivered : ∀ e : Event W, e.delivered = e.made.map Broadcast.message := by
    intro e
    cases e <;> rfl
  rw [deliveries, heardBroadcasts, List.map_filterMap]
  congr 1
  funext i
  cases h[i]? with
  | none => rfl
  | some e => exact hdelivered e

/-- The room that `u` is in is one that it was added to. -/
theorem add_of_memberOf {name : Str} (hmember : memberOf u h = some name) :
    ∃ t, Event.add u t ∈ h ∧ t.name = name := by
  induction h using List.reverseRecOn with
  | nil => exact absurd hmember (by simp [memberOf])
  | append_singleton h e ih =>
      have hbefore : memberOf u h = some name → ∃ t, Event.add u t ∈ h ++ [e] ∧ t.name = name := by
        intro hname
        obtain ⟨t, hadd, htarget⟩ := ih hname
        exact ⟨t, List.mem_append_left _ hadd, htarget⟩
      rw [memberOf_append] at hmember
      have hlast : Event.memberOf u (memberOf u h) e = some name := hmember
      cases e with
      | add user t =>
          have hstep : (if user = u then some t.name else memberOf u h) = some name := hlast
          by_cases huser : user = u
          · rw [if_pos huser] at hstep
            exact ⟨t, by simp [huser], Option.some.inj hstep⟩
          · rw [if_neg huser] at hstep
            exact hbefore hstep
      | remove user t =>
          have hstep : (if user = u then none else memberOf u h) = some name := hlast
          by_cases huser : user = u
          · rw [if_pos huser] at hstep
            exact absurd hstep (by simp)
          · rw [if_neg huser] at hstep
            exact hbefore hstep
      | broadcast worker t senderUsername messageText => exact hbefore hlast
      | dequeue user msg => exact hbefore hlast

/-- A broadcast that `u` is to get is one to a room that it was added to. -/
theorem room_of_heard {d : Broadcast} (hd : d ∈ heardBroadcasts u h) :
    ∃ t, Event.add u t ∈ h ∧ t.name = d.roomName := by
  obtain ⟨i, hi, hmade⟩ := List.mem_filterMap.mp hd
  obtain ⟨worker, t, senderUsername, messageText, hevent, hmember⟩ := mem_heard.mp hi
  rw [hevent] at hmade
  obtain rfl := Option.some.inj hmade
  obtain ⟨t', hadd, hname⟩ := add_of_memberOf hmember
  exact ⟨t', List.mem_of_mem_take hadd, hname⟩

variable {username roomName : Str} {n m : ℕ} {reads reads' : List ReadResult}
  {writes writes' : List WriteResult} {turn : Turn ReceiverClient} {user : User} {join : Round}
  {joined : Option User} {conn final : Connection} {results : List (Option Message)}

/-- **The screen.** However far a receiver's client and its worker have come on their own, and
whatever the other workers do meanwhile: what the client has printed in `n` rounds are the first
`n` of the broadcasts that its room has seen since the worker joined it, in the order in which
the room has seen them, each once. Where a broadcast has a colon in it or does not fit a line,
this is not so: the client takes it apart in another way. -/
theorem screen (hrun : (server W).Run h s) (hname : NameFits username) (hroom : RoomFits roomName)
    (hfits : ∀ d ∈ heardBroadcasts u h, d.Fits)
    (hwrites : .nothing false ∉ writes) (hwrites' : .nothing false ∉ writes')
    (hclient : receiver n username roomName (.new reads writes) = some turn)
    (hworker : worker m (.new reads' writes') = some (.receiver user join joined conn))
    (hadds : ∀ t, Event.add u t ∈ h → Call.addMember t.name ∈ join.calls)
    (hdeliver : deliverLoop results conn = some final)
    (hqueue : results.reduceOption <+: dequeued u h)
    (hreads : ReadsFrom reads final.output) (hreads' : ReadsFrom reads' turn.state.conn.output) :
    joined = some { username := username, roomName := roomName } ∧
      n ≤ (heardBroadcasts u h).length ∧ turn.ended = none ∧ turn.state.cerr = [] ∧
      turn.state.cout = ((heardBroadcasts u h).take n).flatMap Broadcast.shown := by
  have hw : (Connection.new reads writes).Writable := hwrites
  have hw' : (Connection.new reads' writes').Writable := hwrites'
  obtain ⟨part, hpart, hitems⟩ := hreads
  obtain ⟨part', hpart', hitems'⟩ := hreads'
  obtain ⟨sent, hsent, houtput⟩ := receiver_part hw hclient
  obtain rfl : turn.state.conn.output = sent := houtput
  obtain ⟨rfl, hcalls, houtput'⟩ :=
    worker_delivers hw' hname hroom hitems' (hpart'.trans hsent) hworker hdeliver
  -- the broadcasts are those of the room that the client has asked for
  have hrooms : ∀ d ∈ heardBroadcasts u h, d.Fits ∧ d.roomName = roomName := by
    intro d hd
    refine ⟨hfits d hd, ?_⟩
    obtain ⟨t, hadd, htarget⟩ := room_of_heard hd
    have hcall := hadds t hadd
    rw [hcalls] at hcall
    rw [← htarget]
    simpa using hcall
  -- what has been dequeued are the first of the broadcasts that were heard
  have hledger : dequeued u h ++ (s.queue u).mMessages ++ s.pending u =
      (heardBroadcasts u h).map Broadcast.message :=
    (ledger hrun u).trans (deliveries_heard u h)
  have hresults : results.reduceOption <+: (heardBroadcasts u h).map Broadcast.message := by
    rw [← hledger, List.append_assoc]
    exact hqueue.trans (List.prefix_append _ _)
  have hstream : final.output <+: encode (loginConfirmation username) ++ (encode joinReply ++
      (heardBroadcasts u h).flatMap fun d => encode d.message) := by
    obtain ⟨more, hmore⟩ := hresults
    have hflat : (heardBroadcasts u h).flatMap (fun d => encode d.message) =
        results.reduceOption.flatMap encode ++ more.flatMap encode := by
      rw [← List.flatMap_append, hmore, List.flatMap_map]
    refine ⟨more.flatMap encode, ?_⟩
    rw [houtput', hflat]
    simp [Connection.new]
  exact ⟨rfl, receiver_shown hw hname hrooms hitems (hpart.trans hstream) hclient⟩

end

/-- The first of two receivers, after the message that it has dequeued. -/
theorem screen_two : ∃ turn, receiver 1 (ascii "a") (ascii "r")
      (.new [.bytes (ascii "ok:Logged in as a\nok:Joined room"), .failed true,
          .bytes (ascii " welcome to the party\ndelivery:r:c:hi\n")]
        [.wrote 9 (by decide), .wrote 7 (by decide)]) = some turn ∧
    turn.state.cout = ascii "c: hi\n" := by
  obtain ⟨turn, hclient, hrequests⟩ : ∃ turn, receiver 1 (ascii "a") (ascii "r")
      (.new [.bytes (ascii "ok:Logged in as a\nok:Joined room"), .failed true,
          .bytes (ascii " welcome to the party\ndelivery:r:c:hi\n")]
        [.wrote 9 (by decide), .wrote 7 (by decide)]) = some turn ∧
      turn.state.conn.output = ascii "rlogin:a\njoin:r\n" := ⟨_, rfl, by decide⟩
  obtain ⟨join, joined, conn, final, hworker, hdeliver, hwritten, hcalls⟩ :
      ∃ join joined conn final,
      worker 0 (.new [.bytes (ascii "rlogin:a\njo"), .bytes (ascii "in:r\n")]
        [.wrote 18 (by decide), .wrote 36 (by decide), .wrote 16 (by decide)]) =
          some (.receiver (User.new (ascii "a")) join joined conn) ∧
      deliverLoop [none, some (delivery (ascii "r") (ascii "c") (ascii "hi"))] conn = some final ∧
      final.output = ascii "ok:Logged in as a\nok:Joined room welcome to the party\n" ++
        ascii "delivery:r:c:hi\n" ∧
      join.calls = [.findOrCreateRoom (ascii "r"), .addMember (ascii "r")] :=
    ⟨_, _, _, _, rfl, rfl, by decide, rfl⟩
  have hheard : heardBroadcasts 0 (reached twoReceivers).2 =
      [{ roomName := ascii "r", senderUsername := ascii "c", messageText := ascii "hi" }] := by
    decide +kernel
  have hdequeued : dequeued 0 (reached twoReceivers).2 =
      [delivery (ascii "r") (ascii "c") (ascii "hi")] := by
    decide +kernel
  have hfits : ∀ d ∈ heardBroadcasts 0 (reached twoReceivers).2, d.Fits := by
    rw [hheard]
    intro d hd
    rw [List.mem_singleton.mp hd]
    exact ⟨⟨by decide, by decide, by decide, by decide, by decide⟩, by decide, by decide⟩
  have hadds : ∀ t, Event.add 0 t ∈ (reached twoReceivers).2 →
      Call.addMember t.name ∈ join.calls := by
    have hnames : ∀ e ∈ (reached twoReceivers).2,
        Event.memberOf 0 none e = none ∨ Event.memberOf 0 none e = some (ascii "r") := by
      decide +kernel
    intro t ht
    have hname := hnames _ ht
    rw [hcalls]
    simpa [Event.memberOf] using hname
  obtain ⟨-, -, -, -, hcout⟩ := screen (run_reached twoReceivers) ⟨by decide, by decide, by decide⟩
    ⟨by decide, by decide, by decide⟩ hfits (by decide) (by decide) hclient hworker hadds
    hdeliver (hdequeued ▸ List.prefix_rfl) ⟨_, List.prefix_rfl, by rw [hwritten]; decide⟩
    ⟨_, List.prefix_rfl, by rw [hrequests]; decide⟩
  refine ⟨turn, hclient, ?_⟩
  rw [hcout, hheard]
  decide

end Csf.Chat
