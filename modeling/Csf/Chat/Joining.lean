import Csf.Chat.Server

/-!
# Chat: what a join acknowledgement promises

`Truthful` follows a session through its acknowledgements: after an ok to a join
the sender is in the room that the join asks for, until an ok to a leave or a quit. The server
keeps the room as a string that is empty outside rooms, so a join of the room with the empty
name is acknowledged and forgotten; and it takes the string from what it has read of the line,
so the room is another one where that is not the line.
-/

namespace Csf.Chat

/-- The broadcasts among calls. -/
def broadcasts (calls : List Call) : List Call :=
  calls.filter fun call => match call with
    | .broadcastMessage _ _ _ => true
    | _ => false

/-- The reply of a round has this tag. -/
def Round.RepliesWith (round : Round) (tag : Str) : Prop :=
  ∃ reply, round.reply = some reply ∧ reply.tag = tag

/-- What the round that reads the line at a place owes a sender who has been told that it is in
room `joined`. -/
def RoundTruthful (username : Str) (joined : Option Str) (p : Place) (round : Round) : Prop :=
  match round.request with
  | none => broadcasts round.calls = []
  | some msg =>
      if msg.tag = tagJoin then
        round.RepliesWith tagOk →
          ∃ room, p.asked tagJoin = some room ∧ round.calls = [.findOrCreateRoom room]
      else if msg.tag = tagSendall then
        match joined with
        | some room => round.RepliesWith tagOk ∧ ∃ text, p.asked tagSendall = some text ∧
            broadcasts round.calls = [.broadcastMessage room username text]
        | none => round.RepliesWith tagErr ∧ broadcasts round.calls = []
      else if msg.tag = tagLeave then
        round.RepliesWith (if joined.isSome then tagOk else tagErr) ∧
          (round.RepliesWith tagOk → (p.asked tagLeave).isSome) ∧ broadcasts round.calls = []
      else if msg.tag = tagQuit then
        (round.RepliesWith tagOk → (p.asked tagQuit).isSome) ∧ broadcasts round.calls = []
      else broadcasts round.calls = []

/-- The room that the acknowledgements up to a round have put the sender in. -/
def acknowledged (joined : Option Str) (p : Place) (round : Round) : Option Str :=
  match round.request, round.reply with
  | some msg, some reply =>
      if reply.tag = tagOk then
        if msg.tag = tagJoin then p.asked tagJoin
        else if msg.tag = tagLeave ∨ msg.tag = tagQuit then none
        else joined
      else joined
  | _, _ => joined

/-- Every round of a session keeps what the ones before it have acknowledged; the first one
reads at place `p`. -/
def Truthful (username : Str) : (joined : Option Str) → (p : Place) → List Round → Prop
  | _, _, [] => True
  | joined, p, round :: rounds => RoundTruthful username joined p round ∧
      Truthful username (acknowledged joined p round) p.next rounds

/-- The messages received in these rounds. -/
def requests (rounds : List Round) : List Message := rounds.filterMap Round.request

/-! ## Line by line -/

/-- The line at a place is taken for what it asks, if it is a join or a quit, or a sendall or a
leave in a room; and that room is not the one with the empty name. -/
def LineKept (joined : Option Str) (p : Place) : Prop :=
  match p.message with
  | none => True
  | some msg =>
      if msg.tag = tagJoin then p.Whole
      else if msg.tag = tagSendall then joined.isSome → p.Whole ∧ joined ≠ some []
      else if msg.tag = tagLeave then
        joined.isSome → (p.asked tagLeave).isSome ∧ joined ≠ some []
      else if msg.tag = tagQuit then (p.asked tagQuit).isSome
      else True

/-- The room after the line at a place, for a sender in room `joined`. -/
def roomOf (joined : Option Str) (p : Place) : Option Str :=
  match p.message with
  | none => joined
  | some msg =>
      if msg.tag = tagJoin then p.asked tagJoin
      else if msg.tag = tagLeave ∨ msg.tag = tagQuit then none
      else joined

/-- So are the lines of `n` rounds. -/
def Kept : (joined : Option Str) → (p : Place) → ℕ → Prop
  | _, _, 0 => True
  | joined, p, n + 1 => LineKept joined p ∧ Kept (roomOf joined p) p.next n

/-! ## The server's rounds -/

/-- The round in which a request is answered. -/
def roundOf (user : User) (msg : Message) : Round :=
  { request := some msg, reply := some (handleRequest user msg).reply
    calls := (handleRequest user msg).calls }

section

variable {user : User} {msg : Message} {joined : Option Str} {p : Place}

theorem repliesWith_roundOf {tag : Str} :
    (roundOf user msg).RepliesWith tag ↔ (handleRequest user msg).reply.tag = tag := by
  constructor
  · rintro ⟨reply, hreply, rfl⟩
    rw [← Option.some.inj hreply]
  · exact fun h => ⟨_, rfl, h⟩

/-- What is taken is asked for just if the line is read whole. -/
theorem asked_iff_whole (hmsg : p.message = some msg) :
    p.asked msg.tag = some msg.data.dropLast ↔ p.Whole :=
  ⟨fun h => whole_of_asked hmsg h rfl, fun h => h.asked_eq hmsg⟩

/-- While the server's string is the name of the room, empty outside rooms, a line is answered
truthfully exactly if it is kept. -/
theorem roundTruthful_iff (hroom : user.roomName = joined.getD [])
    (hmsg : p.message = some msg) :
    RoundTruthful user.username joined p (roundOf user msg) ↔ LineKept joined p := by
  rw [LineKept, hmsg]
  show (if msg.tag = tagJoin then _ else _) ↔ if msg.tag = tagJoin then _ else _
  have hasked := asked_iff_whole hmsg
  rcases tag_cases msg with h | h | h | h | h
  · rw [if_pos h, if_pos h, repliesWith_roundOf, ← hasked, h, roundOf, handleRequest_join h]
    constructor
    · intro htrue
      obtain ⟨room, hasks, hcalls⟩ := htrue rfl
      rw [hasks, Call.findOrCreateRoom.inj (List.head_eq_of_cons_eq hcalls)]
    · exact fun hasks _ => ⟨_, hasks, rfl⟩
  · simp only [h, tagSendall_ne_tagJoin, if_true, if_false]
    rw [h] at hasked
    cases joined with
    | none =>
        have hout : user.roomName = [] := hroom
        simp [Round.RepliesWith, roundOf, handleRequest_sendall_outside h hout, broadcasts]
    | some room =>
        obtain rfl : user.roomName = room := hroom
        rw [← hasked]
        by_cases hin : user.roomName = []
        · simp [hin, Round.RepliesWith, roundOf, handleRequest_sendall_outside h hin]
        · simp [hin, Round.RepliesWith, roundOf, handleRequest_sendall h hin, broadcasts]
  · simp only [h, tagLeave_ne_tagJoin, tagLeave_ne_tagSendall, if_true, if_false]
    cases joined with
    | none =>
        have hout : user.roomName = [] := hroom
        simp [Round.RepliesWith, roundOf, handleRequest_leave_outside h hout, broadcasts]
    | some room =>
        obtain rfl : user.roomName = room := hroom
        by_cases hin : user.roomName = []
        · simp [hin, Round.RepliesWith, roundOf, handleRequest_leave_outside h hin]
        · simp [hin, Round.RepliesWith, roundOf, handleRequest_leave h hin, broadcasts]
  · simp [h, Round.RepliesWith, roundOf, handleRequest_quit h, broadcasts]
  · have hcalls : (roundOf user msg).calls = [] := by rw [roundOf, handleRequest_other h]
    simp only [List.mem_cons, List.not_mem_nil, or_false, not_or] at h
    simp [h, hcalls, broadcasts]

/-- After a line that is kept the acknowledgement says where the sender is. -/
theorem acknowledged_roundOf (hroom : user.roomName = joined.getD [])
    (hmsg : p.message = some msg) (hkept : LineKept joined p) :
    acknowledged joined p (roundOf user msg) = roomOf joined p ∧
      (handleRequest user msg).user.roomName = (roomOf joined p).getD [] := by
  rw [LineKept, hmsg] at hkept
  rw [roomOf, hmsg]
  refine ⟨?_, ?_⟩
  · show (if (handleRequest user msg).reply.tag = tagOk then _ else _) = _
    rcases handleRequest_reply user msg with hreply | hreply
    · rw [if_pos hreply]
    · -- an err to a leave comes only from a sender who is in no room
      have hcause := handleRequest_err_iff.mp hreply
      rw [hreply, if_neg tagErr_ne_tagOk]
      show joined = if msg.tag = tagJoin then _ else _
      rw [if_neg hcause.1]
      by_cases hleave : msg.tag = tagLeave
      · have hout := hcause.2.2 (.inr hleave)
        rw [if_pos (.inl hleave)]
        cases joined with
        | none => rfl
        | some room =>
            obtain rfl : user.roomName = room := hroom
            simp [hleave, hout] at hkept
      · rw [if_neg (by simp [hleave, hcause.2.1])]
  · rw [handleRequest_user]
    show (if msg.tag = tagJoin then _ else _) =
      (if msg.tag = tagJoin then _ else _ : Option Str).getD []
    by_cases hjoin : msg.tag = tagJoin
    · simp only [if_pos hjoin] at hkept ⊢
      rw [← hjoin, hkept.asked_eq hmsg]
      rfl
    · rw [if_neg hjoin, if_neg hjoin]
      split_ifs
      · rfl
      · exact hroom

end

/-- Along a run of the loop. -/
theorem chatWithSender_truthful : ∀ {n : ℕ} {s final : Sender} {rounds : List Round}
    {joined : Option Str} {p : Place}, s.user.roomName = joined.getD [] →
    s.conn.fdbuf.items = p.items → chatWithSender n s = some (rounds, final) →
    (Truthful s.user.username joined p rounds ↔ Kept joined p rounds.length) := by
  intro n
  induction n with
  | zero =>
      intro s final rounds joined p _ _ h
      rcases chatWithSender_cases h with ⟨rfl, -⟩ | ⟨m, -, -, -, hm, -⟩
      · exact Iff.rfl
      · exact absurd hm (by simp)
  | succ n ih =>
      intro s final rounds joined p hroom hplace h
      rcases chatWithSender_cases h with ⟨rfl, -⟩ | ⟨m, round, rest, s₁, hm, -, -, hr, hrest, rfl⟩
      · exact Iff.rfl
      · obtain rfl : n = m := Nat.succ.inj hm
        obtain ⟨hrequest, hplace₁⟩ := senderRound_reads hplace hr
        rcases senderRound_cases hr with ⟨msg, conn, -, rfl, rfl⟩ |
          ⟨msg, conn, sent, conn', -, -, rfl, rfl⟩
        · -- a round without a message calls nothing and acknowledges nothing
          have hnone : p.message = none := hrequest.symm
          have htail := ih (s := { s with conn := conn, clientMsg := msg }) hroom hplace₁ hrest
          show RoundTruthful s.user.username joined p .silent ∧
              Truthful s.user.username joined p.next rest ↔
            LineKept joined p ∧ Kept (roomOf joined p) p.next rest.length
          rw [LineKept, roomOf, hnone]
          exact and_congr (iff_of_true rfl trivial) htail
        · have hmsg : p.message = some msg := hrequest.symm
          show RoundTruthful s.user.username joined p (roundOf s.user msg) ∧
              Truthful s.user.username (acknowledged joined p (roundOf s.user msg)) p.next rest ↔
            LineKept joined p ∧ Kept (roomOf joined p) p.next rest.length
          rw [roundTruthful_iff hroom hmsg]
          refine and_congr_right fun hkept => ?_
          obtain ⟨hack, hroom'⟩ := acknowledged_roundOf hroom hmsg hkept
          have hname : (handleRequest s.user msg).user.username = s.user.username := by
            rw [handleRequest_user]
          rw [hack, ← ih hroom' hplace₁ hrest, hname]

/-! ## Sessions -/

/-- The acknowledgements of a session are truthful to the lines from place `p` on: a sender's as
above, a receiver's ok, and the room that it is added to, only for a join that asks for a room
with a name. -/
def Session.Truthful (p : Place) : Session → Prop
  | .refused => True
  | .sender user rounds _ => Chat.Truthful user.username none p rounds
  | .receiver _ join _ _ => join.RepliesWith tagOk ∨ (∃ room, Call.addMember room ∈ join.calls) →
      ∃ room ≠ [], p.asked tagJoin = some room ∧
        join.calls = [.findOrCreateRoom room, .addMember room]

/-- The lines of a session are kept: a sender's as above, a receiver's join if it has any
data, and it is not the line of an empty name. -/
def Session.Kept (p : Place) : Session → Prop
  | .refused => True
  | .sender _ rounds _ => Chat.Kept none p rounds.length
  | .receiver _ _ _ _ => ∀ msg, p.message = some msg → msg.tag = tagJoin → msg.data ≠ [] →
      p.Whole ∧ p.line ≠ tagJoin ++ [58]

/-- The first part of `chat_with_receiver`: the join is accepted or refused. -/
theorem receiverJoin_cases {conn c : Connection} {clientMsg : Message} {user : User}
    {join : Round} {joined : Option User} {p : Place} (hplace : conn.fdbuf.items = p.items)
    (h : receiverJoin conn clientMsg user = some (join, joined, c)) :
    (∃ msg, p.message = some msg ∧ msg.tag = tagJoin ∧ msg.data ≠ [] ∧
      join.RepliesWith tagOk ∧
      join.calls = [.findOrCreateRoom msg.data.dropLast, .addMember msg.data.dropLast]) ∨
    ((∀ msg, p.message = some msg → msg.tag = tagJoin → msg.data = []) ∧
      ¬join.RepliesWith tagOk ∧ join.calls = []) := by
  obtain ⟨⟨ok, msg, c₁⟩, hreceive, h⟩ := Option.bind_eq_some_iff.mp h
  have hmessage := message_of_receive hplace hreceive
  simp only at h
  split at h
  · next hjoin =>
      obtain ⟨⟨sent, c₂⟩, -, h⟩ := Option.bind_eq_some_iff.mp h
      have heq := Option.some.inj h
      rw [Prod.mk.injEq] at heq
      rw [← heq.1]
      exact .inl ⟨msg, hmessage.trans (if_pos hjoin.1), hjoin.2.1, hjoin.2.2, ⟨_, rfl, rfl⟩, rfl⟩
  · next hjoin =>
      obtain ⟨⟨sent, c₂⟩, -, h⟩ := Option.bind_eq_some_iff.mp h
      have heq := Option.some.inj h
      rw [Prod.mk.injEq] at heq
      rw [← heq.1]
      refine .inr ⟨fun msg' hmsg' htag => ?_, ?_, rfl⟩
      · -- a message that was read is refused for its tag or its empty data
        rw [hmessage] at hmsg'
        split at hmsg'
        · next hok =>
            obtain rfl : msg = msg' := Option.some.inj hmsg'
            by_contra hne
            exact hjoin ⟨hok, htag, hne⟩
        · exact absurd hmsg' (by simp)
      · rintro ⟨reply, hreply, htag⟩
        rw [← Option.some.inj hreply] at htag
        exact absurd htag tagErr_ne_tagOk

/-- A session as a receiver begins with its join. -/
theorem worker_receiver {n : ℕ} {conn c : Connection} {user : User} {join : Round}
    {joined : Option User} (h : worker n conn = some (.receiver user join joined c)) :
    ∃ conn' clientMsg, conn'.fdbuf.items = (place conn.fdbuf.items 1).items ∧
      receiverJoin conn' clientMsg user = some (join, joined, c) := by
  obtain ⟨⟨ok, login, c₁⟩, hreceive, h⟩ := Option.bind_eq_some_iff.mp h
  have hitems := receive_items (p := place conn.fdbuf.items 0) rfl hreceive
  cases ok with
  | false =>
      obtain ⟨⟨sent, c₂⟩, -, h⟩ := Option.bind_eq_some_iff.mp h
      exact absurd (Option.some.inj h) (by simp)
  | true =>
      simp only [if_true] at h
      split at h
      · obtain ⟨⟨sent, c₂⟩, hsend, h⟩ := Option.bind_eq_some_iff.mp h
        obtain ⟨⟨join', joined', c₃⟩, hjoin, h⟩ := Option.bind_eq_some_iff.mp h
        have heq := Option.some.inj h
        rw [Session.receiver.injEq] at heq
        obtain ⟨rfl, rfl, rfl, rfl⟩ := heq
        refine ⟨c₂, login, ?_, hjoin⟩
        rw [send_fdbuf hsend, hitems]
        rfl
      · split at h
        · obtain ⟨⟨sent, c₂⟩, -, h⟩ := Option.bind_eq_some_iff.mp h
          obtain ⟨⟨more, s'⟩, -, h⟩ := Option.bind_eq_some_iff.mp h
          exact absurd (Option.some.inj h) (by simp)
        · obtain ⟨⟨sent, c₂⟩, -, h⟩ := Option.bind_eq_some_iff.mp h
          exact absurd (Option.some.inj h) (by simp)

/-- A receiver's acknowledgement is truthful unless its join names no room. -/
theorem receiverJoin_truthful_iff {conn c : Connection} {clientMsg : Message} {user : User}
    {join : Round} {joined : Option User} {p : Place} (hplace : conn.fdbuf.items = p.items)
    (h : receiverJoin conn clientMsg user = some (join, joined, c)) :
    (Session.receiver user join joined c).Truthful p ↔
      (Session.receiver user join joined c).Kept p := by
  rcases receiverJoin_cases hplace h with ⟨msg, hmsg, htag, hne, hreply, hcalls⟩ |
    ⟨hnone, hreply, hcalls⟩
  · have hasked := asked_iff_whole hmsg
    rw [htag] at hasked
    constructor
    · intro htrue msg' hmsg' _ _
      obtain ⟨room, hroom, hasks, hroomcalls⟩ := htrue (.inl hreply)
      rw [hcalls] at hroomcalls
      obtain rfl := Call.findOrCreateRoom.inj (List.head_eq_of_cons_eq hroomcalls)
      refine ⟨hasked.mp hasks, ?_⟩
      rw [(asked_eq_some.mp hasks).2.2]
      simpa using hroom
    · intro hkept _
      obtain ⟨hwhole, hname⟩ := hkept msg hmsg htag hne
      have hasks := hasked.mpr hwhole
      refine ⟨msg.data.dropLast, ?_, hasks, hcalls⟩
      intro hempty
      exact hname (hempty ▸ (asked_eq_some.mp hasks).2.2)
  · -- a refused join is not acknowledged
    have hcall : ¬∃ room, Call.addMember room ∈ join.calls := by
      rw [hcalls]
      simp
    exact iff_of_true (fun hack => absurd hack (not_or.mpr ⟨hreply, hcall⟩))
      fun msg hmsg htag hne => absurd (hnone msg hmsg htag) hne

/-- **Join acknowledgements.** For every connection and every run of its worker: the
acknowledgements are truthful to the lines behind the login exactly when these are kept. -/
theorem session_truthful_iff {n : ℕ} {conn : Connection} {session : Session}
    (h : worker n conn = some session) :
    session.Truthful (place conn.fdbuf.items 1) ↔ session.Kept (place conn.fdbuf.items 1) := by
  cases session with
  | refused => exact Iff.rfl
  | sender user rounds final =>
      obtain ⟨login, s, -, -, huser, hsuser, -, hitems, hrun⟩ := worker_sender h
      have hroom : s.user.roomName = (none : Option Str).getD [] := by
        rw [hsuser, huser]
        rfl
      have htruthful := chatWithSender_truthful hroom hitems hrun
      rw [hsuser] at htruthful
      exact htruthful
  | receiver user join joined c =>
      obtain ⟨conn', clientMsg, hitems, hjoin⟩ := worker_receiver h
      exact receiverJoin_truthful_iff hitems hjoin

/-! ## Two sessions -/

/-- A login, a join of the room with the empty name, and a message. -/
def emptyJoin : Connection :=
  .new [.bytes (ascii "slogin:ann\njoin:\nsendall:hi\n")]
    [.wrote 20 (by decide), .wrote 16 (by decide), .wrote 43 (by decide)]

/-- The join is acknowledged, the message is refused. -/
theorem emptyJoin_not_truthful : ∃ session, worker 2 emptyJoin = some session ∧
    ¬session.Truthful (place emptyJoin.fdbuf.items 1) := by
  refine ⟨.sender _ _ _, rfl, ?_⟩
  rintro ⟨-, ⟨⟨reply, hsome, htag⟩, -⟩, -⟩
  rw [← Option.some.inj hsome] at htag
  exact absurd htag (by decide)

/-- A sender that leaves one room for another. -/
def twoRooms : Connection :=
  .new [.bytes (ascii "slogin:ann\njoin:r\nsendall:hi\nleave:\nsendall:lost\njoin:s\n")]
    [.wrote 20 (by decide), .wrote 16 (by decide), .wrote 17 (by decide), .wrote 14 (by decide),
      .wrote 43 (by decide), .wrote 16 (by decide)]

theorem session_truthful_iff_twoRooms : ∃ session, worker 5 twoRooms = some session ∧
    session.Truthful (place twoRooms.fdbuf.items 1) := by
  have hsession : ∃ user rounds final, worker 5 twoRooms = some (.sender user rounds final) ∧
      Kept none (place twoRooms.fdbuf.items 1) rounds.length := by
    refine ⟨_, _, _, rfl, ⟨rfl, rfl, by decide, by decide⟩,
      fun _ => ⟨⟨rfl, rfl, by decide, by decide⟩, by decide⟩, fun _ => ⟨rfl, by decide⟩, ?_,
      ⟨rfl, rfl, by decide, by decide⟩, trivial⟩
    exact fun h => absurd h (by decide)
  obtain ⟨user, rounds, final, hworker, hkept⟩ := hsession
  exact ⟨_, hworker, (session_truthful_iff hworker).mpr hkept⟩

end Csf.Chat
