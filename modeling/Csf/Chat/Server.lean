import Csf.Chat.Grammar

/-!
# Chat: the server's workers

`worker`, `chat_with_sender` and `chat_with_receiver` of `server.cpp`, each on
its own connection. What a worker does to the shared rooms is the list of its
calls; `Csf.Chat.Threads` is about what these do when they interleave.
-/

namespace Csf.Chat

/-- `User`, without its queue. -/
structure User where
  username : Str
  roomName : Str
deriving DecidableEq, Repr

/-- `User(username)` -/
def User.new (username : Str) : User := { username := username, roomName := [] }

/-- A call into the server, or of a method of the room found there. -/
inductive Call where
  | findOrCreateRoom (name : Str)
  | addMember (room : Str)
  | broadcastMessage (room username text : Str)
  | removeMember (room : Str)
deriving DecidableEq, Repr

/-- What the body of a loop makes of a request: the reply, the user afterwards,
the calls, and whether the loop is to be left. -/
structure Outcome where
  reply : Message
  user : User
  calls : List Call
  exitCase : Bool
deriving DecidableEq, Repr

/-- The branches of `chat_with_sender`. -/
def handleRequest (user : User) (msg : Message) : Outcome :=
  if msg.tag = tagJoin then
    let roomName := msg.data.dropLast
    { reply := { tag := tagOk, data := ascii "Joined room!" }
      user := { user with roomName := roomName }
      calls := [.findOrCreateRoom roomName]
      exitCase := false }
  else if msg.tag = tagSendall then
    let broadcast := msg.data.dropLast
    if user.roomName = [] then
      { reply := { tag := tagErr, data := ascii "Must join room before sending message." }
        user := user, calls := [], exitCase := false }
    else
      { reply := { tag := tagOk, data := ascii "Message sent!" }
        user := user
        calls := [.findOrCreateRoom user.roomName,
          .broadcastMessage user.roomName user.username broadcast]
        exitCase := false }
  else if msg.tag = tagLeave then
    if user.roomName = [] then
      { reply := { tag := tagErr
                   data := ascii "You can't leave a room if you're not in one, ya dingas." }
        user := user, calls := [], exitCase := false }
    else
      { reply := { tag := tagOk, data := ascii "Left room!" }
        user := { user with roomName := [] }, calls := [], exitCase := false }
  else if msg.tag = tagQuit then
    { reply := { tag := tagOk, data := ascii "Good bye!" }
      user := { user with roomName := [] }, calls := [], exitCase := true }
  else
    { reply := { tag := tagErr, data := ascii "Invalid message." }
      user := user, calls := [], exitCase := false }

/-- What one round of a loop did: the message it received, if it received one,
its reply, if it sent one, and its calls. -/
structure Round where
  request : Option Message
  reply : Option Message
  calls : List Call
deriving DecidableEq, Repr

/-- A round without a message. -/
def Round.silent : Round := { request := none, reply := none, calls := [] }

/-- The state of `chat_with_sender`. -/
structure Sender where
  conn : Connection
  clientMsg : Message
  user : User
  exitCase : Bool
deriving DecidableEq, Repr

/-- The body of the loop of `chat_with_sender`. -/
def senderRound (s : Sender) : Option (Round × Sender) := do
  let (ok, msg, conn) ← s.conn.receive s.clientMsg
  if ok then
    let o := handleRequest s.user msg
    let (sent, conn) ← conn.send o.reply
    pure ({ request := some msg, reply := some o.reply, calls := o.calls },
      { conn := conn, clientMsg := msg, user := o.user, exitCase := o.exitCase || !sent })
  else
    pure (.silent, { s with conn := conn, clientMsg := msg })

/-- The loop of `chat_with_sender`, for `n` rounds or until it is left. -/
def chatWithSender : (n : Nat) → Sender → Option (List Round × Sender)
  | 0, s => some ([], s)
  | n + 1, s =>
      if s.conn.isOpen && !s.exitCase then do
        let (round, s) ← senderRound s
        let (rounds, s) ← chatWithSender n s
        pure (round :: rounds, s)
      else some ([], s)

/-- The first part of `chat_with_receiver`: the user if it has joined a room. -/
def receiverJoin (conn : Connection) (clientMsg : Message) (user : User) :
    Option (Round × Option User × Connection) := do
  let (ok, msg, conn) ← conn.receive clientMsg
  let request := if ok then some msg else none
  if ok ∧ msg.tag = tagJoin ∧ msg.data ≠ [] then
    let roomName := msg.data.dropLast
    let reply : Message := { tag := tagOk, data := ascii "Joined room welcome to the party" }
    let (_, conn) ← conn.send reply
    pure ({ request := request, reply := some reply
            calls := [.findOrCreateRoom roomName, .addMember roomName] },
      some { user with roomName := roomName }, conn)
  else
    let reply : Message := { tag := tagErr, data := ascii "You must join a room immediately!" }
    let (_, conn) ← conn.send reply
    pure ({ request := request, reply := some reply, calls := [] }, none, conn)

/-- The loop of `chat_with_receiver`, for a list of results of `dequeue`; `none`
is a null pointer. -/
def deliverLoop : List (Option Message) → Connection → Option Connection
  | [], conn => some conn
  | result :: results, conn =>
      if conn.isOpen then
        match result with
        | none => deliverLoop results conn
        | some broadcast => do
            let (_, conn) ← conn.send broadcast
            deliverLoop results conn
      else some conn

/-- What a worker has come to: its login was refused, or it is a sender or a
receiver. -/
inductive Session where
  | refused
  | sender (user : User) (rounds : List Round) (final : Sender)
  | receiver (user : User) (join : Round) (joined : Option User) (conn : Connection)
deriving DecidableEq

/-- `login_confirmation` -/
def loginConfirmation (name : Str) : Message := { tag := tagOk, data := ascii "Logged in as " ++ name }

/-- `worker`, with `n` rounds of a sender's loop. -/
def worker (n : Nat) (conn : Connection) : Option Session := do
  let (ok, initMsg, conn) ← conn.receive { tag := [], data := [] }
  if ok then
    let name := initMsg.data.dropLast
    let newUser := User.new name
    if initMsg.tag = tagRlogin then
      let (_, conn) ← conn.send (loginConfirmation name)
      let (join, joined, conn) ← receiverJoin conn initMsg newUser
      pure (.receiver newUser join joined conn)
    else if initMsg.tag = tagSlogin then
      let (_, conn) ← conn.send (loginConfirmation name)
      let (rounds, final) ← chatWithSender n
        { conn := conn, clientMsg := initMsg, user := newUser, exitCase := false }
      pure (.sender newUser rounds final)
    else
      let (_, _) ← conn.send { tag := tagErr, data := ascii "First message must be a login request." }
      pure .refused
  else
    let (_, _) ← conn.send
      { tag := tagErr, data := ascii "Server did not receive anything from client." }
    pure .refused

/-- `room_name + ":" + sender_username + ":" + message_text`, the message that
`Room::broadcast_message` queues for every member. -/
def delivery (roomName senderUsername messageText : Str) : Message :=
  { tag := tagDelivery
    data := roomName ++ [58] ++ senderUsername ++ [58] ++ messageText }

/-! ## Tags -/

@[simp] theorem tagSendall_ne_tagJoin : tagSendall ≠ tagJoin := by decide
@[simp] theorem tagLeave_ne_tagJoin : tagLeave ≠ tagJoin := by decide
@[simp] theorem tagLeave_ne_tagSendall : tagLeave ≠ tagSendall := by decide
@[simp] theorem tagQuit_ne_tagJoin : tagQuit ≠ tagJoin := by decide
@[simp] theorem tagQuit_ne_tagSendall : tagQuit ≠ tagSendall := by decide
@[simp] theorem tagQuit_ne_tagLeave : tagQuit ≠ tagLeave := by decide
@[simp] theorem tagOk_ne_tagErr : tagOk ≠ tagErr := by decide

@[simp] theorem tagJoin_ne_tagSendall : tagJoin ≠ tagSendall := tagSendall_ne_tagJoin.symm
@[simp] theorem tagJoin_ne_tagLeave : tagJoin ≠ tagLeave := tagLeave_ne_tagJoin.symm
@[simp] theorem tagSendall_ne_tagLeave : tagSendall ≠ tagLeave := tagLeave_ne_tagSendall.symm
@[simp] theorem tagJoin_ne_tagQuit : tagJoin ≠ tagQuit := tagQuit_ne_tagJoin.symm
@[simp] theorem tagSendall_ne_tagQuit : tagSendall ≠ tagQuit := tagQuit_ne_tagSendall.symm
@[simp] theorem tagLeave_ne_tagQuit : tagLeave ≠ tagQuit := tagQuit_ne_tagLeave.symm
@[simp] theorem tagErr_ne_tagOk : tagErr ≠ tagOk := tagOk_ne_tagErr.symm

/-! ## Branches -/

section

variable {user : User} {msg : Message}

theorem handleRequest_join (h : msg.tag = tagJoin) : handleRequest user msg =
    { reply := { tag := tagOk, data := ascii "Joined room!" }
      user := { user with roomName := msg.data.dropLast }
      calls := [.findOrCreateRoom msg.data.dropLast]
      exitCase := false } := by
  rw [handleRequest, if_pos h]

theorem handleRequest_sendall (h : msg.tag = tagSendall) (hroom : user.roomName ≠ []) :
    handleRequest user msg =
      { reply := { tag := tagOk, data := ascii "Message sent!" }
        user := user
        calls := [.findOrCreateRoom user.roomName,
          .broadcastMessage user.roomName user.username msg.data.dropLast]
        exitCase := false } := by
  have hjoin : msg.tag ≠ tagJoin := h ▸ tagSendall_ne_tagJoin
  rw [handleRequest, if_neg hjoin, if_pos h, if_neg hroom]

theorem handleRequest_sendall_outside (h : msg.tag = tagSendall) (hroom : user.roomName = []) :
    handleRequest user msg =
      { reply := { tag := tagErr, data := ascii "Must join room before sending message." }
        user := user, calls := [], exitCase := false } := by
  have hjoin : msg.tag ≠ tagJoin := h ▸ tagSendall_ne_tagJoin
  rw [handleRequest, if_neg hjoin, if_pos h, if_pos hroom]

theorem handleRequest_leave (h : msg.tag = tagLeave) (hroom : user.roomName ≠ []) :
    handleRequest user msg =
      { reply := { tag := tagOk, data := ascii "Left room!" }
        user := { user with roomName := [] }, calls := [], exitCase := false } := by
  have hjoin : msg.tag ≠ tagJoin := h ▸ tagLeave_ne_tagJoin
  have hsendall : msg.tag ≠ tagSendall := h ▸ tagLeave_ne_tagSendall
  rw [handleRequest, if_neg hjoin, if_neg hsendall, if_pos h, if_neg hroom]

theorem handleRequest_leave_outside (h : msg.tag = tagLeave) (hroom : user.roomName = []) :
    handleRequest user msg =
      { reply := { tag := tagErr
                   data := ascii "You can't leave a room if you're not in one, ya dingas." }
        user := user, calls := [], exitCase := false } := by
  have hjoin : msg.tag ≠ tagJoin := h ▸ tagLeave_ne_tagJoin
  have hsendall : msg.tag ≠ tagSendall := h ▸ tagLeave_ne_tagSendall
  rw [handleRequest, if_neg hjoin, if_neg hsendall, if_pos h, if_pos hroom]

theorem handleRequest_quit (h : msg.tag = tagQuit) : handleRequest user msg =
    { reply := { tag := tagOk, data := ascii "Good bye!" }
      user := { user with roomName := [] }, calls := [], exitCase := true } := by
  have hjoin : msg.tag ≠ tagJoin := h ▸ tagQuit_ne_tagJoin
  have hsendall : msg.tag ≠ tagSendall := h ▸ tagQuit_ne_tagSendall
  have hleave : msg.tag ≠ tagLeave := h ▸ tagQuit_ne_tagLeave
  rw [handleRequest, if_neg hjoin, if_neg hsendall, if_neg hleave, if_pos h]

theorem handleRequest_other
    (h : msg.tag ∉ [tagJoin, tagSendall, tagLeave, tagQuit]) : handleRequest user msg =
      { reply := { tag := tagErr, data := ascii "Invalid message." }
        user := user, calls := [], exitCase := false } := by
  simp only [List.mem_cons, List.not_mem_nil, or_false, not_or] at h
  rw [handleRequest, if_neg h.1, if_neg h.2.1, if_neg h.2.2.1, if_neg h.2.2.2]

/-- Every request falls into one of these branches. -/
theorem tag_cases (msg : Message) : msg.tag = tagJoin ∨ msg.tag = tagSendall ∨
    msg.tag = tagLeave ∨ msg.tag = tagQuit ∨
      msg.tag ∉ [tagJoin, tagSendall, tagLeave, tagQuit] := by
  simp only [List.mem_cons, List.not_mem_nil, or_false]
  tauto

/-- Every reply is an ok or an err. -/
theorem handleRequest_reply (user : User) (msg : Message) :
    (handleRequest user msg).reply.tag = tagOk ∨ (handleRequest user msg).reply.tag = tagErr := by
  unfold handleRequest
  split_ifs <;> simp

/-- Which requests get an err. -/
theorem handleRequest_err_iff : (handleRequest user msg).reply.tag = tagErr ↔
    msg.tag ≠ tagJoin ∧ msg.tag ≠ tagQuit ∧
      (msg.tag = tagSendall ∨ msg.tag = tagLeave → user.roomName = []) := by
  rcases tag_cases msg with h | h | h | h | h
  · rw [handleRequest_join h]
    simp [h]
  · by_cases hin : user.roomName = []
    · rw [handleRequest_sendall_outside h hin]
      simp [h, hin]
    · rw [handleRequest_sendall h hin]
      simp [h, hin]
  · by_cases hin : user.roomName = []
    · rw [handleRequest_leave_outside h hin]
      simp [h, hin]
    · rw [handleRequest_leave h hin]
      simp [h, hin]
  · rw [handleRequest_quit h]
    simp [h]
  · rw [handleRequest_other h]
    simp only [List.mem_cons, List.not_mem_nil, or_false, not_or] at h
    simp [h.1, h.2.1, h.2.2.1, h.2.2.2]

/-- A request that gets an err changes nothing. -/
theorem handleRequest_err (h : (handleRequest user msg).reply.tag = tagErr) :
    (handleRequest user msg).user = user ∧ (handleRequest user msg).calls = [] ∧
      (handleRequest user msg).exitCase = false := by
  unfold handleRequest at h ⊢
  split_ifs at h ⊢ <;> simp_all

/-- The loop is left at a quit. -/
theorem handleRequest_exit_iff : (handleRequest user msg).exitCase = true ↔ msg.tag = tagQuit := by
  unfold handleRequest
  split_ifs with hjoin hsendall hroom hleave hroom hquit <;> simp_all

/-- A request changes the room at most. -/
theorem handleRequest_user : (handleRequest user msg).user = { user with
    roomName := if msg.tag = tagJoin then msg.data.dropLast
      else if msg.tag = tagLeave ∨ msg.tag = tagQuit then [] else user.roomName } := by
  rcases tag_cases msg with h | h | h | h | h
  · rw [handleRequest_join h, if_pos h]
  · by_cases hin : user.roomName = []
    · rw [handleRequest_sendall_outside h hin]
      simp [h]
    · rw [handleRequest_sendall h hin]
      simp [h]
  · by_cases hin : user.roomName = []
    · rw [handleRequest_leave_outside h hin]
      simp [h, ← hin]
    · rw [handleRequest_leave h hin]
      simp [h]
  · rw [handleRequest_quit h]
    simp [h]
  · rw [handleRequest_other h]
    simp only [List.mem_cons, List.not_mem_nil, or_false, not_or] at h
    simp [h.1, h.2.2.1, h.2.2.2]

/-! ## Rounds and runs -/

variable {s s' : Sender} {round : Round} {rounds : List Round} {n : Nat}

/-- A round either gets no message and does nothing else, or answers one. -/
theorem senderRound_cases (h : senderRound s = some (round, s')) :
    (∃ msg conn, s.conn.receive s.clientMsg = some (false, msg, conn) ∧ round = .silent ∧
      s' = { s with conn := conn, clientMsg := msg }) ∨
    (∃ msg conn sent conn', s.conn.receive s.clientMsg = some (true, msg, conn) ∧
      conn.send (handleRequest s.user msg).reply = some (sent, conn') ∧
      round = { request := some msg, reply := some (handleRequest s.user msg).reply
                calls := (handleRequest s.user msg).calls } ∧
      s' = { conn := conn', clientMsg := msg, user := (handleRequest s.user msg).user
             exitCase := (handleRequest s.user msg).exitCase || !sent }) := by
  obtain ⟨⟨ok, msg, conn⟩, hreceive, h⟩ := Option.bind_eq_some_iff.mp h
  cases ok with
  | false =>
      left
      have hpair : (Round.silent, { s with conn := conn, clientMsg := msg }) = (round, s') :=
        Option.some.inj h
      rw [Prod.mk.injEq] at hpair
      exact ⟨msg, conn, hreceive, hpair.1.symm, hpair.2.symm⟩
  | true =>
      right
      obtain ⟨⟨sent, conn'⟩, hsend, h⟩ := Option.bind_eq_some_iff.mp h
      have hpair := Option.some.inj h
      rw [Prod.mk.injEq] at hpair
      exact ⟨msg, conn, sent, conn', hreceive, hsend, hpair.1.symm, hpair.2.symm⟩

theorem senderRound_silent {conn : Connection}
    (h : s.conn.receive s.clientMsg = some (false, msg, conn)) :
    senderRound s = some (.silent, { s with conn := conn, clientMsg := msg }) := by
  rw [senderRound, h]
  rfl

theorem senderRound_request {conn conn' : Connection} {sent : Bool}
    (h : s.conn.receive s.clientMsg = some (true, msg, conn))
    (hsend : conn.send (handleRequest s.user msg).reply = some (sent, conn')) :
    senderRound s = some
      ({ request := some msg, reply := some (handleRequest s.user msg).reply
         calls := (handleRequest s.user msg).calls },
        { conn := conn', clientMsg := msg, user := (handleRequest s.user msg).user
          exitCase := (handleRequest s.user msg).exitCase || !sent }) := by
  rw [senderRound, h]
  show (conn.send _).bind _ = _
  rw [hsend]
  rfl

/-- A round takes what is at the reader's place. -/
theorem senderRound_reads {p : Place} (hplace : s.conn.fdbuf.items = p.items)
    (h : senderRound s = some (round, s')) :
    round.request = p.message ∧ s'.conn.fdbuf.items = p.next.items := by
  rcases senderRound_cases h with ⟨msg, conn, hreceive, rfl, rfl⟩ |
    ⟨msg, conn, sent, conn', hreceive, hsend, rfl, rfl⟩
  · exact ⟨(message_of_receive hplace hreceive).symm, receive_items hplace hreceive⟩
  · refine ⟨(message_of_receive hplace hreceive).symm, ?_⟩
    show conn'.fdbuf.items = p.next.items
    rw [send_fdbuf hsend]
    exact receive_items hplace hreceive

theorem chatWithSender_succ {s₁ : Sender} (hopen : s.conn.isOpen = true)
    (hexit : s.exitCase = false) (h : senderRound s = some (round, s₁)) :
    chatWithSender (n + 1) s = (chatWithSender n s₁).map fun (rounds, s') =>
      (round :: rounds, s') := by
  have hgo : (s.conn.isOpen && !s.exitCase) = true := by rw [hopen, hexit]; rfl
  rw [chatWithSender, if_pos hgo, h]
  show (chatWithSender n s₁).bind _ = _
  cases chatWithSender n s₁ <;> rfl

/-- The loop is left once the exit flag is set. -/
theorem chatWithSender_exit (h : s.exitCase = true) : chatWithSender n s = some ([], s) := by
  cases n with
  | zero => rfl
  | succ n => simp [chatWithSender, h]

/-- A run either is over, or makes a round and goes on from there. -/
theorem chatWithSender_cases (h : chatWithSender n s = some (rounds, s')) :
    (rounds = [] ∧ s' = s) ∨
    (∃ m round rest s₁, n = m + 1 ∧ s.conn.isOpen = true ∧ s.exitCase = false ∧
      senderRound s = some (round, s₁) ∧ chatWithSender m s₁ = some (rest, s') ∧
      rounds = round :: rest) := by
  cases n with
  | zero =>
      have hpair := Option.some.inj h
      rw [Prod.mk.injEq] at hpair
      exact .inl ⟨hpair.1.symm, hpair.2.symm⟩
  | succ m =>
      rw [chatWithSender] at h
      split at h
      · next hgo =>
          rw [Bool.and_eq_true, Bool.not_eq_true'] at hgo
          obtain ⟨⟨round, s₁⟩, hround, h⟩ := Option.bind_eq_some_iff.mp h
          obtain ⟨⟨rest, s₂⟩, hrest, h⟩ := Option.bind_eq_some_iff.mp h
          have hpair : (round :: rest, s₂) = (rounds, s') := Option.some.inj h
          rw [Prod.mk.injEq] at hpair
          obtain ⟨rfl, rfl⟩ := hpair
          exact .inr ⟨m, round, rest, s₁, rfl, hgo.1, hgo.2, hround, hrest, rfl⟩
      · have hpair := Option.some.inj h
        rw [Prod.mk.injEq] at hpair
        exact .inl ⟨hpair.1.symm, hpair.2.symm⟩

/-- A session as a sender is a run of `chat_with_sender` after a login. -/
theorem worker_sender {conn : Connection} {final : Sender}
    (h : worker n conn = some (.sender user rounds final)) :
    ∃ login s, (place conn.fdbuf.items 0).message = some login ∧ login.tag = tagSlogin ∧
      user = User.new login.data.dropLast ∧ s.user = user ∧ s.exitCase = false ∧
      s.conn.fdbuf.items = (place conn.fdbuf.items 1).items ∧
      chatWithSender n s = some (rounds, final) := by
  obtain ⟨⟨ok, login, c₁⟩, hreceive, h⟩ := Option.bind_eq_some_iff.mp h
  have hmessage := message_of_receive (p := place conn.fdbuf.items 0) rfl hreceive
  have hitems := receive_items (p := place conn.fdbuf.items 0) rfl hreceive
  cases ok with
  | false =>
      obtain ⟨⟨sent, c₂⟩, -, h⟩ := Option.bind_eq_some_iff.mp h
      exact absurd (Option.some.inj h) (by simp)
  | true =>
      simp only [if_true] at h
      split at h
      · obtain ⟨⟨sent, c₂⟩, -, h⟩ := Option.bind_eq_some_iff.mp h
        obtain ⟨⟨join, joined, c₃⟩, -, h⟩ := Option.bind_eq_some_iff.mp h
        exact absurd (Option.some.inj h) (by simp)
      · split at h
        · -- the only branch of `worker` that ends in the loop of a sender
          next htag =>
            obtain ⟨⟨sent, c₂⟩, hsend, h⟩ := Option.bind_eq_some_iff.mp h
            obtain ⟨⟨more, s'⟩, hrun, h⟩ := Option.bind_eq_some_iff.mp h
            have heq := Option.some.inj h
            rw [Session.sender.injEq] at heq
            obtain ⟨rfl, rfl, rfl⟩ := heq
            refine ⟨login, _, hmessage, htag, rfl, rfl, rfl, ?_, hrun⟩
            show c₂.fdbuf.items = _
            rw [send_fdbuf hsend, hitems]
            rfl
        · obtain ⟨⟨sent, c₂⟩, -, h⟩ := Option.bind_eq_some_iff.mp h
          exact absurd (Option.some.inj h) (by simp)

end

end Csf.Chat
