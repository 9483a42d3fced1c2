import Csf.Chat.Wire
import Csf.Chat.Server

/-!
# Chat: deliveries

From the lines in which a client asks for a broadcast to what a receiver reads. The three
strings of a delivery come from three lines; nobody checks that each of these has been read to
its end, nor the length of the line that the strings make together.
-/

namespace Csf.Chat

/-- The arguments of `broadcast_message`, with the name of its room. -/
structure Broadcast where
  roomName : Str
  senderUsername : Str
  messageText : Str
deriving DecidableEq, Repr

/-- The message that is queued. -/
def Broadcast.message (d : Broadcast) : Message :=
  delivery d.roomName d.senderUsername d.messageText

/-- The lines in which a client asks for a broadcast. -/
structure Asking where
  login : Place
  join : Place
  sendall : Place

/-- The delivery of what they ask for: the room, the user and the text as they stand in the
lines. -/
def Asking.delivery (a : Asking) : Option Message := do
  let roomName ← a.join.asked tagJoin
  let username ← a.login.asked tagSlogin
  let text ← a.sendall.asked tagSendall
  pure (Chat.delivery roomName username text)

/-- The last of the first `n` lines after the login that the server takes for a join. -/
def lastJoin (items : List Item) : ℕ → ℕ
  | 0 => 0
  | n + 1 =>
      if (place items (n + 1)).message.any fun msg => msg.tag = tagJoin then n + 1
      else lastJoin items n

/-- Some run of a worker makes this broadcast for these lines: its login, the last join that it
has taken, and the sendall that it answers. -/
def Accepted (a : Asking) (d : Broadcast) : Prop :=
  ∃ n conn user rounds final k round,
    worker n conn = some (.sender user rounds final) ∧ rounds[k]? = some round ∧
    Call.broadcastMessage d.roomName d.senderUsername d.messageText ∈ round.calls ∧
    a = { login := place conn.fdbuf.items 0
          join := place conn.fdbuf.items (lastJoin conn.fdbuf.items k)
          sendall := place conn.fdbuf.items (k + 1) }

/-- The three lines are read whole, and there is room for them in one line: 242 characters
without their tags and colons. -/
structure Asking.Fits (a : Asking) : Prop where
  login : a.login.Whole
  join : a.join.Whole
  sendall : a.sendall.Whole
  room : a.login.line.length + a.join.line.length + a.sendall.line.length ≤ 262

/-! ## Accepted strings -/

/-- A string without newline and NUL. -/
def Clean (s : Str) : Prop := 10 ∉ s ∧ 0 ∉ s

/-- The server takes this text from a line: the data of its message, all but the newline. -/
def Place.Takes (tag text : Str) (p : Place) : Prop :=
  ∃ msg, p.message = some msg ∧ msg.tag = tag ∧ msg.data.dropLast = text

section

variable {p : Place} {tag text : Str}

theorem newline_notMem_passed (p : Place) : 10 ∉ p.passed.dropLast := by
  have hline := newline_notMem_line p
  unfold Place.passed
  split
  · intro hmem
    rcases List.prefix_concat_iff.mp (List.take_prefix (maxLen - 1) (p.line ++ [10])) with
      heq | hpart
    · rw [heq, List.dropLast_concat] at hmem
      exact hline hmem
    · exact hline (hpart.subset (List.mem_of_mem_dropLast hmem))
  · exact fun hmem => hline (List.mem_of_mem_take (List.mem_of_mem_dropLast hmem))

theorem Place.Takes.clean (h : p.Takes tag text) : Clean text := by
  obtain ⟨msg, hmsg, -, rfl⟩ := h
  obtain ⟨l, hl, rfl, -⟩ := message_eq_some.mp hmsg
  rw [lineResult_eq hl]
  obtain ⟨hnewline, hnul⟩ := parse_data_clean (newline_notMem_passed p)
  exact ⟨hnewline, fun hc => hnul (List.mem_of_mem_dropLast hc)⟩

/-- A whole line asks for what is taken from it. -/
theorem Place.Takes.asked (h : p.Takes tag text) (hwhole : p.Whole) : p.asked tag = some text := by
  obtain ⟨msg, hmsg, rfl, rfl⟩ := h
  exact hwhole.asked_eq hmsg

/-- From another less is taken. -/
theorem Place.Takes.length_le {payload : Str} (h : p.Takes tag text)
    (hasked : p.asked tag = some payload) :
    text.length ≤ payload.length ∧ (text.length = payload.length → p.Whole) := by
  obtain ⟨msg, hmsg, rfl, rfl⟩ := h
  exact ⟨(dropLast_of_asked hmsg hasked).length_le, whole_of_asked hmsg hasked⟩

end

/-! ## The worker's broadcasts -/

/-- The room of a user is that of the last join. -/
def RoomTaken (items : List Item) (n : ℕ) (user : User) : Prop :=
  user.roomName ≠ [] → (place items (lastJoin items n)).Takes tagJoin user.roomName

section

variable {items : List Item} {n : ℕ} {user : User} {msg : Message} {s s' : Sender} {round : Round}

theorem lastJoin_of_message (h : (place items (n + 1)).message = some msg) :
    lastJoin items (n + 1) = if msg.tag = tagJoin then n + 1 else lastJoin items n := by
  rw [lastJoin, h]
  simp

/-- A request changes the room by a join, or leaves it. -/
theorem handleRequest_taken (huser : RoomTaken items n user)
    (h : (place items (n + 1)).message = some msg) :
    RoomTaken items (n + 1) (handleRequest user msg).user := by
  intro hroom
  rw [lastJoin_of_message h]
  rw [handleRequest_user] at hroom ⊢
  by_cases hjoin : msg.tag = tagJoin
  · simp only [if_pos hjoin] at hroom ⊢
    exact ⟨msg, h, hjoin, rfl⟩
  · simp only [if_neg hjoin] at hroom ⊢
    split at hroom
    · exact absurd rfl hroom
    · next hleave =>
        rw [if_neg hleave]
        exact huser hroom

theorem handleRequest_broadcast {d : Broadcast}
    (h : Call.broadcastMessage d.roomName d.senderUsername d.messageText ∈
      (handleRequest user msg).calls) :
    user.roomName ≠ [] ∧ msg.tag = tagSendall ∧ d.roomName = user.roomName ∧
      d.senderUsername = user.username ∧ d.messageText = msg.data.dropLast := by
  rcases tag_cases msg with htag | htag | htag | htag | htag
  · rw [handleRequest_join htag] at h
    exact absurd h (by simp)
  · by_cases hin : user.roomName = []
    · rw [handleRequest_sendall_outside htag hin] at h
      exact absurd h List.not_mem_nil
    · rw [handleRequest_sendall htag hin] at h
      exact ⟨hin, htag, by simpa using h⟩
  · by_cases hin : user.roomName = []
    · rw [handleRequest_leave_outside htag hin] at h
      exact absurd h List.not_mem_nil
    · rw [handleRequest_leave htag hin] at h
      exact absurd h List.not_mem_nil
  · rw [handleRequest_quit htag] at h
    exact absurd h List.not_mem_nil
  · rw [handleRequest_other htag] at h
    exact absurd h List.not_mem_nil

/-- Along a run of the loop, the room of a broadcast is that of the last join before it. -/
theorem chatWithSender_taken {d : Broadcast} : ∀ {m n : ℕ} {s final : Sender}
    {rounds : List Round}, s.conn.fdbuf.items = (place items (n + 1)).items →
    RoomTaken items n s.user → chatWithSender m s = some (rounds, final) →
    ∀ {k : ℕ}, rounds[k]? = some round →
    Call.broadcastMessage d.roomName d.senderUsername d.messageText ∈ round.calls →
    (place items (lastJoin items (n + k))).Takes tagJoin d.roomName ∧
      d.senderUsername = s.user.username ∧
      (place items (n + k + 1)).Takes tagSendall d.messageText := by
  intro m
  induction m with
  | zero =>
      intro n s final rounds _ _ h k hk
      rcases chatWithSender_cases h with ⟨rfl, -⟩ | ⟨m, -, -, -, hm, -⟩
      · exact absurd hk (by simp)
      · exact absurd hm (by simp)
  | succ m ih =>
      intro n s final rounds hitems huser h k hk hcall
      rcases chatWithSender_cases h with ⟨rfl, -⟩ |
        ⟨m', first, rest, s₁, hm, -, -, hfirst, hrest, rfl⟩
      · exact absurd hk (by simp)
      · obtain rfl : m = m' := Nat.succ.inj hm
        obtain ⟨hrequest, hitems₁⟩ := senderRound_reads hitems hfirst
        rw [← place_succ] at hitems₁
        rcases senderRound_cases hfirst with ⟨msg, conn, -, rfl, rfl⟩ |
          ⟨msg, conn, sent, conn', -, -, rfl, rfl⟩
        · -- a round without a message
          have hstill : RoomTaken items (n + 1) s.user := by
            intro hroom
            rw [lastJoin, ← hrequest]
            exact huser hroom
          cases k with
          | zero =>
              obtain rfl := Option.some.inj hk
              exact absurd hcall List.not_mem_nil
          | succ k =>
              have hrec := ih hitems₁ hstill hrest hk hcall
              rw [Nat.add_right_comm n 1 k] at hrec
              exact hrec
        · have hmsg : (place items (n + 1)).message = some msg := hrequest.symm
          cases k with
          | zero =>
              obtain rfl := Option.some.inj hk
              obtain ⟨hin, htag, hroom, hname, htext⟩ := handleRequest_broadcast hcall
              exact ⟨hroom ▸ huser hin, hname, msg, hmsg, htag, htext.symm⟩
          | succ k =>
              obtain ⟨hroom, hname, htext⟩ :=
                ih hitems₁ (handleRequest_taken huser hmsg) hrest hk hcall
              rw [Nat.add_right_comm n 1 k] at hroom htext
              refine ⟨hroom, ?_, htext⟩
              rw [hname, handleRequest_user]

end

/-- What is broadcast is taken from the lines. -/
theorem Accepted.takes {a : Asking} {d : Broadcast} (h : Accepted a d) :
    a.join.Takes tagJoin d.roomName ∧ a.login.Takes tagSlogin d.senderUsername ∧
      a.sendall.Takes tagSendall d.messageText := by
  obtain ⟨n, conn, user, rounds, final, k, round, hworker, hround, hcall, rfl⟩ := h
  obtain ⟨login, s, hmsg, htag, huser, hsuser, -, hitems, hrun⟩ := worker_sender hworker
  have hstart : RoomTaken conn.fdbuf.items 0 s.user := by
    intro hroom
    rw [hsuser, huser] at hroom
    exact absurd rfl hroom
  obtain ⟨hroom, hname, htext⟩ := chatWithSender_taken hitems hstart hrun hround hcall
  rw [Nat.zero_add] at hroom htext
  rw [hsuser, huser] at hname
  exact ⟨hroom, ⟨login, hmsg, htag, hname.symm⟩, htext⟩

/-- A delivery of accepted strings is a message of the protocol. -/
theorem Accepted.plain {a : Asking} {d : Broadcast} (h : Accepted a d) : Plain d.message := by
  obtain ⟨hroom, hname, htext⟩ := h.takes
  refine ⟨by simp [Broadcast.message, delivery, standardTags], ?_, ?_⟩
  · simp [Broadcast.message, delivery, hroom.clean.1, hname.clean.1, htext.clean.1]
  · simp [Broadcast.message, delivery, hroom.clean.2, hname.clean.2, htext.clean.2]

/-- It is what the lines ask for just if they are read whole. -/
theorem Accepted.delivery_iff {a : Asking} {d : Broadcast} (h : Accepted a d) :
    a.delivery = some d.message ↔ a.login.Whole ∧ a.join.Whole ∧ a.sendall.Whole := by
  obtain ⟨hroom, hname, htext⟩ := h.takes
  constructor
  · intro hdelivery
    obtain ⟨room, hroom', hdelivery⟩ := Option.bind_eq_some_iff.mp hdelivery
    obtain ⟨name, hname', hdelivery⟩ := Option.bind_eq_some_iff.mp hdelivery
    obtain ⟨text, htext', hdelivery⟩ := Option.bind_eq_some_iff.mp hdelivery
    -- no string is longer than what is asked for, and together they are as long
    have hlen : room.length + name.length + text.length =
        d.roomName.length + d.senderUsername.length + d.messageText.length := by
      have hdata := congrArg (fun m : Message => m.data.length) (Option.some.inj hdelivery)
      simp only [Broadcast.message, delivery, List.length_append, List.length_singleton] at hdata
      omega
    obtain ⟨hroomle, hroomeq⟩ := hroom.length_le hroom'
    obtain ⟨hnamele, hnameeq⟩ := hname.length_le hname'
    obtain ⟨htextle, htexteq⟩ := htext.length_le htext'
    exact ⟨hnameeq (by omega), hroomeq (by omega), htexteq (by omega)⟩
  · rintro ⟨hlogin, hjoin, hsendall⟩
    rw [Asking.delivery, hroom.asked hjoin, hname.asked hlogin, htext.asked hsendall]
    rfl

theorem length_encode_delivery (d : Broadcast) : (encode d.message).length =
    d.roomName.length + d.senderUsername.length + d.messageText.length + 12 := by
  have htag : tagDelivery.length = 8 := by decide
  rw [length_encode]
  simp [Broadcast.message, delivery, htag]
  omega

/-! ## The receiver's worker -/

/-- A closed connection stays as it is. -/
theorem deliverLoop_closed {results : List (Option Message)} {c : Connection}
    (h : c.isOpen = false) : deliverLoop results c = some c := by
  cases results with
  | nil => rfl
  | cons result results => simp [deliverLoop, h]

/-- While its sends succeed the worker writes the messages it dequeues. -/
theorem deliverLoop_output : ∀ {results : List (Option Message)} {c c' : Connection},
    deliverLoop results c = some c' → c.isOpen = true → c'.isOpen = true →
    c'.output = c.output ++ results.reduceOption.flatMap encode := by
  intro results
  induction results with
  | nil =>
      intro c c' h _ _
      obtain rfl : c = c' := Option.some.inj h
      simp
  | cons result results ih =>
      intro c c' h hopen hopen'
      cases result with
      | none =>
          simp only [deliverLoop, hopen, if_true] at h
          rw [List.reduceOption_cons_of_none]
          exact ih h hopen hopen'
      | some broadcast =>
          simp only [deliverLoop, hopen, if_true] at h
          obtain ⟨⟨ok, c₁⟩, hsend, h⟩ := Option.bind_eq_some_iff.mp h
          cases ok with
          | false =>
              -- a failed send closes the connection for good
              have hclosed : c₁.isOpen = false := by
                obtain ⟨⟨ok, written, writes⟩, -, hsplit⟩ := Option.map_eq_some_iff.mp hsend
                rw [Prod.mk.injEq] at hsplit
                obtain ⟨rfl, rfl⟩ := hsplit
                rfl
              rw [deliverLoop_closed hclosed] at h
              obtain rfl : c₁ = c' := Option.some.inj h
              exact absurd hopen' (by simp [hclosed])
          | true =>
              obtain ⟨houtput, -, hlast⟩ := send_output hsend
              have hopen₁ : c₁.isOpen = true := by simp [Connection.isOpen, hlast]
              rw [ih h hopen₁ hopen', houtput, List.reduceOption_cons_of_some, List.flatMap_cons,
                List.append_assoc]

theorem Accepted.length_iff {a : Asking} {d : Broadcast} (h : Accepted a d)
    (hwhole : a.login.Whole ∧ a.join.Whole ∧ a.sendall.Whole) :
    (encode d.message).length < maxLen ↔
      a.login.line.length + a.join.line.length + a.sendall.line.length ≤ 262 := by
  obtain ⟨hroom, hname, htext⟩ := h.takes
  have hlogin := (asked_eq_some.mp (hname.asked hwhole.1)).2.2
  have hjoin := (asked_eq_some.mp (hroom.asked hwhole.2.1)).2.2
  have hsendall := (asked_eq_some.mp (htext.asked hwhole.2.2)).2.2
  have htags : tagSlogin.length = 6 ∧ tagJoin.length = 4 ∧ tagSendall.length = 7 := by decide
  rw [length_encode_delivery, hlogin, hjoin, hsendall, maxLen]
  simp only [List.length_append, List.length_cons, htags]
  omega

/-- **Deliveries.** The deliveries that are asked for in accepted requests, sent by the
receiver's worker as it dequeues them and read by its client through any cutting of the
stream: the client receives exactly these exactly when the three lines of each fit. -/
theorem deliveries_received_iff {as : List (Asking × Broadcast)} {c c' r : Connection}
    (results : List (Option Message)) (stream : Str) (hacc : ∀ x ∈ as, Accepted x.1 x.2)
    (hqueue : results.reduceOption = as.map fun x => x.2.message) (hopen : c.isOpen = true)
    (hdeliver : deliverLoop results c = some c') (hopen' : c'.isOpen = true)
    (hwritten : c'.output = c.output ++ stream) (hitems : r.fdbuf.items = stream.map .byte) :
    (∃ msgs, (as.map fun x => x.1.delivery) = msgs.map some ∧ Received r msgs) ↔
      ∀ x ∈ as, x.1.Fits := by
  have hplain : ∀ msg ∈ as.map fun x => x.2.message, Plain msg := by
    intro msg hmsg
    obtain ⟨x, hx, rfl⟩ := List.mem_map.mp hmsg
    exact (hacc x hx).plain
  have hstream : r.fdbuf.items =
      ((as.map fun x => x.2.message).flatMap encode).map .byte := by
    rw [deliverLoop_output hdeliver hopen hopen', hqueue, List.append_cancel_left_eq] at hwritten
    rw [hitems, hwritten]
  have hshort := received_iff hplain hstream
  rw [List.forall_mem_map] at hshort
  constructor
  · rintro ⟨msgs, hasked, hreceived⟩ x hx
    -- no other messages than those that were sent can be received from the stream
    have hlength : msgs.length = (as.map fun x => x.2.message).length := by
      have hlen := congrArg List.length hasked
      simp only [List.length_map] at hlen ⊢
      exact hlen.symm
    obtain rfl := received_eq hplain hstream hreceived hlength
    rw [List.map_map] at hasked
    have hwhole := (hacc x hx).delivery_iff.mp (List.map_inj_left.mp hasked x hx)
    exact ⟨hwhole.1, hwhole.2.1, hwhole.2.2,
      ((hacc x hx).length_iff hwhole).mp (hshort.mp hreceived x hx)⟩
  · intro hfits
    have hwhole : ∀ x ∈ as, x.1.login.Whole ∧ x.1.join.Whole ∧ x.1.sendall.Whole :=
      fun x hx => ⟨(hfits x hx).login, (hfits x hx).join, (hfits x hx).sendall⟩
    refine ⟨as.map fun x => x.2.message, ?_, hshort.mpr fun x hx => ?_⟩
    · rw [List.map_map]
      exact List.map_congr_left fun x hx => (hacc x hx).delivery_iff.mpr (hwhole x hx)
    · exact ((hacc x hx).length_iff (hwhole x hx)).mpr (hfits x hx).room

/-! ## Two sessions -/

/-- A login, a join and a message of 81 characters each. -/
def longLines : Str :=
  ascii "slogin:" ++ List.replicate 81 97 ++ ascii "\njoin:" ++ List.replicate 81 98 ++
    ascii "\nsendall:" ++ List.replicate 81 99 ++ [10]

def longConnection (writes : List WriteResult) : Connection := .new [.bytes longLines] writes

def longAsking : Asking :=
  { login := place (longConnection []).fdbuf.items 0
    join := place (longConnection []).fdbuf.items 1
    sendall := place (longConnection []).fdbuf.items 2 }

def longBroadcast : Broadcast :=
  { roomName := List.replicate 81 98, senderUsername := List.replicate 81 97
    messageText := List.replicate 81 99 }

theorem accepted_longBroadcast : Accepted longAsking longBroadcast :=
  ⟨2, longConnection [.wrote 98 (by decide), .wrote 16 (by decide), .wrote 17 (by decide)],
    _, _, _, 1, _, rfl, rfl, by decide +kernel, rfl⟩

/-- The three lines are accepted, but the delivery is not what its receiver
reads. -/
theorem longBroadcast_not_received : Accepted longAsking longBroadcast ∧
    (∃ c', deliverLoop [some longBroadcast.message] (Connection.new [] [.wrote 255 (by decide)]) =
      some c' ∧ c'.isOpen = true ∧ c'.output = encode longBroadcast.message) ∧
    (Connection.new [.bytes (encode longBroadcast.message)] []).fdbuf.items =
      (encode longBroadcast.message).map .byte ∧
    longAsking.delivery = some longBroadcast.message ∧
    ¬Received (Connection.new [.bytes (encode longBroadcast.message)] [])
      [longBroadcast.message] := by
  have hplain : ∀ msg ∈ [longBroadcast.message], Plain msg := by
    intro msg hmsg
    rw [List.mem_singleton.mp hmsg]
    exact accepted_longBroadcast.plain
  refine ⟨accepted_longBroadcast, ⟨_, rfl, rfl, by decide +kernel⟩, by decide +kernel,
    by decide +kernel, ?_⟩
  rw [received_iff hplain (by decide +kernel)]
  intro hall
  exact absurd (hall _ List.mem_cons_self) (by decide +kernel)

def shortConnection (writes : List WriteResult) : Connection :=
  .new [.bytes (ascii "slogin:ann\njoin:r\nsendall:hi: there\n")] writes

def shortAsking : Asking :=
  { login := place (shortConnection []).fdbuf.items 0
    join := place (shortConnection []).fdbuf.items 1
    sendall := place (shortConnection []).fdbuf.items 2 }

def shortBroadcast : Broadcast :=
  { roomName := ascii "r", senderUsername := ascii "ann", messageText := ascii "hi: there" }

theorem accepted_shortBroadcast : Accepted shortAsking shortBroadcast :=
  ⟨2, shortConnection [.wrote 20 (by decide), .wrote 16 (by decide), .wrote 17 (by decide)],
    _, _, _, 1, _, rfl, rfl, by decide +kernel, rfl⟩

/-- The delivery is dequeued at the second attempt and read in two pieces. -/
theorem deliveries_received_iff_short : ∃ msgs,
    ([(shortAsking, shortBroadcast)].map fun x => x.1.delivery) = msgs.map some ∧
      Received (Connection.new [.bytes (ascii "delivery:r:ann"), .bytes (ascii ":hi: there\n")] [])
        msgs := by
  have hacc : ∀ x ∈ [(shortAsking, shortBroadcast)], Accepted x.1 x.2 := by
    intro x hx
    rw [List.mem_singleton.mp hx]
    exact accepted_shortBroadcast
  refine (deliveries_received_iff (c := Connection.new [] [.wrote 25 (by decide)])
    [none, some shortBroadcast.message] (encode shortBroadcast.message) hacc rfl rfl
    rfl rfl (by decide) (by decide)).mpr fun x hx => ?_
  rw [List.mem_singleton.mp hx]
  exact ⟨⟨rfl, rfl, by decide, by decide⟩, ⟨rfl, rfl, by decide, by decide⟩,
    ⟨rfl, rfl, by decide, by decide⟩, by decide⟩

end Csf.Chat
