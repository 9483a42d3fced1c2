import Csf.Chat.Clients
import Csf.Chat.Delivery

/-!
# Chat: the loop of the receiver

A delivery is three strings with colons between them, and the client splits it at colons
three times. So it gets the text back where there is no colon in it. The strings of earlier
deliveries stay in the client's variables, but each `getline` replaces them as long as the
stream is good.
-/

namespace Csf.Chat

open Csf.Lib

/-- What is to be printed of a broadcast. -/
def Broadcast.shown (d : Broadcast) : Str :=
  d.senderUsername ++ ascii ": " ++ d.messageText ++ [10]

/-- The next round prints this and nothing else, and is not the last. -/
def ReceiverClient.Prints (roomName : Str) (r : ReceiverClient) (text : Str) : Prop :=
  ∃ r', r.round roomName = some (.next r') ∧ r'.cout = r.cout ++ text ∧ r'.cerr = r.cerr

/-- A broadcast whose names do not hide a colon. -/
structure Broadcast.Named (d : Broadcast) : Prop where
  room : 58 ∉ d.roomName
  sender : 58 ∉ d.senderUsername
  plain : Plain d.message

section

variable {r : ReceiverClient} {d : Broadcast} {rest : List Item}

/-! ## The fields of a delivery -/

/-- The data of a delivery, with what is left of its text. -/
def Broadcast.fields (d : Broadcast) (text : Str) : Str :=
  d.roomName ++ 58 :: (d.senderUsername ++ 58 :: text)

theorem message_data (d : Broadcast) : d.message.data = d.fields d.messageText := by
  simp [Broadcast.message, delivery, Broadcast.fields]

/-- The data of a delivery as they are received. -/
theorem received_message (d : Broadcast) : received d.message =
    { tag := tagDelivery, data := d.fields (d.messageText ++ [10]) } := by
  unfold received
  rw [message_data]
  simp [Broadcast.fields, Broadcast.message, delivery]

/-- Only the text is looked for a third colon. -/
theorem deliver_fields (h : d.Named) (text : Str) :
    (r.deliver d.roomName (d.fields text)).cout =
      r.cout ++ (d.senderUsername ++ ascii ": " ++ (getline 58 (.new text) r.msgText).1) ∧
    (r.deliver d.roomName (d.fields text)).cerr = r.cerr := by
  unfold ReceiverClient.deliver Broadcast.fields
  simp only [getline_delim h.room, getline_delim h.sender]
  exact ⟨rfl, rfl⟩

/-- A round that receives a delivery. -/
theorem round_delivery {data : Str} {conn : Connection}
    (h : r.conn.receive { tag := [], data := [] } =
      some (true, { tag := tagDelivery, data := data }, conn)) (roomName : Str) :
    r.round roomName =
      some (.next (({ r with conn := conn } : ReceiverClient).deliver roomName data)) := by
  unfold ReceiverClient.round
  rw [h]
  rfl

/-- What the round prints is cut at the third colon. -/
theorem prints_iff_field {text : Str} {conn : Connection} (h : d.Named)
    (hreceive : r.conn.receive { tag := [], data := [] } =
      some (true, { tag := tagDelivery, data := d.fields text }, conn)) :
    r.Prints d.roomName d.shown ↔
      (getline 58 (.new text) r.msgText).1 = d.messageText ++ [10] := by
  obtain ⟨hcout, hcerr⟩ := deliver_fields (r := { r with conn := conn }) h text
  have hround := round_delivery hreceive d.roomName
  have hshown : d.shown = d.senderUsername ++ ascii ": " ++ (d.messageText ++ [10]) :=
    List.append_assoc _ _ _
  constructor
  · rintro ⟨r', hr', hprint, -⟩
    obtain rfl := Turn.next.inj (Option.some.inj (hround.symm.trans hr'))
    rw [hcout, hshown] at hprint
    exact List.append_cancel_left (List.append_cancel_left hprint)
  · intro hfield
    refine ⟨_, hround, ?_, hcerr⟩
    rw [hcout, hfield, hshown]

/-! ## One round -/

/-- A short delivery is received with its newline. -/
theorem receive_delivery (h : d.Named) (hlen : (encode d.message).length < maxLen)
    (hitems : r.conn.fdbuf.items = (encode d.message).map .byte ++ rest) :
    ∃ conn, conn.fdbuf.items = rest ∧ r.conn.receive { tag := [], data := [] } =
      some (true, { tag := tagDelivery, data := d.fields (d.messageText ++ [10]) }, conn) := by
  obtain ⟨conn, hrest, hreceive⟩ := receive_encode h.plain hitems hlen { tag := [], data := [] }
  rw [received_message] at hreceive
  exact ⟨conn, hrest, hreceive⟩

/-- Of a delivery of the full length the newline finds no room in the buffer. -/
theorem receive_full_delivery (h : d.Named) (hlen : (encode d.message).length = maxLen)
    (hitems : r.conn.fdbuf.items = (encode d.message).map .byte ++ rest) :
    ∃ conn, r.conn.receive { tag := [], data := [] } =
      some (true, { tag := tagDelivery, data := d.fields d.messageText }, conn) := by
  obtain ⟨conn, n, -, hn, hreceive⟩ :=
    receive_encode_long h.plain hitems (Nat.le_of_eq hlen.symm) { tag := [], data := [] }
  have hall : d.message.data.take n = d.fields d.messageText := by
    rw [← message_data]
    apply List.take_of_length_le
    rw [length_encode] at hlen
    omega
  rw [hall] at hreceive
  exact ⟨conn, hreceive⟩

/-- The client, whatever its variables hold from earlier deliveries, prints the sender and
the whole text of a broadcast to its room exactly when the text has no colon in it and the
line is shorter than the limit. -/
theorem prints_iff (h : d.Named) (hfits : (encode d.message).length ≤ maxLen)
    (hitems : r.conn.fdbuf.items = (encode d.message).map .byte ++ rest) :
    r.Prints d.roomName d.shown ↔
      58 ∉ d.messageText ∧ (encode d.message).length < maxLen := by
  rcases Nat.lt_or_eq_of_le hfits with hlen | hlen
  · obtain ⟨conn, -, hreceive⟩ := receive_delivery h hlen hitems
    rw [prints_iff_field h hreceive]
    by_cases hcolon : 58 ∈ d.messageText
    · obtain ⟨text, more, htext, hfirst⟩ := List.eq_append_cons_of_mem hcolon
      have hsplit : d.messageText ++ [10] = text ++ 58 :: (more ++ [10]) := by
        rw [htext, List.append_assoc, List.cons_append]
      refine iff_of_false ?_ (fun hno => hno.1 hcolon)
      rw [hsplit, getline_delim hfirst]
      simp
    · have hend : 58 ∉ d.messageText ++ [10] := by simpa using hcolon
      rw [getline_end hend]
      exact iff_of_true rfl ⟨hcolon, hlen⟩
  · obtain ⟨conn, hreceive⟩ := receive_full_delivery h hlen hitems
    rw [prints_iff_field h hreceive]
    refine iff_of_false ?_ (fun hno => absurd hno.2 (by omega))
    intro hfield
    have hlonger := (getline_begins 58 d.messageText r.msgText).length_le
    rw [hfield] at hlonger
    simp at hlonger

/-- Ann says something with a colon in it. -/
def colonBroadcast : Broadcast :=
  { roomName := ascii "r", senderUsername := ascii "ann", messageText := ascii "a:b" }

/-- A client that has just received it. -/
def colonClient : ReceiverClient := .new (.new [.bytes (encode colonBroadcast.message)] [])

theorem named_colonBroadcast : colonBroadcast.Named :=
  ⟨by decide, by decide, ⟨by decide, by decide, by decide⟩⟩

theorem items_colonClient :
    colonClient.conn.fdbuf.items = (encode colonBroadcast.message).map .byte ++ [] := by decide

/-- The client prints the text up to the colon, and no newline. -/
theorem colon_cut : colonBroadcast.Named ∧ (encode colonBroadcast.message).length ≤ maxLen ∧
    colonClient.conn.fdbuf.items = (encode colonBroadcast.message).map .byte ++ [] ∧
    ((colonClient.round (ascii "r")).map fun turn => turn.state.cout) = some (ascii "ann: a") ∧
    ¬colonClient.Prints colonBroadcast.roomName colonBroadcast.shown := by
  refine ⟨named_colonBroadcast, by decide, items_colonClient, by decide, ?_⟩
  obtain ⟨conn, -, hreceive⟩ := receive_encode named_colonBroadcast.plain items_colonClient
    (by decide) { tag := [], data := [] }
  rw [prints_iff_field named_colonBroadcast hreceive]
  decide

/-- A client that has printed a message of Bob's before. -/
def usedClient : ReceiverClient :=
  { conn := .new [.bytes (ascii "delivery:r:ann:"), .bytes (ascii "hi\n")] [], room := ascii "r"
    sender := ascii "bob", msgText := ascii "x\n", cout := ascii "bob: x\n", cerr := [] }

theorem prints_hi :
    usedClient.Prints (ascii "r") (ascii "ann: hi\n") := by
  have hitems : usedClient.conn.fdbuf.items =
      (encode ({ colonBroadcast with messageText := ascii "hi" } : Broadcast).message).map .byte ++
        [] := by decide
  have hnamed : ({ colonBroadcast with messageText := ascii "hi" } : Broadcast).Named :=
    ⟨by decide, by decide, ⟨by decide, by decide, by decide⟩⟩
  exact (prints_iff hnamed (by decide) hitems).mpr (by decide)

end

end Csf.Chat
