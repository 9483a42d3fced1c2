import Csf.Chat.Server
import Csf.Lib.Istream

/-!
# Chat: the clients

`sender.cpp` and `receiver.cpp`, from the open connection on. A client is what the
variables of its `main` hold and what it has printed. Its loop goes round by round;
a round that blocks is `none`.
-/

namespace Csf.Chat

open Csf.Lib

/-- How a client ends: `main` returns a status, or an exception leaves it. -/
inductive Exit where
  | status (code : Int)
  | terminate
deriving DecidableEq, Repr

/-- A round is followed by the next one, or is the last. -/
inductive Turn (S : Type) where
  | next (s : S)
  | exit (how : Exit) (s : S)
deriving DecidableEq, Repr

/-- The state after a round. -/
def Turn.state {S : Type} : Turn S → S
  | .next s => s
  | .exit _ s => s

/-- Go on, unless the client has ended. -/
def Turn.andThen {S : Type} (turn : Turn S) (f : S → Option (Turn S)) : Option (Turn S) :=
  match turn with
  | .next s => f s
  | .exit how s => some (.exit how s)

/-- `n` rounds of a loop, or less where it ends. -/
def rounds {S : Type} (round : S → Option (Turn S)) : (n : ℕ) → S → Option (Turn S)
  | 0, s => some (.next s)
  | n + 1, s => (round s).bind fun turn => turn.andThen (rounds round n)

/-- `send`, whatever comes of it, and `receive` into a new message. -/
def Connection.ask (c : Connection) (msg : Message) : Option (Message × Connection) := do
  let (_, c) ← c.send msg
  let (_, response, c) ← c.receive { tag := [], data := [] }
  pure (response, c)

/-! ## `receiver.cpp` -/

/-- The connection, the strings that are declared before the loop, and the output. -/
structure ReceiverClient where
  conn : Connection
  room : Str
  sender : Str
  msgText : Str
  cout : Str
  cerr : Str
deriving DecidableEq, Repr

def ReceiverClient.new (conn : Connection) : ReceiverClient :=
  { conn := conn, room := [], sender := [], msgText := [], cout := [], cerr := [] }

def ReceiverClient.print (r : ReceiverClient) (text : Str) : ReceiverClient :=
  { r with cout := r.cout ++ text }

def ReceiverClient.complain (r : ReceiverClient) (text : Str) : ReceiverClient :=
  { r with cerr := r.cerr ++ text }

/-- A login or join request, and the end if it is not answered with ok. -/
def ReceiverClient.request (r : ReceiverClient) (msg : Message) : Option (Turn ReceiverClient) :=
  (r.conn.ask msg).map fun (response, conn) =>
    let r := { r with conn := conn }
    if response.tag = tagErr then .exit (.status 3) (r.complain response.data)
    else if response.tag ≠ tagOk then
      .exit (.status 4) (r.complain (ascii "unexpected server response\n"))
    else .next r

/-- The branch for a delivery: three fields of its data, up to a colon each. -/
def ReceiverClient.deliver (roomName : Str) (r : ReceiverClient) (data : Str) : ReceiverClient :=
  let ss := Istream.new data
  let (room, ss) := getline 58 ss r.room
  let (sender, ss) := getline 58 ss r.sender
  let (msgText, _) := getline 58 ss r.msgText
  let r := { r with room := room, sender := sender, msgText := msgText }
  if room = roomName then r.print (sender ++ ascii ": " ++ msgText) else r

/-- A round of the main loop. -/
def ReceiverClient.round (roomName : Str) (r : ReceiverClient) : Option (Turn ReceiverClient) :=
  (r.conn.receive { tag := [], data := [] }).map fun (ok, response, conn) =>
    let r := { r with conn := conn }
    if ok then
      if response.tag = tagDelivery then .next (r.deliver roomName response.data)
      else .next (r.complain (ascii "unexpected server response tag\n"))
    else if conn.lastResult = .eofOrError then .exit (.status (-1)) r
    else .next (r.complain (ascii "message invalid format\n"))

/-- `main`, with `n` rounds of its loop. -/
def receiver (n : ℕ) (username roomName : Str) (conn : Connection) :
    Option (Turn ReceiverClient) := do
  let turn ← (ReceiverClient.new conn).request { tag := tagRlogin, data := username }
  let turn ← turn.andThen fun r => r.request { tag := tagJoin, data := roomName }
  turn.andThen (rounds (ReceiverClient.round roomName) n)

/-! ## `sender.cpp` -/

/-- `str.substr(pos)`, which throws where `pos` is behind the end. -/
def substr (str : Str) (pos : ℕ) : Option Str :=
  if pos ≤ str.length then some (str.drop pos) else none

/-- What the client makes of a line: a message, after which the loop may end; an error
message; or an exception. -/
inductive Command where
  | send (msg : Message) (loopExitCase : Bool)
  | invalid
  | outOfRange
deriving DecidableEq, Repr

/-- The command on a line; `line[0]` is NUL where the line is empty. -/
def command (line : Str) : Command :=
  if line.head? = some 47 then
    if line.take 5 = ascii "/join" then
      match substr line 6 with
      | some data => .send { tag := tagJoin, data := data } false
      | none => .outOfRange
    else if line.take 6 = ascii "/leave" then .send { tag := tagLeave, data := [] } false
    else if line.take 5 = ascii "/quit" then .send { tag := tagQuit, data := [] } true
    else .invalid
  else .send { tag := tagSendall, data := line } false

/-- The connection, the standard input and the error output. -/
structure SenderClient where
  conn : Connection
  cin : Istream UInt8
  cerr : Str
deriving DecidableEq, Repr

def SenderClient.complain (s : SenderClient) (text : Str) : SenderClient :=
  { s with cerr := s.cerr ++ text }

/-- The login, which goes on after a response that is neither ok nor err. -/
def SenderClient.login (s : SenderClient) (username : Str) : Option (Turn SenderClient) :=
  (s.conn.ask { tag := tagSlogin, data := username }).map fun (response, conn) =>
    let s := { s with conn := conn }
    if response.tag = tagErr then .exit (.status 3) (s.complain response.data)
    else if response.tag ≠ tagOk then .next (s.complain (ascii "unexpected server response\n"))
    else .next s

/-- The rest of a round, from `send` to the test of the loop. -/
def SenderClient.exchange (s : SenderClient) (msg : Message) (loopExitCase : Bool) :
    Option (Turn SenderClient) := do
  let (sent, conn) ← s.conn.send msg
  let s := { s with conn := conn }
  if !sent then return .exit (.status 6) (s.complain (ascii "Error: cannot send message.\n"))
  let (ok, received, conn) ← s.conn.receive { tag := [], data := [] }
  let s := { s with conn := conn }
  let again := fun (s : SenderClient) =>
    if loopExitCase then Turn.exit (.status 0) s else Turn.next s
  if ok then
    if received.tag = tagErr then return again (s.complain received.data)
    else if received.tag ≠ tagOk then
      return .exit (.status 7) (s.complain (ascii "unexpected server response tag"))
    else return again s
  else if !conn.isOpen then
    return .exit (.status 8) (s.complain (ascii "could not receive due to EOF or Error"))
  else return again (s.complain (ascii "could not receive due to invalid format"))

/-- A round of the main loop. -/
def SenderClient.round (s : SenderClient) : Option (Turn SenderClient) :=
  let (line, cin) := getline 10 s.cin []
  let s := { s with cin := cin }
  match command line with
  | .send msg loopExitCase => s.exchange msg loopExitCase
  | .invalid => some (.next (s.complain (ascii "Error: invalid command\n")))
  | .outOfRange => some (.exit .terminate s)

/-- `main`, with `n` rounds of its loop. -/
def sender (n : ℕ) (username : Str) (conn : Connection) (input : Str) :
    Option (Turn SenderClient) := do
  let s : SenderClient := { conn := conn, cin := .new input, cerr := [] }
  let turn ← s.login username
  turn.andThen (rounds SenderClient.round n)

end Csf.Chat
