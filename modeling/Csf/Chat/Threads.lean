import Csf.Chat.Server
import Csf.Lib.Mutex
import Csf.Lib.Transition
import Mathlib.Data.Finset.Max

/-!
# Chat: the server's threads

Every client has its worker, and the workers share the rooms. A step is one
access to what they share, by one worker: taking or giving back a mutex, a look
at the map of rooms, a change of a set of members, of a queue or of a semaphore.

`program` is the code, one instruction for each place `Pc` a worker can be at;
`State.effect` is what an instruction does to the shared state. Workers are any
ordered type: a worker stands for its `User` too, and the order is the one that
`std::set<User *>` iterates in.
-/

namespace Csf.Chat

open Csf.Lib

/-- A room as its callers know it: its name and the pointer to it. -/
structure Target where
  name : Str
  room : ℕ
deriving DecidableEq, Repr

/-- `Server::m_lock`, the `lock` of a `Room` and the `m_lock` of a user's queue. -/
inductive Lock (W : Type) where
  | server
  | room (room : ℕ)
  | queue (user : W)
deriving DecidableEq, Repr

/-- `Room` -/
structure Room (W : Type) where
  roomName : Str
  members : Finset W

/-- `MessageQueue` -/
structure MessageQueue where
  mAvail : ℕ
  mMessages : List Message
deriving DecidableEq, Repr

/-! ## Places in the code -/

/-- What the caller of `find_or_create_room` does with the room. -/
inductive After where
  | nothing
  | broadcastMessage (senderUsername messageText : Str)
  | addMember
deriving DecidableEq, Repr

/-- Places in `find_or_create_room`. -/
inductive FindAt where
  | lock
  | find
  | insert
  | unlock (room : ℕ)
deriving DecidableEq, Repr

/-- Places in `add_member` and `remove_member`. -/
inductive GuardAt where
  | lock
  | body
  | unlock
deriving DecidableEq, Repr

/-- Places in `enqueue`. -/
inductive EnqueueAt where
  | lock
  | push
  | unlock
  | post
deriving DecidableEq, Repr

/-- Places in `broadcast_message`; `⊤` is `members.end()`. -/
inductive BroadcastAt (W : Type) where
  | lock (senderUsername messageText : Str)
  | build (senderUsername messageText : Str)
  | test (message : Message) (it : WithTop W)
  | enqueue (message : Message) (user : W) (pos : EnqueueAt)
  | unlock

/-- Places in `dequeue`. -/
inductive DequeueAt where
  | wait
  | lock
  | pop
  | unlock (msg : Message)
deriving DecidableEq, Repr

/-- Places in `worker`, with the call it is in. -/
inductive Pc (W : Type) where
  | login
  | senderLoop
  | receiverJoin
  | findRoom (name : Str) (after : After) (pos : FindAt)
  | addMember (t : Target) (pos : GuardAt)
  | receiverLoop (t : Target)
  | dequeue (t : Target) (pos : DequeueAt)
  | removeMember (t : Target) (pos : GuardAt)
  | broadcast (t : Target) (pos : BroadcastAt W)
  | finished

/-- A worker: its `User`, but for the queue, and where it is. -/
structure Worker (W : Type) where
  user : User
  pc : Pc W

/-- The state of the server. Rooms lie at the addresses below `next`. -/
structure State (W : Type) where
  owner : Mutex.Table (Lock W) W
  mRooms : Str → Option ℕ
  next : ℕ
  room : ℕ → Room W
  queue : W → MessageQueue
  worker : W → Worker W

/-- What decides a step besides the state: a message from the client, a time-out,
the end of the connection. -/
inductive Input where
  | go
  | request (msg : Message)
  | timeout
  | closed
deriving DecidableEq, Repr

/-- What a run shows: each time the lock of a room is taken, what for, and the
messages that `dequeue` takes. -/
inductive Event (W : Type) where
  | add (user : W) (t : Target)
  | remove (user : W) (t : Target)
  | broadcast (worker : W) (t : Target) (senderUsername messageText : Str)
  | dequeue (user : W) (msg : Message)
deriving DecidableEq, Repr

/-! ## Instructions -/

/-- What a step does to the shared state. -/
inductive Action (W : Type) where
  | skip
  | lock (l : Lock W)
  | unlock (l : Lock W)
  | newRoom (name : Str)
  | insert (room : ℕ)
  | erase (room : ℕ)
  | push (user : W) (msg : Message)
  | post (user : W)
  | wait
  | pop

/-- An instruction: what it does to the shared state, the worker after it, and what
it shows. -/
structure Move (W : Type) where
  action : Action W
  worker : Worker W
  events : List (Event W)

/-- On to another place. -/
def Worker.goto {W : Type} (me : Worker W) (pc : Pc W) : Worker W := { me with pc := pc }

variable {W : Type}

/-- Where the caller goes on when `find_or_create_room` has returned. -/
def After.enter (t : Target) : After → Pc W
  | .nothing => .senderLoop
  | .broadcastMessage senderUsername messageText =>
      .broadcast t (.lock senderUsername messageText)
  | .addMember => .addMember t .lock

/-- `Server::find_or_create_room` -/
def findOrCreateRoom (s : State W) (me : Worker W) (name : Str) (after : After) :
    FindAt → Move W
  | .lock => ⟨.lock .server, me.goto (.findRoom name after .find), []⟩
  | .find =>
      match s.mRooms name with
      | some targetRoom => ⟨.skip, me.goto (.findRoom name after (.unlock targetRoom)), []⟩
      | none => ⟨.skip, me.goto (.findRoom name after .insert), []⟩
  | .insert => ⟨.newRoom name, me.goto (.findRoom name after (.unlock s.next)), []⟩
  | .unlock room => ⟨.unlock .server, me.goto (after.enter ⟨name, room⟩), []⟩

/-- `Room::add_member`, and the assignment of `chat_with_receiver` after it. -/
def addMember (s : State W) (w : W) (me : Worker W) (t : Target) : GuardAt → Move W
  | .lock => ⟨.lock (.room t.room), me.goto (.addMember t .body), [.add w t]⟩
  | .body =>
      ⟨.insert t.room,
        { user := { me.user with roomName := (s.room t.room).roomName }
          pc := .addMember t .unlock }, []⟩
  | .unlock =>
      ⟨.unlock (.room t.room),
        { user := { me.user with roomName := t.name }, pc := .receiverLoop t }, []⟩

/-- `Room::remove_member` -/
def removeMember (w : W) (me : Worker W) (t : Target) : GuardAt → Move W
  | .lock => ⟨.lock (.room t.room), me.goto (.removeMember t .body), [.remove w t]⟩
  | .body =>
      ⟨.erase t.room,
        { user := { me.user with roomName := [] }, pc := .removeMember t .unlock }, []⟩
  | .unlock => ⟨.unlock (.room t.room), me.goto .finished, []⟩

section

variable [LinearOrder W]

/-- `++it` on an iterator at `user`. -/
def Room.after (room : Room W) (user : W) : WithTop W := (room.members.filter (user < ·)).min

/-- `MessageQueue::enqueue`, called on the queue of `user` by `broadcast_message`. -/
def enqueue (s : State W) (me : Worker W) (t : Target) (message : Message) (user : W) :
    EnqueueAt → Move W
  | .lock => ⟨.lock (.queue user), me.goto (.broadcast t (.enqueue message user .push)), []⟩
  | .push =>
      ⟨.push user message, me.goto (.broadcast t (.enqueue message user .unlock)), []⟩
  | .unlock => ⟨.unlock (.queue user), me.goto (.broadcast t (.enqueue message user .post)), []⟩
  | .post =>
      ⟨.post user, me.goto (.broadcast t (.test message ((s.room t.room).after user))), []⟩

/-- `Room::broadcast_message` -/
def broadcastMessage (s : State W) (w : W) (me : Worker W) (t : Target) :
    BroadcastAt W → Move W
  | .lock senderUsername messageText =>
      ⟨.lock (.room t.room), me.goto (.broadcast t (.build senderUsername messageText)),
        [.broadcast w t senderUsername messageText]⟩
  | .build senderUsername messageText =>
      let room := s.room t.room
      ⟨.skip, me.goto (.broadcast t
        (.test (delivery room.roomName senderUsername messageText) room.members.min)), []⟩
  | .test _ none => ⟨.skip, me.goto (.broadcast t .unlock), []⟩
  | .test message (some user) =>
      ⟨.skip, me.goto (.broadcast t (.enqueue message user .lock)), []⟩
  | .enqueue message user pos => enqueue s me t message user pos
  | .unlock => ⟨.unlock (.room t.room), me.goto .senderLoop, []⟩

/-- `MessageQueue::dequeue`, called by a receiver on its own queue. There is no
instruction for `front` on an empty deque. -/
def dequeue (s : State W) (w : W) (me : Worker W) (t : Target) (input : Input) :
    DequeueAt → Option (Move W)
  | .wait =>
      if input = .timeout then some ⟨.skip, me.goto (.receiverLoop t), []⟩
      else some ⟨.wait, me.goto (.dequeue t .lock), []⟩
  | .lock => some ⟨.lock (.queue w), me.goto (.dequeue t .pop), []⟩
  | .pop =>
      match (s.queue w).mMessages with
      | msg :: _ => some ⟨.pop, me.goto (.dequeue t (.unlock msg)), [.dequeue w msg]⟩
      | [] => none
  | .unlock _ => some ⟨.unlock (.queue w), me.goto (.receiverLoop t), []⟩

/-- `worker`, up to the loops. -/
def login (me : Worker W) (initMsg : Message) : Worker W :=
  if initMsg.tag = tagRlogin then { user := User.new initMsg.data.dropLast, pc := .receiverJoin }
  else if initMsg.tag = tagSlogin then
    { user := User.new initMsg.data.dropLast, pc := .senderLoop }
  else me.goto .finished

/-- The calls of `handleRequest`, made one after the other. -/
def startCalls : List Call → Pc W
  | [.findOrCreateRoom name] => .findRoom name .nothing .lock
  | [.findOrCreateRoom name, .broadcastMessage _ senderUsername messageText] =>
      .findRoom name (.broadcastMessage senderUsername messageText) .lock
  | _ => .senderLoop

/-- The loop of `chat_with_sender`, from a request to the calls it takes. -/
def senderLoop (me : Worker W) (msg : Message) : Worker W :=
  let o := handleRequest me.user msg
  { user := o.user, pc := if o.exitCase then .finished else startCalls o.calls }

/-- `chat_with_receiver`, up to the first call. -/
def receiverRequest (me : Worker W) (msg : Message) : Worker W :=
  if msg.tag = tagJoin ∧ msg.data ≠ [] then
    me.goto (.findRoom msg.data.dropLast .addMember .lock)
  else me.goto .finished

/-- The instruction of worker `w`. -/
def program (s : State W) (w : W) (input : Input) : Option (Move W) :=
  let me := s.worker w
  match me.pc, input with
  | .login, .request msg => some ⟨.skip, login me msg, []⟩
  | .login, .closed => some ⟨.skip, me.goto .finished, []⟩
  | .senderLoop, .request msg => some ⟨.skip, senderLoop me msg, []⟩
  | .senderLoop, .closed => some ⟨.skip, me.goto .finished, []⟩
  | .receiverJoin, .request msg => some ⟨.skip, receiverRequest me msg, []⟩
  | .receiverJoin, .closed => some ⟨.skip, me.goto .finished, []⟩
  | .findRoom name after pos, _ => some (findOrCreateRoom s me name after pos)
  | .addMember t pos, _ => some (addMember s w me t pos)
  | .receiverLoop t, .closed => some ⟨.skip, me.goto (.removeMember t .lock), []⟩
  | .receiverLoop t, _ => some ⟨.skip, me.goto (.dequeue t .wait), []⟩
  | .dequeue t pos, input => dequeue s w me t input pos
  | .removeMember t pos, _ => some (removeMember w me t pos)
  | .broadcast t pos, _ => some (broadcastMessage s w me t pos)
  | _, _ => none

/-! ## Steps -/

/-- The state with another queue for `user`. -/
def State.setQueue (s : State W) (user : W) (q : MessageQueue) : State W :=
  { s with queue := Function.update s.queue user q }

/-- The state with other members of a room. -/
def State.setMembers (s : State W) (room : ℕ) (members : Finset W) : State W :=
  { s with room := Function.update s.room room { s.room room with members := members } }

/-- A mutex that is taken and a semaphore at zero do not let a worker through. -/
def State.enabled (s : State W) (w : W) : Action W → Bool
  | .lock l => (s.owner l).isNone
  | .wait => 0 < (s.queue w).mAvail
  | _ => true

/-- What an action of worker `w` does to the shared state; `std::map::insert` keeps
what is there. -/
def State.effect (s : State W) (w : W) : Action W → State W
  | .skip => s
  | .lock l => { s with owner := s.owner.take l w }
  | .unlock l => { s with owner := s.owner.give l }
  | .newRoom name =>
      { s with
        mRooms := if s.mRooms name = none then Function.update s.mRooms name (some s.next)
          else s.mRooms
        next := s.next + 1
        room := Function.update s.room s.next { roomName := name, members := ∅ } }
  | .insert room => s.setMembers room (insert w (s.room room).members)
  | .erase room => s.setMembers room ((s.room room).members.erase w)
  | .push user msg =>
      s.setQueue user { s.queue user with mMessages := (s.queue user).mMessages ++ [msg] }
  | .post user => s.setQueue user { s.queue user with mAvail := (s.queue user).mAvail + 1 }
  | .wait => s.setQueue w { s.queue w with mAvail := (s.queue w).mAvail - 1 }
  | .pop => s.setQueue w { s.queue w with mMessages := (s.queue w).mMessages.tail }

/-- The state with worker `w` elsewhere. -/
def State.setWorker (s : State W) (w : W) (me : Worker W) : State W :=
  { s with worker := Function.update s.worker w me }

/-- A step of worker `w`, and what it shows. -/
def State.step (s : State W) (w : W) (input : Input) : Option (State W × List (Event W)) := do
  let move ← program s w input
  if s.enabled w move.action then
    pure ((s.effect w move.action).setWorker w move.worker, move.events)
  else none

/-- No room yet, and no client logged in. -/
def State.initial (W : Type) : State W where
  owner := fun _ => none
  mRooms := fun _ => none
  next := 0
  room := fun _ => { roomName := [], members := ∅ }
  queue := fun _ => { mAvail := 0, mMessages := [] }
  worker := fun _ => { user := User.new [], pc := .login }

/-- The server: any worker takes the next step. -/
def server (W : Type) [LinearOrder W] : TSys (State W) (Event W) where
  init s := s = State.initial W
  step s es s' := ∃ w input, s.step w input = some (s', es)

/-- The run of a schedule. -/
def State.exec (s : State W) : List (W × Input) → Option (State W × List (Event W))
  | [] => some (s, [])
  | (w, input) :: schedule => do
      let (s₁, es) ← s.step w input
      let (s₂, es') ← s₁.exec schedule
      pure (s₂, es ++ es')

/-- What a schedule does is a run. -/
theorem run_of_exec {schedule : List (W × Input)} : ∀ {s s' : State W} {h es : List (Event W)},
    (server W).Run h s → s.exec schedule = some (s', es) → (server W).Run (h ++ es) s' := by
  induction schedule with
  | nil =>
      intro s s' h es hrun hexec
      have hpair := Option.some.inj hexec
      rw [Prod.mk.injEq] at hpair
      obtain ⟨rfl, rfl⟩ := hpair
      rw [List.append_nil]
      exact hrun
  | cons turn schedule ih =>
      intro s s' h es hrun hexec
      obtain ⟨⟨s₁, es₁⟩, hstep, hexec⟩ := Option.bind_eq_some_iff.mp hexec
      obtain ⟨⟨s₂, es₂⟩, hrest, hexec⟩ := Option.bind_eq_some_iff.mp hexec
      have hpair : (s₂, es₁ ++ es₂) = (s', es) := Option.some.inj hexec
      rw [Prod.mk.injEq] at hpair
      obtain ⟨rfl, rfl⟩ := hpair
      rw [← List.append_assoc]
      exact ih (hrun.step ⟨turn.1, turn.2, hstep⟩) hrest

/-- Where a schedule leads from the start, and what it shows; nowhere, if one of its
turns cannot be taken. -/
def reached (schedule : List (W × Input)) : State W × List (Event W) :=
  ((State.initial W).exec schedule).getD (State.initial W, [])

theorem run_reached (schedule : List (W × Input)) :
    (server W).Run (reached schedule).2 (reached schedule).1 := by
  rw [reached]
  cases hexec : (State.initial W).exec schedule with
  | none => exact .init rfl
  | some r =>
      have hrun := run_of_exec (.init rfl) hexec
      rwa [List.nil_append] at hrun

end

end Csf.Chat
