import Csf.Chat.History
import Csf.Chat.Session

/-!
# Chat: from requests to broadcasts

A run of the server with the messages in view that the workers take from their clients.
What a worker has been asked decides which broadcasts it makes, in which order, whatever the
other workers do in between: along every run those it has made, with the one that is under way
to its room, are those that its requests call for.
-/

namespace Csf.Chat

open Csf.Lib

variable {W : Type}

/-! ## Runs with their requests -/

/-- What is seen of a step: a message that a worker takes, or an event. -/
inductive Seen (W : Type) where
  | taken (worker : W) (msg : Message)
  | event (e : Event W)

/-- The message that a worker takes, where it waits for one. -/
def Pc.takes : Pc W → Input → Option Message
  | .login, .request msg => some msg
  | .senderLoop, .request msg => some msg
  | .receiverJoin, .request msg => some msg
  | _, _ => none

/-- What is seen of a step of `w` from a place. -/
def seen (w : W) (pc : Pc W) (input : Input) (es : List (Event W)) : List (Seen W) :=
  (pc.takes input).toList.map (.taken w) ++ es.map .event

/-- The server, with the messages that its workers take. -/
def openServer (W : Type) [LinearOrder W] : TSys (State W) (Seen W) where
  init s := s = State.initial W
  step s h s' := ∃ w input es, s.step w input = some (s', es) ∧ h = seen w (s.worker w).pc input es

def Seen.event? : Seen W → Option (Event W)
  | .event e => some e
  | .taken _ _ => none

/-- The events of a history. -/
def events (h : List (Seen W)) : List (Event W) := h.filterMap Seen.event?

section

variable [DecidableEq W]

def Seen.takenBy (w : W) : Seen W → Option Message
  | .taken worker msg => if worker = w then some msg else none
  | .event _ => none

/-- The messages that worker `w` has taken. -/
def takenBy (w : W) (h : List (Seen W)) : List Message := h.filterMap (Seen.takenBy w)

/-- The broadcast that `w` has made with an event. -/
def Event.broadcastBy (w : W) : Event W → Option Broadcast
  | .broadcast worker t senderUsername messageText =>
      if worker = w then some { roomName := t.name, senderUsername := senderUsername
                                messageText := messageText }
      else none
  | _ => none

/-- The broadcasts that `w` has made. -/
def madeBy (w : W) (h : List (Event W)) : List Broadcast := h.filterMap (Event.broadcastBy w)

end

/-- Those of the broadcasts of `w` that `u` is to get. -/
def heardFrom [DecidableEq W] (w u : W) (h : List (Event W)) : List Broadcast :=
  (heard u h).filterMap fun i => (h[i]?).bind (Event.broadcastBy w)

theorem filterMap_range {α β : Type} (f : α → Option β) : ∀ l : List α,
    (List.range l.length).filterMap (fun i => (l[i]?).bind f) = l.filterMap f := by
  intro l
  induction l using List.reverseRecOn with
  | nil => rfl
  | append_singleton l a ih =>
      have hold : (List.range l.length).filterMap (fun i => ((l ++ [a])[i]?).bind f) =
          (List.range l.length).filterMap fun i => (l[i]?).bind f := by
        refine List.filterMap_congr fun i hi => ?_
        rw [List.getElem?_append_left (List.mem_range.mp hi)]
      rw [List.length_append, List.length_singleton, List.range_succ, List.filterMap_append, hold,
        ih, List.filterMap_append]
      simp [List.filterMap_cons]

/-- They are broadcasts that `w` has made, in their order and each once. -/
theorem heardFrom_sublist [DecidableEq W] (w u : W) (h : List (Event W)) :
    (heardFrom w u h).Sublist (madeBy w h) := by
  rw [madeBy, ← filterMap_range]
  exact List.filter_sublist.filterMap _

/-! ## What the requests call for -/

/-- What the messages so far have made of a worker. -/
inductive Phase where
  | login
  | sender (user : User)
  | other
deriving DecidableEq, Repr

/-- The next message: what it makes of the worker, and the broadcasts that it calls for. -/
def Phase.take : Phase → Message → Phase × List Broadcast
  | .login, msg =>
      if msg.tag = tagSlogin then (.sender (User.new msg.data.dropLast), []) else (.other, [])
  | .sender user, msg =>
      let o := handleRequest user msg
      (if o.exitCase then .other else .sender o.user, o.calls.filterMap Call.broadcast)
  | .other, _ => (.other, [])

/-- The same for several messages. -/
def Phase.run : Phase → List Message → Phase × List Broadcast
  | phase, [] => (phase, [])
  | phase, msg :: msgs =>
      (((phase.take msg).1.run msgs).1, (phase.take msg).2 ++ ((phase.take msg).1.run msgs).2)

/-- What these messages call for, the first being a login. -/
def calledFor (msgs : List Message) : List Broadcast := (Phase.login.run msgs).2

theorem run_append (more : List Message) : ∀ (msgs : List Message) (phase : Phase),
    phase.run (msgs ++ more) = (((phase.run msgs).1.run more).1,
      (phase.run msgs).2 ++ ((phase.run msgs).1.run more).2) := by
  intro msgs
  induction msgs with
  | nil => exact fun phase => rfl
  | cons first msgs ih =>
      intro phase
      rw [List.cons_append, Phase.run, ih]
      simp [Phase.run]

/-! ## One step -/

/-- The broadcast that a worker is on the way to. -/
def Pc.due : Pc W → List Broadcast
  | .findRoom name (.broadcastMessage senderUsername messageText) _ =>
      [{ roomName := name, senderUsername := senderUsername, messageText := messageText }]
  | .broadcast t (.lock senderUsername messageText) =>
      [{ roomName := t.name, senderUsername := senderUsername, messageText := messageText }]
  | _ => []

/-- Where a worker is agrees with what the messages have made of it. -/
def Worker.Follows (me : Worker W) (phase : Phase) : Prop :=
  match me.pc with
  | .login => phase = .login
  | .senderLoop => phase = .sender me.user
  | .findRoom _ .nothing _ => phase = .sender me.user
  | .findRoom _ (.broadcastMessage _ _) _ => phase = .sender me.user
  | .broadcast _ _ => phase = .sender me.user
  | .finished => True
  | _ => phase = .other

/-- What a step of `w` from `me` to `me'` makes of a phase. -/
def Advances [DecidableEq W] (w : W) (me : Worker W) (msg : Option Message) (me' : Worker W)
    (es : List (Event W)) : Prop :=
  ∀ phase : Phase, me.Follows phase →
    me'.Follows (phase.run msg.toList).1 ∧
      me.pc.due ++ (phase.run msg.toList).2 = madeBy w es ++ me'.pc.due

section

variable [LinearOrder W] {s : State W} {w : W} {me : Worker W} {msg : Message}

theorem advances_login (hpc : me.pc = .login) : Advances w me (some msg) (login me msg) [] := by
  intro phase hphase
  rw [Worker.Follows, hpc] at hphase
  obtain rfl : phase = .login := hphase
  have hne : tagRlogin ≠ tagSlogin := by decide
  unfold login
  by_cases hreceiver : msg.tag = tagRlogin
  · simp [hpc, hreceiver, hne, Phase.run, Phase.take, Pc.due, madeBy, Worker.Follows]
  · by_cases hsender : msg.tag = tagSlogin
    · simp [hpc, hsender, hne.symm, Phase.run, Phase.take, Pc.due, madeBy, Worker.Follows]
    · simp [hpc, hreceiver, hsender, Phase.run, Phase.take, Pc.due, madeBy, Worker.Follows,
        Worker.goto]

omit [LinearOrder W] in
/-- The calls of a request lead to the broadcast that is among them. -/
theorem due_startCalls (user : User) (msg : Message) :
    (startCalls (handleRequest user msg).calls : Pc W).due =
      (handleRequest user msg).calls.filterMap Call.broadcast := by
  unfold handleRequest
  split_ifs <;> rfl

omit [LinearOrder W] in
theorem follows_startCalls (user : User) (msg : Message) :
    (⟨(handleRequest user msg).user, startCalls (handleRequest user msg).calls⟩ :
      Worker W).Follows (.sender (handleRequest user msg).user) := by
  unfold handleRequest
  split_ifs <;> rfl

theorem advances_senderLoop (hpc : me.pc = .senderLoop) :
    Advances w me (some msg) (senderLoop me msg) [] := by
  intro phase hphase
  rw [Worker.Follows, hpc] at hphase
  obtain rfl : phase = .sender me.user := hphase
  have hrun : (Phase.sender me.user).run [msg] =
      (if (handleRequest me.user msg).exitCase then .other
        else .sender (handleRequest me.user msg).user,
        (handleRequest me.user msg).calls.filterMap Call.broadcast) := by
    simp [Phase.run, Phase.take]
  have hcalls := due_startCalls (W := W) me.user msg
  rw [Option.toList_some, hrun, hpc]
  by_cases hexit : (handleRequest me.user msg).exitCase = true
  · -- a quit makes no calls
    have hnone : (handleRequest me.user msg).calls = [] := by
      rw [handleRequest_quit (handleRequest_exit_iff.mp hexit)]
    simp [senderLoop, hexit, hnone, Worker.Follows, Pc.due, madeBy]
  · have hworker : senderLoop me msg =
        ⟨(handleRequest me.user msg).user, startCalls (handleRequest me.user msg).calls⟩ := by
      simp [senderLoop, hexit]
    rw [hworker, if_neg hexit, hcalls]
    exact ⟨follows_startCalls me.user msg, rfl⟩

theorem advances_receiverJoin (hpc : me.pc = .receiverJoin) :
    Advances w me (some msg) (receiverRequest me msg) [] := by
  intro phase hphase
  rw [Worker.Follows, hpc] at hphase
  obtain rfl : phase = .other := hphase
  unfold receiverRequest
  split_ifs <;>
    simp [hpc, Phase.run, Phase.take, Pc.due, madeBy, Worker.Follows, Worker.goto]

/-- The connection has ended. -/
theorem advances_finished (hdue : me.pc.due = []) :
    Advances w me none (me.goto .finished) [] := by
  intro phase _
  rw [hdue]
  exact ⟨trivial, rfl⟩

/-- A step inside a call takes no message: the worker stays what it is, and the broadcast that
it is on the way to is made or still due. -/
theorem advances_inside {me' : Worker W} {es : List (Event W)}
    (hfollows : ∀ phase, me.Follows phase → me'.Follows phase)
    (hdue : me.pc.due = madeBy w es ++ me'.pc.due) : Advances w me none me' es := by
  intro phase hphase
  refine ⟨hfollows phase hphase, ?_⟩
  rw [← hdue]
  exact List.append_nil _

theorem advances_findRoom {name : Str} {after : After} {pos : FindAt}
    (hpc : me.pc = .findRoom name after pos) :
    Advances w me none (findOrCreateRoom s me name after pos).worker
      (findOrCreateRoom s me name after pos).events := by
  have hgoto : ∀ pc : Pc W, (∀ phase, me.Follows phase → (me.goto pc).Follows phase) →
      me.pc.due = pc.due → Advances w me none (me.goto pc) [] :=
    fun pc hfollows hdue => advances_inside hfollows hdue
  have hnext : ∀ pos', Advances w me none (me.goto (.findRoom name after pos')) [] := by
    intro pos'
    apply hgoto
    · intro phase hphase
      rw [Worker.Follows, hpc] at hphase
      cases after <;> exact hphase
    · rw [hpc]
      cases after <;> rfl
  cases pos with
  | lock => exact hnext _
  | find =>
      cases hroom : s.mRooms name <;>
        simp only [findOrCreateRoom, hroom] <;> exact hnext _
  | insert => exact hnext _
  | unlock room =>
      apply hgoto
      · intro phase hphase
        rw [Worker.Follows, hpc] at hphase
        cases after <;> exact hphase
      · rw [hpc]
        cases after <;> rfl

/-- A step of a receiver, which makes no broadcast. -/
theorem advances_receiving {me' : Worker W} {es : List (Event W)}
    (hother : ∀ phase, me.Follows phase → phase = .other) (hdue : me.pc.due = [])
    (hfollows : me'.Follows .other) (hdue' : me'.pc.due = []) (hes : madeBy w es = []) :
    Advances w me none me' es := by
  refine advances_inside (fun phase hphase => ?_) ?_
  · rw [hother phase hphase]
    exact hfollows
  · rw [hdue, hdue', hes]
    rfl

theorem advances_addMember {t : Target} {pos : GuardAt} (hpc : me.pc = .addMember t pos) :
    Advances w me none (addMember s w me t pos).worker (addMember s w me t pos).events := by
  have hother : ∀ phase, me.Follows phase → phase = .other := by
    intro phase hphase
    rwa [Worker.Follows, hpc] at hphase
  cases pos <;> exact advances_receiving hother (hpc ▸ rfl) rfl rfl rfl

theorem advances_removeMember {t : Target} {pos : GuardAt} (hpc : me.pc = .removeMember t pos) :
    Advances w me none (removeMember w me t pos).worker (removeMember w me t pos).events := by
  have hother : ∀ phase, me.Follows phase → phase = .other := by
    intro phase hphase
    rwa [Worker.Follows, hpc] at hphase
  cases pos with
  | lock => exact advances_receiving hother (hpc ▸ rfl) rfl rfl rfl
  | body => exact advances_receiving hother (hpc ▸ rfl) rfl rfl rfl
  | unlock => exact advances_receiving hother (hpc ▸ rfl) trivial rfl rfl

theorem advances_receiverLoop {t : Target} {pc : Pc W} (hpc : me.pc = .receiverLoop t)
    (hnext : pc = .removeMember t .lock ∨ pc = .dequeue t .wait) :
    Advances w me none (me.goto pc) [] := by
  have hother : ∀ phase, me.Follows phase → phase = .other := by
    intro phase hphase
    rwa [Worker.Follows, hpc] at hphase
  rcases hnext with rfl | rfl <;> exact advances_receiving hother (hpc ▸ rfl) rfl rfl rfl

theorem advances_dequeue {t : Target} {pos : DequeueAt} {input : Input} {move : Move W}
    (hpc : me.pc = .dequeue t pos) (hmove : dequeue s w me t input pos = some move) :
    Advances w me none move.worker move.events := by
  have hother : ∀ phase, me.Follows phase → phase = .other := by
    intro phase hphase
    rwa [Worker.Follows, hpc] at hphase
  cases pos with
  | wait =>
      simp only [dequeue] at hmove
      split at hmove <;>
      · obtain rfl := Option.some.inj hmove
        exact advances_receiving hother (hpc ▸ rfl) rfl rfl rfl
  | lock =>
      obtain rfl := Option.some.inj hmove
      exact advances_receiving hother (hpc ▸ rfl) rfl rfl rfl
  | pop =>
      simp only [dequeue] at hmove
      split at hmove
      · obtain rfl := Option.some.inj hmove
        exact advances_receiving hother (hpc ▸ rfl) rfl rfl rfl
      · cases hmove
  | unlock msg =>
      obtain rfl := Option.some.inj hmove
      exact advances_receiving hother (hpc ▸ rfl) rfl rfl rfl

theorem advances_broadcast {t : Target} {pos : BroadcastAt W} (hpc : me.pc = .broadcast t pos) :
    Advances w me none (broadcastMessage s w me t pos).worker
      (broadcastMessage s w me t pos).events := by
  have hnext : ∀ {me' : Worker W} {es : List (Event W)}, me'.Follows (.sender me.user) →
      me.pc.due = madeBy w es ++ me'.pc.due → Advances w me none me' es := by
    intro me' es hfollows hdue
    refine advances_inside (fun phase hphase => ?_) hdue
    rw [Worker.Follows, hpc] at hphase
    obtain rfl : phase = .sender me.user := hphase
    exact hfollows
  cases pos with
  | lock senderUsername messageText =>
      -- the broadcast that was due is made
      refine hnext rfl ?_
      simp [hpc, madeBy, Event.broadcastBy, Pc.due, broadcastMessage, Worker.goto]
  | build senderUsername messageText => exact hnext rfl (hpc ▸ rfl)
  | test message it => cases it <;> exact hnext rfl (hpc ▸ rfl)
  | enqueue message user pos => cases pos <;> exact hnext rfl (hpc ▸ rfl)
  | unlock => exact hnext rfl (hpc ▸ rfl)

/-- Every instruction advances its worker by the message that it takes. -/
theorem program_advances {input : Input} {move : Move W} (hmove : program s w input = some move) :
    Advances w (s.worker w) ((s.worker w).pc.takes input) move.worker move.events := by
  simp only [program] at hmove
  split at hmove
  case h_1 hpc =>
    obtain rfl := Option.some.inj hmove
    rw [hpc]
    exact advances_login hpc
  case h_2 hpc =>
    obtain rfl := Option.some.inj hmove
    rw [hpc]
    exact advances_finished (hpc ▸ rfl)
  case h_3 hpc =>
    obtain rfl := Option.some.inj hmove
    rw [hpc]
    exact advances_senderLoop hpc
  case h_4 hpc =>
    obtain rfl := Option.some.inj hmove
    rw [hpc]
    exact advances_finished (hpc ▸ rfl)
  case h_5 hpc =>
    obtain rfl := Option.some.inj hmove
    rw [hpc]
    exact advances_receiverJoin hpc
  case h_6 hpc =>
    obtain rfl := Option.some.inj hmove
    rw [hpc]
    exact advances_finished (hpc ▸ rfl)
  case h_7 hpc =>
    obtain rfl := Option.some.inj hmove
    rw [hpc]
    exact advances_findRoom hpc
  case h_8 hpc =>
    obtain rfl := Option.some.inj hmove
    rw [hpc]
    exact advances_addMember hpc
  case h_9 hpc =>
    obtain rfl := Option.some.inj hmove
    rw [hpc]
    exact advances_receiverLoop hpc (.inl rfl)
  case h_10 hpc _ =>
    obtain rfl := Option.some.inj hmove
    rw [hpc]
    exact advances_receiverLoop hpc (.inr rfl)
  case h_11 hpc =>
    rw [hpc]
    exact advances_dequeue hpc hmove
  case h_12 hpc =>
    obtain rfl := Option.some.inj hmove
    rw [hpc]
    exact advances_removeMember hpc
  case h_13 hpc =>
    obtain rfl := Option.some.inj hmove
    rw [hpc]
    exact advances_broadcast hpc
  case h_14 => cases hmove

/-! ## Runs -/

variable {s' : State W} {h : List (Seen W)} {es : List (Event W)} {u : W} {input : Input}

omit [LinearOrder W] in
theorem events_seen (pc : Pc W) : events (seen w pc input es) = es := by
  have htaken : ∀ msgs : List Message,
      (msgs.map (Seen.taken w)).filterMap Seen.event? = [] := by
    intro msgs
    simp [List.filterMap_eq_nil_iff, Seen.event?]
  have hevent : (es.map Seen.event).filterMap Seen.event? = es := by
    rw [List.filterMap_map]
    exact List.filterMap_some
  rw [events, seen, List.filterMap_append, htaken, hevent, List.nil_append]

theorem takenBy_seen (pc : Pc W) :
    takenBy u (seen w pc input es) = if w = u then (pc.takes input).toList else [] := by
  have hevent : (es.map Seen.event).filterMap (Seen.takenBy u) = [] := by
    simp [List.filterMap_eq_nil_iff, Seen.takenBy]
  rw [takenBy, seen, List.filterMap_append, hevent, List.append_nil]
  cases pc.takes input with
  | none => simp
  | some msg =>
      by_cases hu : w = u
      · simp [Seen.takenBy, hu]
      · simp [Seen.takenBy, hu]

/-- Without its requests, a run is a run of the server. -/
theorem run_events (hrun : (openServer W).Run h s) : (server W).Run (events h) s := by
  induction hrun with
  | init h₀ => exact .init h₀
  | step run hs ih =>
      obtain ⟨w, input, es, hstep, rfl⟩ := hs
      rw [events, List.filterMap_append, ← events, ← events, events_seen]
      exact ih.step ⟨w, input, hstep⟩

/-- The broadcasts of a step are those of the worker that takes it. -/
theorem Moves.madeBy_of_ne {pc pc' : Pc W} {action : Action W} (hm : Moves s w pc action pc' es)
    (hu : u ≠ w) : madeBy u es = [] := by
  cases hm <;> simp [madeBy, Event.broadcastBy, Ne.symm hu]

/-- What a worker has become, and what it has broadcast or is about to, is what its messages
make of it and call for. -/
theorem follows_requests : (openServer W).Invariant fun h s => ∀ u,
    (s.worker u).Follows (Phase.login.run (takenBy u h)).1 ∧
      calledFor (takenBy u h) = madeBy u (events h) ++ (s.worker u).pc.due := by
  apply TSys.invariant_of_step
  · intro s hinit u
    obtain rfl : s = State.initial W := hinit
    exact ⟨rfl, rfl⟩
  · intro h _ s s' hs hstep u
    obtain ⟨w, input, es, hstep, rfl⟩ := hstep
    obtain ⟨move, hmove, hstep⟩ := Option.bind_eq_some_iff.mp hstep
    split at hstep
    · have hpair := Option.some.inj hstep
      rw [Prod.mk.injEq] at hpair
      obtain ⟨rfl, rfl⟩ := hpair
      obtain ⟨hfollows, hcalled⟩ := hs u
      have htaken : takenBy u (h ++ seen w (s.worker w).pc input move.events) =
          takenBy u h ++ if w = u then ((s.worker w).pc.takes input).toList else [] := by
        rw [takenBy, List.filterMap_append]
        exact congrArg (takenBy u h ++ ·) (takenBy_seen _)
      have hmade : madeBy u (events (h ++ seen w (s.worker w).pc input move.events)) =
          madeBy u (events h) ++ madeBy u move.events := by
        rw [events, List.filterMap_append, ← events, ← events, events_seen]
        exact List.filterMap_append
      rw [htaken, hmade]
      rcases eq_or_ne u w with rfl | hu
      · obtain ⟨hfollows', hdue⟩ := program_advances hmove _ hfollows
        rw [if_pos rfl, setWorker_self, calledFor, run_append, ← calledFor, hcalled,
          List.append_assoc, hdue, List.append_assoc]
        exact ⟨hfollows', rfl⟩
      · rw [if_neg hu.symm, List.append_nil, (program_moves hmove).madeBy_of_ne hu,
          List.append_nil, setWorker_of_ne hu, effect_worker]
        exact ⟨hfollows, hcalled⟩
    · cases hstep

end

/-! ## Schedules -/

section

variable [LinearOrder W]

/-- The run of a schedule, with what is seen of it. -/
def State.watch (s : State W) : List (W × Input) → Option (State W × List (Seen W))
  | [] => some (s, [])
  | (w, input) :: schedule => do
      let (s₁, es) ← s.step w input
      let (s₂, h) ← s₁.watch schedule
      pure (s₂, seen w (s.worker w).pc input es ++ h)

/-- What a schedule does is a run. -/
theorem run_of_watch {schedule : List (W × Input)} : ∀ {s s' : State W} {h h' : List (Seen W)},
    (openServer W).Run h s → s.watch schedule = some (s', h') → (openServer W).Run (h ++ h') s' := by
  induction schedule with
  | nil =>
      intro s s' h h' hrun hwatch
      obtain ⟨rfl, rfl⟩ := Prod.mk.inj (Option.some.inj hwatch)
      rwa [List.append_nil]
  | cons turn schedule ih =>
      intro s s' h h' hrun hwatch
      obtain ⟨⟨s₁, es⟩, hstep, hwatch⟩ := Option.bind_eq_some_iff.mp hwatch
      obtain ⟨⟨s₂, h₂⟩, hrest, hwatch⟩ := Option.bind_eq_some_iff.mp hwatch
      obtain ⟨rfl, rfl⟩ := Prod.mk.inj (Option.some.inj hwatch)
      rw [← List.append_assoc]
      exact ih (hrun.step ⟨turn.1, turn.2, es, hstep, rfl⟩) hrest

/-- Where a schedule leads from the start, and what is seen of it; nowhere, if one of its turns
cannot be taken. -/
def watched (schedule : List (W × Input)) : State W × List (Seen W) :=
  ((State.initial W).watch schedule).getD (State.initial W, [])

theorem run_watched (schedule : List (W × Input)) :
    (openServer W).Run (watched schedule).2 (watched schedule).1 := by
  rw [watched]
  cases hwatch : (State.initial W).watch schedule with
  | none => exact .init rfl
  | some r => exact run_of_watch (.init rfl) hwatch

end

/-! ## The requests of a session -/

theorem calledFor_prefix {msgs msgs' : List Message} (h : msgs <+: msgs') :
    calledFor msgs <+: calledFor msgs' := by
  obtain ⟨more, rfl⟩ := h
  rw [calledFor, calledFor, run_append]
  exact List.prefix_append _ _

/-- What the requests of a run of `chat_with_sender` call for is what its rounds broadcast. -/
theorem run_requests : ∀ {n : ℕ} {s final : Sender} {rounds : List Round},
    s.exitCase = false → chatWithSender n s = some (rounds, final) →
    ((Phase.sender s.user).run (requests rounds)).2 = broadcastsOf rounds := by
  intro n
  induction n with
  | zero =>
      intro s final rounds _ h
      obtain ⟨rfl, -⟩ := Prod.mk.inj (Option.some.inj h)
      rfl
  | succ n ih =>
      intro s final rounds hexit h
      rcases chatWithSender_cases h with ⟨rfl, -⟩ | ⟨m, round, rest, s₁, hm, -, -, hround, hrest, rfl⟩
      · rfl
      obtain rfl : n = m := Nat.succ.inj hm
      rcases senderRound_cases hround with ⟨msg, conn, -, rfl, rfl⟩ |
        ⟨msg, conn, sent, conn', -, -, rfl, rfl⟩
      · have hnext := ih (s := { s with conn := conn, clientMsg := msg }) hexit hrest
        exact hnext
      · show (handleRequest s.user msg).calls.filterMap Call.broadcast ++
          (((Phase.sender s.user).take msg).1.run (requests rest)).2 = _
        rw [broadcastsOf, List.flatMap_cons, List.filterMap_append, ← broadcastsOf]
        congr 1
        by_cases hleave : ((handleRequest s.user msg).exitCase || !sent) = true
        · -- a quit, or a reply that was not sent: no round follows
          have hover := (chatWithSender_exit hleave).symm.trans hrest
          obtain ⟨rfl, -⟩ := Prod.mk.inj (Option.some.inj hover)
          rfl
        · rw [Bool.not_eq_true] at hleave
          have hnext := ih hleave hrest
          rw [Bool.or_eq_false_iff] at hleave
          rw [Phase.take, hleave.1]
          exact hnext

section

variable [LinearOrder W] {s : State W} {w : W} {h : List (Seen W)} {n m : ℕ}
  {username input : Str} {reads reads' : List ReadResult} {writes writes' : List WriteResult}
  {turn : Turn SenderClient} {user : User} {rounds : List Round} {final : Sender}

/-- **From the keyboard to the rooms.** In a run of the server, whatever the other workers do
meanwhile, the broadcasts that a sender's worker has made are the first of those that the lines
of its client say, in their order; once it has taken all its requests, none is missing but the
one it is on the way to; and what another worker is to get of them keeps their order. -/
theorem broadcasts_said (hrun : (openServer W).Run h s) (hname : NameFits username)
    (hn : n ≤ (lines 10 input).length) (htyped : ∀ line ∈ typed n input, LineFits line)
    (hwrites : .nothing false ∉ writes)
    (hclient : sender n username (.new reads writes) input = some turn)
    (hworker : worker m (.new reads' writes') = some (.sender user rounds final))
    (hreads : ReadsFrom reads final.conn.output)
    (hreads' : ReadsFrom reads' turn.state.conn.output)
    (htaken : takenBy w h <+: received (loginRequest username) :: requests rounds) :
    (server W).Run (events h) s ∧ madeBy w (events h) <+: said username [] (typed n input) ∧
      (takenBy w h = received (loginRequest username) :: requests rounds →
        madeBy w (events h) ++ (s.worker w).pc.due = said username [] (typed n input)) ∧
      (s.worker w).pc.due.length ≤ 1 ∧
      ∀ u, (heardFrom w u (events h)).Sublist (said username [] (typed n input)) := by
  obtain ⟨rfl, hrounds, -, -⟩ :=
    session_rounds hname hn htyped hwrites hclient hworker hreads hreads'
  obtain ⟨login, first, -, -, -, huser, hexit, -, hrun'⟩ := worker_sender hworker
  have hcalled : calledFor (received (loginRequest username) :: requests rounds) =
      said username [] (typed n input) := by
    have hfirst : Phase.login.take (received (loginRequest username)) =
        (.sender (User.new username), []) := by
      simp [Phase.take, received, loginRequest]
    have hrequests := run_requests hexit hrun'
    rw [huser] at hrequests
    rw [calledFor, Phase.run, hfirst]
    exact hrequests.trans (hrounds ▸ broadcastsOf_requestLines htyped)
  obtain ⟨-, hmade⟩ := follows_requests hrun w
  have hsaid : madeBy w (events h) <+: said username [] (typed n input) := by
    have hpart := calledFor_prefix htaken
    rw [hcalled, hmade] at hpart
    exact (List.prefix_append _ _).trans hpart
  refine ⟨run_events hrun, hsaid, ?_, ?_, fun u => (heardFrom_sublist w u _).trans hsaid.sublist⟩
  · intro hall
    rw [← hmade, hall, hcalled]
  · unfold Pc.due
    split <;> simp

end

/-- The worker of Ann's session, with a receiver that logs in while Ann's hello is under way. -/
def annSchedule : List (ℕ × Input) :=
  [(0, .request ⟨tagSlogin, ascii "ann\n"⟩), (0, .request ⟨tagSendall, ascii "hi\n"⟩),
    (0, .request ⟨tagJoin, ascii "r\n"⟩)] ++ List.replicate 4 (0, .go) ++
  [(0, .request ⟨tagSendall, ascii "hello\n"⟩), (0, .go), (1, .request ⟨tagRlogin, ascii "b\n"⟩),
    (0, .go), (0, .go), (0, .go)]

theorem broadcasts_said_ann :
    madeBy 0 (events (watched annSchedule).2) = [{ roomName := ascii "r"
                                                   senderUsername := ascii "ann"
                                                   messageText := ascii "hello" }] ∧
      madeBy 0 (events (watched annSchedule).2) <+: said (ascii "ann") [] (typed 4 annInput) := by
  obtain ⟨turn, rounds, final, hclient, hworker, hreads, hreads', hrequests⟩ := ann_runs
  have htaken : takenBy 0 (watched annSchedule).2 <+:
      received (loginRequest (ascii "ann")) :: requests rounds := by
    rw [hrequests]
    decide +kernel
  exact ⟨by decide +kernel, (broadcasts_said (run_watched annSchedule) fits_ann (by decide)
    (by decide) (by decide) hclient hworker hreads hreads' htaken).2.1⟩

end Csf.Chat
