import Csf.Chat.History

/-!
# Chat: every receiver gets the broadcasts of its room

A receiver's queue can be behind the history of its room, by the messages that
the worker in the critical section of the room still owes it. With these added,
what was dequeued and what is queued is what the receiver is to get, along every
run.
-/

namespace Csf.Chat

open Csf.Lib

variable {W : Type}

/-- The name of the room that a worker is in, from taking the lock in `add_member` to
taking it in `remove_member`. -/
def Pc.joined : Pc W → Option Str
  | .addMember t .body => some t.name
  | .addMember t .unlock => some t.name
  | .receiverLoop t => some t.name
  | .dequeue t _ => some t.name
  | .removeMember t .lock => some t.name
  | _ => none

theorem joined_outside {pc : Pc W} (hpc : pc.Outside) : pc.joined = none := by
  cases hpc <;> rfl

@[simp] theorem joined_enter (t : Target) (after : After) :
    (after.enter t : Pc W).joined = none := by
  cases after <;> rfl

variable [LinearOrder W]

/-- What a worker has yet to push for a member `u`. -/
def Pc.owes (u : W) : Pc W → List Message
  | .broadcast t (.build senderUsername messageText) =>
      [delivery t.name senderUsername messageText]
  | .broadcast _ (.test message it) => if it ≤ u then [message] else []
  | .broadcast _ (.enqueue message user .lock) => if user ≤ u then [message] else []
  | .broadcast _ (.enqueue message user .push) => if user ≤ u then [message] else []
  | .broadcast _ (.enqueue message user .unlock) => if user < u then [message] else []
  | .broadcast _ (.enqueue message user .post) => if user < u then [message] else []
  | _ => []

/-- What a worker has pushed for a member `u` but not posted yet. -/
def Pc.unposted (u : W) : Pc W → List Message
  | .broadcast _ (.enqueue message user .unlock) => if user = u then [message] else []
  | .broadcast _ (.enqueue message user .post) => if user = u then [message] else []
  | _ => []

/-- `f` of the worker that holds the lock of the room of `u`. -/
def State.inHand (s : State W) (f : W → Pc W → List Message) (u : W) : List Message :=
  match (s.worker u).pc.inserted with
  | none => []
  | some room =>
      match s.owner (.room room) with
      | none => []
      | some w => f u (s.worker w).pc

/-- What `u` has yet to be given of the broadcast under way in its room. -/
def State.pending (s : State W) (u : W) : List Message := s.inHand Pc.owes u

/-- `f` of worker `w` as far as it holds the lock of `room`. -/
def share (f : W → Pc W → List Message) (w : W) (room : ℕ) (u : W) (pc : Pc W) :
    List Message :=
  if .room room ∈ held w pc then f u pc else []

section

variable {s s' : State W} {w u : W} {room : ℕ} {f : W → Pc W → List Message}
  {es : List (Event W)} {pc pc' : Pc W} {action : Action W}

omit [LinearOrder W] in
theorem inHand_outside (hin : (s.worker u).pc.inserted = none) : s.inHand f u = [] := by
  rw [State.inHand, hin]

omit [LinearOrder W] in
theorem inHand_of_owner (hin : (s.worker u).pc.inserted = some room)
    (howner : s.owner (.room room) = some w) : s.inHand f u = f u (s.worker w).pc := by
  rw [State.inHand, hin]
  show (match s.owner (.room room) with | none => [] | some w => f u (s.worker w).pc) = _
  rw [howner]

omit [LinearOrder W] in
theorem inHand_of_free (hin : (s.worker u).pc.inserted = some room)
    (howner : s.owner (.room room) = none) : s.inHand f u = [] := by
  rw [State.inHand, hin]
  show (match s.owner (.room room) with | none => [] | some w => f u (s.worker w).pc) = _
  rw [howner]

theorem owes_outside (hpc : pc.Outside) : pc.owes u = [] := by
  cases hpc <;> rfl

theorem unposted_outside (hpc : pc.Outside) : pc.unposted u = [] := by
  cases hpc <;> rfl

@[simp] theorem owes_enter (t : Target) (after : After) :
    (after.enter t : Pc W).owes u = [] := by
  cases after <;> rfl

@[simp] theorem unposted_enter (t : Target) (after : After) :
    (after.enter t : Pc W).unposted u = [] := by
  cases after <;> rfl

/-- At a step of `w`, what is in hand for `u` is the share of `w` before and after it,
or `w` has no share in it and it stays. -/
theorem inHand_step (hl : Mutex.Agrees s.owner s.held) (hl' : Mutex.Agrees s'.owner s'.held)
    (hothers : ∀ v ≠ w, s'.worker v = s.worker v)
    (hin : (s.worker u).pc.inserted = some room)
    (hin' : (s'.worker u).pc.inserted = some room) :
    (s.inHand f u = share f w room u (s.worker w).pc ∧
      s'.inHand f u = share f w room u (s'.worker w).pc) ∨
    (share f w room u (s.worker w).pc = [] ∧ share f w room u (s'.worker w).pc = [] ∧
      s'.inHand f u = s.inHand f u) := by
  have hheld : ∀ v ≠ w, s'.held v = s.held v := by
    intro v hv
    rw [State.held, hothers v hv, State.held]
  have hmine : ∀ {s : State W}, Mutex.Agrees s.owner s.held →
      (s.worker u).pc.inserted = some room → .room room ∈ s.held w →
        s.inHand f u = share f w room u (s.worker w).pc := by
    intro s hl hin hmem
    rw [inHand_of_owner hin ((hl _ _).mpr hmem)]
    exact (if_pos hmem).symm
  have hnot : ∀ {s : State W}, .room room ∉ s.held w →
      share f w room u (s.worker w).pc = [] := by
    intro s hmem
    exact if_neg hmem
  -- a state in which neither `w` nor anybody else holds the lock
  have hfree : ∀ {s : State W}, Mutex.Agrees s.owner s.held →
      (s.worker u).pc.inserted = some room → (∀ v, .room room ∉ s.held v) →
        s.inHand f u = [] := by
    intro s hl hin hnone
    refine inHand_of_free hin ?_
    cases howner : s.owner (.room room) with
    | none => rfl
    | some v => exact absurd ((hl _ _).mp howner) (hnone v)
  by_cases hmem : .room room ∈ s.held w <;> by_cases hmem' : .room room ∈ s'.held w
  · exact .inl ⟨hmine hl hin hmem, hmine hl' hin' hmem'⟩
  · refine .inl ⟨hmine hl hin hmem, ?_⟩
    rw [hnot hmem']
    refine hfree hl' hin' fun v hv => ?_
    rcases eq_or_ne v w with rfl | hne
    · exact hmem' hv
    · rw [hheld v hne] at hv
      exact hne (hl.exclusive hv hmem)
  · refine .inl ⟨?_, hmine hl' hin' hmem'⟩
    rw [hnot hmem]
    refine hfree hl hin fun v hv => ?_
    rcases eq_or_ne v w with rfl | hne
    · exact hmem hv
    · rw [← hheld v hne] at hv
      exact hne (hl'.exclusive hv hmem')
  · refine .inr ⟨hnot hmem, hnot hmem', ?_⟩
    cases howner : s.owner (.room room) with
    | none =>
        rw [inHand_of_free hin howner]
        refine hfree hl' hin' fun v hv => ?_
        rcases eq_or_ne v w with rfl | hne
        · exact hmem' hv
        · rw [hheld v hne] at hv
          exact hl.free howner v hv
    | some v =>
        have hv := (hl _ _).mp howner
        have hne : v ≠ w := by
          rintro rfl
          exact hmem hv
        rw [inHand_of_owner hin howner, inHand_of_owner hin' ((hl' _ _).mpr ?_), hothers v hne]
        rw [hheld v hne]
        exact hv

/-! ## What instructions do to a queue -/

/-- What an action pushes onto the queue of `u`. -/
def Action.pushed (u : W) : Action W → List Message
  | .push user msg => if user = u then [msg] else []
  | _ => []

/-- What the members of a room are to get at an event. -/
def Event.gainedIn (room : ℕ) : Event W → List Message
  | .broadcast _ t senderUsername messageText =>
      if t.room = room then [delivery t.name senderUsername messageText] else []
  | _ => []

/-- A move shows one event at most. -/
theorem Moves.events (hm : Moves s w pc action pc' es) : es = [] ∨ ∃ e, es = [e] := by
  cases hm <;> simp

/-- The next member is at or before a member exactly when the one left behind is before
it. -/
theorem after_le {room : Room W} {user : W} (hu : u ∈ room.members) :
    room.after user ≤ u ↔ user < u := by
  refine ⟨?_, ?_⟩
  · intro hle
    cases hnext : room.after user with
    | top =>
        rw [hnext] at hle
        exact absurd hle (WithTop.not_top_le_coe u)
    | coe v =>
        rw [hnext, WithTop.coe_le_coe] at hle
        exact lt_of_lt_of_le (Finset.mem_filter.mp (Finset.mem_of_min hnext)).2 hle
  · intro hlt
    exact Finset.min_le (Finset.mem_filter.mpr ⟨hu, hlt⟩)

/-- What `w` owes a member grows by what is broadcast and shrinks by what is pushed. -/
theorem Moves.owes (hm : Moves s w pc action pc' es) (hu : u ∈ (s.room room).members)
    (hname : ∀ {t}, pc.target = some t → (s.room t.room).roomName = t.name)
    (hit : ∀ {t}, pc.iterator = some (t, u) → t.room = room) :
    share Pc.owes w room u pc ++ es.flatMap (Event.gainedIn room) =
      action.pushed u ++ share Pc.owes w room u pc' := by
  cases hm with
  | outside hpc hpc' => simp [share, owes_outside hpc, owes_outside hpc', Action.pushed]
  | findUnlock =>
      simp only [share, owes_enter]
      simp [Pc.owes, Action.pushed]
  | @broadcastLock t =>
      -- the debt comes up with the lock of the room, before the loop has an iterator
      by_cases ht : t.room = room
      · simp [share, held, Pc.owes, Event.gainedIn, Action.pushed, ht]
      · simp [share, held, Event.gainedIn, Action.pushed, ht, Ne.symm ht]
  | @build t =>
      by_cases ht : t.room = room
      · subst ht
        -- the loop begins at the first member, so no member is behind it
        simp [share, held, Pc.owes, Action.pushed, Finset.min_le hu, hname rfl]
      · simp [share, held, Action.pushed, Ne.symm ht]
  | @push t message user =>
      by_cases ht : t.room = room
      · by_cases huser : user = u
        · simp [share, held, Pc.owes, Action.pushed, ht, huser]
        · -- the iterator stays: a member at or after it, other than the one served, is after it
          simp [share, held, Pc.owes, Action.pushed, ht, huser, lt_iff_le_and_ne]
      · have huser : user ≠ u := by
          rintro rfl
          exact ht (hit rfl)
        simp [share, held, Action.pushed, Ne.symm ht, huser]
  | @post t message user =>
      by_cases ht : t.room = room
      · subst ht
        -- the iterator goes on to the next member
        simp [share, held, Pc.owes, Action.pushed, after_le hu]
      · simp [share, held, Action.pushed, Ne.symm ht]
  | _ => simp [share, held, Pc.owes, Event.gainedIn, Action.pushed]

/-- Whether an action posts to the queue of `u`. -/
def Action.posted (u : W) : Action W → ℕ
  | .post user => if user = u then 1 else 0
  | _ => 0

/-- A push to a member is followed by its post. -/
theorem Moves.unposted (hm : Moves s w pc action pc' es) (room : ℕ)
    (hit : ∀ {t}, pc.iterator = some (t, u) → t.room = room) :
    (share Pc.unposted w room u pc).length + (action.pushed u).length =
      action.posted u + (share Pc.unposted w room u pc').length := by
  cases hm with
  | outside hpc hpc' =>
      simp [share, unposted_outside hpc, unposted_outside hpc', Action.pushed, Action.posted]
  | findUnlock =>
      simp only [share, unposted_enter]
      simp [Pc.unposted, Action.pushed, Action.posted]
  | @push t message user =>
      by_cases huser : user = u
      · subst huser
        simp [share, held, Pc.unposted, Action.pushed, Action.posted, hit rfl]
      · simp [share, held, Pc.unposted, Action.pushed, Action.posted, huser]
  | @post t message user =>
      by_cases huser : user = u
      · subst huser
        simp [share, held, Pc.unposted, Action.pushed, Action.posted, hit rfl]
      · simp [share, held, Pc.unposted, Action.pushed, Action.posted, huser]
  | _ => simp [share, held, Pc.unposted, Action.pushed, Action.posted]

/-- What goes from a queue is what is dequeued, and what comes is what is pushed. -/
theorem Moves.queue (hm : Moves s w pc action pc' es) :
    dequeued u es ++ ((s.effect w action).queue u).mMessages =
      (s.queue u).mMessages ++ action.pushed u := by
  cases hm with
  | @pop t msg rest hqueue =>
      by_cases hu : w = u
      · subst hu
        simp [dequeued, Event.dequeuedBy, State.effect, State.setQueue, Action.pushed, hqueue]
      · simp [dequeued, Event.dequeuedBy, State.effect, State.setQueue, Action.pushed, hu,
          Function.update_of_ne (Ne.symm hu)]
  | @push t message user =>
      by_cases hu : user = u
      · subst hu
        simp [dequeued, State.effect, State.setQueue, Action.pushed]
      · simp [dequeued, State.effect, State.setQueue, Action.pushed, hu,
          Function.update_of_ne (Ne.symm hu)]
  | @wait =>
      by_cases hu : w = u
      · subst hu
        simp [dequeued, State.effect, State.setQueue, Action.pushed]
      · simp [dequeued, State.effect, State.setQueue, Action.pushed,
          Function.update_of_ne (Ne.symm hu)]
  | @post t message user =>
      by_cases hu : user = u
      · subst hu
        simp [dequeued, State.effect, State.setQueue, Action.pushed]
      · simp [dequeued, State.effect, State.setQueue, Action.pushed,
          Function.update_of_ne (Ne.symm hu)]
  | _ => simp [dequeued, Event.dequeuedBy, State.effect, State.setMembers, Action.pushed]

/-- The room that a worker is in follows from what has been shown. -/
theorem Moves.joined (hm : Moves s w pc action pc' es) :
    pc'.joined = es.foldl (Event.memberOf w) pc.joined := by
  cases hm with
  | outside hpc hpc' => rw [joined_outside hpc, joined_outside hpc', List.foldl_nil]
  | findUnlock => exact joined_enter _ _
  | _ => simp [Pc.joined, Event.memberOf]

/-- A move is not a matter of the room that another worker is in. -/
theorem Moves.memberOf_of_ne (hm : Moves s w pc action pc' es) (hu : u ≠ w)
    (before : Option Str) : es.foldl (Event.memberOf u) before = before := by
  cases hm <;> simp [Event.memberOf, Ne.symm hu]

theorem memberOf_joined : (server W).Invariant fun h s =>
    ∀ u, memberOf u h = (s.worker u).pc.joined := by
  apply TSys.invariant_of_step
  · intro s hinit u
    obtain rfl : s = State.initial W := hinit
    rfl
  · intro h es s s' hs hstep u
    obtain ⟨w, input, hstep⟩ := hstep
    obtain ⟨action, me', hm, henabled, rfl⟩ := step_cases hstep
    rw [memberOf_append, hs u]
    rcases eq_or_ne u w with rfl | hu
    · rw [setWorker_self, hm.joined]
    · rw [setWorker_of_ne hu, effect_worker, hm.memberOf_of_ne hu]

/-! ## Histories and rooms -/

/-- Everything that has been established about the state so far. -/
structure Sound (h : List (Event W)) (s : State W) : Prop where
  locks : Mutex.Agrees s.owner s.held
  rooms : RoomsAgree s
  members : MembersAgree s
  joined : ∀ u, memberOf u h = (s.worker u).pc.joined

theorem sound : (server W).Invariant Sound := by
  intro h s hrun
  exact ⟨locks_agree hrun, roomsAgree hrun, membersAgree hrun, memberOf_joined hrun⟩

omit [LinearOrder W] in
/-- A worker is in a room by name exactly when it is among its members, but where it
holds the lock of the room itself. -/
theorem joined_inserted (u : W) (pc : Pc W) :
    (pc.joined = none ∧ pc.inserted = none) ∨
    ∃ t, pc.target = some t ∧ (pc.joined = some t.name ∧ pc.inserted = some t.room ∨
      .room t.room ∈ held u pc ∧ (pc.joined = some t.name ∧ pc.inserted = none ∨
        pc.joined = none ∧ pc.inserted = some t.room)) := by
  cases pc with
  | addMember t pos => cases pos <;> simp [Pc.joined, Pc.inserted, Pc.target, held]
  | removeMember t pos => cases pos <;> simp [Pc.joined, Pc.inserted, Pc.target, held]
  | receiverLoop t => simp [Pc.joined, Pc.inserted, Pc.target]
  | dequeue t pos => simp [Pc.joined, Pc.inserted, Pc.target]
  | _ => simp [Pc.joined, Pc.inserted]

omit [LinearOrder W] in
/-- Where the lock of a room is free, to be in it by name is to be among its members. -/
theorem joined_iff_inserted (hl : Mutex.Agrees s.owner s.held) (hr : RoomsAgree s)
    {t : Target} (ht : s.mRooms t.name = some t.room) (hfree : s.owner (.room t.room) = none) :
    (s.worker u).pc.joined = some t.name ↔ (s.worker u).pc.inserted = some t.room := by
  have hsame : ∀ {t'}, (s.worker u).pc.target = some t' →
      (t'.name = t.name ↔ t'.room = t.room) := by
    intro t' ht'
    refine ⟨fun hname => ?_, fun hroom => ?_⟩
    · have hfound := hr.target ht'
      rw [hname, ht] at hfound
      exact (Option.some.inj hfound).symm
    · rw [← hr.name ht', hroom, (hr.found ht).2]
  rcases joined_inserted u (s.worker u).pc with ⟨hj, hi⟩ | ⟨t', ht', ⟨hj, hi⟩ | ⟨hheld, hrest⟩⟩
  · simp [hj, hi]
  · rw [hj, hi, Option.some.injEq, Option.some.injEq]
    exact hsame ht'
  · -- this worker holds the lock of its room, so the room is another one
    have hne : t'.room ≠ t.room := by
      intro hroom
      rw [hroom] at hheld
      exact hl.free hfree u hheld
    rcases hrest with ⟨hj, hi⟩ | ⟨hj, hi⟩
    · simp [hj, hi, (hsame ht').not.mpr hne]
    · simp [hj, hi, hne]

/-- What is shown is shown at the lock of a room or at a pop. -/
theorem Moves.silent (hm : Moves s w pc action pc' es) (hlock : ∀ l, action ≠ .lock l)
    (hpop : action ≠ .pop) : es = [] := by
  cases hm with
  | pop => exact absurd rfl hpop
  | addLock => exact absurd rfl (hlock _)
  | removeLock => exact absurd rfl (hlock _)
  | broadcastLock => exact absurd rfl (hlock _)
  | _ => rfl

/-- A broadcast is for the members that the room has. -/
theorem Moves.gained {h : List (Event W)} (hs : Sound h s)
    (hm : Moves s w (s.worker w).pc action pc' es) (henabled : s.enabled w action = true) :
    es.flatMap (Event.gained (memberOf u h)) =
      match (s.worker u).pc.inserted with
      | none => []
      | some room => es.flatMap (Event.gainedIn room) := by
  generalize hpc : (s.worker w).pc = pc at hm
  cases hm with
  | @broadcastLock t senderUsername messageText =>
      have ht := hs.rooms.target (w := w) (t := t) (by rw [hpc]; rfl)
      have hfree : s.owner (.room t.room) = none := by simpa [State.enabled] using henabled
      -- nobody is in the middle of a join or a leave of the room, since its lock is free
      have hiff := joined_iff_inserted (u := u) hs.locks hs.rooms ht hfree
      rw [hs.joined u]
      cases hin : (s.worker u).pc.inserted with
      | none =>
          rw [hin] at hiff
          simp [Event.gained, Event.broadcastTo, hiff]
      | some room =>
          rw [hin, Option.some.injEq] at hiff
          by_cases hroom : t.room = room
          · have hname := hiff.mpr hroom.symm
            simp [Event.gained, Event.broadcastTo, Event.delivered, Event.gainedIn, hroom, hname]
          · have hname := hiff.not.mpr (Ne.symm hroom)
            simp [Event.gained, Event.broadcastTo, Event.gainedIn, hroom, hname]
  | _ =>
      cases (s.worker u).pc.inserted <;>
        simp [Event.gained, Event.broadcastTo, Event.gainedIn]

/-! ## The queues -/

/-- A receiver between its `sem_timedwait` and its `pop_front`. -/
def Pc.waiting : Pc W → ℕ
  | .dequeue _ .lock => 1
  | .dequeue _ .pop => 1
  | _ => 0

theorem owes_of_inserted (hin : pc.inserted = some room) : pc.owes u = [] := by
  unfold Pc.inserted at hin
  split at hin
  all_goals first | rfl | cases hin

theorem unposted_of_inserted (hin : pc.inserted = some room) : pc.unposted u = [] := by
  unfold Pc.inserted at hin
  split at hin
  all_goals first | rfl | cases hin

/-- Pushes and posts are made to members. -/
theorem Moves.untouched (hm : Moves s w pc action pc' es)
    (hit : ∀ {t}, pc.iterator ≠ some (t, u)) : action.pushed u = [] ∧ action.posted u = 0 := by
  cases hm with
  | @push t message user =>
      have hu : user ≠ u := by
        rintro rfl
        exact hit rfl
      simp [Action.pushed, Action.posted, hu]
  | @post t message user =>
      have hu : user ≠ u := by
        rintro rfl
        exact hit rfl
      simp [Action.pushed, Action.posted, hu]
  | _ => simp [Action.pushed, Action.posted]

/-- A step of `w` leaves `u` in its room, or finds and leaves nothing in hand for `u` and
does nothing to its queue. -/
theorem step_views {h : List (Event W)} {me' : Worker W} (hs : Sound h s)
    (hl' : Mutex.Agrees s'.owner s'.held) (hm : Moves s w (s.worker w).pc action me'.pc es)
    (henabled : s.enabled w action = true) (heq : s' = (s.effect w action).setWorker w me') :
    (∃ room, (s.worker u).pc.inserted = some room ∧ (s'.worker u).pc.inserted = some room) ∨
    (s.inHand Pc.owes u = [] ∧ s'.inHand Pc.owes u = [] ∧ s.inHand Pc.unposted u = [] ∧
      s'.inHand Pc.unposted u = [] ∧ action.pushed u = [] ∧ action.posted u = 0 ∧
      es.flatMap (Event.gained (memberOf u h)) = []) := by
  have hself : (s'.worker w).pc = me'.pc := by rw [heq, setWorker_self]
  by_cases hsame : (s'.worker u).pc.inserted = (s.worker u).pc.inserted
  · cases hin : (s.worker u).pc.inserted with
    | some room => exact .inl ⟨room, rfl, by rw [hsame, hin]⟩
    | none =>
        -- no iterator is at `u`, for it is not a member
        have hnot : ∀ {t}, (s.worker w).pc.iterator ≠ some (t, u) := by
          intro t hit
          have hmem := hs.members.members.mp (hs.members.iterator hit)
          rw [hin] at hmem
          cases hmem
        have hin' : (s'.worker u).pc.inserted = none := by rw [hsame, hin]
        obtain ⟨hpushed, hposted⟩ := hm.untouched hnot
        have hgained := hm.gained (u := u) hs henabled
        rw [hin] at hgained
        exact .inr ⟨inHand_outside hin, inHand_outside hin', inHand_outside hin,
          inHand_outside hin', hpushed, hposted, hgained⟩
  · -- only `w` itself comes or goes, with the lock of the room in its hands
    have hu : u = w := by
      by_contra hu
      rw [heq, setWorker_of_ne hu, effect_worker] at hsame
      exact hsame rfl
    subst hu
    rw [hself] at hsame
    have hinserted := hm.inserted
    have hheld := hm.held_iff
    cases action with
    | insert room =>
        obtain ⟨hout, hin, hmem⟩ := hinserted
        have hin' : (s'.worker u).pc.inserted = some room := by rw [hself, hin]
        have howner : s'.owner (.room room) = some u := by
          refine (hl' _ _).mpr ?_
          rw [State.held, hself]
          exact (hheld _).mpr hmem
        have hes := hm.silent (by simp) (by simp)
        rw [inHand_outside hout, inHand_outside hout, inHand_of_owner hin' howner,
          inHand_of_owner hin' howner, owes_of_inserted hin', unposted_of_inserted hin', hes]
        exact .inr ⟨rfl, rfl, rfl, rfl, rfl, rfl, rfl⟩
    | erase room =>
        obtain ⟨hin, hout, hmem⟩ := hinserted
        have hout' : (s'.worker u).pc.inserted = none := by rw [hself, hout]
        have howner : s.owner (.room room) = some u := (hs.locks _ _).mpr hmem
        have hes := hm.silent (by simp) (by simp)
        rw [inHand_outside hout', inHand_outside hout', inHand_of_owner hin howner,
          inHand_of_owner hin howner, owes_of_inserted hin, unposted_of_inserted hin, hes]
        exact .inr ⟨rfl, rfl, rfl, rfl, rfl, rfl, rfl⟩
    | _ => exact absurd hinserted hsame

/-- What a receiver has dequeued, what is queued and what is yet to be pushed is what it is
to get. -/
def Ledger (h : List (Event W)) (s : State W) (u : W) : Prop :=
  dequeued u h ++ (s.queue u).mMessages ++ s.pending u = deliveries h (heard u h)

theorem deliveries_heard_append {h : List (Event W)} (hes : es = [] ∨ ∃ e, es = [e]) :
    deliveries (h ++ es) (heard u (h ++ es)) =
      deliveries h (heard u h) ++ es.flatMap (Event.gained (memberOf u h)) := by
  rcases hes with rfl | ⟨e, rfl⟩
  · simp
  · rw [deliveries_heard_append_singleton, List.flatMap_singleton]

theorem ledger : (server W).Invariant fun h s => ∀ u, Ledger h s u := by
  refine TSys.Invariant.of_step (I := fun h s => ∀ u, Ledger h s u)
    (J := fun h s => (server W).Run h s) (fun _ _ hrun => hrun) ?_ ?_
  · intro s hinit u
    obtain rfl : s = State.initial W := hinit
    rfl
  · intro h es s s' hrun hledger hstep u
    have hs := sound hrun
    have hs' := sound (hrun.step hstep)
    obtain ⟨w, input, hstep⟩ := hstep
    obtain ⟨action, me', hm, henabled, rfl⟩ := step_cases hstep
    have hqueue := hm.queue (u := u)
    -- what is gained is pushed or still in hand afterwards
    have hhand : s.pending u ++ es.flatMap (Event.gained (memberOf u h)) =
        action.pushed u ++ ((s.effect w action).setWorker w me').pending u := by
      rcases step_views (u := u) hs hs'.locks hm henabled rfl with ⟨room, hin, hin'⟩ |
        ⟨howes, howes', -, -, hpushed, -, hgained⟩
      · have hshares := hm.owes (u := u) (hs.members.members.mpr hin)
          (fun ht => hs.rooms.name ht) (fun hit => by
            have hmem := hs.members.members.mp (hs.members.iterator hit)
            rw [hin] at hmem
            exact (Option.some.inj hmem).symm)
        have hgained : es.flatMap (Event.gained (memberOf u h)) =
            es.flatMap (Event.gainedIn room) := by
          rw [hm.gained hs henabled, hin]
        rw [hgained]
        rcases inHand_step (f := Pc.owes) (w := w) hs.locks hs'.locks
          (fun v hv => by rw [setWorker_of_ne hv, effect_worker]) hin hin' with
          ⟨hbefore, hafter⟩ | ⟨hbefore, hafter, hsame⟩
        · rw [setWorker_self] at hafter
          rw [State.pending, State.pending, hbefore, hafter]
          exact hshares
        · -- `w` has no share in it, so nothing is broadcast and nothing pushed to `u`
          rw [setWorker_self] at hafter
          rw [hbefore, hafter, List.nil_append, List.append_nil] at hshares
          rw [State.pending, State.pending, hsame, hshares]
          by_cases hpush : action.pushed u = []
          · rw [hpush, List.append_nil, List.nil_append]
          · have hes : es = [] := by
              refine hm.silent ?_ ?_
              · rintro l rfl
                exact hpush rfl
              · rintro rfl
                exact hpush rfl
            rw [hes] at hshares
            exact absurd hshares.symm hpush
      · rw [State.pending, State.pending, howes, howes', hpushed, hgained]
    show _ ++ ((s.effect w action).queue u).mMessages ++ _ = _
    calc dequeued u (h ++ es) ++ ((s.effect w action).queue u).mMessages ++
          ((s.effect w action).setWorker w me').pending u
        = dequeued u h ++ (dequeued u es ++ ((s.effect w action).queue u).mMessages) ++
            ((s.effect w action).setWorker w me').pending u := by
          rw [dequeued_append, List.append_assoc (dequeued u h)]
      _ = dequeued u h ++ (s.queue u).mMessages ++
            (action.pushed u ++ ((s.effect w action).setWorker w me').pending u) := by
          rw [hqueue]
          simp only [List.append_assoc]
      _ = deliveries h (heard u h) ++ es.flatMap (Event.gained (memberOf u h)) := by
          rw [← hhand, ← List.append_assoc, hledger u]
      _ = deliveries (h ++ es) (heard u (h ++ es)) := (deliveries_heard_append hm.events).symm

/-- The deque of a queue and its semaphore differ by the receiver that has been let
through and by the message that is yet to be posted. -/
def Balanced (s : State W) (u : W) : Prop :=
  (s.queue u).mMessages.length =
    (s.queue u).mAvail + (s.worker u).pc.waiting + (s.inHand Pc.unposted u).length

/-- What a move does to the semaphore of another worker. -/
theorem Moves.avail_of_ne (hm : Moves s w pc action pc' es) (hu : u ≠ w) :
    dequeued u es = [] ∧
      ((s.effect w action).queue u).mAvail = (s.queue u).mAvail + action.posted u := by
  cases hm with
  | wait => simp [dequeued, State.effect, State.setQueue, Action.posted, Function.update_of_ne hu]
  | pop =>
      simp [dequeued, Event.dequeuedBy, State.effect, State.setQueue, Action.posted,
        Function.update_of_ne hu, Ne.symm hu]
  | @push t message user =>
      by_cases huser : user = u
      · subst huser
        simp [dequeued, State.effect, State.setQueue, Action.posted]
      · simp [dequeued, State.effect, State.setQueue, Action.posted,
          Function.update_of_ne (Ne.symm huser)]
  | @post t message user =>
      by_cases huser : user = u
      · subst huser
        simp [dequeued, State.effect, State.setQueue, Action.posted]
      · simp [dequeued, State.effect, State.setQueue, Action.posted, huser,
          Function.update_of_ne (Ne.symm huser)]
  | _ => simp [dequeued, Event.dequeuedBy, State.effect, State.setMembers, Action.posted]

/-- What a move does to the semaphore of the worker itself. -/
theorem Moves.avail_self (hm : Moves s w pc action pc' es)
    (henabled : s.enabled w action = true) :
    (dequeued w es).length + ((s.effect w action).queue w).mAvail + pc'.waiting =
      (s.queue w).mAvail + pc.waiting + action.posted w := by
  have houtside : ∀ {pc : Pc W}, pc.Outside → pc.waiting = 0 := by
    intro pc hpc
    cases hpc <;> rfl
  cases hm with
  | outside hpc hpc' =>
      simp [dequeued, State.effect, Action.posted, houtside hpc, houtside hpc']
  | @findUnlock name after room =>
      cases after <;> simp [dequeued, State.effect, Action.posted, After.enter, Pc.waiting]
  | wait =>
      -- `sem_timedwait` takes one and the worker is then about to pop one
      have hpos : 0 < (s.queue w).mAvail := of_decide_eq_true henabled
      simp [dequeued, State.effect, State.setQueue, Action.posted, Pc.waiting]
      omega
  | pop =>
      simp [dequeued, Event.dequeuedBy, State.effect, State.setQueue, Action.posted, Pc.waiting]
      omega
  | @push t message user =>
      by_cases huser : user = w
      · subst huser
        simp [dequeued, State.effect, State.setQueue, Action.posted, Pc.waiting]
      · simp [dequeued, State.effect, State.setQueue, Action.posted, Pc.waiting,
          Function.update_of_ne (Ne.symm huser)]
  | @post t message user =>
      by_cases huser : user = w
      · subst huser
        simp [dequeued, State.effect, State.setQueue, Action.posted, Pc.waiting]
      · simp [dequeued, State.effect, State.setQueue, Action.posted, Pc.waiting, huser,
          Function.update_of_ne (Ne.symm huser)]
  | _ =>
      simp [dequeued, Event.dequeuedBy, State.effect, State.setMembers, Action.posted,
        Pc.waiting]

/-- What an action does to the semaphore of `u`, and what that means for its worker. -/
theorem Moves.avail {me' : Worker W} (hm : Moves s w (s.worker w).pc action me'.pc es)
    (henabled : s.enabled w action = true) :
    (dequeued u es).length + ((s.effect w action).queue u).mAvail +
        (((s.effect w action).setWorker w me').worker u).pc.waiting =
      (s.queue u).mAvail + (s.worker u).pc.waiting + action.posted u := by
  rcases eq_or_ne u w with rfl | hu
  · rw [setWorker_self]
    exact hm.avail_self henabled
  · obtain ⟨hdequeued, havail⟩ := hm.avail_of_ne hu
    rw [setWorker_of_ne hu, effect_worker, hdequeued, havail, List.length_nil]
    omega

theorem balanced : (server W).Invariant fun _ s => ∀ u, Balanced s u := by
  refine TSys.Invariant.of_step (I := fun _ s => ∀ u, Balanced s u)
    (J := fun h s => (server W).Run h s) (fun _ _ hrun => hrun) ?_ ?_
  · intro s hinit u
    obtain rfl : s = State.initial W := hinit
    rfl
  · intro h es s s' hrun hbalanced hstep u
    have hs := sound hrun
    have hs' := sound (hrun.step hstep)
    obtain ⟨w, input, hstep⟩ := hstep
    obtain ⟨action, me', hm, henabled, rfl⟩ := step_cases hstep
    have hqueue := congrArg List.length (hm.queue (u := u))
    rw [List.length_append, List.length_append] at hqueue
    have havail := hm.avail (u := u) henabled
    have hhand : (s.inHand Pc.unposted u).length + (action.pushed u).length =
        action.posted u +
          (((s.effect w action).setWorker w me').inHand Pc.unposted u).length := by
      -- either `u` is in a room on both sides of the step, or no broadcast is about it
      rcases step_views (u := u) hs hs'.locks hm henabled rfl with ⟨room, hin, hin'⟩ |
        ⟨-, -, hunposted, hunposted', hpushed, hposted, -⟩
      · -- in a room: `w` has the lock of the room in its hand, or the step is not about it
        have hshares := hm.unposted (u := u) room (fun hit => by
          have hmem := hs.members.members.mp (hs.members.iterator hit)
          rw [hin] at hmem
          exact (Option.some.inj hmem).symm)
        rcases inHand_step (f := Pc.unposted) (w := w) hs.locks hs'.locks
          (fun v hv => by rw [setWorker_of_ne hv, effect_worker]) hin hin' with
          ⟨hbefore, hafter⟩ | ⟨hbefore, hafter, hsame⟩
        · rw [setWorker_self] at hafter
          rw [hbefore, hafter]
          exact hshares
        · rw [setWorker_self] at hafter
          rw [hbefore, hafter, List.length_nil, Nat.zero_add, Nat.add_zero] at hshares
          rw [hsame, hshares, Nat.add_comm]
      · simp [hunposted, hunposted', hpushed, hposted]
    have hold := hbalanced u
    rw [Balanced] at hold
    show ((s.effect w action).queue u).mMessages.length =
      ((s.effect w action).queue u).mAvail + _ + _
    omega

end

end Csf.Chat
