import Csf.Chat.Threads

/-!
# Chat: who holds which mutex

`Moves` says once what the instructions are; everything about steps is derived
from it. Each place in the code fixes the mutexes that a worker holds there, and
along every run the owner of a mutex is the worker at such a place.
-/

namespace Csf.Chat

open Csf.Lib

variable {W : Type} [LinearOrder W]

/-! ## What a step can do -/

/-- Places outside every call, and in front of one. -/
inductive Pc.Outside : Pc W → Prop
  | login : Outside .login
  | senderLoop : Outside .senderLoop
  | receiverJoin : Outside .receiverJoin
  | findRoom {name : Str} {after : After} : Outside (.findRoom name after .lock)
  | finished : Outside .finished

/-- The instructions of worker `w`: where it is, what it does, where it goes, what
it shows. -/
inductive Moves (s : State W) (w : W) : Pc W → Action W → Pc W → List (Event W) → Prop
  | outside {pc pc' : Pc W} (hpc : pc.Outside) (hpc' : pc'.Outside) : Moves s w pc .skip pc' []
  | findLock {name : Str} {after : After} :
      Moves s w (.findRoom name after .lock) (.lock .server) (.findRoom name after .find) []
  | findOld {name : Str} {after : After} {room : ℕ} (hroom : s.mRooms name = some room) :
      Moves s w (.findRoom name after .find) .skip (.findRoom name after (.unlock room)) []
  | findNone {name : Str} {after : After} (hroom : s.mRooms name = none) :
      Moves s w (.findRoom name after .find) .skip (.findRoom name after .insert) []
  | newRoom {name : Str} {after : After} :
      Moves s w (.findRoom name after .insert) (.newRoom name)
        (.findRoom name after (.unlock s.next)) []
  | findUnlock {name : Str} {after : After} {room : ℕ} :
      Moves s w (.findRoom name after (.unlock room)) (.unlock .server)
        (after.enter ⟨name, room⟩) []
  | addLock {t : Target} :
      Moves s w (.addMember t .lock) (.lock (.room t.room)) (.addMember t .body) [.add w t]
  | addBody {t : Target} :
      Moves s w (.addMember t .body) (.insert t.room) (.addMember t .unlock) []
  | addUnlock {t : Target} :
      Moves s w (.addMember t .unlock) (.unlock (.room t.room)) (.receiverLoop t) []
  | goOn {t : Target} : Moves s w (.receiverLoop t) .skip (.dequeue t .wait) []
  | leave {t : Target} : Moves s w (.receiverLoop t) .skip (.removeMember t .lock) []
  | timeout {t : Target} : Moves s w (.dequeue t .wait) .skip (.receiverLoop t) []
  | wait {t : Target} : Moves s w (.dequeue t .wait) .wait (.dequeue t .lock) []
  | dequeueLock {t : Target} :
      Moves s w (.dequeue t .lock) (.lock (.queue w)) (.dequeue t .pop) []
  | pop {t : Target} {msg : Message} {rest : List Message}
      (hqueue : (s.queue w).mMessages = msg :: rest) :
      Moves s w (.dequeue t .pop) .pop (.dequeue t (.unlock msg)) [.dequeue w msg]
  | dequeueUnlock {t : Target} {msg : Message} :
      Moves s w (.dequeue t (.unlock msg)) (.unlock (.queue w)) (.receiverLoop t) []
  | removeLock {t : Target} :
      Moves s w (.removeMember t .lock) (.lock (.room t.room)) (.removeMember t .body)
        [.remove w t]
  | removeBody {t : Target} :
      Moves s w (.removeMember t .body) (.erase t.room) (.removeMember t .unlock) []
  | removeUnlock {t : Target} :
      Moves s w (.removeMember t .unlock) (.unlock (.room t.room)) .finished []
  | broadcastLock {t : Target} {senderUsername messageText : Str} :
      Moves s w (.broadcast t (.lock senderUsername messageText)) (.lock (.room t.room))
        (.broadcast t (.build senderUsername messageText))
        [.broadcast w t senderUsername messageText]
  | build {t : Target} {senderUsername messageText : Str} :
      Moves s w (.broadcast t (.build senderUsername messageText)) .skip
        (.broadcast t (.test
          (delivery (s.room t.room).roomName senderUsername messageText)
          (s.room t.room).members.min)) []
  | testEnd {t : Target} {message : Message} :
      Moves s w (.broadcast t (.test message ⊤)) .skip (.broadcast t .unlock) []
  | testMember {t : Target} {message : Message} {user : W} :
      Moves s w (.broadcast t (.test message user)) .skip
        (.broadcast t (.enqueue message user .lock)) []
  | enqueueLock {t : Target} {message : Message} {user : W} :
      Moves s w (.broadcast t (.enqueue message user .lock)) (.lock (.queue user))
        (.broadcast t (.enqueue message user .push)) []
  | push {t : Target} {message : Message} {user : W} :
      Moves s w (.broadcast t (.enqueue message user .push)) (.push user message)
        (.broadcast t (.enqueue message user .unlock)) []
  | enqueueUnlock {t : Target} {message : Message} {user : W} :
      Moves s w (.broadcast t (.enqueue message user .unlock)) (.unlock (.queue user))
        (.broadcast t (.enqueue message user .post)) []
  | post {t : Target} {message : Message} {user : W} :
      Moves s w (.broadcast t (.enqueue message user .post)) (.post user)
        (.broadcast t (.test message ((s.room t.room).after user))) []
  | broadcastUnlock {t : Target} :
      Moves s w (.broadcast t .unlock) (.unlock (.room t.room)) .senderLoop []

variable {s s' : State W} {w : W} {input : Input} {es h : List (Event W)}

section

omit [LinearOrder W]

theorem login_outside (me : Worker W) (msg : Message) : (login me msg).pc.Outside := by
  unfold login
  split_ifs
  · exact .receiverJoin
  · exact .senderLoop
  · exact .finished

theorem startCalls_outside (calls : List Call) : (startCalls (W := W) calls).Outside := by
  unfold startCalls
  split
  · exact .findRoom
  · exact .findRoom
  · exact .senderLoop

theorem senderLoop_outside (me : Worker W) (msg : Message) : (senderLoop me msg).pc.Outside := by
  show Pc.Outside (if _ then _ else _)
  split_ifs
  · exact .finished
  · exact startCalls_outside _

theorem receiverRequest_outside (me : Worker W) (msg : Message) :
    (receiverRequest me msg).pc.Outside := by
  unfold receiverRequest
  split_ifs
  · exact .findRoom
  · exact .finished

end

theorem findOrCreateRoom_moves (me : Worker W) (name : Str) (after : After) (pos : FindAt) :
    let move := findOrCreateRoom s me name after pos
    Moves s w (.findRoom name after pos) move.action move.worker.pc move.events := by
  cases pos with
  | lock => exact .findLock
  | find =>
      cases hroom : s.mRooms name with
      | none =>
          simp only [findOrCreateRoom, hroom]
          exact .findNone hroom
      | some room =>
          simp only [findOrCreateRoom, hroom]
          exact .findOld hroom
  | insert => exact .newRoom
  | unlock room => exact .findUnlock

theorem addMember_moves (me : Worker W) (t : Target) (pos : GuardAt) :
    let move := addMember s w me t pos
    Moves s w (.addMember t pos) move.action move.worker.pc move.events := by
  cases pos with
  | lock => exact .addLock
  | body => exact .addBody
  | unlock => exact .addUnlock

theorem removeMember_moves (me : Worker W) (t : Target) (pos : GuardAt) :
    let move := removeMember w me t pos
    Moves s w (.removeMember t pos) move.action move.worker.pc move.events := by
  cases pos with
  | lock => exact .removeLock
  | body => exact .removeBody
  | unlock => exact .removeUnlock

theorem broadcastMessage_moves (me : Worker W) (t : Target) (pos : BroadcastAt W) :
    let move := broadcastMessage s w me t pos
    Moves s w (.broadcast t pos) move.action move.worker.pc move.events := by
  cases pos with
  | lock senderUsername messageText => exact .broadcastLock
  | build senderUsername messageText => exact .build
  | test message it =>
      cases it with
      | top => exact .testEnd
      | coe user => exact .testMember
  | enqueue message user pos =>
      cases pos with
      | lock => exact .enqueueLock
      | push => exact .push
      | unlock => exact .enqueueUnlock
      | post => exact .post
  | unlock => exact .broadcastUnlock

theorem dequeue_moves {me : Worker W} {t : Target} {pos : DequeueAt} {move : Move W}
    (hmove : dequeue s w me t input pos = some move) :
    Moves s w (.dequeue t pos) move.action move.worker.pc move.events := by
  cases pos with
  | wait =>
      simp only [dequeue] at hmove
      split at hmove
      · cases hmove
        exact .timeout
      · cases hmove
        exact .wait
  | lock =>
      cases hmove
      exact .dequeueLock
  | pop =>
      simp only [dequeue] at hmove
      split at hmove
      · next msg rest hqueue =>
          cases hmove
          exact .pop hqueue
      · cases hmove
  | unlock msg =>
      cases hmove
      exact .dequeueUnlock

/-- Every instruction of the code is one of `Moves`. -/
theorem program_moves {move : Move W} (hmove : program s w input = some move) :
    Moves s w (s.worker w).pc move.action move.worker.pc move.events := by
  simp only [program] at hmove
  split at hmove
  case h_1 hpc => cases hmove; rw [hpc]; exact .outside .login (login_outside _ _)
  case h_2 hpc => cases hmove; rw [hpc]; exact .outside .login .finished
  case h_3 hpc => cases hmove; rw [hpc]; exact .outside .senderLoop (senderLoop_outside _ _)
  case h_4 hpc => cases hmove; rw [hpc]; exact .outside .senderLoop .finished
  case h_5 hpc => cases hmove; rw [hpc]; exact .outside .receiverJoin (receiverRequest_outside _ _)
  case h_6 hpc => cases hmove; rw [hpc]; exact .outside .receiverJoin .finished
  case h_7 hpc => cases hmove; rw [hpc]; exact findOrCreateRoom_moves _ _ _ _
  case h_8 hpc => cases hmove; rw [hpc]; exact addMember_moves _ _ _
  case h_9 hpc => cases hmove; rw [hpc]; exact .leave
  case h_10 hpc _ => cases hmove; rw [hpc]; exact .goOn
  case h_11 hpc => rw [hpc]; exact dequeue_moves hmove
  case h_12 hpc => cases hmove; rw [hpc]; exact removeMember_moves _ _ _
  case h_13 hpc => cases hmove; rw [hpc]; exact broadcastMessage_moves _ _ _
  case h_14 => cases hmove

/-- A step is an instruction that may go on, and its effect. -/
theorem step_cases (hstep : s.step w input = some (s', es)) :
    ∃ action me', Moves s w (s.worker w).pc action me'.pc es ∧ s.enabled w action = true ∧
      s' = (s.effect w action).setWorker w me' := by
  obtain ⟨move, hmove, hstep⟩ := Option.bind_eq_some_iff.mp hstep
  split at hstep
  · next henabled =>
      have hpair := Option.some.inj hstep
      rw [Prod.mk.injEq] at hpair
      obtain ⟨rfl, rfl⟩ := hpair
      exact ⟨move.action, move.worker, program_moves hmove, henabled, rfl⟩
  · cases hstep

/-! ## The mutexes held at each place -/

/-- The mutexes that worker `w` holds at a place. -/
def held (w : W) : Pc W → List (Lock W)
  | .findRoom _ _ .lock => []
  | .findRoom _ _ _ => [.server]
  | .addMember _ .lock => []
  | .addMember t _ => [.room t.room]
  | .removeMember _ .lock => []
  | .removeMember t _ => [.room t.room]
  | .dequeue _ .pop => [.queue w]
  | .dequeue _ (.unlock _) => [.queue w]
  | .broadcast _ (.lock _ _) => []
  | .broadcast t (.enqueue _ user .push) => [.queue user, .room t.room]
  | .broadcast t (.enqueue _ user .unlock) => [.queue user, .room t.room]
  | .broadcast t _ => [.room t.room]
  | _ => []

/-- The mutexes that a worker holds. -/
def State.held (s : State W) (w : W) : List (Lock W) := Csf.Chat.held w (s.worker w).pc

omit [LinearOrder W] in
theorem held_outside {pc : Pc W} (hpc : pc.Outside) : held w pc = [] := by
  cases hpc <;> rfl

omit [LinearOrder W] in
@[simp] theorem held_enter (t : Target) (after : After) :
    held w (after.enter t : Pc W) = [] := by
  cases after <;> rfl

/-- What an instruction says about mutexes is what becomes of those held. -/
theorem Moves.held_iff {pc pc' : Pc W} {action : Action W} (hm : Moves s w pc action pc' es) :
    match action with
    | .lock l => ∀ m, m ∈ held w pc' ↔ m = l ∨ m ∈ held w pc
    | .unlock l => l ∈ held w pc ∧ ∀ m, m ∈ held w pc' ↔ m ≠ l ∧ m ∈ held w pc
    | _ => ∀ m, m ∈ held w pc' ↔ m ∈ held w pc := by
  cases hm with
  | outside hpc hpc' => simp [held_outside hpc, held_outside hpc']
  | findUnlock =>
      simp only [held_enter]
      simp [held]
  | enqueueUnlock =>
      -- the lock of the queue goes, that of the room stays
      refine ⟨by simp [held], fun m => ?_⟩
      simp only [held, List.mem_cons, List.not_mem_nil, or_false]
      exact ⟨fun hm => ⟨by simp [hm], .inr hm⟩, fun hm => hm.2.resolve_left hm.1⟩
  | _ => simp [held]

@[simp] theorem effect_worker (action : Action W) : (s.effect w action).worker = s.worker := by
  cases action <;> rfl

@[simp] theorem setWorker_mRooms (me : Worker W) : (s.setWorker w me).mRooms = s.mRooms := rfl
@[simp] theorem setWorker_next (me : Worker W) : (s.setWorker w me).next = s.next := rfl
@[simp] theorem setWorker_room (me : Worker W) : (s.setWorker w me).room = s.room := rfl

@[simp] theorem setWorker_self (me : Worker W) : (s.setWorker w me).worker w = me :=
  Function.update_self ..

@[simp] theorem setWorker_of_ne {u : W} (hu : u ≠ w) (me : Worker W) :
    (s.setWorker w me).worker u = s.worker u :=
  Function.update_of_ne hu ..

/-- Whoever is where a mutex is held owns it, and nobody else does. -/
theorem locks_agree : (server W).Invariant fun _ s => Mutex.Agrees s.owner s.held := by
  apply TSys.invariant_of_step
  · intro s hinit l w
    obtain rfl : s = State.initial W := hinit
    simp [State.initial, State.held, held]
  · intro h es s s' hs hstep
    obtain ⟨w, input, hstep⟩ := hstep
    obtain ⟨action, me', hm, henabled, rfl⟩ := step_cases hstep
    have hothers : ∀ u ≠ w, ((s.effect w action).setWorker w me').held u = s.held u := by
      intro u hu
      rw [State.held, setWorker_of_ne hu, effect_worker, State.held]
    have hself : ((s.effect w action).setWorker w me').held w = held w me'.pc := by
      rw [State.held, setWorker_self]
    have hheld := hm.held_iff
    cases action with
    | lock l =>
        -- the step was enabled, so nobody had the mutex
        refine hs.take ?_ ?_ hothers
        · show s.owner l = none
          simpa [State.enabled] using henabled
        · rw [hself]
          exact hheld
    | unlock l =>
        refine hs.give hheld.1 ?_ hothers
        rw [hself]
        exact hheld.2
    | _ =>
        -- any other action leaves the owners and the mutexes held
        refine hs.same fun u l => ?_
        rcases eq_or_ne u w with rfl | hu
        · rw [hself]
          exact hheld l
        · rw [hothers u hu]

end Csf.Chat
