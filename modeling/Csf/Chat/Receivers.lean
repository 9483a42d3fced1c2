import Csf.Chat.Broadcasts
import Mathlib.Data.List.Sort

/-!
# Chat: what receivers see

The broadcasts to a room, in the order of its critical sections, reach every
receiver for as long as it is in the room: none is lost, none comes twice, none
comes from another room, and two receivers agree on the order.
-/

namespace Csf.Chat

open Csf.Lib

variable {W : Type} [LinearOrder W]

/-- The room that an event is about. -/
def Event.target : Event W → Option Target
  | .add _ t => some t
  | .remove _ t => some t
  | .broadcast _ t _ _ => some t
  | .dequeue _ _ => none

/-- Whether some worker is in the critical section of `broadcast_message` in the room of
`u`. -/
def State.Broadcasting (s : State W) (u : W) : Prop :=
  ∃ w t pos, (s.worker w).pc = .broadcast t pos ∧ .room t.room ∈ s.held w ∧
    (s.worker u).pc.inserted = some t.room

/-- A message is what the broadcast at a position of a history delivers: its data are
`room:sender:text`. -/
def Carries (h : List (Event W)) (i : ℕ) (msg : Message) : Prop :=
  ∃ worker t senderUsername messageText,
    h[i]? = some (.broadcast worker t senderUsername messageText) ∧ msg.tag = tagDelivery ∧
      msg.data = t.name ++ [58] ++ senderUsername ++ [58] ++ messageText

variable {s : State W} {h es : List (Event W)} {w u : W} {pc pc' : Pc W} {action : Action W}

/-! ## Rooms in histories -/

omit [LinearOrder W] in
/-- The lock that a broadcast holds of a room is that of its own room. -/
theorem room_of_held_broadcast {t : Target} {pos : BroadcastAt W} {room : ℕ}
    (h : Lock.room room ∈ held w (.broadcast t pos)) : room = t.room := by
  cases pos with
  | lock senderUsername messageText => simp [held] at h
  | enqueue message user pos => cases pos <;> simpa [held] using h
  | _ => simpa [held] using h

theorem Moves.event_target (hm : Moves s w pc action pc' es) {e : Event W} (he : e ∈ es)
    {t : Target} (ht : e.target = some t) : pc.target = some t := by
  cases hm with
  | addLock | removeLock | broadcastLock =>
      obtain rfl := List.mem_singleton.mp he
      exact ht
  | pop =>
      obtain rfl := List.mem_singleton.mp he
      cases ht
  | _ => exact absurd he List.not_mem_nil

/-- The rooms of a history are those of the map: one for each name. -/
theorem events_target : (server W).Invariant fun h s =>
    ∀ e ∈ h, ∀ t, e.target = some t → s.mRooms t.name = some t.room := by
  refine TSys.Invariant.of_step
    (I := fun h s => ∀ e ∈ h, ∀ t, e.target = some t → s.mRooms t.name = some t.room)
    (roomsAgree (W := W)) ?_ ?_
  · intro s hinit e he
    exact absurd he List.not_mem_nil
  · intro h es s s' hrooms hs hstep e he t ht
    obtain ⟨w, input, hstep⟩ := hstep
    obtain ⟨action, me', hm, henabled, rfl⟩ := step_cases hstep
    rw [setWorker_mRooms]
    refine effect_mRooms_of_some ?_
    rcases List.mem_append.mp he with hold | hnew
    · exact hs e hold t ht
    · exact hrooms.target (hm.event_target hnew ht)

/-! ## What is pending -/

theorem owes_length_le (u : W) (pc : Pc W) : (pc.owes u).length ≤ 1 := by
  unfold Pc.owes
  split
  all_goals first | exact le_refl _ | (split <;> simp) | exact Nat.zero_le _

theorem broadcast_of_owes (h : pc.owes u ≠ []) : ∃ t pos, pc = .broadcast t pos := by
  cases pc with
  | broadcast t pos => exact ⟨t, pos, rfl⟩
  | _ => exact absurd rfl h

/-- At most one message is pending, and only while there is a broadcast in the room. -/
theorem pending_cases (hl : Mutex.Agrees s.owner s.held) (u : W) :
    (s.pending u).length ≤ 1 ∧ (¬s.Broadcasting u → s.pending u = []) := by
  cases hin : (s.worker u).pc.inserted with
  | none =>
      rw [State.pending, inHand_outside hin]
      exact ⟨Nat.zero_le _, fun _ => rfl⟩
  | some room =>
      cases howner : s.owner (.room room) with
      | none =>
          rw [State.pending, inHand_of_free hin howner]
          exact ⟨Nat.zero_le _, fun _ => rfl⟩
      | some w =>
          rw [State.pending, inHand_of_owner hin howner]
          refine ⟨owes_length_le u _, fun hnot => ?_⟩
          by_contra howes
          obtain ⟨t, pos, hpc⟩ := broadcast_of_owes howes
          have hheld := (hl _ _).mp howner
          rw [State.held, hpc] at hheld
          have hroom := room_of_held_broadcast hheld
          refine hnot ⟨w, t, pos, hpc, ?_, hroom ▸ hin⟩
          rw [State.held, hpc, ← hroom]
          exact hheld

/-- A receiver that is about to pop has something to pop. -/
theorem pop_ready (hb : Balanced s u) {t : Target} (hpc : (s.worker u).pc = .dequeue t .pop) :
    (s.queue u).mMessages ≠ [] := by
  intro hnil
  rw [Balanced, hnil, hpc, List.length_nil] at hb
  have hwaiting : (Pc.dequeue t .pop : Pc W).waiting = 1 := rfl
  omega

/-! ## What is delivered -/

omit [LinearOrder W] in
/-- Positions that are all broadcasts and what they deliver correspond one to one. -/
theorem carries_deliveries {is : List ℕ} (his : ∀ i ∈ is, ∃ worker t senderUsername messageText,
      h[i]? = some (.broadcast worker t senderUsername messageText)) :
    List.Forall₂ (Carries h) is (deliveries h is) := by
  induction is with
  | nil => exact .nil
  | cons i is ih =>
      obtain ⟨worker, t, senderUsername, messageText, he⟩ := his i List.mem_cons_self
      have hhead : deliveries h (i :: is) =
          delivery t.name senderUsername messageText :: deliveries h is := by
        rw [deliveries, List.filterMap_cons, he]
        rfl
      rw [hhead]
      refine .cons ⟨worker, t, senderUsername, messageText, he, rfl, rfl⟩ (ih ?_)
      intro j hj
      exact his j (List.mem_cons_of_mem i hj)

/-- Two increasing lists have what they share in the same order. -/
theorem common_of_sorted {is js : List ℕ} (his : is.Pairwise (· < ·)) (hjs : js.Pairwise (· < ·)) :
    is.filter (· ∈ js) = js.filter (· ∈ is) := by
  refine List.Perm.eq_of_pairwise' (his.filter _) (hjs.filter _) ?_
  refine (List.perm_ext_iff_of_nodup ?_ ?_).mpr fun i => ?_
  · exact (his.filter _).imp Nat.ne_of_lt
  · exact (hjs.filter _).imp Nat.ne_of_lt
  · simp [and_comm]

/-- In every run, there is one room for each name, and a receiver gets what is broadcast
to the name it has joined, from its `add_member` to its `remove_member`: what it has
dequeued, what is queued for it and what a broadcast under way is yet to push for it
correspond one to one, in the order of the critical sections, to these broadcasts. -/
theorem receiver_gets_room_history (hrun : (server W).Run h s) :
    (∀ room room', room < s.next → room' < s.next →
      (s.room room).roomName = (s.room room').roomName → room = room') ∧
    (∀ e ∈ h, ∀ t, e.target = some t → t.room < s.next ∧ (s.room t.room).roomName = t.name) ∧
    ∀ u : W,
      (∀ i, i ∈ heard u h ↔ ∃ worker t senderUsername messageText,
        h[i]? = some (.broadcast worker t senderUsername messageText) ∧
          memberOf u (h.take i) = some t.name) ∧
      (heard u h).Pairwise (· < ·) ∧
      List.Forall₂ (Carries h) (heard u h)
        (dequeued u h ++ (s.queue u).mMessages ++ s.pending u) ∧
      (s.pending u).length ≤ 1 ∧
      (¬s.Broadcasting u →
        List.Forall₂ (Carries h) (heard u h) (dequeued u h ++ (s.queue u).mMessages)) ∧
      (∀ t, (s.worker u).pc = .dequeue t .pop → (s.queue u).mMessages ≠ []) ∧
      ∀ v : W, (heard u h).filter (· ∈ heard v h) = (heard v h).filter (· ∈ heard u h) := by
  have hs := sound hrun
  refine ⟨?_, ?_, fun u => ?_⟩
  · intro room room' hlt hlt' hname
    have hentered := hs.rooms.entered hlt
    rw [hname, hs.rooms.entered hlt'] at hentered
    exact (Option.some.inj hentered).symm
  · intro e he t ht
    exact hs.rooms.found (events_target hrun e he t ht)
  · have hledger : dequeued u h ++ (s.queue u).mMessages ++ s.pending u =
        deliveries h (heard u h) := ledger hrun u
    have hcarries : List.Forall₂ (Carries h) (heard u h)
        (dequeued u h ++ (s.queue u).mMessages ++ s.pending u) := by
      rw [hledger]
      refine carries_deliveries fun i hi => ?_
      obtain ⟨worker, t, senderUsername, messageText, he, -⟩ := mem_heard.mp hi
      exact ⟨worker, t, senderUsername, messageText, he⟩
    obtain ⟨hone, hnone⟩ := pending_cases hs.locks u
    refine ⟨fun i => mem_heard, heard_sorted u h, hcarries, hone, ?_, ?_, ?_⟩
    · intro hquiet
      rw [hnone hquiet, List.append_nil] at hcarries
      exact hcarries
    · intro t hpc
      exact pop_ready (balanced hrun u) hpc
    · intro v
      exact common_of_sorted (heard_sorted u h) (heard_sorted v h)

/-- Two receivers join a room and a third client broadcasts; the first receiver has
dequeued the message before the broadcast is over. -/
def twoReceivers : List (ℕ × Input) :=
  let join (user : ℕ) (name : String) : List (ℕ × Input) :=
    [(user, .request ⟨tagRlogin, ascii name⟩), (user, .request ⟨tagJoin, ascii "r\n"⟩)]
  join 0 "a\n" ++ List.replicate 7 (0, .go) ++ join 1 "b\n" ++ List.replicate 6 (1, .go) ++
    [(2, .request ⟨tagSlogin, ascii "c\n"⟩), (2, .request ⟨tagJoin, ascii "r\n"⟩)] ++
    List.replicate 3 (2, .go) ++ [(2, .request ⟨tagSendall, ascii "hi\n"⟩)] ++
    List.replicate 11 (2, .go) ++ List.replicate 4 (0, .go)

theorem receiver_gets_room_history_two :
    let s := (reached twoReceivers).1
    let h := (reached twoReceivers).2
    heard 1 h = [2] ∧ dequeued 0 h = [delivery (ascii "r") (ascii "c") (ascii "hi")] ∧
      dequeued 1 h ++ (s.queue 1).mMessages = [] ∧
      List.Forall₂ (Carries h) (heard 1 h)
        (dequeued 1 h ++ (s.queue 1).mMessages ++ s.pending 1) := by
  obtain ⟨-, -, hu⟩ := receiver_gets_room_history (run_reached twoReceivers)
  exact ⟨by decide +kernel, by decide +kernel, by decide +kernel, (hu 1).2.2.1⟩

end Csf.Chat
