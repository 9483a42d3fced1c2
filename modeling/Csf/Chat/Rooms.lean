import Csf.Chat.Locking

/-!
# Chat: one room for each name

`m_rooms` and the rooms agree along every run: what is found under a name is a
room of that name, and a room is found under its name. The look-up and the
insertion of `find_or_create_room` are two steps, so this rests on `m_lock`.
The members of a room are the receivers between their insertion and their
erasure, and an iterator of `broadcast_message` stays on a member.
-/

namespace Csf.Chat

open Csf.Lib

variable {W : Type}

/-- The room that a worker works with. -/
def Pc.target : Pc W → Option Target
  | .findRoom name _ (.unlock room) => some ⟨name, room⟩
  | .addMember t _ => some t
  | .receiverLoop t => some t
  | .dequeue t _ => some t
  | .removeMember t _ => some t
  | .broadcast t _ => some t
  | _ => none

/-- The room whose members a worker is among. -/
def Pc.inserted : Pc W → Option ℕ
  | .addMember t .unlock => some t.room
  | .receiverLoop t => some t.room
  | .dequeue t _ => some t.room
  | .removeMember t .lock => some t.room
  | .removeMember t .body => some t.room
  | _ => none

/-- The member that an iterator of `broadcast_message` is at. -/
def Pc.iterator : Pc W → Option (Target × W)
  | .broadcast t (.test _ (some user)) => some (t, user)
  | .broadcast t (.enqueue _ user _) => some (t, user)
  | _ => none

theorem iterator_test {t t' : Target} {message : Message} {it : WithTop W} {user : W} :
    (Pc.broadcast t (.test message it)).iterator = some (t', user) ↔ t = t' ∧ it = user := by
  cases it with
  | top => simp [Pc.iterator]
  | coe user' =>
      show some (t, user') = some (t', user) ↔ _
      rw [Option.some.injEq, Prod.mk.injEq, WithTop.coe_inj]

theorem target_outside {pc : Pc W} (hpc : pc.Outside) : pc.target = none := by
  cases hpc <;> rfl

theorem inserted_outside {pc : Pc W} (hpc : pc.Outside) : pc.inserted = none := by
  cases hpc <;> rfl

theorem iterator_outside {pc : Pc W} (hpc : pc.Outside) : pc.iterator = none := by
  cases hpc <;> rfl

@[simp] theorem inserted_enter (t : Target) (after : After) :
    (after.enter t : Pc W).inserted = none := by
  cases after <;> rfl

@[simp] theorem iterator_enter (t : Target) (after : After) :
    (after.enter t : Pc W).iterator = none := by
  cases after <;> rfl

theorem target_enter {t t' : Target} {after : After}
    (h : (after.enter t : Pc W).target = some t') : t' = t := by
  cases after with
  | nothing => cases h
  | broadcastMessage senderUsername messageText => exact (Option.some.inj h).symm
  | addMember => exact (Option.some.inj h).symm

/-- A member of a room works with it. -/
theorem target_of_inserted {pc : Pc W} {room : ℕ} (h : pc.inserted = some room) :
    ∃ t, pc.target = some t ∧ t.room = room := by
  unfold Pc.inserted at h
  split at h
  all_goals first | exact ⟨_, rfl, Option.some.inj h⟩ | cases h

variable [LinearOrder W] {s : State W} {w : W} {es : List (Event W)}

/-! ## What actions do to the rooms -/

/-- Only `newRoom` changes the map. -/
theorem effect_mRooms {action : Action W} (h : ∀ name, action ≠ .newRoom name) :
    (s.effect w action).mRooms = s.mRooms ∧ (s.effect w action).next = s.next := by
  cases action with
  | newRoom name => exact absurd rfl (h name)
  | _ => exact ⟨rfl, rfl⟩

/-- What is found stays. -/
theorem effect_mRooms_of_some {action : Action W} {name : Str} {room : ℕ}
    (h : s.mRooms name = some room) : (s.effect w action).mRooms name = some room := by
  cases action with
  | newRoom name' =>
      show (if _ then _ else _ : Str → Option ℕ) name = some room
      split
      · next hnone =>
          have hne : name ≠ name' := by
            rintro rfl
            rw [hnone] at h
            cases h
          rw [Function.update_of_ne hne]
          exact h
      · exact h
  | _ => exact h

/-- Rooms keep their names. -/
theorem effect_roomName {action : Action W} {room : ℕ} (h : room < s.next) :
    ((s.effect w action).room room).roomName = (s.room room).roomName := by
  have hmembers : ∀ room' members,
      ((s.setMembers room' members).room room).roomName = (s.room room).roomName := by
    intro room' members
    rcases eq_or_ne room room' with rfl | hne
    · simp [State.setMembers]
    · simp [State.setMembers, Function.update_of_ne hne]
  cases action with
  | newRoom name =>
      show (Function.update s.room s.next _ room).roomName = _
      rw [Function.update_of_ne h.ne]
  | insert room' => exact hmembers _ _
  | erase room' => exact hmembers _ _
  | _ => rfl

/-! ## The map of rooms -/

/-- The map of rooms, the rooms and what the workers know of both agree. -/
structure RoomsAgree (s : State W) : Prop where
  found : ∀ {name room}, s.mRooms name = some room →
    room < s.next ∧ (s.room room).roomName = name
  entered : ∀ {room}, room < s.next → s.mRooms (s.room room).roomName = some room
  absent : ∀ {w name after}, (s.worker w).pc = .findRoom name after .insert →
    s.mRooms name = none
  target : ∀ {w t}, (s.worker w).pc.target = some t → s.mRooms t.name = some t.room

section

omit [LinearOrder W]

theorem RoomsAgree.name (h : RoomsAgree s) {t : Target}
    (ht : (s.worker w).pc.target = some t) : (s.room t.room).roomName = t.name :=
  (h.found (h.target ht)).2

theorem RoomsAgree.lt (h : RoomsAgree s) {t : Target}
    (ht : (s.worker w).pc.target = some t) : t.room < s.next :=
  (h.found (h.target ht)).1

theorem roomsAgree_initial : RoomsAgree (State.initial W) where
  found := by
    intro name room h
    cases h
  entered := by
    intro room h
    exact absurd h (Nat.not_lt_zero _)
  absent := by
    intro w name after h
    cases h
  target := by
    intro w t h
    cases h

end

/-- A new room, entered under a name that is not there. -/
theorem RoomsAgree.newRoom (hs : RoomsAgree s) {name : Str} (hnone : s.mRooms name = none) :
    (∀ {name' room}, (s.effect w (.newRoom name)).mRooms name' = some room →
      room < s.next + 1 ∧ ((s.effect w (.newRoom name)).room room).roomName = name') ∧
    ∀ {room}, room < s.next + 1 → (s.effect w (.newRoom name)).mRooms
      ((s.effect w (.newRoom name)).room room).roomName = some room := by
  have hmap : (s.effect w (.newRoom name)).mRooms =
      Function.update s.mRooms name (some s.next) := if_pos hnone
  have hroom : (s.effect w (.newRoom name)).room =
      Function.update s.room s.next { roomName := name, members := ∅ } := rfl
  rw [hmap, hroom]
  refine ⟨?_, ?_⟩
  · intro name' room h
    rcases eq_or_ne name' name with rfl | hne
    · rw [Function.update_self, Option.some.injEq] at h
      subst h
      exact ⟨Nat.lt_succ_self _, by rw [Function.update_self]⟩
    · rw [Function.update_of_ne hne] at h
      obtain ⟨hlt, hname⟩ := hs.found h
      exact ⟨Nat.lt_succ_of_lt hlt, by rw [Function.update_of_ne hlt.ne, hname]⟩
  · intro room h
    rcases Nat.lt_succ_iff_lt_or_eq.mp h with hlt | rfl
    · have hentered := hs.entered hlt
      -- an older room cannot have the new name, which was not in the map
      rw [Function.update_of_ne hlt.ne, Function.update_of_ne, hentered]
      intro hname
      rw [hname, hnone] at hentered
      cases hentered
    · rw [Function.update_self, Function.update_self]

/-- Rooms are made at one place only. -/
theorem Moves.of_newRoom {pc pc' : Pc W} {name : Str}
    (hm : Moves s w pc (.newRoom name) pc' es) : ∃ after, pc = .findRoom name after .insert := by
  cases hm with
  | newRoom => exact ⟨_, rfl⟩

/-- That place is reached when the look-up has found nothing. -/
theorem Moves.absent {pc pc' : Pc W} {action : Action W} {name : Str} {after : After}
    (hm : Moves s w pc action pc' es) (h : pc' = .findRoom name after .insert) :
    s.mRooms name = none ∧ action = .skip := by
  cases hm with
  | outside hpc hpc' =>
      rw [h] at hpc'
      cases hpc'
  | findNone hroom =>
      cases h
      exact ⟨hroom, rfl⟩
  | @findUnlock _ after' _ => cases after' <;> cases h
  | _ => cases h

/-- A worker comes to work with a room by finding it or by making it. -/
theorem Moves.target {pc pc' : Pc W} {action : Action W} {t : Target}
    (hm : Moves s w pc action pc' es) (h : pc'.target = some t) :
    pc.target = some t ∨ s.mRooms t.name = some t.room ∨
      action = .newRoom t.name ∧ t.room = s.next := by
  cases hm with
  | outside hpc hpc' =>
      rw [target_outside hpc'] at h
      cases h
  | findOld hroom =>
      cases h
      exact .inr (.inl hroom)
  | newRoom =>
      cases h
      exact .inr (.inr ⟨rfl, rfl⟩)
  | findUnlock => exact .inl (congrArg some (target_enter h).symm)
  | findLock => cases h
  | findNone => cases h
  | removeUnlock => cases h
  | broadcastUnlock => cases h
  | _ => exact .inl h

theorem roomsAgree : (server W).Invariant fun _ s => RoomsAgree s := by
  refine TSys.Invariant.of_step (I := fun _ s => RoomsAgree s) locks_agree ?_ ?_
  · intro s hinit
    obtain rfl : s = State.initial W := hinit
    exact roomsAgree_initial
  · intro h es s s' hlocks hs hstep
    obtain ⟨w, input, hstep⟩ := hstep
    obtain ⟨action, me', hm, henabled, rfl⟩ := step_cases hstep
    by_cases hnew : ∃ name, action = .newRoom name
    · obtain ⟨name, rfl⟩ := hnew
      obtain ⟨after, hpc⟩ := hm.of_newRoom
      have hnone := hs.absent hpc
      obtain ⟨hfound, hentered⟩ := hs.newRoom (w := w) hnone
      refine ⟨hfound, hentered, ?_, ?_⟩
      · intro u name' after' hpc'
        rcases eq_or_ne u w with rfl | hu
        · rw [setWorker_self] at hpc'
          exact absurd (hm.absent hpc').2 (by simp)
        · -- two workers would hold `m_lock`
          rw [setWorker_of_ne hu, effect_worker] at hpc'
          refine absurd (hlocks.exclusive (m := .server) ?_ ?_) hu
          · simp [State.held, held, hpc']
          · simp [State.held, held, hpc]
      · intro u t ht
        rw [setWorker_mRooms]
        rcases eq_or_ne u w with rfl | hu
        · rw [setWorker_self] at ht
          rcases hm.target ht with hold | hold | ⟨hname, hroom⟩
          · exact effect_mRooms_of_some (hs.target hold)
          · exact effect_mRooms_of_some hold
          · cases hname
            rw [hroom]
            show (if _ then _ else _ : Str → Option ℕ) t.name = some s.next
            rw [if_pos hnone, Function.update_self]
        · rw [setWorker_of_ne hu, effect_worker] at ht
          exact effect_mRooms_of_some (hs.target ht)
    · -- nothing but a new room changes the map
      have hnew := not_exists.mp hnew
      obtain ⟨hrooms, hnext⟩ := effect_mRooms (s := s) (w := w) hnew
      refine ⟨?_, ?_, ?_, ?_⟩
      · intro name room hfound
        rw [setWorker_mRooms, hrooms] at hfound
        obtain ⟨hlt, hname⟩ := hs.found hfound
        rw [setWorker_next, setWorker_room, hnext, effect_roomName hlt]
        exact ⟨hlt, hname⟩
      · intro room hlt
        rw [setWorker_next, hnext] at hlt
        rw [setWorker_mRooms, setWorker_room, hrooms, effect_roomName hlt]
        exact hs.entered hlt
      · intro u name after hpc
        rw [setWorker_mRooms, hrooms]
        rcases eq_or_ne u w with rfl | hu
        · rw [setWorker_self] at hpc
          exact (hm.absent hpc).1
        · rw [setWorker_of_ne hu, effect_worker] at hpc
          exact hs.absent hpc
      · intro u t ht
        rw [setWorker_mRooms, hrooms]
        rcases eq_or_ne u w with rfl | hu
        · rw [setWorker_self] at ht
          rcases hm.target ht with hold | hold | ⟨hname, -⟩
          · exact hs.target hold
          · exact hold
          · exact absurd hname (hnew t.name)
        · rw [setWorker_of_ne hu, effect_worker] at ht
          exact hs.target ht

/-! ## Members -/

/-- The members of a room are the workers at the places where they are, and an
iterator is at a member. -/
structure MembersAgree (s : State W) : Prop where
  members : ∀ {u room}, u ∈ (s.room room).members ↔ (s.worker u).pc.inserted = some room
  iterator : ∀ {w t u}, (s.worker w).pc.iterator = some (t, u) → u ∈ (s.room t.room).members

omit [LinearOrder W] in
/-- An iterator is used under the lock of its room. -/
theorem held_of_iterator {pc : Pc W} {t : Target} {u : W} (h : pc.iterator = some (t, u)) :
    Lock.room t.room ∈ held w pc ∧ pc.target = some t := by
  unfold Pc.iterator at h
  split at h
  · cases h
    exact ⟨by simp [held], rfl⟩
  · next t' _ user pos =>
      cases h
      refine ⟨?_, rfl⟩
      cases pos <;> simp [held]
  · cases h

/-- Members come and go under the lock of their room. -/
theorem Moves.inserted {pc pc' : Pc W} {action : Action W} (hm : Moves s w pc action pc' es) :
    match action with
    | .insert room => pc.inserted = none ∧ pc'.inserted = some room ∧ .room room ∈ held w pc
    | .erase room => pc.inserted = some room ∧ pc'.inserted = none ∧ .room room ∈ held w pc
    | _ => pc'.inserted = pc.inserted := by
  cases hm with
  | outside hpc hpc' => rw [inserted_outside hpc, inserted_outside hpc']
  | findUnlock => exact inserted_enter _ _
  | addBody => exact ⟨rfl, rfl, List.mem_singleton.mpr rfl⟩
  | removeBody => exact ⟨rfl, rfl, List.mem_singleton.mpr rfl⟩
  | _ => rfl

/-- An iterator is taken from the members, and moved along them. -/
theorem Moves.iterator {pc pc' : Pc W} {action : Action W} {t : Target} {u : W}
    (hm : Moves s w pc action pc' es) (h : pc'.iterator = some (t, u)) :
    (pc.iterator = some (t, u) ∨ u ∈ (s.room t.room).members) ∧
      (s.effect w action).room = s.room := by
  cases hm with
  | outside hpc hpc' =>
      rw [iterator_outside hpc'] at h
      cases h
  | findUnlock =>
      rw [iterator_enter] at h
      cases h
  | build =>
      obtain ⟨rfl, hit⟩ := iterator_test.mp h
      exact ⟨.inr (Finset.mem_of_min hit), rfl⟩
  | post =>
      obtain ⟨rfl, hit⟩ := iterator_test.mp h
      exact ⟨.inr (Finset.mem_of_mem_filter _ (Finset.mem_of_min hit)), rfl⟩
  | testMember => exact ⟨.inl h, rfl⟩
  | enqueueLock => exact ⟨.inl h, rfl⟩
  | push => exact ⟨.inl h, rfl⟩
  | enqueueUnlock => exact ⟨.inl h, rfl⟩
  | _ => cases h

/-- Only `insert` and `erase` change the members of a room, and a new room has none. -/
theorem mem_effect {action : Action W} {room : ℕ}
    (hempty : (s.room s.next).members = ∅) {u : W} :
    u ∈ ((s.effect w action).room room).members ↔ (u = w ∧ action = .insert room) ∨
      (u ∈ (s.room room).members ∧ ¬(u = w ∧ action = .erase room)) := by
  have hother : ∀ {room' members}, room' ≠ room →
      ((s.setMembers room' members).room room).members = (s.room room).members := by
    intro room' members hne
    simp [State.setMembers, Function.update_of_ne hne.symm]
  cases action with
  | newRoom name =>
      show u ∈ (Function.update s.room s.next _ room).members ↔ _
      rcases eq_or_ne room s.next with rfl | hne
      · simp [hempty]
      · simp [Function.update_of_ne hne]
  | insert room' =>
      rcases eq_or_ne room' room with rfl | hne
      · simp [State.effect, State.setMembers]
      · simp [State.effect, hother hne, hne]
  | erase room' =>
      rcases eq_or_ne room' room with rfl | hne
      · simp [State.effect, State.setMembers, and_comm]
      · simp [State.effect, hother hne, hne]
  | _ => simp [State.effect, State.setQueue]

section

omit [LinearOrder W]

/-- A room that is not there yet has no members. -/
theorem MembersAgree.fresh (hs : MembersAgree s) (hrooms : RoomsAgree s) :
    (s.room s.next).members = ∅ := by
  refine Finset.eq_empty_of_forall_notMem fun u hu => ?_
  obtain ⟨t, ht, hroom⟩ := target_of_inserted (hs.members.mp hu)
  exact absurd (hrooms.lt ht) (by simp [hroom])

theorem membersAgree_initial : MembersAgree (State.initial W) where
  members := by simp [State.initial, Pc.inserted]
  iterator := by
    intro w t u h
    cases h

end

theorem membersAgree : (server W).Invariant fun _ s => MembersAgree s := by
  refine TSys.Invariant.of_step (I := fun _ s => MembersAgree s)
    (locks_agree.and roomsAgree) ?_ ?_
  · intro s hinit
    obtain rfl : s = State.initial W := hinit
    exact membersAgree_initial
  · intro h es s s' hlocks hs hstep
    obtain ⟨hlocks, hrooms⟩ := hlocks
    obtain ⟨w, input, hstep⟩ := hstep
    obtain ⟨action, me', hm, henabled, rfl⟩ := step_cases hstep
    refine ⟨?_, ?_⟩
    · intro u room
      rw [setWorker_room, mem_effect (hs.fresh hrooms), hs.members]
      rcases eq_or_ne u w with rfl | hu
      · rw [setWorker_self]
        have hinserted := hm.inserted
        cases action with
        | insert room' =>
            obtain ⟨hout, hin, -⟩ := hinserted
            simp [hout, hin]
        | erase room' =>
            obtain ⟨hin, hout, -⟩ := hinserted
            simp [hin, hout]
        | _ => simpa using (congrArg (· = some room) hinserted).symm
      · rw [setWorker_of_ne hu, effect_worker]
        simp [hu]
    · intro v t u hit
      rcases eq_or_ne v w with rfl | hv
      · rw [setWorker_self] at hit
        obtain ⟨hmem, hroom⟩ := hm.iterator hit
        rw [setWorker_room, hroom]
        exact hmem.elim hs.iterator id
      · rw [setWorker_of_ne hv, effect_worker] at hit
        rw [setWorker_room, mem_effect (hs.fresh hrooms)]
        refine .inr ⟨hs.iterator hit, ?_⟩
        rintro ⟨rfl, rfl⟩
        -- the worker that goes would hold the lock that the iterator is used under
        exact hv (hlocks.exclusive (held_of_iterator hit).1 hm.inserted.2.2)

end Csf.Chat
