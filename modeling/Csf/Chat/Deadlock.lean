import Csf.Chat.Receivers

/-!
# Chat: the locks cannot deadlock

Workers take the lock of a queue inside that of a room, and no other lock inside
another. So a chain of workers that wait for each other ends at one that can go
on; and a holder is never stopped by anything but a mutex, because its semaphore
has let it through before it took the lock of its queue.
-/

namespace Csf.Chat

open Csf.Lib

variable {W : Type} [LinearOrder W]

/-- The order in which locks are taken. -/
def Lock.rank : Lock W → ℕ
  | .server => 0
  | .room _ => 1
  | .queue _ => 2

/-- Worker `w` is to take the lock `l` next. -/
def State.Wants (s : State W) (w : W) (l : Lock W) : Prop :=
  ∃ input move, program s w input = some move ∧ move.action = .lock l

/-- Worker `w` waits for a mutex that is taken. -/
def State.WaitsFor (s : State W) (w : W) (l : Lock W) : Prop := s.Wants w l ∧ s.owner l ≠ none

/-- Worker `w` can take a step. -/
def State.CanStep (s : State W) (w : W) : Prop := ∃ input, (s.step w input).isSome = true

/-- Places outside the functions that lock, and in `sem_timedwait`. -/
def Pc.away : Pc W → Bool
  | .login => true
  | .senderLoop => true
  | .receiverJoin => true
  | .receiverLoop _ => true
  | .finished => true
  | .dequeue _ .wait => true
  | _ => false

variable {s : State W} {h es : List (Event W)} {w : W} {pc pc' : Pc W}

omit [LinearOrder W] in
theorem held_of_away (haway : pc.away = true) : held w pc = [] := by
  unfold Pc.away at haway
  split at haway
  all_goals first | rfl | cases haway

/-- A lock is taken with locks of lower rank held only. -/
theorem Moves.rank {l m : Lock W} (hm : Moves s w pc (.lock l) pc' es) (hheld : m ∈ held w pc) :
    m.rank < l.rank := by
  cases hm with
  | enqueueLock =>
      obtain rfl := List.mem_singleton.mp hheld
      exact Nat.lt_succ_self 1
  | _ => exact absurd hheld List.not_mem_nil

/-- A worker that holds a mutex has an instruction, and it is not `sem_timedwait`. -/
theorem program_of_held (hheld : s.held w ≠ [])
    (hpop : ∀ t, (s.worker w).pc = .dequeue t .pop → (s.queue w).mMessages ≠ []) :
    ∃ move, program s w .go = some move ∧ move.action ≠ .wait := by
  cases hpc : (s.worker w).pc with
  | findRoom name after pos =>
      refine ⟨findOrCreateRoom s (s.worker w) name after pos, by simp [program, hpc], ?_⟩
      cases pos with
      | find => cases hroom : s.mRooms name <;> simp [findOrCreateRoom, hroom]
      | _ => simp [findOrCreateRoom]
  | addMember t pos =>
      refine ⟨addMember s w (s.worker w) t pos, by simp [program, hpc], ?_⟩
      cases pos <;> simp [addMember]
  | removeMember t pos =>
      refine ⟨removeMember w (s.worker w) t pos, by simp [program, hpc], ?_⟩
      cases pos <;> simp [removeMember]
  | broadcast t pos =>
      refine ⟨broadcastMessage s w (s.worker w) t pos, by simp [program, hpc], ?_⟩
      cases pos with
      | test message it => cases it <;> simp [broadcastMessage]
      | enqueue message user pos => cases pos <;> simp [broadcastMessage, enqueue]
      | _ => simp [broadcastMessage]
  | dequeue t pos =>
      cases pos with
      | pop =>
          -- `pop_front` has an instruction because the queue is not empty
          obtain ⟨msg, rest, hqueue⟩ := List.exists_cons_of_ne_nil (hpop t hpc)
          exact ⟨_, by simp [program, hpc, dequeue, hqueue]; rfl, by simp⟩
      | unlock msg => exact ⟨_, by simp [program, hpc, dequeue]; rfl, by simp⟩
      | _ => exact absurd (by rw [State.held, hpc]; rfl) hheld
  | _ => exact absurd (by rw [State.held, hpc]; rfl) hheld

/-- A worker that holds a mutex and is not kept waiting for another can take a step. -/
theorem canStep_of_held (hheld : s.held w ≠ [])
    (hpop : ∀ t, (s.worker w).pc = .dequeue t .pop → (s.queue w).mMessages ≠ [])
    (hfree : ∀ l, s.Wants w l → s.owner l = none) : s.CanStep w := by
  obtain ⟨move, hmove, hwait⟩ := program_of_held hheld hpop
  have henabled : s.enabled w move.action = true := by
    cases haction : move.action with
    | lock l =>
        show (s.owner l).isNone = true
        rw [hfree l ⟨.go, move, hmove, haction⟩]
        rfl
    | wait => exact absurd haction hwait
    | _ => rfl
  refine ⟨.go, ?_⟩
  rw [State.step, hmove]
  show (if _ then _ else _ : Option (State W × List (Event W))).isSome = true
  rw [if_pos henabled]
  rfl

/-- Whenever some worker waits for a mutex, some worker that holds one can take a step;
and a worker outside these functions or in `sem_timedwait` holds none. -/
theorem no_deadlock (hrun : (server W).Run h s) :
    (∀ w l, s.WaitsFor w l → ∃ v, s.held v ≠ [] ∧ (∃ l', s.owner l' = some v) ∧ s.CanStep v) ∧
    ∀ w, (s.worker w).pc.away = true → ∀ l, s.owner l ≠ some w := by
  have hl : Mutex.Agrees s.owner s.held := locks_agree hrun
  refine ⟨?_, ?_⟩
  · intro w l hwaits
    obtain ⟨t, howner⟩ := Option.ne_none_iff_exists'.mp hwaits.2
    have hrank : ∀ v l m, s.Wants v l → m ∈ s.held v → m.rank < l.rank := by
      intro v l m hwants hm
      obtain ⟨input, move, hmove, haction⟩ := hwants
      have hmoves := program_moves hmove
      rw [haction] at hmoves
      exact hmoves.rank hm
    have hbound : ∀ l : Lock W, l.rank ≤ 2 := by
      intro l
      cases l <;> simp [Lock.rank]
    -- the locks are taken in the order of their ranks: some holder waits for none
    obtain ⟨v, hheld, hfree⟩ := hl.exists_unblocked s.Wants Lock.rank 2 hbound hrank howner
    obtain ⟨m, hm⟩ := List.exists_mem_of_ne_nil _ hheld
    refine ⟨v, hheld, ⟨m, (hl m v).mpr hm⟩, canStep_of_held hheld (fun t hpc => ?_) hfree⟩
    exact pop_ready (balanced hrun v) hpc
  · intro w haway l howner
    have hmem := (hl l w).mp howner
    rw [State.held, held_of_away haway] at hmem
    exact absurd hmem List.not_mem_nil

/-- Two receivers look for their rooms at once; the first has taken `m_lock`. -/
def twoJoins : List (ℕ × Input) :=
  [(0, .request ⟨tagRlogin, ascii "a\n"⟩), (0, .request ⟨tagJoin, ascii "r\n"⟩), (0, .go),
    (1, .request ⟨tagRlogin, ascii "b\n"⟩), (1, .request ⟨tagJoin, ascii "r\n"⟩)]

theorem no_deadlock_two :
    let s := (reached twoJoins).1
    s.WaitsFor 1 .server ∧ ∃ v, s.held v ≠ [] ∧ (∃ l', s.owner l' = some v) ∧ s.CanStep v := by
  have hpc : ((reached twoJoins).1.worker 1).pc =
      .findRoom (ascii "r") .addMember .lock := by
    with_unfolding_all rfl
  have howner : (reached twoJoins).1.owner .server ≠ none := by decide +kernel
  have hwaits : (reached twoJoins).1.WaitsFor 1 .server := by
    refine ⟨⟨.go, findOrCreateRoom (reached twoJoins).1 ((reached twoJoins).1.worker 1)
      (ascii "r") .addMember .lock, ?_, rfl⟩, howner⟩
    simp [program, hpc]
  exact ⟨hwaits, (no_deadlock (run_reached twoJoins)).1 1 .server hwaits⟩

end Csf.Chat
