import Csf.Chat.Deadlock

/-!
# Chat: the server comes to rest

While the clients send nothing and no wait times out, the workers finish what they are at.
`State.work` bounds the steps that they have ahead, with those of a receiver for each message
that it can still take (`step_work`); the bound holds for every schedule. And the server can
only stop where no mutex is taken and every queue of a receiver is empty (`rest_of_stuck`), so
each receiver has then taken all that was broadcast in its room since it joined.
-/

namespace Csf.Chat

open Csf.Lib

/-! ## What is left to do -/

/-- A sum over a table with one entry changed. -/
theorem sum_update_add {ι β : Type*} [Fintype ι] [DecidableEq ι] (f : β → ℕ) (g : ι → β) (i : ι)
    (v : β) : (∑ j, f (Function.update g i v j)) + f (g i) = (∑ j, f (g j)) + f v := by
  have hcomp : (fun j => f (Function.update g i v j)) =
      Function.update (fun j => f (g j)) i (f v) := by
    funext j
    exact Function.apply_update (fun _ => f) g i v j
  rw [hcomp, Finset.sum_update_of_mem (Finset.mem_univ i),
    Finset.sum_eq_add_sum_sdiff_singleton_of_mem (Finset.mem_univ i) fun j => f (g j)]
  omega

variable {W : Type} [LinearOrder W] [Fintype W]

/-- The workers behind `user` in the order that a broadcast goes by. -/
def behind (user : W) : ℕ := (Finset.univ.filter (user < ·)).card

/-- The steps that a worker has ahead of it up to the end of its call, with five for each
message that it will have posted. -/
def Pc.work : Pc W → ℕ
  | .findRoom _ _ .lock => 10 * Fintype.card W + 8
  | .findRoom _ _ .find => 10 * Fintype.card W + 7
  | .findRoom _ _ .insert => 10 * Fintype.card W + 6
  | .findRoom _ _ (.unlock _) => 10 * Fintype.card W + 5
  | .broadcast _ (.lock _ _) => 10 * Fintype.card W + 4
  | .broadcast _ (.build _ _) => 10 * Fintype.card W + 3
  | .broadcast _ (.test _ none) => 2
  | .broadcast _ (.test _ (some user)) => 10 * behind user + 12
  | .broadcast _ (.enqueue _ user .lock) => 10 * behind user + 11
  | .broadcast _ (.enqueue _ user .push) => 10 * behind user + 10
  | .broadcast _ (.enqueue _ user .unlock) => 10 * behind user + 9
  | .broadcast _ (.enqueue _ user .post) => 10 * behind user + 8
  | .broadcast _ .unlock => 1
  | .addMember _ .lock => 4
  | .addMember _ .body => 3
  | .addMember _ .unlock => 2
  | .removeMember _ .lock => 3
  | .removeMember _ .body => 2
  | .removeMember _ .unlock => 1
  | .receiverLoop _ => 1
  | .dequeue _ .wait => 0
  | .dequeue _ .lock => 4
  | .dequeue _ .pop => 3
  | .dequeue _ (.unlock _) => 2
  | .login => 0
  | .senderLoop => 0
  | .receiverJoin => 0
  | .finished => 0

/-- The workers' steps, with five for each message that a receiver can take: `wait`, `lock`,
`pop`, `unlock` and the loop. -/
def State.work (s : State W) : ℕ :=
  (∑ u, (s.worker u).pc.work) + 5 * ∑ u, (s.queue u).mAvail

def Action.posts : Action W → ℕ
  | .post _ => 1
  | _ => 0

def Action.waits : Action W → ℕ
  | .wait => 1
  | _ => 0

/-- A place from which a worker goes on without its client. -/
structure Busy (pc pc' : Pc W) (action : Action W) : Prop where
  inside : action = .skip → ¬pc.Outside
  loop : ∀ t, pc = .receiverLoop t → pc' = .dequeue t .wait
  wait : ∀ t, pc = .dequeue t .wait → action = .wait

variable {s s' : State W} {w : W} {pc pc' : Pc W} {action : Action W} {es h : List (Event W)}

theorem behind_lt (user : W) : behind user < Fintype.card W := by
  refine Finset.card_lt_univ_of_notMem (x := user) ?_
  simp

/-- The next member has fewer behind it. -/
theorem behind_after {room : Room W} {user next : W} (h : room.after user = next) :
    behind next < behind user := by
  have hmem : next ∈ room.members.filter (user < ·) := Finset.mem_of_min h
  have hlt : user < next := (Finset.mem_filter.mp hmem).2
  refine Finset.card_lt_card ⟨fun v hv => ?_, fun hsub => ?_⟩
  · simp only [Finset.mem_filter, Finset.mem_univ, true_and] at hv ⊢
    exact hlt.trans hv
  · have hself := hsub (Finset.mem_filter.mpr ⟨Finset.mem_univ next, hlt⟩)
    simp at hself

/-- A step has fewer ahead of it, a wait on account of the message it takes. -/
theorem Moves.work_lt (hm : Moves s w pc action pc' es) (hb : Busy pc pc' action) :
    pc'.work + 5 * action.posts < pc.work + 5 * action.waits := by
  have hcard := behind_lt (W := W)
  cases hm with
  | outside hpc => exact absurd hpc (hb.inside rfl)
  | leave => cases hb.loop _ rfl
  | timeout => cases hb.wait _ rfl
  | @findUnlock name after room =>
      cases after <;> simp [After.enter, Pc.work, Action.posts, Action.waits]
  | @build t senderUsername messageText =>
      cases hmin : (s.room t.room).members.min with
      | top => simp [Pc.work, Action.posts, Action.waits]
      | coe user =>
          have hlt := hcard user
          show 10 * behind user + 12 + 5 * 0 < 10 * Fintype.card W + 3 + 5 * 0
          omega
  | @post t message user =>
      cases hnext : (s.room t.room).after user with
      | top =>
          show 2 + 5 * 1 < 10 * behind user + 8 + 5 * 0
          omega
      | coe next =>
          have hlt := behind_after hnext
          show 10 * behind next + 12 + 5 * 1 < 10 * behind user + 8 + 5 * 0
          omega
  | testEnd => exact Nat.lt_succ_self 1
  | testMember => exact Nat.lt_succ_self _
  | _ => simp [Pc.work, Action.posts, Action.waits]

/-! ## Every step does some of it -/

omit [Fintype W] in
/-- What a worker does by itself. -/
theorem busy_of_program {move : Move W} (hmove : program s w .go = some move) :
    Busy (s.worker w).pc move.worker.pc move.action where
  inside hskip houtside := by
    generalize hpc : (s.worker w).pc = pc at houtside
    cases houtside with
    | @findRoom name after =>
        simp only [program, hpc, findOrCreateRoom, Option.some.injEq] at hmove
        subst hmove
        cases hskip
    | _ => simp [program, hpc] at hmove
  loop t hpc := by
    simp only [program, hpc, Option.some.injEq] at hmove
    subst hmove
    rfl
  wait t hpc := by
    simp only [program, hpc, dequeue, reduceCtorEq, if_false, Option.some.injEq] at hmove
    subst hmove
    rfl

/-- What posts and waits do to the semaphores. -/
theorem sum_avail_effect (henabled : s.enabled w action = true) :
    (∑ u, ((s.effect w action).queue u).mAvail) + action.waits =
      (∑ u, (s.queue u).mAvail) + action.posts := by
  have hqueue := sum_update_add MessageQueue.mAvail s.queue
  cases action with
  | push user msg => exact Nat.add_right_cancel (hqueue user _)
  | pop => exact Nat.add_right_cancel (hqueue w _)
  | post user =>
      have hsum : (∑ u, ((s.effect w (.post user)).queue u).mAvail) + (s.queue user).mAvail =
          (∑ u, (s.queue u).mAvail) + ((s.queue user).mAvail + 1) := hqueue user _
      show _ + 0 = _ + 1
      omega
  | wait =>
      have hpos : 0 < (s.queue w).mAvail := of_decide_eq_true henabled
      have hsum : (∑ u, ((s.effect w .wait).queue u).mAvail) + (s.queue w).mAvail =
          (∑ u, (s.queue u).mAvail) + ((s.queue w).mAvail - 1) := hqueue w _
      show _ + 1 = _ + 0
      omega
  | _ => rfl

/-- The step lemma: the work gets less. -/
theorem step_work (hstep : s.step w .go = some (s', es)) : s'.work < s.work := by
  obtain ⟨move, hmove, hstep⟩ := Option.bind_eq_some_iff.mp hstep
  split at hstep
  · next henabled =>
      have hpair := Option.some.inj hstep
      rw [Prod.mk.injEq] at hpair
      obtain ⟨rfl, rfl⟩ := hpair
      have hlt := (program_moves hmove).work_lt (busy_of_program hmove)
      have havail := sum_avail_effect henabled
      have hworkers := sum_update_add (fun me : Worker W => me.pc.work) s.worker w move.worker
      have hsame : (s.effect w move.action).worker = s.worker := effect_worker _
      show (∑ u, (Function.update (s.effect w move.action).worker w move.worker u).pc.work) +
        5 * (∑ u, ((s.effect w move.action).queue u).mAvail) < _
      rw [hsame, State.work]
      omega
  · cases hstep

/-- The run lemma: no schedule has more steps than there is work. -/
theorem length_le_work {ws : List W} (hexec : s.exec (ws.map fun w => (w, .go)) = some (s', es)) :
    ws.length + s'.work ≤ s.work := by
  induction ws generalizing s es with
  | nil =>
      obtain rfl := (Prod.mk.inj (Option.some.inj hexec)).1
      exact (Nat.zero_add _).le
  | cons w ws ih =>
      obtain ⟨⟨s₁, es₁⟩, hstep, hexec⟩ := Option.bind_eq_some_iff.mp hexec
      obtain ⟨⟨s₂, es₂⟩, hrest, hexec⟩ := Option.bind_eq_some_iff.mp hexec
      obtain rfl := (Prod.mk.inj (Option.some.inj hexec)).1
      have hlt := step_work hstep
      have hle := ih hrest
      rw [List.length_cons]
      omega

/-- No worker can go on by itself. -/
def State.Stuck (s : State W) : Prop := ∀ w, s.step w .go = none

/-- Some schedule leads to where no worker can go on. -/
theorem exists_exec_stuck (s : State W) : ∃ (ws : List W) (s' : State W) (es : List (Event W)),
    s.exec (ws.map fun w => (w, .go)) = some (s', es) ∧ s'.Stuck := by
  induction hn : s.work using Nat.strong_induction_on generalizing s with
  | _ n ih =>
      subst hn
      by_cases hstuck : s.Stuck
      · exact ⟨[], s, [], rfl, hstuck⟩
      · obtain ⟨w, hw⟩ := not_forall.mp hstuck
        obtain ⟨⟨s₁, es₁⟩, hstep⟩ := Option.ne_none_iff_exists'.mp hw
        obtain ⟨ws, s', es, hexec, hstuck'⟩ := ih _ (step_work hstep) s₁ rfl
        refine ⟨w :: ws, s', es₁ ++ es, ?_, hstuck'⟩
        show (s.step w .go).bind _ = _
        rw [hstep]
        show (s₁.exec _).bind _ = _
        rw [hexec]
        rfl

/-! ## Where it stops -/

omit [Fintype W] in
/-- A worker with an instruction that no mutex and no semaphore stops can go on. -/
theorem step_of_program {move : Move W} (hmove : program s w .go = some move)
    (henabled : s.enabled w move.action = true) : s.step w .go ≠ none := by
  rw [State.step, hmove]
  show (if _ then _ else _ : Option (State W × List (Event W))) ≠ none
  rw [if_pos henabled]
  exact Option.some_ne_none _

omit [Fintype W] in
/-- Where no worker can go on, no mutex is taken. -/
theorem free_of_stuck (hrun : (server W).Run h s) (hstuck : s.Stuck) (l : Lock W) :
    s.owner l = none := by
  by_contra hne
  obtain ⟨t, howner⟩ := Option.ne_none_iff_exists'.mp hne
  have hrank : ∀ v l m, s.Wants v l → m ∈ s.held v → m.rank < l.rank := by
    rintro v l m ⟨input, move, hmove, haction⟩ hm
    have hmoves := program_moves hmove
    rw [haction] at hmoves
    exact hmoves.rank hm
  have hbound : ∀ l : Lock W, l.rank ≤ 2 := by
    intro l
    cases l <;> simp [Lock.rank]
  obtain ⟨v, hheld, hfree⟩ :=
    (locks_agree hrun).exists_unblocked s.Wants Lock.rank 2 hbound hrank howner
  obtain ⟨move, hmove, hwait⟩ :=
    program_of_held hheld fun t hpc => pop_ready (balanced hrun v) hpc
  refine step_of_program hmove ?_ (hstuck v)
  cases haction : move.action with
  | lock l =>
      show (s.owner l).isNone = true
      rw [hfree l ⟨.go, move, hmove, haction⟩]
      rfl
  | wait => exact absurd haction hwait
  | _ => rfl

/-- The places of a worker that has nothing to do. -/
inductive Pc.Idle (s : State W) (w : W) : Pc W → Prop
  | login : Idle s w .login
  | senderLoop : Idle s w .senderLoop
  | receiverJoin : Idle s w .receiverJoin
  | finished : Idle s w .finished
  | wait {t : Target} (havail : (s.queue w).mAvail = 0) : Idle s w (.dequeue t .wait)

omit [Fintype W] in
theorem idle_of_stuck (hrun : (server W).Run h s) (hstuck : s.Stuck) (w : W) :
    (s.worker w).pc.Idle s w := by
  have hfree := free_of_stuck hrun hstuck
  have hheld : s.held w = [] := by
    refine List.eq_nil_iff_forall_not_mem.mpr fun m hm => ?_
    exact absurd ((locks_agree hrun m w).mpr hm) (by rw [hfree]; simp)
  have hopen : ∀ l, s.enabled w (.lock l) = true := fun l => by
    show (s.owner l).isNone = true
    rw [hfree]
    rfl
  have hgo : ∀ move, program s w .go = some move → s.enabled w move.action = true → False :=
    fun move hmove henabled => step_of_program hmove henabled (hstuck w)
  cases hpc : (s.worker w).pc with
  | login => exact .login
  | senderLoop => exact .senderLoop
  | receiverJoin => exact .receiverJoin
  | finished => exact .finished
  | receiverLoop t => exact (hgo _ (by simp only [program, hpc]; rfl) rfl).elim
  | findRoom name after pos =>
      cases pos with
      | lock => exact (hgo _ (by simp only [program, hpc]; rfl) (hopen _)).elim
      | _ => simp [State.held, hpc, held] at hheld
  | addMember t pos =>
      cases pos with
      | lock => exact (hgo _ (by simp only [program, hpc]; rfl) (hopen _)).elim
      | _ => simp [State.held, hpc, held] at hheld
  | removeMember t pos =>
      cases pos with
      | lock => exact (hgo _ (by simp only [program, hpc]; rfl) (hopen _)).elim
      | _ => simp [State.held, hpc, held] at hheld
  | broadcast t pos =>
      cases pos with
      | lock => exact (hgo _ (by simp only [program, hpc]; rfl) (hopen _)).elim
      | enqueue message user pos => cases pos <;> simp [State.held, hpc, held] at hheld
      | _ => simp [State.held, hpc, held] at hheld
  | dequeue t pos =>
      cases pos with
      | wait =>
          refine .wait (Nat.eq_zero_of_not_pos fun hpos => ?_)
          exact hgo ⟨.wait, (s.worker w).goto (.dequeue t .lock), []⟩
            (by simp [program, hpc, dequeue]) (decide_eq_true hpos)
      | lock =>
          exact (hgo ⟨.lock (.queue w), (s.worker w).goto (.dequeue t .pop), []⟩
            (by simp [program, hpc, dequeue]) (hopen _)).elim
      | _ => simp [State.held, hpc, held] at hheld

omit [Fintype W] in
/-- Where no worker can go on, a receiver in its loop has taken all that was broadcast in its
room since it joined. -/
theorem received_of_stuck (hrun : (server W).Run h s) (hstuck : s.Stuck) {u : W} {t : Target}
    (hpc : (s.worker u).pc = .dequeue t .wait) :
    (s.queue u).mMessages = [] ∧ dequeued u h = deliveries h (heard u h) := by
  have hin : (s.worker u).pc.inserted = some t.room := by rw [hpc]; rfl
  have hfree := free_of_stuck hrun hstuck (.room t.room)
  have havail : (s.queue u).mAvail = 0 := by
    have hidle := idle_of_stuck hrun hstuck u
    rw [hpc] at hidle
    cases hidle with
    | wait havail => exact havail
  have hbalanced := balanced hrun u
  rw [Balanced, inHand_of_free hin hfree, havail, hpc] at hbalanced
  have hempty : (s.queue u).mMessages = [] := List.eq_nil_of_length_eq_zero hbalanced
  have hledger := ledger hrun u
  rw [Ledger, hempty, State.pending, inHand_of_free hin hfree, List.append_nil,
    List.append_nil] at hledger
  exact ⟨hempty, hledger⟩

/-- **Rest.** In every state that the server can reach, if the clients send nothing more and no
wait times out: the workers have at most `work` steps ahead of them, in any order; they come to
a state where none of them can go on; and in every such state no mutex is taken, every worker
is in front of a `receive` or a `sem_timedwait` or has finished, and every receiver that waits
has an empty queue and has taken, once each and in the order of the room, all that was
broadcast there since it joined. -/
theorem comes_to_rest (hrun : (server W).Run h s) :
    (∀ (ws : List W) s' es, s.exec (ws.map fun w => (w, .go)) = some (s', es) →
      ws.length ≤ s.work) ∧
    (∃ (ws : List W) (s' : State W) (es : List (Event W)),
      s.exec (ws.map fun w => (w, .go)) = some (s', es) ∧ s'.Stuck) ∧
    ∀ (ws : List W) s' es, s.exec (ws.map fun w => (w, .go)) = some (s', es) → s'.Stuck →
      (∀ l, s'.owner l = none) ∧ (∀ w, (s'.worker w).pc.Idle s' w) ∧
      ∀ u t, (s'.worker u).pc = .dequeue t .wait → (s'.queue u).mMessages = [] ∧
        dequeued u (h ++ es) = deliveries (h ++ es) (heard u (h ++ es)) := by
  refine ⟨fun ws s' es hexec => ?_, exists_exec_stuck s, fun ws s' es hexec hstuck => ?_⟩
  · exact (Nat.le_add_right _ _).trans (length_le_work hexec)
  · have hrun' := run_of_exec hrun hexec
    exact ⟨free_of_stuck hrun' hstuck, idle_of_stuck hrun' hstuck,
      fun u t hpc => received_of_stuck hrun' hstuck hpc⟩

/-- A receiver has joined a room, and a sender is on the way to a broadcast there. -/
def oneBroadcast : List (Fin 2 × Input) :=
  [(0, .request ⟨tagRlogin, ascii "a\n"⟩), (0, .request ⟨tagJoin, ascii "r\n"⟩)] ++
    List.replicate 7 (0, .go) ++
    [(1, .request ⟨tagSlogin, ascii "b\n"⟩), (1, .request ⟨tagJoin, ascii "r\n"⟩)] ++
    List.replicate 3 (1, .go) ++ [(1, .request ⟨tagSendall, ascii "hi\n"⟩)]

theorem comes_to_rest_two : ∃ (ws : List (Fin 2)) (s' : State (Fin 2)) (es : List (Event (Fin 2))),
    (reached oneBroadcast).1.exec (ws.map fun w => (w, .go)) = some (s', es) ∧
      ws.length ≤ (reached oneBroadcast).1.work ∧ ∀ l, s'.owner l = none := by
  obtain ⟨hbound, ⟨ws, s', es, hexec, hstuck⟩, hrest⟩ := comes_to_rest (run_reached oneBroadcast)
  exact ⟨ws, s', es, hexec, hbound ws s' es hexec, (hrest ws s' es hexec hstuck).1⟩

end Csf.Chat
