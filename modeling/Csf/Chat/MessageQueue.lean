import Csf.Chat.Threads

/-!
# Chat: one queue and all its callers

`MessageQueue` under any number of calls of `enqueue` and `dequeue`, each in a thread of its
own. The semaphore counts the messages that nobody has been promised: it lags behind the
deque by the consumers that have waited but not popped and by the producers that have pushed
but not posted. A semaphore counts without a bound.

Here `front` and `pop_front` are two steps, and it is the lock that keeps a message from
being taken in between.
-/

namespace Csf.Chat.Queue

open Csf.Lib

/-- Places in `dequeue`. -/
inductive TakeAt where
  | wait
  | lock
  | front
  | popFront (msg : Message)
  | unlock (msg : Message)
deriving DecidableEq, Repr

/-- A call, under way or over, with its message; `none` is a null pointer. -/
inductive Call where
  | enqueue (msg : Message) (pos : EnqueueAt)
  | enqueued (msg : Message)
  | dequeue (pos : TakeAt)
  | dequeued (result : Option Message)
deriving DecidableEq, Repr

/-- The members of a `MessageQueue`, with the owner of `m_lock`, and all calls so far. -/
structure State where
  owner : Mutex.Table Unit ℕ
  queue : MessageQueue
  calls : List Call

/-- What a run shows: `push_back` and `pop_front`, with the call that makes them. -/
inductive Event where
  | pushed (call : ℕ) (msg : Message)
  | popped (call : ℕ) (msg : Message)
deriving DecidableEq, Repr

/-- What comes next: a new call, a step of a call, or a time-out in its `sem_timedwait`. -/
inductive Turn where
  | enqueue (msg : Message)
  | dequeue
  | go (call : ℕ)
  | timeout (call : ℕ)
deriving DecidableEq, Repr

def State.setCall (s : State) (i : ℕ) (call : Call) : State :=
  { s with calls := s.calls.set i call }

/-- `Guard guard(m_lock)` -/
def State.lock (s : State) (i : ℕ) : Option State :=
  if (s.owner ()).isNone then some { s with owner := s.owner.take () i } else none

/-- `~Guard()` -/
def State.unlock (s : State) : State := { s with owner := s.owner.give () }

def State.setQueue (s : State) (queue : MessageQueue) : State := { s with queue := queue }

/-- `MessageQueue::enqueue`, as call `i`. -/
def enqueue (s : State) (i : ℕ) (msg : Message) : EnqueueAt → Option (State × List Event)
  | .lock => (s.lock i).map fun s => (s.setCall i (.enqueue msg .push), [])
  | .push =>
      let queue := { s.queue with mMessages := s.queue.mMessages ++ [msg] }
      some ((s.setQueue queue).setCall i (.enqueue msg .unlock), [.pushed i msg])
  | .unlock => some (s.unlock.setCall i (.enqueue msg .post), [])
  | .post =>
      let queue := { s.queue with mAvail := s.queue.mAvail + 1 }
      some ((s.setQueue queue).setCall i (.enqueued msg), [])

/-- `MessageQueue::dequeue`, as call `i`. On an empty deque there is no step for `front` or
`pop_front`. -/
def dequeue (s : State) (i : ℕ) (timeout : Bool) : TakeAt → Option (State × List Event)
  | .wait =>
      if timeout then some (s.setCall i (.dequeued none), [])
      else if 0 < s.queue.mAvail then
        let queue := { s.queue with mAvail := s.queue.mAvail - 1 }
        some ((s.setQueue queue).setCall i (.dequeue .lock), [])
      else none
  | .lock => (s.lock i).map fun s => (s.setCall i (.dequeue .front), [])
  | .front => s.queue.mMessages.head?.map fun msg => (s.setCall i (.dequeue (.popFront msg)), [])
  | .popFront msg =>
      match s.queue.mMessages with
      | first :: rest =>
          let queue := { s.queue with mMessages := rest }
          some ((s.setQueue queue).setCall i (.dequeue (.unlock msg)), [.popped i first])
      | [] => none
  | .unlock msg => some (s.unlock.setCall i (.dequeued (some msg)), [])

/-- A step of call `i`. -/
def State.advance (s : State) (i : ℕ) (timeout : Bool) : Option (State × List Event) :=
  match s.calls[i]? with
  | some (.enqueue msg pos) => enqueue s i msg pos
  | some (.dequeue pos) => dequeue s i timeout pos
  | _ => none

def State.step (s : State) : Turn → Option (State × List Event)
  | .enqueue msg => some ({ s with calls := s.calls ++ [.enqueue msg .lock] }, [])
  | .dequeue => some ({ s with calls := s.calls ++ [.dequeue .wait] }, [])
  | .go i => s.advance i false
  | .timeout i => s.advance i true

/-- `MessageQueue()` -/
def State.new : State :=
  { owner := fun _ => none, queue := { mAvail := 0, mMessages := [] }, calls := [] }

/-- The queue, with any schedule of any calls. -/
def system : TSys State Event where
  init s := s = .new
  step s es s' := ∃ turn, s.step turn = some (s', es)

/-! ## Steps -/

/-- What a step does. -/
inductive Moves (s : State) : List Event → State → Prop
  | callEnqueue (msg : Message) : Moves s [] { s with calls := s.calls ++ [.enqueue msg .lock] }
  | callDequeue : Moves s [] { s with calls := s.calls ++ [.dequeue .wait] }
  | enqueueLock {i : ℕ} {msg : Message} (hcall : s.calls[i]? = some (.enqueue msg .lock))
      (hfree : s.owner () = none) :
      Moves s [] (({ s with owner := s.owner.take () i } : State).setCall i (.enqueue msg .push))
  | push {i : ℕ} {msg : Message} (hcall : s.calls[i]? = some (.enqueue msg .push)) :
      Moves s [.pushed i msg]
        ((s.setQueue { s.queue with mMessages := s.queue.mMessages ++ [msg] }).setCall i
          (.enqueue msg .unlock))
  | enqueueUnlock {i : ℕ} {msg : Message} (hcall : s.calls[i]? = some (.enqueue msg .unlock)) :
      Moves s [] (s.unlock.setCall i (.enqueue msg .post))
  | post {i : ℕ} {msg : Message} (hcall : s.calls[i]? = some (.enqueue msg .post)) :
      Moves s [] ((s.setQueue { s.queue with mAvail := s.queue.mAvail + 1 }).setCall i
        (.enqueued msg))
  | timeout {i : ℕ} (hcall : s.calls[i]? = some (.dequeue .wait)) :
      Moves s [] (s.setCall i (.dequeued none))
  | wait {i : ℕ} (hcall : s.calls[i]? = some (.dequeue .wait)) (havail : 0 < s.queue.mAvail) :
      Moves s [] ((s.setQueue { s.queue with mAvail := s.queue.mAvail - 1 }).setCall i
        (.dequeue .lock))
  | dequeueLock {i : ℕ} (hcall : s.calls[i]? = some (.dequeue .lock))
      (hfree : s.owner () = none) :
      Moves s [] (({ s with owner := s.owner.take () i } : State).setCall i (.dequeue .front))
  | front {i : ℕ} {msg : Message} (hcall : s.calls[i]? = some (.dequeue .front))
      (hhead : s.queue.mMessages.head? = some msg) :
      Moves s [] (s.setCall i (.dequeue (.popFront msg)))
  | popFront {i : ℕ} {msg first : Message} {rest : List Message}
      (hcall : s.calls[i]? = some (.dequeue (.popFront msg)))
      (hqueue : s.queue.mMessages = first :: rest) :
      Moves s [.popped i first]
        ((s.setQueue { s.queue with mMessages := rest }).setCall i (.dequeue (.unlock msg)))
  | dequeueUnlock {i : ℕ} {msg : Message} (hcall : s.calls[i]? = some (.dequeue (.unlock msg))) :
      Moves s [] (s.unlock.setCall i (.dequeued (some msg)))

section

variable {s s' : State} {h es : List Event} {i j : ℕ} {call call' : Call} {msg : Message}

theorem lock_eq_some (hlock : s.lock i = some s') :
    s.owner () = none ∧ s' = { s with owner := s.owner.take () i } := by
  unfold State.lock at hlock
  split at hlock
  · next hfree => exact ⟨Option.isNone_iff_eq_none.mp hfree, (Option.some.inj hlock).symm⟩
  · exact absurd hlock (by simp)

theorem moves_advance {timeout : Bool} (hstep : s.advance i timeout = some (s', es)) :
    Moves s es s' := by
  unfold State.advance at hstep
  cases hcall : s.calls[i]? with
  | none => rw [hcall] at hstep; exact absurd hstep (by simp)
  | some call =>
      rw [hcall] at hstep
      cases call with
      | enqueue msg pos =>
          cases pos with
          | lock =>
              obtain ⟨s₁, hlock, hsplit⟩ := Option.map_eq_some_iff.mp hstep
              obtain ⟨hfree, rfl⟩ := lock_eq_some hlock
              cases hsplit
              exact .enqueueLock hcall hfree
          | push => cases hstep; exact .push hcall
          | unlock => cases hstep; exact .enqueueUnlock hcall
          | post => cases hstep; exact .post hcall
      | enqueued msg => exact absurd hstep (by simp)
      | dequeue pos =>
          cases pos with
          | wait =>
              simp only [dequeue] at hstep
              split at hstep
              · cases hstep; exact .timeout hcall
              · split at hstep
                · next havail => cases hstep; exact .wait hcall havail
                · exact absurd hstep (by simp)
          | lock =>
              obtain ⟨s₁, hlock, hsplit⟩ := Option.map_eq_some_iff.mp hstep
              obtain ⟨hfree, rfl⟩ := lock_eq_some hlock
              cases hsplit
              exact .dequeueLock hcall hfree
          | front =>
              obtain ⟨msg, hhead, hsplit⟩ := Option.map_eq_some_iff.mp hstep
              cases hsplit
              exact .front hcall hhead
          | popFront msg =>
              simp only [dequeue] at hstep
              split at hstep
              · next first rest hqueue => cases hstep; exact .popFront hcall hqueue
              · exact absurd hstep (by simp)
          | unlock msg => cases hstep; exact .dequeueUnlock hcall
      | dequeued result => exact absurd hstep (by simp)

theorem moves_of_step (hstep : system.step s es s') : Moves s es s' := by
  obtain ⟨turn, hstep⟩ := hstep
  cases turn with
  | enqueue msg => cases hstep; exact .callEnqueue msg
  | dequeue => cases hstep; exact .callDequeue
  | go i => exact moves_advance hstep
  | timeout i => exact moves_advance hstep

/-! ## Calls -/

theorem getElem?_set_self (hcall : s.calls[i]? = some call) (call' : Call) :
    (s.calls.set i call')[i]? = some call' := by
  obtain ⟨hi, -⟩ := List.getElem?_eq_some_iff.mp hcall
  exact List.getElem?_set_self hi

/-- A call that goes on counts where it is, and no longer where it was. -/
theorem countP_set (p : Call → Bool) (hcall : s.calls[i]? = some call) (call' : Call) :
    (s.calls.set i call').countP p + (p call).toNat = s.calls.countP p + (p call').toNat := by
  obtain ⟨hi, hget⟩ := List.getElem?_eq_some_iff.mp hcall
  have hpos : p call = true → 0 < s.calls.countP p := by
    intro hp
    exact List.countP_pos_iff.mpr ⟨call, List.mem_of_getElem? hcall, hp⟩
  rw [List.countP_set hi, hget]
  cases hp : p call <;> cases p call' <;> simp_all

/-- A list of calls, each with its message, is what `f` says of the calls. -/
structure Recorded (f : Call → Option Message) (l : List (ℕ × Message)) (calls : List Call) :
    Prop where
  nodup : (l.map Prod.fst).Nodup
  mem_iff : ∀ i msg, (i, msg) ∈ l ↔ calls[i]?.bind f = some msg

variable {f : Call → Option Message} {l : List (ℕ × Message)}

theorem Recorded.concat (h : Recorded f l s.calls) (hnew : f call = none) :
    Recorded f l (s.calls ++ [call]) := by
  refine ⟨h.nodup, fun i msg => ?_⟩
  rw [h.mem_iff]
  rcases Nat.lt_trichotomy i s.calls.length with hi | rfl | hi
  · rw [List.getElem?_append_left hi]
  · simp [hnew]
  · rw [List.getElem?_eq_none (Nat.le_of_lt hi), List.getElem?_eq_none (by simp; omega)]

/-- A call goes on, and `f` says the same of it. -/
theorem Recorded.same (h : Recorded f l s.calls) (hcall : s.calls[i]? = some call)
    (hsame : f call' = f call) : Recorded f l (s.calls.set i call') := by
  refine ⟨h.nodup, fun j msg => ?_⟩
  rw [h.mem_iff]
  rcases eq_or_ne i j with rfl | hne
  · rw [getElem?_set_self hcall, hcall, Option.bind_some, Option.bind_some, hsame]
  · rw [List.getElem?_set_ne hne]

/-- A call goes on, and `f` says something of it for the first time. -/
theorem Recorded.add (h : Recorded f l s.calls) (hcall : s.calls[i]? = some call)
    (hold : f call = none) (hnew : f call' = some msg) :
    Recorded f (l ++ [(i, msg)]) (s.calls.set i call') := by
  have hfresh : i ∉ l.map Prod.fst := by
    intro hi
    obtain ⟨⟨j, msg'⟩, hmem, rfl⟩ := List.mem_map.mp hi
    rw [h.mem_iff, hcall, Option.bind_some, hold] at hmem
    exact absurd hmem (by simp)
  refine ⟨?_, fun j msg' => ?_⟩
  · rw [List.map_append, List.nodup_append]
    refine ⟨h.nodup, List.nodup_singleton _, fun a ha b hb => ?_⟩
    obtain rfl : b = i := by simpa using hb
    rintro rfl
    exact hfresh ha
  · rw [List.mem_append, h.mem_iff]
    rcases eq_or_ne i j with rfl | hne
    · rw [getElem?_set_self hcall, hcall, Option.bind_some, Option.bind_some, hold, hnew]
      simp [eq_comm]
    · rw [List.getElem?_set_ne hne]
      simp [Ne.symm hne]

/-! ## The lock -/

/-- The mutexes that a call holds. -/
def Call.held : Call → List Unit
  | .enqueue _ .push | .enqueue _ .unlock => [()]
  | .dequeue .front | .dequeue (.popFront _) | .dequeue (.unlock _) => [()]
  | _ => []

def State.held (s : State) (i : ℕ) : List Unit :=
  match s.calls[i]? with
  | some call => call.held
  | none => []

theorem held_of_call (hcall : s.calls[i]? = some call) : s.held i = call.held := by
  unfold State.held
  rw [hcall]

theorem held_set_ne (hcalls : s'.calls = s.calls.set i call') : ∀ j ≠ i, s'.held j = s.held j := by
  intro j hj
  unfold State.held
  rw [hcalls, List.getElem?_set_ne (Ne.symm hj)]

theorem held_set_self (hcall : s.calls[i]? = some call)
    (hcalls : s'.calls = s.calls.set i call') : s'.held i = call'.held := by
  apply held_of_call
  rw [hcalls]
  exact getElem?_set_self hcall call'

/-- A new call holds nothing. -/
theorem held_concat (hnew : call.held = []) (hcalls : s'.calls = s.calls ++ [call]) :
    s'.held = s.held := by
  funext j
  unfold State.held
  rw [hcalls]
  rcases Nat.lt_trichotomy j s.calls.length with hj | rfl | hj
  · rw [List.getElem?_append_left hj]
  · simp [hnew]
  · rw [List.getElem?_eq_none (Nat.le_of_lt hj), List.getElem?_eq_none (by simp; omega)]

/-- The owner of the lock is the call in a critical section. -/
def Exclusive (_ : List Event) (s : State) : Prop := Mutex.Agrees s.owner s.held

/-- A call goes on and holds what it held. -/
theorem Exclusive.same (hex : Exclusive h s) (hcall : s.calls[i]? = some call)
    (hcalls : s'.calls = s.calls.set i call') (howner : s'.owner = s.owner)
    (hheld : call'.held = call.held) : Exclusive es s' := by
  unfold Exclusive at hex ⊢
  rw [howner]
  apply hex.same
  intro j m
  rcases eq_or_ne j i with rfl | hj
  · rw [held_set_self hcall hcalls, held_of_call hcall, hheld]
  · rw [held_set_ne hcalls j hj]

theorem Exclusive.take (hex : Exclusive h s) (hcall : s.calls[i]? = some call)
    (hcalls : s'.calls = s.calls.set i call') (hfree : s.owner () = none)
    (howner : s'.owner = s.owner.take () i) (hheld : call'.held = [()]) : Exclusive es s' := by
  unfold Exclusive at hex ⊢
  rw [howner]
  refine hex.take hfree (fun m => ?_) (held_set_ne hcalls)
  rw [held_set_self hcall hcalls, hheld]
  simp

theorem Exclusive.give (hex : Exclusive h s) (hcall : s.calls[i]? = some call)
    (hcalls : s'.calls = s.calls.set i call') (howner : s'.owner = s.owner.give ())
    (hheld : call.held = [()]) (hheld' : call'.held = []) : Exclusive es s' := by
  unfold Exclusive at hex ⊢
  rw [howner]
  have hmem : () ∈ s.held i := by
    rw [held_of_call hcall, hheld]
    exact List.mem_singleton_self ()
  refine hex.give hmem (fun m => ?_) (held_set_ne hcalls)
  rw [held_set_self hcall hcalls, hheld']
  simp

theorem Exclusive.concat (hex : Exclusive h s) (hcalls : s'.calls = s.calls ++ [call])
    (hnew : call.held = []) (howner : s'.owner = s.owner) : Exclusive es s' := by
  unfold Exclusive at hex ⊢
  rw [howner, held_concat hnew hcalls]
  exact hex

theorem exclusive : system.Invariant Exclusive := by
  apply TSys.invariant_of_step
  · rintro s rfl
    intro m i
    simp [State.new, State.held]
  · intro h es s s' hex hstep
    cases moves_of_step hstep with
    | callEnqueue msg => exact hex.concat rfl rfl rfl
    | callDequeue => exact hex.concat rfl rfl rfl
    | enqueueLock hcall hfree => exact hex.take hcall rfl hfree rfl rfl
    | push hcall => exact hex.same hcall rfl rfl rfl
    | enqueueUnlock hcall => exact hex.give hcall rfl rfl rfl rfl
    | post hcall => exact hex.same hcall rfl rfl rfl
    | timeout hcall => exact hex.same hcall rfl rfl rfl
    | wait hcall _ => exact hex.same hcall rfl rfl rfl
    | dequeueLock hcall hfree => exact hex.take hcall rfl hfree rfl rfl
    | front hcall _ => exact hex.same hcall rfl rfl rfl
    | popFront hcall _ => exact hex.same hcall rfl rfl rfl
    | dequeueUnlock hcall => exact hex.give hcall rfl rfl rfl rfl

/-! ## The balance -/

/-- A consumer between a successful wait and its pop. -/
def Call.waited : Call → Bool
  | .dequeue .lock | .dequeue .front | .dequeue (.popFront _) => true
  | _ => false

/-- A producer between its push and its post. -/
def Call.unposted : Call → Bool
  | .enqueue _ .unlock | .enqueue _ .post => true
  | _ => false

def Balanced (_ : List Event) (s : State) : Prop :=
  s.queue.mMessages.length =
    s.queue.mAvail + s.calls.countP Call.waited + s.calls.countP Call.unposted

/-- A call goes on, and the queue changes by what it counts more or less. -/
theorem Balanced.set (hbalance : Balanced h s) (hcall : s.calls[i]? = some call)
    (hcalls : s'.calls = s.calls.set i call')
    (hqueue : s'.queue.mMessages.length + s.queue.mAvail +
        (call.waited.toNat + call.unposted.toNat) =
      s.queue.mMessages.length + s'.queue.mAvail +
        (call'.waited.toNat + call'.unposted.toNat)) :
    Balanced es s' := by
  unfold Balanced at hbalance ⊢
  have hwaited := countP_set Call.waited hcall call'
  have hunposted := countP_set Call.unposted hcall call'
  rw [← hcalls] at hwaited hunposted
  omega

/-- A call does not count before its first step. -/
theorem Balanced.concat (hbalance : Balanced h s) (hcalls : s'.calls = s.calls ++ [call])
    (hqueue : s'.queue = s.queue) (hwaited : call.waited = false)
    (hunposted : call.unposted = false) : Balanced es s' := by
  unfold Balanced at hbalance ⊢
  rw [hcalls, hqueue, hbalance]
  simp [List.countP_append, hwaited, hunposted]

theorem balanced : system.Invariant Balanced := by
  apply TSys.invariant_of_step
  · rintro s rfl
    rfl
  · intro h es s s' hbalance hstep
    cases moves_of_step hstep with
    | callEnqueue msg => exact hbalance.concat rfl rfl rfl rfl
    | callDequeue => exact hbalance.concat rfl rfl rfl rfl
    | enqueueLock hcall _ => exact hbalance.set hcall rfl rfl
    | push hcall =>
        refine hbalance.set hcall rfl ?_
        show (s.queue.mMessages ++ [_]).length + s.queue.mAvail + (0 + 0) =
          s.queue.mMessages.length + s.queue.mAvail + (0 + 1)
        rw [List.length_append, List.length_singleton]
        omega
    | enqueueUnlock hcall => exact hbalance.set hcall rfl rfl
    | post hcall => exact hbalance.set hcall rfl rfl
    | timeout hcall => exact hbalance.set hcall rfl rfl
    | wait hcall havail =>
        refine hbalance.set hcall rfl ?_
        show s.queue.mMessages.length + s.queue.mAvail + (0 + 0) =
          s.queue.mMessages.length + (s.queue.mAvail - 1) + (1 + 0)
        omega
    | dequeueLock hcall _ => exact hbalance.set hcall rfl rfl
    | front hcall _ => exact hbalance.set hcall rfl rfl
    | @popFront i msg first rest hcall hqueue =>
        refine hbalance.set hcall rfl ?_
        show rest.length + s.queue.mAvail + (1 + 0) =
          s.queue.mMessages.length + s.queue.mAvail + (0 + 0)
        rw [hqueue, List.length_cons]
        omega
    | dequeueUnlock hcall => exact hbalance.set hcall rfl rfl

/-! ## The front of the deque -/

/-- Call `i` is at `pop_front` and has read `msg` from the front. -/
def AtPopFront (calls : List Call) (i : ℕ) (msg : Message) : Prop :=
  calls[i]? = some (.dequeue (.popFront msg))

/-- Between `front` and `pop_front`, the message that has been read is still in front. -/
def FrontRead (_ : List Event) (s : State) : Prop :=
  ∀ i msg, AtPopFront s.calls i msg → s.queue.mMessages.head? = some msg

/-- The calls at `pop_front` are the same ones or fewer, and the front stays. -/
theorem FrontRead.mono (hfront : FrontRead h s)
    (hcalls : ∀ j msg, AtPopFront s'.calls j msg → AtPopFront s.calls j msg)
    (hhead : ∀ msg, s.queue.mMessages.head? = some msg → s'.queue.mMessages.head? = some msg) :
    FrontRead es s' := by
  intro j msg hj
  exact hhead msg (hfront j msg (hcalls j msg hj))

theorem atPopFront_set (hcall : s.calls[i]? = some call)
    (hnot : ∀ msg, call' ≠ .dequeue (.popFront msg)) :
    ∀ j msg, AtPopFront (s.calls.set i call') j msg → AtPopFront s.calls j msg := by
  intro j msg hj
  unfold AtPopFront at hj ⊢
  rcases eq_or_ne i j with rfl | hne
  · rw [getElem?_set_self hcall] at hj
    exact absurd (Option.some.inj hj) (hnot msg)
  · rwa [List.getElem?_set_ne hne] at hj

theorem atPopFront_concat (hnot : ∀ msg, call ≠ .dequeue (.popFront msg)) :
    ∀ j msg, AtPopFront (s.calls ++ [call]) j msg → AtPopFront s.calls j msg := by
  intro j msg hj
  unfold AtPopFront at hj ⊢
  rcases Nat.lt_or_ge j s.calls.length with hlt | hge
  · rwa [List.getElem?_append_left hlt] at hj
  · rw [List.getElem?_append_right hge, List.getElem?_singleton] at hj
    split at hj
    · exact absurd (Option.some.inj hj) (hnot msg)
    · exact absurd hj (by simp)

theorem frontRead : system.Invariant FrontRead := by
  refine TSys.Invariant.of_step exclusive ?_ ?_
  · rintro s rfl
    intro i msg hcall
    exact absurd hcall (by simp [AtPopFront, State.new])
  · intro h es s s' hex hfront hstep
    cases moves_of_step hstep with
    | callEnqueue msg => exact hfront.mono (atPopFront_concat (by simp)) fun _ => id
    | callDequeue => exact hfront.mono (atPopFront_concat (by simp)) fun _ => id
    | enqueueLock hcall _ => exact hfront.mono (atPopFront_set hcall (by simp)) fun _ => id
    | @push i msg hcall =>
        refine hfront.mono (atPopFront_set hcall (by simp)) fun first hhead => ?_
        show (s.queue.mMessages ++ [msg]).head? = some first
        rw [List.head?_append, hhead]
        rfl
    | enqueueUnlock hcall => exact hfront.mono (atPopFront_set hcall (by simp)) fun _ => id
    | post hcall => exact hfront.mono (atPopFront_set hcall (by simp)) fun _ => id
    | timeout hcall => exact hfront.mono (atPopFront_set hcall (by simp)) fun _ => id
    | wait hcall _ => exact hfront.mono (atPopFront_set hcall (by simp)) fun _ => id
    | dequeueLock hcall _ => exact hfront.mono (atPopFront_set hcall (by simp)) fun _ => id
    | @front i msg hcall hhead =>
        intro j msg' hj
        change (s.calls.set i _)[j]? = _ at hj
        rcases eq_or_ne i j with rfl | hne
        · rw [getElem?_set_self hcall] at hj
          cases hj
          exact hhead
        · rw [List.getElem?_set_ne hne] at hj
          exact hfront j msg' hj
    | @popFront i msg first rest hcall hqueue =>
        -- nobody else is at `pop_front`, which is in a critical section
        intro j msg' hj
        have hstill : AtPopFront s.calls j msg' := atPopFront_set hcall (by simp) j msg' hj
        have hi : () ∈ s.held i := held_of_call hcall ▸ List.mem_singleton_self ()
        have hj' : () ∈ s.held j := held_of_call hstill ▸ List.mem_singleton_self ()
        obtain rfl : i = j := Mutex.Agrees.exclusive hex hi hj'
        change (s.calls.set i _)[i]? = _ at hj
        rw [getElem?_set_self hcall] at hj
        exact absurd hj (by simp)
    | dequeueUnlock hcall => exact hfront.mono (atPopFront_set hcall (by simp)) fun _ => id

/-! ## The order -/

/-- The pushes of a run, each with the call that makes it. -/
def pushes (h : List Event) : List (ℕ × Message) :=
  h.filterMap fun
    | .pushed i msg => some (i, msg)
    | .popped _ _ => none

/-- The pops of a run, each with the call that makes it. -/
def pops (h : List Event) : List (ℕ × Message) :=
  h.filterMap fun
    | .pushed _ _ => none
    | .popped i msg => some (i, msg)

/-- The message that a call has pushed. -/
def Call.given : Call → Option Message
  | .enqueue msg .unlock | .enqueue msg .post | .enqueued msg => some msg
  | _ => none

/-- The message that a call has popped. -/
def Call.taken : Call → Option Message
  | .dequeue (.unlock msg) | .dequeued (some msg) => some msg
  | _ => none

/-- What has been popped and what is queued is what has been pushed. -/
structure Logged (h : List Event) (s : State) : Prop where
  pushes : Recorded Call.given (pushes h) s.calls
  pops : Recorded Call.taken (pops h) s.calls
  order : (Queue.pops h).map Prod.snd ++ s.queue.mMessages = (Queue.pushes h).map Prod.snd

theorem Logged.concat (hlog : Logged h s) (hcalls : s'.calls = s.calls ++ [call])
    (hgiven : call.given = none) (htaken : call.taken = none) (hqueue : s'.queue = s.queue) :
    Logged (h ++ []) s' := by
  obtain ⟨hpush, hpop, horder⟩ := hlog
  rw [List.append_nil]
  refine ⟨?_, ?_, hqueue ▸ horder⟩
  · rw [hcalls]
    exact hpush.concat hgiven
  · rw [hcalls]
    exact hpop.concat htaken

/-- A call goes on without a push or a pop. -/
theorem Logged.same (hlog : Logged h s) (hcall : s.calls[i]? = some call)
    (hcalls : s'.calls = s.calls.set i call') (hqueue : s'.queue.mMessages = s.queue.mMessages)
    (hgiven : call'.given = call.given) (htaken : call'.taken = call.taken) :
    Logged (h ++ []) s' := by
  obtain ⟨hpush, hpop, horder⟩ := hlog
  rw [List.append_nil]
  refine ⟨?_, ?_, hqueue ▸ horder⟩
  · rw [hcalls]
    exact hpush.same hcall hgiven
  · rw [hcalls]
    exact hpop.same hcall htaken

theorem logged : system.Invariant Logged := by
  refine TSys.Invariant.of_step frontRead ?_ ?_
  · rintro s rfl
    exact ⟨⟨List.nodup_nil, by simp [pushes, State.new]⟩,
      ⟨List.nodup_nil, by simp [pops, State.new]⟩, rfl⟩
  · intro h es s s' hfront hlog hstep
    cases moves_of_step hstep with
    | callEnqueue msg => exact hlog.concat rfl rfl rfl rfl
    | callDequeue => exact hlog.concat rfl rfl rfl rfl
    | enqueueLock hcall _ => exact hlog.same hcall rfl rfl rfl rfl
    | @push i msg hcall =>
        obtain ⟨hpush, hpop, horder⟩ := hlog
        have hpushes : pushes (h ++ [.pushed i msg]) = pushes h ++ [(i, msg)] := by
          rw [pushes, List.filterMap_append]
          rfl
        have hpops : pops (h ++ [.pushed i msg]) = pops h := by
          rw [pops, List.filterMap_append]
          exact List.append_nil _
        refine ⟨?_, ?_, ?_⟩
        · rw [hpushes]
          exact hpush.add hcall rfl rfl
        · rw [hpops]
          exact hpop.same hcall rfl
        · rw [hpops, hpushes, List.map_append, ← horder, List.append_assoc]
          rfl
    | enqueueUnlock hcall => exact hlog.same hcall rfl rfl rfl rfl
    | post hcall => exact hlog.same hcall rfl rfl rfl rfl
    | timeout hcall => exact hlog.same hcall rfl rfl rfl rfl
    | wait hcall _ => exact hlog.same hcall rfl rfl rfl rfl
    | dequeueLock hcall _ => exact hlog.same hcall rfl rfl rfl rfl
    | front hcall _ => exact hlog.same hcall rfl rfl rfl rfl
    | @popFront i msg first rest hcall hqueue =>
        obtain ⟨hpush, hpop, horder⟩ := hlog
        -- what is popped is what `front` has read
        have hmsg : first = msg := by
          have hhead := hfront i msg hcall
          rw [hqueue] at hhead
          exact Option.some.inj hhead
        have hpushes : pushes (h ++ [.popped i first]) = pushes h := by
          rw [pushes, List.filterMap_append]
          exact List.append_nil _
        have hpops : pops (h ++ [.popped i first]) = pops h ++ [(i, first)] := by
          rw [pops, List.filterMap_append]
          rfl
        refine ⟨?_, ?_, ?_⟩
        · rw [hpushes]
          exact hpush.same hcall rfl
        · rw [hpops, hmsg]
          exact hpop.add hcall rfl rfl
        · rw [hpops, hpushes, ← horder, hqueue, List.map_append, List.append_assoc]
          rfl
    | dequeueUnlock hcall => exact hlog.same hcall rfl rfl rfl rfl

/-! ## The result -/

/-- At every moment of a run: the length of the deque is the value of the semaphore, with the
consumers between their wait and their pop and the producers between their push and their
post; no call is at `front` or `pop_front` with an empty deque; no call pushes or pops twice,
and the messages popped are the first ones pushed, in their order, so that each is popped
once at most; and a call returns what it has popped. -/
structure Consistent (h : List Event) (s : State) : Prop where
  balance : s.queue.mMessages.length =
    s.queue.mAvail + s.calls.countP Call.waited + s.calls.countP Call.unposted
  nonempty : ∀ (i : ℕ) (call : Call), s.calls[i]? = some call →
    (call = .dequeue .front ∨ ∃ msg, call = .dequeue (.popFront msg)) → s.queue.mMessages ≠ []
  once : ((pushes h).map Prod.fst).Nodup ∧ ((pops h).map Prod.fst).Nodup
  order : (pops h).map Prod.snd <+: (pushes h).map Prod.snd
  results : ∀ (i : ℕ) (msg : Message), s.calls[i]? = some (.dequeued (some msg)) → (i, msg) ∈ pops h

theorem consistent : system.Invariant Consistent := by
  intro h s hrun
  have hbalance := balanced hrun
  obtain ⟨hpush, hpop, horder⟩ := logged hrun
  refine ⟨hbalance, ?_, ⟨hpush.nodup, hpop.nodup⟩, ⟨_, horder⟩, ?_⟩
  · intro i call hcall hat hempty
    -- the call itself is one of those that have waited
    have hwaited : 0 < s.calls.countP Call.waited := by
      refine List.countP_pos_iff.mpr ⟨call, List.mem_of_getElem? hcall, ?_⟩
      rcases hat with rfl | ⟨msg, rfl⟩ <;> rfl
    unfold Balanced at hbalance
    rw [hempty, List.length_nil] at hbalance
    omega
  · intro i msg hcall
    rw [hpop.mem_iff, hcall]
    rfl

end

end Csf.Chat.Queue
