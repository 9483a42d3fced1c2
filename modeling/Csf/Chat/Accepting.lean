import Csf.Chat.Locking

/-!
# Chat: the accept loop

`handle_client_requests` accepts a client, sets up its `ConnInfo` and starts its worker; a
worker that is through with its client closes the descriptor. Descriptors are numbers that the
kernel hands out again, so what a worker reads and closes is its own client's connection only
if nobody else has come to have the number (`Tidy`). When `accept` fails, the process ends and
everything is closed. And the main thread adds no behaviour to that of the workers
(`accepting_refines`): what holds of the runs of `server` holds here.
-/

namespace Csf.Chat

open Csf.Lib

/-- What an open descriptor of the process is. -/
inductive Socket (W : Type) where
  | other
  | listening
  | client (w : W)
deriving DecidableEq, Repr

/-- What has become of a client; the number is the `clientfd` of its `ConnInfo`. -/
inductive Life where
  | away
  | accepted (fd : ℕ)
  | served (fd : ℕ)
  | stranded (fd : ℕ)
  | closed
deriving DecidableEq, Repr

/-- The descriptor that is open for a client. -/
def Life.fd : Life → Option ℕ
  | .accepted fd => some fd
  | .served fd => some fd
  | .stranded fd => some fd
  | _ => none

/-- Places in `handle_client_requests`; `Accept` ends the process when `accept` fails. -/
inductive MainAt (W : Type) where
  | accept
  | pthreadCreate (w : W)
  | exited
deriving DecidableEq, Repr

/-- The server's process: its workers, its main thread and its open descriptors. -/
structure Process (W : Type) where
  threads : State W
  main : MainAt W
  fds : ℕ → Option (Socket W)
  life : W → Life

/-- What a run shows: what is done with the descriptors, and what the workers show. -/
inductive Happening (W : Type) where
  | accepted (w : W) (fd : ℕ)
  | stranded (w : W) (fd : ℕ)
  | uses (w : W) (fd : ℕ) (es : List (Event W))
  | closes (w : W) (fd : ℕ)
deriving DecidableEq, Repr

/-- What the workers show of it. -/
def Happening.events {W : Type} : Happening W → List (Event W)
  | .uses _ _ es => es
  | _ => []

section

variable {W : Type} [LinearOrder W]

/-- A step of the main thread or of a worker. -/
inductive Process.Step (p : Process W) : List (Happening W) → Process W → Prop
  /-- `accept` gives a connection some descriptor that is not open -/
  | accept {w : W} {fd : ℕ} (hmain : p.main = .accept) (hlife : p.life w = .away)
      (hfd : p.fds fd = none) :
      Step p [.accepted w fd]
        { p with
          main := .pthreadCreate w
          fds := Function.update p.fds fd (some (.client w))
          life := Function.update p.life w (.accepted fd) }
  /-- `unix_error` calls `exit`, which closes every descriptor -/
  | acceptFails (hmain : p.main = .accept) :
      Step p [] { p with main := .exited, fds := fun _ => none }
  | create {w : W} {fd : ℕ} (hmain : p.main = .pthreadCreate w) (hlife : p.life w = .accepted fd) :
      Step p [] { p with main := .accept, life := Function.update p.life w (.served fd) }
  /-- the message is printed, and the loop goes on -/
  | createFails {w : W} {fd : ℕ} (hmain : p.main = .pthreadCreate w)
      (hlife : p.life w = .accepted fd) :
      Step p [.stranded w fd]
        { p with main := .accept, life := Function.update p.life w (.stranded fd) }
  | work {w : W} {fd : ℕ} {input : Input} {t : State W} {es : List (Event W)}
      (hmain : p.main ≠ .exited) (hlife : p.life w = .served fd)
      (hstep : p.threads.step w input = some (t, es)) :
      Step p [.uses w fd es] { p with threads := t }
  /-- `close(info->clientfd)`, and the thread ends -/
  | close {w : W} {fd : ℕ} (hmain : p.main ≠ .exited) (hlife : p.life w = .served fd)
      (hpc : (p.threads.worker w).pc = .finished) :
      Step p [.closes w fd]
        { p with
          fds := Function.update p.fds fd none
          life := Function.update p.life w .closed }

/-- The process, once `listen` has opened its socket. -/
def accepting (W : Type) [LinearOrder W] (ssock : ℕ) : TSys (Process W) (Happening W) where
  init p := p.threads = State.initial W ∧ p.main = .accept ∧ (∀ w, p.life w = .away) ∧
    p.fds ssock = some .listening ∧ ∀ fd w, p.fds fd ≠ some (.client w)
  step p es p' := p.Step es p'

/-- While the process runs: a descriptor is open for a client exactly while its `ConnInfo` is
there, and a client that has no worker yet, or no longer, is where a worker begins or ends. -/
structure Tidy (ssock : ℕ) (p : Process W) : Prop where
  owned : ∀ w fd, (p.life w).fd = some fd ↔ p.fds fd = some (.client w)
  listening : p.fds ssock = some .listening
  idle : ∀ w, (∀ fd, p.life w ≠ .served fd) → p.life w ≠ .closed →
    p.threads.worker w = (State.initial W).worker w
  finished : ∀ w, p.life w = .closed → (p.threads.worker w).pc = .finished

variable {ssock : ℕ} {p p' : Process W} {h : List (Happening W)} {w v : W} {fd : ℕ}

/-- Only a process that runs makes steps. -/
theorem Process.Step.running {es : List (Happening W)} (h : p.Step es p') : p.main ≠ .exited := by
  intro hexited
  cases h with
  | work hmain | close hmain => exact hmain hexited
  | accept hmain | acceptFails hmain | create hmain | createFails hmain =>
      exact absurd (hmain.symm.trans hexited) (by simp)

/-! ## The table of descriptors -/

section

variable {fds : ℕ → Option (Socket W)} {life : W → Life} {l : Life}

omit [LinearOrder W] in
/-- A client that keeps its descriptor. -/
theorem owned_same [DecidableEq W] (ho : ∀ w fd, (life w).fd = some fd ↔ fds fd = some (.client w))
    (hl : l.fd = (life w).fd) (v : W) (fd : ℕ) :
    (Function.update life w l v).fd = some fd ↔ fds fd = some (.client v) := by
  rcases eq_or_ne v w with rfl | hv
  · rw [Function.update_self, hl]
    exact ho v fd
  · rw [Function.update_of_ne hv]
    exact ho v fd

omit [LinearOrder W] in
/-- A client gets a descriptor that nobody has. -/
theorem owned_open [DecidableEq W] (ho : ∀ w fd, (life w).fd = some fd ↔ fds fd = some (.client w))
    (haway : life w = .away) (hfree : fds fd = none) (v : W) (x : ℕ) :
    (Function.update life w (.accepted fd) v).fd = some x ↔
      Function.update fds fd (some (.client w)) x = some (.client v) := by
  rcases eq_or_ne x fd with rfl | hx
  · rw [Function.update_self, Option.some.injEq, Socket.client.injEq]
    rcases eq_or_ne v w with rfl | hv
    · rw [Function.update_self]
      exact iff_of_true rfl rfl
    · rw [Function.update_of_ne hv, ho, hfree]
      exact iff_of_false (by simp) hv.symm
  · rw [Function.update_of_ne hx]
    rcases eq_or_ne v w with rfl | hv
    · rw [Function.update_self, ← ho, haway]
      exact iff_of_false (fun heq => hx (Option.some.inj heq).symm) (by simp [Life.fd])
    · rw [Function.update_of_ne hv]
      exact ho v x

omit [LinearOrder W] in
/-- The descriptor of a client is closed, and nobody else loses one. -/
theorem owned_close [DecidableEq W]
    (ho : ∀ w fd, (life w).fd = some fd ↔ fds fd = some (.client w))
    (hserved : (life w).fd = some fd) (v : W) (x : ℕ) :
    (Function.update life w .closed v).fd = some x ↔
      Function.update fds fd none x = some (.client v) := by
  have howner := (ho w fd).mp hserved
  rcases eq_or_ne v w with rfl | hv
  · rw [Function.update_self]
    refine iff_of_false (by simp [Life.fd]) ?_
    rcases eq_or_ne x fd with rfl | hx
    · rw [Function.update_self]
      simp
    · rw [Function.update_of_ne hx, ← ho, hserved]
      exact fun heq => hx (Option.some.inj heq).symm
  · rw [Function.update_of_ne hv]
    rcases eq_or_ne x fd with rfl | hx
    · rw [Function.update_self, ho, howner, Option.some.injEq, Socket.client.injEq]
      exact iff_of_false hv.symm (by simp)
    · rw [Function.update_of_ne hx]
      exact ho v x

end

/-- A step of a worker leaves the others where they are. -/
theorem step_worker_of_ne {s s' : State W} {input : Input} {es : List (Event W)}
    (hstep : s.step w input = some (s', es)) (hv : v ≠ w) : s'.worker v = s.worker v := by
  obtain ⟨action, me', -, -, rfl⟩ := step_cases hstep
  rw [setWorker_of_ne hv, effect_worker]

/-- A client that has no worker yet gets no further here. -/
theorem Tidy.idle_update (ht : Tidy ssock p) (hw : p.threads.worker w = (State.initial W).worker w)
    (l : Life) (v : W) (hserved : ∀ fd, Function.update p.life w l v ≠ .served fd)
    (hclosed : Function.update p.life w l v ≠ .closed) :
    p.threads.worker v = (State.initial W).worker v := by
  rcases eq_or_ne v w with rfl | hv
  · exact hw
  · rw [Function.update_of_ne hv] at hserved hclosed
    exact ht.idle v hserved hclosed

theorem Tidy.finished_update (ht : Tidy ssock p) {l : Life}
    (hl : l = .closed → (p.threads.worker w).pc = .finished) (v : W)
    (hv : Function.update p.life w l v = .closed) : (p.threads.worker v).pc = .finished := by
  rcases eq_or_ne v w with rfl | hne
  · rw [Function.update_self] at hv
    exact hl hv
  · rw [Function.update_of_ne hne] at hv
    exact ht.finished v hv

theorem Tidy.step {es : List (Happening W)} (ht : Tidy ssock p) (hstep : p.Step es p')
    (hgoing : p'.main ≠ .exited) : Tidy ssock p' := by
  cases hstep with
  | @accept w fd hmain hlife hfd =>
      have hne : ssock ≠ fd := by
        rintro rfl
        exact nomatch ht.listening.symm.trans hfd
      exact {
        owned := owned_open ht.owned hlife hfd
        listening := (Function.update_of_ne hne _ _).trans ht.listening
        idle := ht.idle_update (ht.idle w (by simp [hlife]) (by simp [hlife])) _
        finished := ht.finished_update (fun h => nomatch h) }
  | acceptFails hmain => exact absurd rfl hgoing
  | @create w fd hmain hlife =>
      exact {
        owned := owned_same ht.owned (by rw [hlife]; rfl)
        listening := ht.listening
        idle := ht.idle_update (ht.idle w (by simp [hlife]) (by simp [hlife])) _
        finished := ht.finished_update (fun h => nomatch h) }
  | @createFails w fd hmain hlife =>
      exact {
        owned := owned_same ht.owned (by rw [hlife]; rfl)
        listening := ht.listening
        idle := ht.idle_update (ht.idle w (by simp [hlife]) (by simp [hlife])) _
        finished := ht.finished_update (fun h => nomatch h) }
  | @work w fd input t es hmain hlife hstep =>
      exact {
        owned := ht.owned
        listening := ht.listening
        idle := fun v hserved hclosed => by
          have hv : v ≠ w := by
            rintro rfl
            exact hserved fd hlife
          exact (step_worker_of_ne hstep hv).trans (ht.idle v hserved hclosed)
        finished := fun v hclosed => by
          have hv : v ≠ w := by
            rintro rfl
            exact nomatch hlife.symm.trans hclosed
          show (t.worker v).pc = _
          rw [step_worker_of_ne hstep hv]
          exact ht.finished v hclosed }
  | @close w fd hmain hlife hpc =>
      have hne : ssock ≠ fd := by
        rintro rfl
        have howner := (ht.owned w ssock).mp (by rw [hlife]; rfl)
        exact nomatch ht.listening.symm.trans howner
      exact {
        owned := owned_close ht.owned (by rw [hlife]; rfl)
        listening := (Function.update_of_ne hne _ _).trans ht.listening
        idle := fun v hserved hclosed => by
          have hv : v ≠ w := by
            rintro rfl
            exact hclosed (Function.update_self _ _ _)
          have hsame : Function.update p.life w .closed v = p.life v := Function.update_of_ne hv _ _
          exact ht.idle v (fun x => hsame ▸ hserved x) (hsame ▸ hclosed)
        finished := ht.finished_update fun _ => hpc }

theorem tidy : (accepting W ssock).Invariant fun _ p => p.main ≠ .exited → Tidy ssock p := by
  refine TSys.invariant_of_step ?_ fun ht hstep hgoing => (ht hstep.running).step hstep hgoing
  rintro p ⟨hthreads, hmain, haway, hlistening, hnone⟩ -
  exact {
    owned := fun w fd => by
      rw [haway]
      exact iff_of_false (by simp [Life.fd]) (hnone fd w)
    listening := hlistening
    idle := fun w _ _ => by rw [hthreads]
    finished := fun w hlife => nomatch (haway w).symm.trans hlife }

/-- A process that has ended has nothing open. -/
theorem exited_closed : (accepting W ssock).Invariant fun _ p =>
    p.main = .exited → ∀ fd, p.fds fd = none := by
  refine TSys.invariant_of_step ?_ ?_
  · rintro p ⟨-, hmain, -, -, -⟩ hexited
    exact absurd (hmain.symm.trans hexited) (by simp)
  · intro h es p p' _ hstep hexited
    cases hstep with
    | acceptFails hmain => exact fun fd => rfl
    | accept | create | createFails => exact absurd hexited (by simp)
    | work hmain | close hmain => exact absurd hexited hmain

/-! ## What a run has done -/

/-- The history of a run accounts for the descriptors. -/
structure Recorded (h : List (Happening W)) (p : Process W) : Prop where
  open_iff : ∀ w fd, (p.life w).fd = some fd ↔ .accepted w fd ∈ h ∧ .closes w fd ∉ h
  away : ∀ w, p.life w = .away → ∀ fd, .accepted w fd ∉ h ∧ .closes w fd ∉ h
  stranded : ∀ w fd, p.life w = .stranded fd ↔ .stranded w fd ∈ h

/-- What a step shows of a client, it shows of the one whose life it changes. -/
theorem Recorded.update {es : List (Happening W)} {l : Life} (hr : Recorded h p)
    (hothers : ∀ v ≠ w, ∀ x, .accepted v x ∉ es ∧ .closes v x ∉ es ∧ .stranded v x ∉ es)
    (hlife : p'.life = Function.update p.life w l) (haway : l ≠ .away)
    (hopen : ∀ x, l.fd = some x ↔ .accepted w x ∈ h ++ es ∧ .closes w x ∉ h ++ es)
    (hstranded : ∀ x, l = .stranded x ↔ .stranded w x ∈ h ++ es) : Recorded (h ++ es) p' := by
  have hself : p'.life w = l := by rw [hlife, Function.update_self]
  have hsame : ∀ v ≠ w, p'.life v = p.life v := fun v hv => by
    rw [hlife, Function.update_of_ne hv]
  refine ⟨fun v x => ?_, fun v hv x => ?_, fun v x => ?_⟩
  · rcases eq_or_ne v w with rfl | hne
    · rw [hself]
      exact hopen x
    · rw [hsame v hne, hr.open_iff]
      simp [hothers v hne x]
  · rcases eq_or_ne v w with rfl | hne
    · exact absurd (hself.symm.trans hv) haway
    · rw [hsame v hne] at hv
      simp [hr.away v hv x, hothers v hne x]
  · rcases eq_or_ne v w with rfl | hne
    · rw [hself]
      exact hstranded x
    · rw [hsame v hne, hr.stranded]
      simp [hothers v hne x]

theorem recorded : (accepting W ssock).Invariant Recorded := by
  refine TSys.invariant_of_step ?_ ?_
  · rintro p ⟨-, -, haway, -, -⟩
    exact {
      open_iff := fun w fd => by simp [haway, Life.fd]
      away := fun w _ fd => by simp
      stranded := fun w fd => by simp [haway] }
  · intro h es p p' hr hstep
    cases hstep with
    | @accept w fd hmain hlife hfd =>
        refine hr.update (w := w) (fun v hne x => by simp [hne]) rfl (by simp) (fun x => ?_)
          fun x => ?_
        · simp [Life.fd, hr.away w hlife, eq_comm]
        · simp [← hr.stranded, hlife]
    | acceptFails hmain =>
        rw [List.append_nil]
        exact ⟨hr.open_iff, hr.away, hr.stranded⟩
    | @create w fd hmain hlife =>
        refine hr.update (w := w) (fun v hne x => by simp) rfl (by simp) (fun x => ?_)
          fun x => ?_
        · simp [← hr.open_iff, hlife, Life.fd]
        · simp [← hr.stranded, hlife]
    | @createFails w fd hmain hlife =>
        refine hr.update (w := w) (fun v hne x => by simp [hne]) rfl (by simp) (fun x => ?_)
          fun x => ?_
        · simp [← hr.open_iff, hlife, Life.fd]
        · simp [← hr.stranded, hlife, eq_comm]
    | @work w fd input t es hmain hlife hstep =>
        exact ⟨fun v x => by simp [hr.open_iff], fun v hv x => by simp [hr.away v hv],
          fun v x => by simp [hr.stranded]⟩
    | @close w fd hmain hlife hpc =>
        have hserved : (p.life w).fd = some fd := by rw [hlife]; rfl
        refine hr.update (w := w) (fun v hne x => by simp [hne]) rfl (by simp) (fun x => ?_)
          fun x => ?_
        · -- the one descriptor that the history leaves open is the one that is closed
          refine iff_of_false (by simp [Life.fd]) fun ⟨hin, hout⟩ => ?_
          simp only [List.mem_append, List.mem_singleton, not_or, reduceCtorEq, or_false,
            Happening.closes.injEq, true_and] at hin hout
          have hx := (hr.open_iff w x).mpr ⟨hin, hout.1⟩
          exact hout.2 (Option.some.inj (hx.symm.trans hserved))
        · simp [← hr.stranded, hlife]

/-- The workers do what they do in `server`. -/
theorem accepting_refines : (accepting W ssock).Invariant fun h p =>
    (server W).Run (h.flatMap Happening.events) p.threads := by
  refine TSys.invariant_of_step ?_ ?_
  · rintro p ⟨hthreads, -⟩
    exact .init hthreads
  · intro h es p p' hrun hstep
    rw [List.flatMap_append]
    cases hstep with
    | @work w fd input t es hmain hlife hstep =>
        rw [List.flatMap_singleton]
        exact .step hrun ⟨w, input, hstep⟩
    | acceptFails hmain =>
        rw [List.flatMap_nil, List.append_nil]
        exact hrun
    | create hmain hlife =>
        rw [List.flatMap_nil, List.append_nil]
        exact hrun
    | _ =>
        rw [List.flatMap_singleton]
        show (server W).Run (_ ++ []) _
        rw [List.append_nil]
        exact hrun

/-- A step uses or closes a descriptor of a client. -/
def Happening.On (w : W) (fd : ℕ) : Happening W → Prop
  | .uses v x _ => v = w ∧ x = fd
  | .closes v x => v = w ∧ x = fd
  | _ => False

theorem Tidy.own {e : Happening W} (ht : Tidy ssock p) (hstep : p.Step [e] p')
    (he : e.On w fd) : p.fds fd = some (.client w) := by
  cases hstep with
  | work hmain hlife hstep =>
      obtain ⟨rfl, rfl⟩ := he
      exact (ht.owned _ _).mp (by rw [hlife]; rfl)
  | close hmain hlife hpc =>
      obtain ⟨rfl, rfl⟩ := he
      exact (ht.owned _ _).mp (by rw [hlife]; rfl)
  | _ => exact he.elim

/-- **The accept loop.** In every run of the server's process, however its threads interleave
and whatever `accept` and `pthread_create` do: the workers' part of it is a run of `server`;
every descriptor that a worker uses or closes is open for its own client at that moment. Until
`accept` fails, a descriptor is open for a client exactly from its `accept` to the one `close`
of its worker, the listening socket is open, and once no client is being taken in or served,
the clients that still have a descriptor are those whose `pthread_create` failed. Then the
process has ended: nothing is open and no thread makes a step. -/
theorem accepting_safe (hrun : (accepting W ssock).Run h p) :
    (server W).Run (h.flatMap Happening.events) p.threads ∧
    (∀ e p', p.Step [e] p' → ∀ w fd, e.On w fd → p.fds fd = some (.client w)) ∧
    (p.main ≠ .exited →
      (∀ w fd, p.fds fd = some (.client w) ↔ .accepted w fd ∈ h ∧ .closes w fd ∉ h) ∧
      p.fds ssock = some .listening ∧
      ((∀ w fd, p.life w ≠ .accepted fd ∧ p.life w ≠ .served fd) →
        ∀ w fd, p.fds fd = some (.client w) ↔ .stranded w fd ∈ h)) ∧
    (p.main = .exited → (∀ fd, p.fds fd = none) ∧ ∀ es p', ¬p.Step es p') := by
  have hr := recorded hrun
  refine ⟨accepting_refines hrun, fun e p' hstep w fd => (tidy hrun hstep.running).own hstep,
    fun hgoing => ?_, fun hexited => ?_⟩
  · have ht := tidy hrun hgoing
    refine ⟨fun w fd => ?_, ht.listening, fun hnone w fd => ?_⟩
    · rw [← ht.owned]
      exact hr.open_iff w fd
    · rw [← ht.owned, ← hr.stranded]
      cases hlife : p.life w with
      | accepted x => exact absurd hlife (hnone w x).1
      | served x => exact absurd hlife (hnone w x).2
      | stranded x => simp [Life.fd]
      | away => simp [Life.fd]
      | closed => simp [Life.fd]
  · exact ⟨exited_closed hrun hexited, fun es p' hstep => hstep.running hexited⟩

end

/-- The process with nothing but its socket open, as descriptor 3. -/
def listeningAt3 : Process ℕ where
  threads := State.initial ℕ
  main := .accept
  fds := fun fd => if fd = 3 then some .listening else none
  life := fun _ => .away

/-- A client is accepted as descriptor 4. -/
theorem accepting_safe_one : ∃ p, (accepting ℕ 3).Run [.accepted 0 4] p ∧
    p.fds 3 = some .listening ∧ p.fds 4 = some (.client 0) := by
  have hinit : (accepting ℕ 3).Run [] listeningAt3 :=
    .init ⟨rfl, rfl, fun _ => rfl, rfl, fun fd w => by simp only [listeningAt3]; split <;> simp⟩
  have hstep : listeningAt3.Step [.accepted 0 4] _ := .accept rfl rfl rfl
  have hrun := hinit.step hstep
  obtain ⟨-, -, hgoing, -⟩ := accepting_safe hrun
  obtain ⟨hopen, hlistening, -⟩ := hgoing (by simp)
  exact ⟨_, hrun, hlistening, (hopen 0 4).mpr ⟨by simp, by simp⟩⟩

end Csf.Chat
