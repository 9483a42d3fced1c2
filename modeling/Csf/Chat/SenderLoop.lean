import Csf.Chat.Commands
import Csf.Chat.Wire
import Csf.Lib.Transition

/-!
# Chat: the loop of the sender

Against a server that answers with ok, a round comes to an end in one of three ways: the
line is a quit, the parser throws, or the next round follows. The end of the input is none
of them, and is an empty line to the client.
-/

namespace Csf.Chat

open Csf.Lib

/-- More results of `read` and `write` to come. -/
def Connection.supply (c : Connection) (fd : List ReadResult) (writes : List WriteResult) :
    Connection :=
  { c with fdbuf := { c.fdbuf with fd := c.fdbuf.fd ++ fd }, writes := c.writes ++ writes }

/-- Nothing is left to read or to write on the connection. -/
structure Connection.Idle (c : Connection) : Prop where
  items : c.fdbuf.items = []
  writes : c.writes = []

/-- `msg` is sent, and answered with ok and nothing else. -/
def AnsweredOk (c : Connection) (msg : Message) : Prop :=
  ∃ c₁ c₂ data, c.send msg = some (true, c₁) ∧
    c₁.receive { tag := [], data := [] } = some (true, { tag := tagOk, data := data }, c₂) ∧
    c₂.Idle

/-- The line that a round reads. -/
def SenderClient.line (s : SenderClient) : Str := (getline 10 s.cin []).1

/-- On this connection the request for the line is answered with ok, if there is one; where
there is none, nothing comes. -/
def SenderClient.Answered (s : SenderClient) (c : Connection) : Prop :=
  match command s.line with
  | .send msg _ => AnsweredOk c msg
  | _ => c.Idle

/-- A round, with what the server and the network contribute to it. -/
def OkRound (s : SenderClient) (turn : Turn SenderClient) : Prop :=
  ∃ fd writes, s.Answered (s.conn.supply fd writes) ∧
    ({ s with conn := s.conn.supply fd writes } : SenderClient).round = some turn

/-- The states at the test of the loop. -/
def Reaches : SenderClient → SenderClient → Prop :=
  Relation.ReflTransGen fun s s' => OkRound s (.next s')

/-- The message for a line, if there is one. -/
def messages (line : Str) : List Message :=
  match command line with
  | .send msg _ => [msg]
  | _ => []

/-- From its start on, the loop ends: no round waits for more than its answer, there are
finitely many, and wherever the loop is it comes to an exit. Each round takes a line from the
input or is the last, and only messages for lines of the input are sent. -/
structure EndsFrom (start : SenderClient) : Prop where
  returns : ∀ s fd writes, Reaches start s → s.Answered (s.conn.supply fd writes) →
    ∃ turn, ({ s with conn := s.conn.supply fd writes } : SenderClient).round = some turn
  terminates : ¬∃ run : ℕ → SenderClient,
    run 0 = start ∧ ∀ i, OkRound (run i) (.next (run (i + 1)))
  exits : ∀ s, Reaches start s →
    ∃ last how final, Reaches s last ∧ OkRound last (.exit how final)
  progress : ∀ s s', Reaches start s → OkRound s (.next s') →
    lines 10 s.cin.text = s.line :: lines 10 s'.cin.text
  output : ∀ s turn, Reaches start s → OkRound s turn →
    ∃ taken, taken <+: lines 10 start.cin.text ∧
      turn.state.conn.output = start.conn.output ++ (taken.flatMap messages).flatMap encode

/-- So it is with this input, whatever the connection has been used for. -/
def Ends (input : Str) : Prop :=
  ∀ start : SenderClient, start.cin = .new input → start.conn.Idle → EndsFrom start

/-- A line after which there is no further round. -/
def Leaves (line : Str) : Prop := ascii "/quit" <+: line ∨ line = ascii "/join"

instance (line : Str) : Decidable (Leaves line) := inferInstanceAs (Decidable (_ ∨ _))

/-! ## One round -/

section

variable {s s' start : SenderClient} {turn : Turn SenderClient} {line input : Str}
  {msg : Message} {loopExitCase : Bool}

theorem leaves_iff : Leaves line ↔
    command line = .outOfRange ∨ ∃ msg, command line = .send msg true := by
  unfold Leaves
  rcases line_cases line with rfl | ⟨c, rest, rfl⟩ | ⟨rest, rfl⟩ | ⟨rest, rfl⟩ | hline | hline
  · exact iff_of_true (.inr rfl) (.inl rfl)
  · rw [command_join]
    simp [ascii_join, ascii_quit]
  · rw [command_leave]
    simp [ascii_join, ascii_leave, ascii_quit]
  · rw [command_quit]
    exact iff_of_true (.inl ⟨rest, rfl⟩) (.inr ⟨_, rfl⟩)
  · rw [command_noCommand hline]
    have hjoin : line ≠ ascii "/join" := by
      rintro rfl
      exact hline.join List.prefix_rfl
    simp [hline.quit, hjoin]
  · rw [command_text hline]
    have hquit : ¬ascii "/quit" <+: line := by
      rintro ⟨rest, rfl⟩
      exact hline ⟨_, rfl⟩
    have hjoin : line ≠ ascii "/join" := by
      rintro rfl
      exact hline ⟨_, rfl⟩
    simp [hquit, hjoin]

/-- The exchange with a server that answers with ok. -/
theorem exchange_ok {c₁ c₂ : Connection} {data : Str} (hsend : s.conn.send msg = some (true, c₁))
    (hreceive : c₁.receive { tag := [], data := [] } =
      some (true, { tag := tagOk, data := data }, c₂)) :
    s.exchange msg loopExitCase = some (if loopExitCase then .exit (.status 0) { s with conn := c₂ }
      else .next { s with conn := c₂ }) ∧
    c₂.output = s.conn.output ++ encode msg := by
  constructor
  · unfold SenderClient.exchange
    rw [hsend]
    show (c₁.receive { tag := [], data := [] } >>= _) = _
    rw [hreceive]
    rfl
  · rw [(receive_output hreceive).1, (send_output hsend).1]

/-- A round is what its line makes it. -/
theorem round_eq (s : SenderClient) : s.round =
    match command s.line with
    | .send msg loopExitCase =>
        ({ s with cin := (getline 10 s.cin []).2 } : SenderClient).exchange msg loopExitCase
    | .invalid => some (.next (({ s with cin := (getline 10 s.cin []).2 } : SenderClient).complain
        (ascii "Error: invalid command\n")))
    | .outOfRange => some (.exit .terminate { s with cin := (getline 10 s.cin []).2 }) := rfl

/-- A round whose request is answered returns. -/
theorem exists_round {c : Connection} (h : s.Answered c) :
    ∃ turn, ({ s with conn := c } : SenderClient).round = some turn := by
  have hline : ({ s with conn := c } : SenderClient).line = s.line := rfl
  rw [round_eq, hline]
  unfold SenderClient.Answered at h
  cases hcommand : command s.line with
  | send msg loopExitCase =>
      rw [hcommand] at h
      obtain ⟨c₁, c₂, data, hsend, hreceive, -⟩ := h
      exact ⟨_, (exchange_ok (s := { s with conn := c, cin := (getline 10 s.cin []).2 })
        hsend hreceive).1⟩
  | invalid => exact ⟨_, rfl⟩
  | outOfRange => exact ⟨_, rfl⟩

/-- What a round does to the input and to the connection, and when it is the last. -/
theorem OkRound.spec (h : OkRound s turn) :
    turn.state.cin = (getline 10 s.cin []).2 ∧ turn.state.conn.Idle ∧
    turn.state.conn.output = s.conn.output ++ (messages s.line).flatMap encode ∧
    ((∃ s', turn = .next s') ↔ ¬Leaves s.line) := by
  obtain ⟨fd, writes, hanswer, hround⟩ := h
  have hline : ({ s with conn := s.conn.supply fd writes } : SenderClient).line = s.line := rfl
  rw [round_eq, hline] at hround
  rw [leaves_iff]
  unfold messages
  unfold SenderClient.Answered at hanswer
  cases hcommand : command s.line with
  | send msg loopExitCase =>
      rw [hcommand] at hround hanswer
      obtain ⟨c₁, c₂, data, hsend, hreceive, hidle⟩ := hanswer
      obtain ⟨hexchange, houtput⟩ := exchange_ok
        (s := { s with conn := s.conn.supply fd writes, cin := (getline 10 s.cin []).2 })
        hsend hreceive
      obtain rfl := Option.some.inj (hexchange.symm.trans hround)
      have hsent : c₂.output = s.conn.output ++ [msg].flatMap encode := by
        rw [List.flatMap_singleton]
        exact houtput
      cases loopExitCase with
      | true => exact ⟨rfl, hidle, hsent, by simp⟩
      | false => exact ⟨rfl, hidle, hsent, by simp⟩
  | invalid =>
      rw [hcommand] at hround hanswer
      obtain rfl := Option.some.inj hround
      exact ⟨rfl, hanswer, (List.append_nil _).symm, by simp⟩
  | outOfRange =>
      rw [hcommand] at hround hanswer
      obtain rfl := Option.some.inj hround
      exact ⟨rfl, hanswer, (List.append_nil _).symm, by simp⟩

/-! ## The answer of a server -/

def okReply : Message := { tag := tagOk, data := [] }

theorem plain_okReply : Plain okReply := ⟨by decide, by decide, by decide⟩

theorem encode_ne_nil (msg : Message) : 0 < (encode msg).length := by
  rw [length_encode]
  exact Nat.succ_pos _

/-- One `write` takes the request, and one `read` brings the answer. -/
def Connection.served (c : Connection) (msg : Message) : Connection :=
  c.supply [.bytes (encode okReply)] [.wrote (encode msg).length (encode_ne_nil msg)]

theorem Connection.Idle.answered {c : Connection} (h : c.Idle) (msg : Message) :
    AnsweredOk (c.served msg) msg := by
  have hwrites : (c.served msg).writes = [.wrote (encode msg).length (encode_ne_nil msg)] := by
    unfold Connection.served Connection.supply
    rw [h.writes]
    rfl
  have hwrite : rioWriten (c.served msg).writes (encode msg) = some (true, encode msg, []) := by
    obtain ⟨b, text, htext⟩ := List.exists_cons_of_length_pos (encode_ne_nil msg)
    rw [hwrites]
    simp [rioWriten, htext]
  have hsend := send_of_rioWriten hwrite
  have hitems : (c.served msg).fdbuf.items = (encode okReply).map .byte ++ [] := by
    have hempty := h.items
    unfold Rio.items at hempty
    unfold Connection.served Connection.supply Rio.items
    rw [List.flatMap_append, ← List.append_assoc, hempty]
    rfl
  -- sending leaves the reader alone
  obtain ⟨c₂, hrest, hreceive⟩ := receive_encode (r := { c.served msg with
    writes := [], output := (c.served msg).output ++ encode msg, lastResult := .success })
    plain_okReply hitems (by decide) { tag := [], data := [] }
  exact ⟨_, c₂, _, hsend, hreceive, hrest, (receive_output hreceive).2⟩

/-- So a server can answer every round. -/
theorem exists_okRound (hidle : s.conn.Idle) : ∃ turn, OkRound s turn := by
  obtain ⟨fd, writes, hanswer⟩ : ∃ fd writes, s.Answered (s.conn.supply fd writes) := by
    unfold SenderClient.Answered
    have hnothing : s.conn.supply [] [] = s.conn := by
      unfold Connection.supply
      rw [List.append_nil, List.append_nil]
    cases hcommand : command s.line with
    | send msg loopExitCase => exact ⟨_, _, hidle.answered msg⟩
    | invalid => exact ⟨[], [], hnothing.symm ▸ hidle⟩
    | outOfRange => exact ⟨[], [], hnothing.symm ▸ hidle⟩
  obtain ⟨turn, hround⟩ := exists_round hanswer
  exact ⟨turn, fd, writes, hanswer, hround⟩

/-- A line that leaves is followed by an exit, any other by a round. -/
theorem exists_next (hidle : s.conn.Idle) (hstay : ¬Leaves s.line) :
    ∃ s', OkRound s (.next s') := by
  obtain ⟨turn, hround⟩ := exists_okRound hidle
  obtain ⟨s', rfl⟩ := hround.spec.2.2.2.mpr hstay
  exact ⟨s', hround⟩

theorem exists_exit (hidle : s.conn.Idle) (hleaves : Leaves s.line) :
    ∃ how final, OkRound s (.exit how final) := by
  obtain ⟨turn, hround⟩ := exists_okRound hidle
  cases turn with
  | next s' => exact absurd hleaves (hround.spec.2.2.2.mp ⟨s', rfl⟩)
  | exit how final => exact ⟨how, final, hround⟩

/-! ## Runs towards a line that leaves -/

/-- What holds at the test of the loop as long as no line has left it: the lines taken are
those before the ones that are left, and the messages are theirs. -/
structure Along (start s : SenderClient) : Prop where
  sound : s.cin.Sound
  idle : s.conn.Idle
  taken : ∃ taken, lines 10 start.cin.text = taken ++ lines 10 s.cin.text ∧
    (∀ line ∈ taken, ¬Leaves line) ∧
    s.conn.output = start.conn.output ++ (taken.flatMap messages).flatMap encode

theorem Along.refl (h : start.cin.Sound) (hidle : start.conn.Idle) : Along start start :=
  ⟨h, hidle, [], rfl, fun _ h => absurd h List.not_mem_nil, (List.append_nil _).symm⟩

/-- With a line left, the round takes it. -/
theorem OkRound.takes (h : OkRound s turn) (hsound : s.cin.Sound) (hne : s.cin.text ≠ []) :
    lines 10 s.cin.text = s.line :: lines 10 turn.state.cin.text := by
  have hnew := hsound.eq_new hne
  rw [lines_getline hne [], h.spec.1, SenderClient.line, ← hnew]

/-- The output of a round, from the start. -/
theorem Along.output (h : Along start s) (hround : OkRound s turn) (hne : s.cin.text ≠ []) :
    ∃ taken, lines 10 start.cin.text = taken ++ lines 10 turn.state.cin.text ∧
      (∀ line ∈ taken, line = s.line ∨ ¬Leaves line) ∧
      turn.state.conn.output = start.conn.output ++ (taken.flatMap messages).flatMap encode := by
  obtain ⟨hsound, -, taken, hlines, hstay, houtput⟩ := h
  refine ⟨taken ++ [s.line], ?_, ?_, ?_⟩
  · rw [hlines, hround.takes hsound hne, List.append_assoc, List.singleton_append]
  · intro line hline
    rcases List.mem_append.mp hline with hline | hline
    · exact .inr (hstay line hline)
    · exact .inl (List.mem_singleton.mp hline)
  · rw [hround.spec.2.2.1, houtput, List.append_assoc, List.flatMap_append, List.flatMap_append,
      List.flatMap_singleton]

theorem Along.step (h : Along start s) (hround : OkRound s (.next s')) (hne : s.cin.text ≠ []) :
    Along start s' := by
  obtain ⟨taken, hlines, hstay, houtput⟩ := h.output hround hne
  have hcin : s'.cin = (getline 10 s.cin []).2 := hround.spec.1
  refine ⟨?_, hround.spec.2.1, taken, hlines, fun line hline => ?_, houtput⟩
  · rw [hcin]
    exact h.sound.getline []
  · rcases hstay line hline with rfl | hstay
    · exact hround.spec.2.2.2.mp ⟨s', rfl⟩
    · exact hstay

/-- A line that leaves is still to come, so there is a line to come. -/
theorem Along.text_ne_nil (h : Along start s) (hline : line ∈ lines 10 start.cin.text)
    (hleaves : Leaves line) : s.cin.text ≠ [] := by
  obtain ⟨-, -, taken, hlines, hstay, -⟩ := h
  intro htext
  rw [hlines, lines_eq_nil_iff.mpr htext, List.append_nil] at hline
  exact hstay line hline hleaves

theorem Along.of_reaches (hsound : start.cin.Sound) (hidle : start.conn.Idle)
    (hline : line ∈ lines 10 start.cin.text) (hleaves : Leaves line) (h : Reaches start s) :
    Along start s := by
  induction h with
  | refl => exact .refl hsound hidle
  | tail _ hround ih => exact ih.step hround (ih.text_ne_nil hline hleaves)

/-- With a line that leaves still to come, the loop comes to an exit. -/
theorem exists_last : ∀ {n : ℕ} {s : SenderClient}, (lines 10 s.cin.text).length = n →
    s.cin.Sound → s.conn.Idle → (∃ line ∈ lines 10 s.cin.text, Leaves line) →
    ∃ last how final, Reaches s last ∧ OkRound last (.exit how final) := by
  intro n
  induction n with
  | zero =>
      rintro s hlen - - ⟨line, hline, -⟩
      rw [List.eq_nil_of_length_eq_zero hlen] at hline
      exact absurd hline List.not_mem_nil
  | succ n ih =>
      rintro s hlen hsound hidle ⟨line, hline, hleaves⟩
      by_cases hnow : Leaves s.line
      · obtain ⟨how, final, hround⟩ := exists_exit hidle hnow
        exact ⟨s, how, final, .refl, hround⟩
      · -- the round takes another line
        obtain ⟨s', hround⟩ := exists_next hidle hnow
        have hne : s.cin.text ≠ [] := by
          intro htext
          rw [lines_eq_nil_iff.mpr htext] at hlen
          exact absurd hlen (by simp)
        have htakes : lines 10 s.cin.text = s.line :: lines 10 s'.cin.text :=
          hround.takes hsound hne
        have hsound' : s'.cin.Sound := by
          have hcin : s'.cin = (getline 10 s.cin []).2 := hround.spec.1
          rw [hcin]
          exact hsound.getline []
        rw [htakes] at hlen hline
        have hlater : ∃ line ∈ lines 10 s'.cin.text, Leaves line := by
          rcases List.mem_cons.mp hline with rfl | hline
          · exact absurd hleaves hnow
          · exact ⟨line, hline, hleaves⟩
        obtain ⟨last, how, final, hreach, hlast⟩ :=
          ih (Nat.succ.inj hlen) hsound' hround.spec.2.1 hlater
        exact ⟨last, how, final, hreach.head hround, hlast⟩

/-- With such a line in the input, the loop ends as it should. -/
theorem endsFrom_of_leaves (hsound : start.cin.Sound) (hidle : start.conn.Idle)
    (hline : line ∈ lines 10 start.cin.text) (hleaves : Leaves line) : EndsFrom start := by
  have halong : ∀ {s}, Reaches start s → Along start s ∧ s.cin.text ≠ [] := by
    intro s h
    have hs := Along.of_reaches hsound hidle hline hleaves h
    exact ⟨hs, hs.text_ne_nil hline hleaves⟩
  refine ⟨fun s fd writes _ hanswer => exists_round hanswer, ?_, ?_, ?_, ?_⟩
  · rintro ⟨run, rfl, hrun⟩
    have hreach : ∀ i, Reaches (run 0) (run i) := by
      intro i
      induction i with
      | zero => exact .refl
      | succ i ih => exact ih.tail (hrun i)
    -- every round leaves one line less
    obtain ⟨i, hi⟩ := WellFounded.not_rel_apply_succ (r := (· < ·))
      fun i => (lines 10 (run i).cin.text).length
    obtain ⟨hs, hne⟩ := halong (hreach i)
    have htakes := (hrun i).takes hs.sound hne
    apply hi
    rw [htakes, List.length_cons]
    exact Nat.lt_succ_self _
  · intro s h
    obtain ⟨hs, -⟩ := halong h
    refine exists_last rfl hs.sound hs.idle ⟨line, ?_, hleaves⟩
    obtain ⟨taken, hlines, hstay, -⟩ := hs.taken
    rw [hlines] at hline
    exact (List.mem_append.mp hline).resolve_left fun hmem => hstay line hmem hleaves
  · intro s s' h hround
    obtain ⟨hs, hne⟩ := halong h
    exact hround.takes hs.sound hne
  · intro s turn h hround
    obtain ⟨hs, hne⟩ := halong h
    obtain ⟨taken, hlines, -, houtput⟩ := hs.output hround hne
    exact ⟨taken, ⟨_, hlines.symm⟩, houtput⟩

/-! ## Runs without such a line -/

/-- Once the input is read, empty lines follow without an end. -/
theorem exists_okRound_line (hsound : s.cin.Sound) (hidle : s.conn.Idle)
    (hstay : ∀ line ∈ lines 10 s.cin.text, ¬Leaves line) :
    ∃ s', OkRound s (.next s') ∧ s'.cin.Sound ∧ s'.conn.Idle ∧
      ∀ line ∈ lines 10 s'.cin.text, ¬Leaves line := by
  have hline : ¬Leaves s.line := by
    rcases eq_or_ne s.cin.text [] with htext | htext
    · unfold SenderClient.line
      rw [Istream.getline_done htext]
      decide
    · apply hstay
      have hnew := hsound.eq_new htext
      rw [lines_getline htext [], ← hnew]
      exact List.mem_cons_self
  obtain ⟨s', hround⟩ := exists_next hidle hline
  have hcin : s'.cin = (getline 10 s.cin []).2 := hround.spec.1
  refine ⟨s', hround, ?_, hround.spec.2.1, ?_⟩
  · rw [hcin]
    exact hsound.getline []
  · rcases eq_or_ne s.cin.text [] with htext | htext
    · rw [hcin, Istream.getline_done htext]
      exact fun line h => absurd h List.not_mem_nil
    · intro line h
      apply hstay
      rw [hround.takes hsound htext]
      exact List.mem_cons_of_mem _ h

/-- Without a line that leaves, the loop need not end. -/
theorem not_ends (hstay : ∀ line ∈ lines 10 input, ¬Leaves line) : ¬Ends input := by
  intro h
  let start : SenderClient := { conn := .new [] [], cin := .new input, cerr := [] }
  apply (h start rfl ⟨rfl, rfl⟩).terminates
  obtain ⟨run, hzero, hrun⟩ := exists_endless (r := fun s s' => OkRound s (.next s'))
    (P := fun s => s.cin.Sound ∧ s.conn.Idle ∧ ∀ line ∈ lines 10 s.cin.text, ¬Leaves line)
    (fun s ⟨hsound, hidle, hstay⟩ => exists_okRound_line hsound hidle hstay)
    (s := start) ⟨Istream.sound_new input, ⟨rfl, rfl⟩, hstay⟩
  exact ⟨run, hzero, hrun⟩

/-- The loop ends for an input, each round with a line of it and each message for a line of
it, exactly when one of its lines begins with a quit or is a join without a name. -/
theorem ends_iff (input : Str) : Ends input ↔ ∃ line ∈ lines 10 input, Leaves line := by
  constructor
  · intro h
    by_contra hno
    apply not_ends _ h
    intro line hline hleaves
    exact hno ⟨line, hline, hleaves⟩
  · rintro ⟨line, hline, hleaves⟩ start hcin hidle
    have hsound : start.cin.Sound := by
      rw [hcin]
      exact Istream.sound_new input
    have htext : start.cin.text = input := by
      rw [hcin]
      rfl
    rw [← htext] at hline
    exact endsFrom_of_leaves hsound hidle hline hleaves

/-- One line, and no quit. -/
theorem greeting_does_not_end : ¬Ends (ascii "hello\n") := by
  apply not_ends
  decide

end

end Csf.Chat
