import Csf.Chat.Clients

/-!
# Chat: the commands of the sender

`command` looks at the first characters of a line only. It does what the command words
are for on the lines where a command word stands for itself: not run into by more text,
and in a join followed by a name.
-/

namespace Csf.Chat

open Csf.Lib

/-- What a line is to do: a word of the three commands stands for itself, anything else
with a slash in front is invalid, and the rest is text to send. -/
def intended (line : Str) : Command :=
  if ascii "/join " <+: line ∧ line ≠ ascii "/join " then
    .send { tag := tagJoin, data := line.drop (ascii "/join ").length } false
  else if line = ascii "/leave" then .send { tag := tagLeave, data := [] } false
  else if line = ascii "/quit" then .send { tag := tagQuit, data := [] } true
  else if ascii "/" <+: line then .invalid
  else .send { tag := tagSendall, data := line } false

/-- A line that begins with a command word is a command. -/
structure WholeWords (line : Str) : Prop where
  join : ascii "/join" <+: line → ∃ name, name ≠ [] ∧ line = ascii "/join " ++ name
  leave : ascii "/leave" <+: line → line = ascii "/leave"
  quit : ascii "/quit" <+: line → line = ascii "/quit"

/-! ## The words -/

theorem ascii_join : ascii "/join" = [47, 106, 111, 105, 110] := rfl

theorem ascii_join_blank : ascii "/join " = [47, 106, 111, 105, 110, 32] := rfl

theorem ascii_leave : ascii "/leave" = [47, 108, 101, 97, 118, 101] := rfl

theorem ascii_quit : ascii "/quit" = [47, 113, 117, 105, 116] := rfl

theorem ascii_slash : ascii "/" = [47] := rfl

variable {line rest : Str} {c : UInt8}

theorem take_eq_iff (word : Str) : line.take word.length = word ↔ word <+: line := by
  rw [List.prefix_iff_eq_take]
  exact eq_comm

theorem head_slash_iff : line.head? = some 47 ↔ ascii "/" <+: line := by
  cases line with
  | nil => simp [ascii_slash]
  | cons c line => simp [ascii_slash, eq_comm]

/-- Begins with a slash, but with none of the command words. -/
structure NoCommand (line : Str) : Prop where
  slash : ascii "/" <+: line
  join : ¬ascii "/join" <+: line
  leave : ¬ascii "/leave" <+: line
  quit : ¬ascii "/quit" <+: line

/-- The lines that the parser tells apart. -/
theorem line_cases (line : Str) : line = ascii "/join" ∨
    (∃ c rest, line = ascii "/join" ++ c :: rest) ∨ (∃ rest, line = ascii "/leave" ++ rest) ∨
    (∃ rest, line = ascii "/quit" ++ rest) ∨ NoCommand line ∨ ¬ascii "/" <+: line := by
  by_cases hslash : ascii "/" <+: line
  · by_cases hjoin : ascii "/join" <+: line
    · obtain ⟨rest, rfl⟩ := hjoin
      cases rest with
      | nil => exact .inl (List.append_nil _)
      | cons c rest => exact .inr (.inl ⟨c, rest, rfl⟩)
    · by_cases hleave : ascii "/leave" <+: line
      · obtain ⟨rest, hrest⟩ := hleave
        exact .inr (.inr (.inl ⟨rest, hrest.symm⟩))
      · by_cases hquit : ascii "/quit" <+: line
        · obtain ⟨rest, hrest⟩ := hquit
          exact .inr (.inr (.inr (.inl ⟨rest, hrest.symm⟩)))
        · exact .inr (.inr (.inr (.inr (.inl ⟨hslash, hjoin, hleave, hquit⟩))))
  · exact .inr (.inr (.inr (.inr (.inr hslash))))

/-! ## What the client makes of a line -/

theorem command_join : command (ascii "/join" ++ c :: rest) =
    .send { tag := tagJoin, data := rest } false := by
  have hsubstr : substr (ascii "/join" ++ c :: rest) 6 = some rest := by
    simp [substr, ascii_join]
  have hslash : (ascii "/join" ++ c :: rest).head? = some 47 := rfl
  have htake : (ascii "/join" ++ c :: rest).take 5 = ascii "/join" := rfl
  unfold command
  rw [if_pos hslash, if_pos htake, hsubstr]

theorem command_leave : command (ascii "/leave" ++ rest) =
    .send { tag := tagLeave, data := [] } false := rfl

theorem command_quit : command (ascii "/quit" ++ rest) =
    .send { tag := tagQuit, data := [] } true := rfl

theorem command_outOfRange : command (ascii "/join") = .outOfRange := rfl

theorem command_noCommand (h : NoCommand line) : command line = .invalid := by
  have hjoin : line.take 5 ≠ ascii "/join" := mt (take_eq_iff (ascii "/join")).mp h.join
  have hleave : line.take 6 ≠ ascii "/leave" := mt (take_eq_iff (ascii "/leave")).mp h.leave
  have hquit : line.take 5 ≠ ascii "/quit" := mt (take_eq_iff (ascii "/quit")).mp h.quit
  unfold command
  rw [if_pos (head_slash_iff.mpr h.slash), if_neg hjoin, if_neg hleave, if_neg hquit]

theorem command_text (hslash : ¬ascii "/" <+: line) :
    command line = .send { tag := tagSendall, data := line } false :=
  if_neg (mt head_slash_iff.mp hslash)

/-! ## What it is to make of a line -/

theorem intended_invalid (hslash : ascii "/" <+: line)
    (hjoin : ¬(ascii "/join " <+: line ∧ line ≠ ascii "/join "))
    (hleave : line ≠ ascii "/leave") (hquit : line ≠ ascii "/quit") :
    intended line = .invalid := by
  unfold intended
  rw [if_neg hjoin, if_neg hleave, if_neg hquit, if_pos hslash]

theorem intended_join : intended (ascii "/join" ++ c :: rest) =
    if c = 32 ∧ rest ≠ [] then .send { tag := tagJoin, data := rest } false else .invalid := by
  have hword : ascii "/join " <+: ascii "/join" ++ c :: rest ∧
      ascii "/join" ++ c :: rest ≠ ascii "/join " ↔ c = 32 ∧ rest ≠ [] := by
    simp only [ascii_join, ascii_join_blank]
    simp
    grind
  by_cases h : c = 32 ∧ rest ≠ []
  · unfold intended
    rw [if_pos (hword.mpr h), if_pos h]
    rfl
  · have hslash : ascii "/" <+: ascii "/join" ++ c :: rest := ⟨_, rfl⟩
    rw [if_neg h]
    apply intended_invalid hslash (mt hword.mp h)
    · simp [ascii_join, ascii_leave]
    · simp [ascii_join, ascii_quit]

theorem intended_bare_join : intended (ascii "/join") = .invalid := by decide

theorem intended_leave : intended (ascii "/leave" ++ rest) =
    if rest = [] then .send { tag := tagLeave, data := [] } false else .invalid := by
  rcases eq_or_ne rest [] with rfl | hne
  · rfl
  · have hslash : ascii "/" <+: ascii "/leave" ++ rest := ⟨_, rfl⟩
    rw [if_neg hne]
    apply intended_invalid hslash
    · simp [ascii_join_blank, ascii_leave]
    · exact mt List.append_right_eq_self.mp hne
    · simp [ascii_leave, ascii_quit]

theorem intended_quit : intended (ascii "/quit" ++ rest) =
    if rest = [] then .send { tag := tagQuit, data := [] } true else .invalid := by
  rcases eq_or_ne rest [] with rfl | hne
  · rfl
  · have hslash : ascii "/" <+: ascii "/quit" ++ rest := ⟨_, rfl⟩
    rw [if_neg hne]
    apply intended_invalid hslash
    · simp [ascii_join_blank, ascii_quit]
    · simp [ascii_leave, ascii_quit]
    · exact mt List.append_right_eq_self.mp hne

theorem intended_noCommand (h : NoCommand line) : intended line = .invalid := by
  apply intended_invalid h.slash
  · rintro ⟨⟨rest, rfl⟩, -⟩
    exact h.join ⟨32 :: rest, rfl⟩
  · rintro rfl
    exact h.leave List.prefix_rfl
  · rintro rfl
    exact h.quit List.prefix_rfl

theorem intended_text (hslash : ¬ascii "/" <+: line) :
    intended line = .send { tag := tagSendall, data := line } false := by
  have hjoin : ¬(ascii "/join " <+: line ∧ line ≠ ascii "/join ") := by
    rintro ⟨⟨rest, rfl⟩, -⟩
    exact hslash ⟨_, rfl⟩
  have hleave : line ≠ ascii "/leave" := by
    rintro rfl
    exact hslash ⟨_, rfl⟩
  have hquit : line ≠ ascii "/quit" := by
    rintro rfl
    exact hslash ⟨_, rfl⟩
  unfold intended
  rw [if_neg hjoin, if_neg hleave, if_neg hquit, if_neg hslash]

/-! ## The lines on which both agree -/

theorem wholeWords_join :
    WholeWords (ascii "/join" ++ c :: rest) ↔ c = 32 ∧ rest ≠ [] := by
  constructor
  · intro h
    obtain ⟨name, hname, heq⟩ := h.join ⟨_, rfl⟩
    obtain ⟨rfl, rfl⟩ : c = 32 ∧ rest = name := by simpa [ascii_join, ascii_join_blank] using heq
    exact ⟨rfl, hname⟩
  · rintro ⟨rfl, hname⟩
    refine ⟨fun _ => ⟨rest, hname, rfl⟩, ?_, ?_⟩
    · exact fun h => absurd h (by simp [ascii_join, ascii_leave])
    · exact fun h => absurd h (by simp [ascii_join, ascii_quit])

theorem not_wholeWords_bare_join : ¬WholeWords (ascii "/join") := by
  intro h
  obtain ⟨name, -, heq⟩ := h.join List.prefix_rfl
  exact absurd heq (by simp [ascii_join, ascii_join_blank])

theorem wholeWords_leave : WholeWords (ascii "/leave" ++ rest) ↔ rest = [] := by
  constructor
  · intro h
    exact List.append_right_eq_self.mp (h.leave ⟨rest, rfl⟩)
  · rintro rfl
    exact ⟨fun h => absurd h (by decide), fun _ => rfl, fun h => absurd h (by decide)⟩

theorem wholeWords_quit : WholeWords (ascii "/quit" ++ rest) ↔ rest = [] := by
  constructor
  · intro h
    exact List.append_right_eq_self.mp (h.quit ⟨rest, rfl⟩)
  · rintro rfl
    exact ⟨fun h => absurd h (by decide), fun h => absurd h (by decide), fun _ => rfl⟩

/-- The client does with a line what it is to do, without an exception, exactly when a
command word that the line begins with makes it a command. -/
theorem command_eq_intended_iff (line : Str) : command line = intended line ↔ WholeWords line := by
  rcases line_cases line with rfl | ⟨c, rest, rfl⟩ | ⟨rest, rfl⟩ | ⟨rest, rfl⟩ | hline | hline
  · rw [command_outOfRange, intended_bare_join]
    exact iff_of_false (by simp) not_wholeWords_bare_join
  · rw [command_join, intended_join, wholeWords_join]
    exact ⟨fun h => by_contra fun hne => by simp [if_neg hne] at h, fun h => (if_pos h).symm⟩
  · rw [command_leave, intended_leave, wholeWords_leave]
    exact ⟨fun h => by_contra fun hne => by simp [if_neg hne] at h, fun h => (if_pos h).symm⟩
  · rw [command_quit, intended_quit, wholeWords_quit]
    exact ⟨fun h => by_contra fun hne => by simp [if_neg hne] at h, fun h => (if_pos h).symm⟩
  · rw [command_noCommand hline, intended_noCommand hline]
    exact iff_of_true rfl ⟨fun h => absurd h hline.join, fun h => absurd h hline.leave,
      fun h => absurd h hline.quit⟩
  · have hno : ∀ word, ascii "/" <+: word → ¬word <+: line :=
      fun word hword h => hline (List.IsPrefix.trans hword h)
    rw [command_text hline, intended_text hline]
    exact iff_of_true rfl ⟨fun h => absurd h (hno _ ⟨_, rfl⟩), fun h => absurd h (hno _ ⟨_, rfl⟩),
      fun h => absurd h (hno _ ⟨_, rfl⟩)⟩

/-- A join without a name is to be invalid, and ends the client with an exception. -/
theorem bare_join_throws : command (ascii "/join") = .outOfRange ∧
    intended (ascii "/join") = .invalid ∧ command (ascii "/join") ≠ intended (ascii "/join") := by
  decide

end Csf.Chat
