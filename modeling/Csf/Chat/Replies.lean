import Csf.Chat.Server

/-!
# Chat: one reply per request line

`serve` is what `chat_with_sender` does with a list of lines, without the
connection; `chatWithSender_lines` is the simulation. On `serve` a line has its
one reply exactly when it is `Fine`: it has no NUL and its tag ends at a colon, or
it has one, and what it is read as gets an err.
-/

namespace Csf.Chat

/-! ## Lines -/

/-- The requests that the server knows. -/
def knownTags : List Str := [tagJoin, tagSendall, tagLeave, tagQuit]

/-- A line, without its newline, that is a request the server knows. -/
def Known (text : Str) : Prop := 0 ∉ text ∧ ∃ tag ∈ knownTags, tag ++ [58] <+: text

/-- A standard tag and a colon begin the line. -/
def WellFormed (text : Str) : Prop := ∃ tag ∈ standardTags, tag ++ [58] <+: text

/-- A quit request. -/
def IsQuit (text : Str) : Prop := 0 ∉ text ∧ tagQuit ++ [58] <+: text

instance (text : Str) : Decidable (WellFormed text) := by unfold WellFormed; infer_instance

instance (text : Str) : Decidable (IsQuit text) := by unfold IsQuit; infer_instance

/-- The lines up to and including the first quit. -/
def upToQuit : List Str → List Str
  | [] => []
  | text :: lines => if IsQuit text then [text] else text :: upToQuit lines

/-- The name that the last join has set, empty outside a room. -/
def roomAfter (room text : Str) : Str :=
  if tagJoin ++ [58] <+: text then text.drop 5
  else if tagLeave ++ [58] <+: text then [] else room

/-- A line that is answered as it should be, in a room of this name. With a NUL in it, that
takes an err. -/
def LineFine (room text : Str) : Prop :=
  if 0 ∈ text then
    ∃ tag ∈ standardTags, (tag ++ [58] <+: text ∨ tag ++ [0] <+: text) ∧
      tag ≠ tagJoin ∧ tag ≠ tagQuit ∧ (tag = tagSendall ∨ tag = tagLeave → room = [])
  else WellFormed text

instance (room text : Str) : Decidable (LineFine room text) := by unfold LineFine; infer_instance

/-- Every line up to the first quit is fine in the room of that moment. -/
def Fine : (room : Str) → List Str → Prop
  | _, [] => True
  | room, text :: lines => LineFine room text ∧ (IsQuit text ∨ Fine (roomAfter room text) lines)

/-- A round has the one reply that its line asks for: an err, unless the server knows the
request. -/
def ReplyFits (text : Str) (round : Round) : Prop :=
  ∃ reply, round.reply = some reply ∧ (reply.tag = tagOk ∨ reply.tag = tagErr) ∧
    (¬Known text → reply.tag = tagErr)

/-! ## What the loop does with lines -/

/-- The rounds of `chat_with_sender` on lines that fit its buffer. -/
def serve : User → List Str → List Round
  | _, [] => []
  | user, text :: lines =>
      let msg := parse (cString (text ++ [10]))
      if msg.tag ∈ standardTags then
        let o := handleRequest user msg
        { request := some msg, reply := some o.reply, calls := o.calls } ::
          if o.exitCase then [] else serve o.user lines
      else .silent :: serve user lines

/-- The messages that a run sends. -/
def replies (rounds : List Round) : List Message := rounds.filterMap Round.reply

/-- These messages are all taken by the socket. -/
def SendsSucceed : List WriteResult → List Message → Prop
  | _, [] => True
  | writes, msg :: msgs => ∃ written writes',
      rioWriten writes (encode msg) = some (true, written, writes') ∧ SendsSucceed writes' msgs

/-- A line that the loop reads whole. -/
def Fits (text : Str) : Prop := 10 ∉ text ∧ text.length + 1 < maxLen

instance (text : Str) : Decidable (Fits text) := by unfold Fits; infer_instance

section

variable {s : Sender} {user : User} {text : Str} {lines : List Str} {rest : List Item}

/-- The message that a line is read as. -/
abbrev lineMessage (text : Str) : Message := parse (cString (text ++ [10]))

theorem serve_request (h : (lineMessage text).tag ∈ standardTags) :
    serve user (text :: lines) =
      { request := some (lineMessage text)
        reply := some (handleRequest user (lineMessage text)).reply
        calls := (handleRequest user (lineMessage text)).calls } ::
          if (handleRequest user (lineMessage text)).exitCase then []
          else serve (handleRequest user (lineMessage text)).user lines := by
  rw [serve]
  exact if_pos h

theorem serve_silent (h : (lineMessage text).tag ∉ standardTags) :
    serve user (text :: lines) = .silent :: serve user lines := by
  rw [serve]
  exact if_neg h

/-- On lines that fit, and while its sends succeed, the loop serves one line a
round. -/
theorem chatWithSender_lines : ∀ {lines : List Str} {s : Sender}, (∀ text ∈ lines, Fits text) →
    s.conn.fdbuf.items = (lines.flatMap (· ++ [10])).map .byte ++ rest →
    s.conn.isOpen = true → s.exitCase = false →
    SendsSucceed s.conn.writes (replies (serve s.user lines)) →
    ∃ final, chatWithSender lines.length s = some (serve s.user lines, final) ∧
      final.conn.output = s.conn.output ++ (replies (serve s.user lines)).flatMap encode := by
  intro lines
  induction lines with
  | nil =>
      intro s _ _ _ _ _
      exact ⟨s, rfl, (List.append_nil _).symm⟩
  | cons text lines ih =>
      intro s hfits hitems hopen hexit hsends
      obtain ⟨hnewline, hlen⟩ := hfits text List.mem_cons_self
      have hfits' : ∀ t ∈ lines, Fits t := fun t ht => hfits t (List.mem_cons_of_mem _ ht)
      rw [List.flatMap_cons, List.map_append, List.append_assoc] at hitems
      obtain ⟨fdbuf, hrest, hreceive⟩ := receive_line s.clientMsg hitems hnewline hlen
      have hmore : ∀ {s₁ : Sender} {round : Round}, senderRound s = some (round, s₁) →
          s₁.conn.fdbuf.items = (lines.flatMap (· ++ [10])).map .byte ++ rest →
          s₁.conn.isOpen = true → s₁.exitCase = false →
          SendsSucceed s₁.conn.writes (replies (serve s₁.user lines)) →
          ∃ final, chatWithSender (text :: lines).length s =
              some (round :: serve s₁.user lines, final) ∧
            final.conn.output =
              s₁.conn.output ++ (replies (serve s₁.user lines)).flatMap encode := by
        intro s₁ round hround hitems₁ hopen₁ hexit₁ hsends₁
        obtain ⟨final, hrun, houtput⟩ := ih hfits' hitems₁ hopen₁ hexit₁ hsends₁
        refine ⟨final, ?_, houtput⟩
        rw [List.length_cons, chatWithSender_succ hopen hexit hround, hrun]
        rfl
      by_cases htag : (lineMessage text).tag ∈ standardTags
      · -- a request is answered, and the loop goes on unless it was a quit
        have haccept : s.conn.receive s.clientMsg = some (true, lineMessage text,
            { s.conn with fdbuf := fdbuf, lastResult := .success }) := by
          rw [hreceive, Connection.accept]
          exact congrArg some (if_pos htag)
        rw [serve_request htag] at hsends ⊢
        obtain ⟨written, writes, hwrite, hsends⟩ := hsends
        have hround := senderRound_request haccept (send_of_rioWriten hwrite)
        by_cases hquit : (handleRequest s.user (lineMessage text)).exitCase = true
        · rw [if_pos hquit]
          have hrun := chatWithSender_succ (n := lines.length) hopen hexit hround
          refine ⟨_, hrun.trans (congrArg (Option.map _) (chatWithSender_exit ?_)), ?_⟩
          · simp [hquit]
          · simp [replies]
        · rw [if_neg hquit] at hsends ⊢
          obtain ⟨final, hrun, houtput⟩ := hmore hround hrest rfl (by simpa using hquit) hsends
          refine ⟨final, hrun, ?_⟩
          rw [houtput]
          simp [replies]
      · -- the reader takes a malformed line for no message at all
        have hreject : s.conn.receive s.clientMsg = some (false, lineMessage text,
            { s.conn with fdbuf := fdbuf, lastResult := .invalidMsg }) := by
          rw [hreceive, Connection.accept]
          exact congrArg some (if_neg htag)
        have hround := senderRound_silent hreject
        rw [serve_silent htag] at hsends ⊢
        obtain ⟨final, hrun, houtput⟩ := hmore hround hrest rfl hexit hsends
        exact ⟨final, hrun, houtput⟩

/-! ## How a line is read -/

/-- A well-formed line is read as its tag and the payload up to a NUL. -/
theorem lineMessage_of_tag {tag : Str} (htag : tag ∈ standardTags) (h : tag ++ [58] <+: text) :
    (lineMessage text).tag = tag ∧
      (lineMessage text).data = cString (text.drop (tag.length + 1) ++ [10]) := by
  obtain ⟨hcolon, -, hnul⟩ := plain_of_standard htag
  obtain ⟨payload, rfl⟩ := h
  have hdrop : (tag ++ [58] ++ payload).drop (tag.length + 1) = payload :=
    List.drop_left' (by simp)
  have hplain : 0 ∉ tag ++ [58] := by simp [hnul]
  -- no NUL comes before the payload, so the C string ends in the payload or behind it
  have hstring : cString (tag ++ [58] ++ payload ++ [10]) =
      tag ++ 58 :: cString (payload ++ [10]) := by
    rw [List.append_assoc (tag ++ [58]), cString_append hplain, List.append_assoc,
      List.singleton_append]
  have hmessage : lineMessage (tag ++ [58] ++ payload) =
      { tag := tag, data := cString (payload ++ [10]) } := by
    rw [lineMessage, hstring, parse_colon hcolon]
  rw [hmessage, hdrop]
  exact ⟨rfl, rfl⟩

/-- A bare tag before a NUL is read as tag and data alike. -/
theorem lineMessage_of_nul {tag : Str} (htag : tag ∈ standardTags) (h : tag ++ [0] <+: text) :
    lineMessage text = { tag := tag, data := tag } := by
  obtain ⟨hcolon, -, hnul⟩ := plain_of_standard htag
  obtain ⟨payload, rfl⟩ := h
  have hshape : tag ++ [0] ++ payload ++ [10] = tag ++ 0 :: (payload ++ [10]) := by simp
  rw [lineMessage, hshape, cString_nul hnul, parse_plain hcolon]

/-- The tag before a colon or a NUL is the one that is read. -/
theorem tag_lineMessage {tag : Str} (htag : tag ∈ standardTags)
    (h : tag ++ [58] <+: text ∨ tag ++ [0] <+: text) : (lineMessage text).tag = tag := by
  rcases h with h | h
  · exact (lineMessage_of_tag htag h).1
  · rw [lineMessage_of_nul htag h]

/-- These are the only lines that are read as messages. -/
theorem wellFormed_or_nul (h : (lineMessage text).tag ∈ standardTags) :
    WellFormed text ∨ ∃ tag ∈ standardTags, tag ++ [0] <+: text := by
  have hsplit : cString (text ++ [10]) ++ (text ++ [10]).dropWhile (· ≠ 0) = text ++ [10] :=
    List.takeWhile_append_dropWhile
  rw [lineMessage, ← begins_iff] at h
  obtain ⟨tag, htag, heq | hcolon⟩ := h
  · right
    obtain ⟨-, hnewline, -⟩ := plain_of_standard htag
    rw [heq] at hsplit
    refine ⟨tag, htag, prefix_of_prefix_newline (by decide) ?_⟩
    cases hdrop : (text ++ [10]).dropWhile (· ≠ 0) with
    | nil =>
        -- without a NUL the newline would be part of the tag
        rw [hdrop, List.append_nil] at hsplit
        rw [hsplit] at hnewline
        exact absurd (List.mem_append_right _ (List.mem_singleton_self _)) hnewline
    | cons c after =>
        have hnul : c = 0 := by
          have hhead := List.head?_dropWhile_not (fun c : UInt8 => decide (c ≠ 0)) (text ++ [10])
          rw [hdrop] at hhead
          simpa using hhead
        rw [← hsplit, hdrop, hnul]
        exact ⟨after, by simp⟩
  · left
    exact ⟨tag, htag,
      prefix_of_prefix_newline (by decide) (hcolon.trans (cString_prefix_line _))⟩

/-! ## Which lines have their reply -/

theorem not_replyFits_silent : ¬ReplyFits text .silent := by
  rintro ⟨reply, hsome, -⟩
  exact absurd hsome (by simp [Round.silent])

theorem isQuit_iff (hnul : 0 ∉ text) (hw : WellFormed text) :
    IsQuit text ↔ (lineMessage text).tag = tagQuit := by
  constructor
  · exact fun h => tag_lineMessage (by decide) (.inl h.2)
  · intro h
    obtain ⟨tag, htag, hbegins⟩ := hw
    rw [tag_lineMessage htag (.inl hbegins)] at h
    exact ⟨hnul, h ▸ hbegins⟩

/-- An ok is a reply to a request that the server knows. -/
theorem known_of_reply (hnul : 0 ∉ text) (hw : WellFormed text)
    (h : (handleRequest user (lineMessage text)).reply.tag ≠ tagErr) : Known text := by
  obtain ⟨tag, htag, hbegins⟩ := hw
  refine ⟨hnul, tag, ?_, hbegins⟩
  by_contra hother
  rw [← tag_lineMessage htag (.inl hbegins)] at hother
  rw [handleRequest_other hother] at h
  exact h rfl

/-- The room after a well-formed line is the one that the handler sets. -/
theorem handleRequest_room (hnul : 0 ∉ text) (hw : WellFormed text)
    (hquit : (lineMessage text).tag ≠ tagQuit) :
    (handleRequest user (lineMessage text)).user.roomName = roomAfter user.roomName text := by
  obtain ⟨tag, htag, hbegins⟩ := hw
  obtain ⟨hmsg, hdata⟩ := lineMessage_of_tag htag hbegins
  have hcase : ∀ {t : Str}, t ∈ standardTags → (t ++ [58] <+: text ↔ tag = t) := by
    intro t ht
    constructor
    · intro hp
      exact hmsg.symm.trans (tag_lineMessage ht (.inl hp))
    · rintro rfl
      exact hbegins
  rw [hmsg] at hquit
  rw [handleRequest_user, hmsg, roomAfter]
  simp only [hcase (t := tagJoin) (by decide), hcase (t := tagLeave) (by decide), hquit, or_false]
  by_cases hjoin : tag = tagJoin
  · have hpayload : 0 ∉ text.drop (tag.length + 1) ++ [10] := by
      rw [List.mem_append, not_or]
      exact ⟨fun hmem => hnul (List.mem_of_mem_drop hmem), by decide⟩
    rw [if_pos hjoin, if_pos hjoin, hdata, cString_of_no_nul hpayload, List.dropLast_concat, hjoin]
    rfl
  · rw [if_neg hjoin, if_neg hjoin]

/-- Which lines with a NUL are fine. -/
theorem lineFine_of_nul {room : Str} (hnul : 0 ∈ text)
    (hstd : (lineMessage text).tag ∈ standardTags) :
    LineFine room text ↔ (lineMessage text).tag ≠ tagJoin ∧ (lineMessage text).tag ≠ tagQuit ∧
      ((lineMessage text).tag = tagSendall ∨ (lineMessage text).tag = tagLeave → room = []) := by
  rw [LineFine, if_pos hnul]
  constructor
  · rintro ⟨tag, htag, hbegins, hrest⟩
    rw [tag_lineMessage htag hbegins]
    exact hrest
  · intro hrest
    obtain ⟨tag, htag, hbegins⟩ : ∃ tag ∈ standardTags,
        tag ++ [58] <+: text ∨ tag ++ [0] <+: text := by
      rcases wellFormed_or_nul hstd with ⟨tag, htag, hbegins⟩ | ⟨tag, htag, hbegins⟩
      · exact ⟨tag, htag, .inl hbegins⟩
      · exact ⟨tag, htag, .inr hbegins⟩
    rw [tag_lineMessage htag hbegins] at hrest
    exact ⟨tag, htag, hbegins, hrest⟩

/-- A line that is fine and has a NUL leaves the room as it is. -/
theorem roomAfter_of_nul {room : Str} (hnul : 0 ∈ text) (hfine : LineFine room text) :
    roomAfter room text = room := by
  rw [LineFine, if_pos hnul] at hfine
  obtain ⟨tag, htag, hbegins, hjoin, -, hroom⟩ := hfine
  have hcase : ∀ {t : Str}, t ∈ standardTags → t ++ [58] <+: text → tag = t := fun ht hp =>
    (tag_lineMessage htag hbegins).symm.trans (tag_lineMessage ht (.inl hp))
  rw [roomAfter, if_neg fun hp => hjoin (hcase (by decide) hp)]
  split
  · next hleave => exact (hroom (.inr (hcase (by decide) hleave))).symm
  · rfl

/-- A line that is fine is read as a message. -/
theorem LineFine.standard {room : Str} (h : LineFine room text) :
    (lineMessage text).tag ∈ standardTags := by
  unfold LineFine at h
  split at h
  · obtain ⟨tag, htag, hbegins, -⟩ := h
    rw [tag_lineMessage htag hbegins]
    exact htag
  · obtain ⟨tag, htag, hbegins⟩ := h
    rw [tag_lineMessage htag (.inl hbegins)]
    exact htag

theorem LineFine.wellFormed {room : Str} (h : LineFine room text) (hnul : 0 ∉ text) :
    WellFormed text := by
  rw [LineFine, if_neg hnul] at h
  exact h

/-- The reply to a line that is read as a message is the right one exactly if the line is
fine. -/
theorem replyFits_iff {round : Round} (hstd : (lineMessage text).tag ∈ standardTags)
    (hreply : round.reply = some (handleRequest user (lineMessage text)).reply) :
    ReplyFits text round ↔ LineFine user.roomName text := by
  by_cases hnul : 0 ∈ text
  · -- no request of the grammar: it takes an err
    rw [lineFine_of_nul hnul hstd, ← handleRequest_err_iff]
    constructor
    · rintro ⟨reply, hsome, -, hmust⟩
      rw [← Option.some.inj (hsome.symm.trans hreply)]
      exact hmust fun h => h.1 hnul
    · exact fun h => ⟨_, hreply, .inr h, fun _ => h⟩
  · have hw : WellFormed text := by
      refine (wellFormed_or_nul hstd).resolve_right ?_
      rintro ⟨tag, -, hbegins⟩
      exact hnul (hbegins.subset (List.mem_append_right _ List.mem_cons_self))
    have hfine : LineFine user.roomName text := (if_neg hnul).mpr hw
    refine iff_of_true ⟨_, hreply, handleRequest_reply _ _, fun hn => ?_⟩ hfine
    by_contra hok
    exact hn (known_of_reply hnul hw hok)

/-- A line that is fine ends the loop exactly if it is a quit. -/
theorem LineFine.exit_iff (h : LineFine user.roomName text) :
    (handleRequest user (lineMessage text)).exitCase = true ↔ IsQuit text := by
  rw [handleRequest_exit_iff]
  by_cases hnul : 0 ∈ text
  · exact iff_of_false ((lineFine_of_nul hnul h.standard).mp h).2.1 fun hquit => hquit.1 hnul
  · exact (isQuit_iff hnul (h.wellFormed hnul)).symm

/-- Otherwise it leads to the room that it says. -/
theorem LineFine.room (h : LineFine user.roomName text) (hquit : ¬IsQuit text) :
    (handleRequest user (lineMessage text)).user.roomName = roomAfter user.roomName text := by
  by_cases hnul : 0 ∈ text
  · obtain ⟨huser, -, -⟩ :=
      handleRequest_err (handleRequest_err_iff.mpr ((lineFine_of_nul hnul h.standard).mp h))
    rw [huser, roomAfter_of_nul hnul h]
  · have hw := h.wellFormed hnul
    exact handleRequest_room hnul hw fun htag => hquit ((isQuit_iff hnul hw).mpr htag)

/-- On `serve`: each line up to the first quit has its reply exactly when each of
these lines is fine. -/
theorem forall₂_replyFits_iff : ∀ {lines : List Str} {user : User},
    List.Forall₂ ReplyFits (upToQuit lines) (serve user (upToQuit lines)) ↔
      Fine user.roomName lines := by
  intro lines
  induction lines with
  | nil => exact fun {_} => ⟨fun _ => trivial, fun _ => .nil⟩
  | cons text lines ih =>
      intro user
      obtain ⟨rest, hrest⟩ : ∃ rest, upToQuit (text :: lines) = text :: rest := by
        rw [upToQuit]
        split
        · exact ⟨_, rfl⟩
        · exact ⟨_, rfl⟩
      rw [Fine]
      by_cases hstd : (lineMessage text).tag ∈ standardTags
      · by_cases hfine : LineFine user.roomName text
        · by_cases hquit : IsQuit text
          · rw [upToQuit, if_pos hquit, serve_request hstd, if_pos (hfine.exit_iff.mpr hquit)]
            exact iff_of_true (.cons ((replyFits_iff hstd rfl).mpr hfine) .nil)
              ⟨hfine, .inl hquit⟩
          · rw [upToQuit, if_neg hquit, serve_request hstd, if_neg (mt hfine.exit_iff.mp hquit),
              List.forall₂_cons, replyFits_iff hstd rfl, ih, hfine.room hquit]
            exact and_congr_right fun _ => (or_iff_right hquit).symm
        · -- whatever the lines behind it are
          rw [hrest, serve_request hstd, List.forall₂_cons, replyFits_iff hstd rfl]
          exact iff_of_false (fun h => hfine h.1) fun h => hfine h.1
      · -- a line that is not read as a message has no reply
        rw [hrest, serve_silent hstd, List.forall₂_cons]
        exact iff_of_false (fun h => not_replyFits_silent h.1) fun h => hstd h.1.standard

/-! ## Runs of the loop -/

/-- The loop answers each line up to the first quit with one reply, in order. -/
def Answered (s : Sender) (lines : List Str) : Prop :=
  ∃ rounds final, chatWithSender (upToQuit lines).length s = some (rounds, final) ∧
    List.Forall₂ ReplyFits (upToQuit lines) rounds ∧
    final.conn.output = s.conn.output ++ (replies rounds).flatMap encode

theorem upToQuit_prefix_lines (lines : List Str) : upToQuit lines <+: lines := by
  induction lines with
  | nil => exact List.prefix_rfl
  | cons text lines ih =>
      rw [upToQuit]
      split
      · exact ⟨lines, rfl⟩
      · exact (List.prefix_cons_inj text).mpr ih

/-- A logged-in sender in no room, whatever lines it sends and however they
arrive: while the sends succeed, each line has its one reply exactly when each
is fine. -/
theorem answered_iff_fine (hroom : s.user.roomName = []) (hopen : s.conn.isOpen = true)
    (hexit : s.exitCase = false) (hfits : ∀ text ∈ lines, Fits text)
    (hitems : s.conn.fdbuf.items = (lines.flatMap (· ++ [10])).map .byte ++ rest)
    (hsends : SendsSucceed s.conn.writes (replies (serve s.user (upToQuit lines)))) :
    Answered s lines ↔ Fine [] lines := by
  obtain ⟨more, hmore⟩ := upToQuit_prefix_lines lines
  have hfits' : ∀ text ∈ upToQuit lines, Fits text :=
    fun text htext => hfits text ((upToQuit_prefix_lines lines).subset htext)
  have hitems' : s.conn.fdbuf.items = ((upToQuit lines).flatMap (· ++ [10])).map .byte ++
      ((more.flatMap (· ++ [10])).map .byte ++ rest) := by
    rw [hitems, ← List.append_assoc, ← List.map_append, ← List.flatMap_append, hmore]
  obtain ⟨final, hrun, houtput⟩ := chatWithSender_lines hfits' hitems' hopen hexit hsends
  have hserved : Answered s lines ↔
      List.Forall₂ ReplyFits (upToQuit lines) (serve s.user (upToQuit lines)) := by
    constructor
    · intro h
      obtain ⟨rounds, final', hrun', hall, -⟩ := h
      rw [hrun, Option.some.injEq, Prod.mk.injEq] at hrun'
      rw [hrun'.1]
      exact hall
    · exact fun hall => ⟨_, final, hrun, hall, houtput⟩
  rw [hserved, forall₂_replyFits_iff, hroom]

end

/-- A sender called ann that has just logged in. -/
def loggedIn (reads : List ReadResult) (writes : List WriteResult) : Sender :=
  { conn := .new reads writes, clientMsg := { tag := tagSlogin, data := ascii "ann\n" }
    user := .new (ascii "ann"), exitCase := false }

/-- A line without a colon gets no reply at all. -/
theorem hello_not_answered : (∀ text ∈ [ascii "hello"], Fits text) ∧
    (loggedIn [.bytes (ascii "hello\n")] []).conn.fdbuf.items =
      ([ascii "hello"].flatMap (· ++ [10])).map .byte ∧
    SendsSucceed (loggedIn [.bytes (ascii "hello\n")] []).conn.writes
      (replies (serve (.new (ascii "ann")) (upToQuit [ascii "hello"]))) ∧
    ¬ Answered (loggedIn [.bytes (ascii "hello\n")] []) [ascii "hello"] := by
  refine ⟨by decide, by decide, trivial, ?_⟩
  intro h
  obtain ⟨rounds, final, hrun, hall, -⟩ := h
  have hsilent : chatWithSender (upToQuit [ascii "hello"]).length
      (loggedIn [.bytes (ascii "hello\n")] []) = some ([.silent], _) := rfl
  rw [hsilent, Option.some.injEq, Prod.mk.injEq] at hrun
  rw [← hrun.1] at hall
  obtain ⟨reply, hsome, -⟩ := (List.forall₂_cons.mp hall).1
  exact absurd hsome (by simp [Round.silent])

/-- Requests of every kind, one of them a bare tag before a NUL, and a line after
the quit. -/
def sixLines : List Str :=
  [ascii "join:r", ascii "sendall:hi", ascii "senduser" ++ [0] ++ ascii "x", ascii "leave:",
    ascii "quit:", ascii "after"]

/-- Each reply is taken whole, the second in two writes with an interruption
between. -/
def sixWrites : List WriteResult :=
  [.wrote 16 (Nat.succ_pos 15), .wrote 3 (Nat.succ_pos 2), .nothing true,
    .wrote 14 (Nat.succ_pos 13), .wrote 21 (Nat.succ_pos 20), .wrote 14 (Nat.succ_pos 13),
    .wrote 13 (Nat.succ_pos 12)]

theorem answered_iff_fine_six :
    Answered (loggedIn [.bytes (sixLines.flatMap (· ++ [10]))] sixWrites) sixLines := by
  have hitems : (loggedIn [.bytes (sixLines.flatMap (· ++ [10]))] sixWrites).conn.fdbuf.items =
      (sixLines.flatMap (· ++ [10])).map .byte ++ [] := by decide
  have hsends : SendsSucceed sixWrites
      (replies (serve (.new (ascii "ann")) (upToQuit sixLines))) :=
    ⟨_, _, rfl, _, _, rfl, _, _, rfl, _, _, rfl, _, _, rfl, trivial⟩
  refine (answered_iff_fine rfl rfl rfl (by decide) hitems hsends).mpr ?_
  exact ⟨by decide, .inr ⟨by decide, .inr ⟨by decide, .inr ⟨by decide, .inr
    ⟨by decide, .inl (by decide)⟩⟩⟩⟩⟩

end Csf.Chat
