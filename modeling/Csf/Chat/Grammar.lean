import Csf.Chat.Connection

/-!
# Chat: the message grammar

The next line of a stream, as it stands there, and what `receive` makes of it. Lines that
are short, terminated and without a NUL are parsed by the grammar; of any other the reader
passes on a part, and `receive` accepts that part if it begins like a message. What is left of
a line is the next thing that is read, so a `Place` says whether a line begins there.
-/

namespace Csf.Chat

/-- What comes after the characters of a line; `pending` where nothing has come yet. -/
inductive Ending where
  | newline
  | eof
  | error
  | pending
deriving DecidableEq, Repr

/-- The characters of the next line of a stream, and what ends it. -/
def nextLine : List Item → Str × Ending
  | [] => ([], .pending)
  | .byte c :: rest =>
      if c = 10 then ([], .newline) else (c :: (nextLine rest).1, (nextLine rest).2)
  | .eof :: _ => ([], .eof)
  | .error :: _ => ([], .error)

/-- The next line is a message: a standard tag, a colon and a payload, without a NUL, of at
most `MAX_LEN` characters with the newline. The data are the payload with the newline. -/
def Grammatical (items : List Item) (msg : Message) : Prop :=
  ∃ payload, nextLine items = (msg.tag ++ 58 :: payload, .newline) ∧ msg.tag ∈ standardTags ∧
    0 ∉ msg.tag ++ 58 :: payload ∧ (msg.tag ++ 58 :: payload).length + 1 ≤ maxLen ∧
    msg.data = payload ++ [10]

/-- Where a reader stands in a stream: what is still to come, and whether a line begins
there. -/
structure Place where
  items : List Item
  fresh : Bool

/-- The characters from there to the end of the line. -/
def Place.line (p : Place) : Str := (nextLine p.items).1

def Place.ending (p : Place) : Ending := (nextLine p.items).2

/-- The place where the next call reads on: still in the same line, if that has no room in the
buffer or a read error comes in it. -/
def Place.next (p : Place) : Place :=
  if p.line.length < maxLen - 1 then
    { items := p.items.drop (p.line.length + 1)
      fresh := if p.ending = .error then p.fresh && p.line.isEmpty else true }
  else { items := p.items.drop (maxLen - 1), fresh := false }

/-- The place after `n` calls. -/
def place (items : List Item) (n : ℕ) : Place := Place.next^[n] { items := items, fresh := true }

/-- The connection after `n` calls of `receive`, into any messages. -/
inductive Connection.Calls (c : Connection) : ℕ → Connection → Prop
  | zero : c.Calls 0 c
  | succ {n : ℕ} {c₁ c₂ : Connection} {into msg : Message} {ok : Bool} (hcalls : c.Calls n c₁)
      (hreceive : c₁.receive into = some (ok, msg, c₂)) : c.Calls (n + 1) c₂

/-- A call accepts just what the grammar allows: the message of a line that begins here, as
the message that it is, and nothing from the middle of a line. -/
def Connection.ExactAt (c : Connection) (p : Place) : Prop :=
  ∀ into msg, (∃ c', c.receive into = some (true, msg, c')) ↔
    p.fresh = true ∧ Grammatical p.items msg

/-- So does every call, however many came before it. -/
def ReceivesExactly (c : Connection) : Prop :=
  ∀ n c', c.Calls n c' → c'.ExactAt (place c.fdbuf.items n)

/-- A line that is read from its beginning to its newline, and as one string. -/
structure Place.Whole (p : Place) : Prop where
  fresh : p.fresh = true
  newline : p.ending = .newline
  room : p.line.length + 1 < maxLen
  nul : 0 ∉ p.line

/-- What the buffer has room for of the line and its newline. -/
def Place.passed (p : Place) : Str :=
  (if p.ending = .newline then p.line ++ [10] else p.line).take (maxLen - 1)

/-- `receive` does not take for a message here what is none: the line is read whole; or it is
not read to its end; or what the buffer has room for does not begin like a message. -/
def Place.Harmless (p : Place) : Prop :=
  p.Whole ∨ (p.ending = .error ∨ p.ending = .pending) ∧ p.line.length + 1 < maxLen ∨
    ¬Begins (cString p.passed)

/-- What the line that begins here asks for with a tag: the text behind the colon, whatever it
is and however long. -/
def Place.asked (tag : Str) (p : Place) : Option Str :=
  if p.fresh = true ∧ p.ending = .newline ∧ tag ++ [58] <+: p.line then
    some (p.line.drop (tag.length + 1))
  else none

/-! ## What is read of a line -/

/-- The result of the loop of `rio_readlineb` with room for `left` more characters. -/
def lineResult (left : Nat) (before text : Str) (ending : Ending) : Option LineResult :=
  if left ≤ text.length then some (.line (before ++ text.take left))
  else match ending with
    | .newline => some (.line (before ++ text ++ [10]))
    | .eof => some (if before ++ text = [] then .eof else .line (before ++ text))
    | .error => some .error
    | .pending => none

theorem refill_nil : ∀ {fd : List ReadResult}, fd.flatMap ReadResult.items = [] →
    refill fd = none := by
  intro fd
  induction fd with
  | nil => exact fun _ => rfl
  | cons result fd ih =>
      intro h
      rw [List.flatMap_cons, List.append_eq_nil_iff] at h
      match result with
      | .bytes [] => exact absurd h.1 (by simp [ReadResult.items])
      | .bytes (c :: text) => exact absurd h.1 (by simp [ReadResult.items])
      | .failed true => exact ih h.2
      | .failed false => exact absurd h.1 (by simp [ReadResult.items])

/-- At the end of what has come, a read waits. -/
theorem rioRead_nil {rp : Rio} (h : rp.items = []) : rioRead rp = none := by
  rw [Rio.items, List.append_eq_nil_iff, List.map_eq_nil_iff] at h
  rw [rioRead, h.1]
  exact refill_nil h.2

/-- The loop reads the next line as far as it has room. -/
theorem readlineLoop_eq {items : List Item} : ∀ (left : Nat) (before : Str) {rp : Rio},
    rp.items = items → (readlineLoop left before rp).map Prod.fst =
      lineResult left before (nextLine items).1 (nextLine items).2 := by
  induction items with
  | nil =>
      intro left before rp h
      cases left with
      | zero => simp [readlineLoop, lineResult]
      | succ left =>
          rw [readlineLoop, rioRead_nil h]
          simp [nextLine, lineResult]
  | cons i rest ih =>
      intro left before rp h
      cases left with
      | zero => simp [readlineLoop, lineResult]
      | succ left =>
          obtain ⟨rp', hread, hrest⟩ := rioRead_cons h
          rw [readlineLoop, hread]
          cases i with
          | eof =>
              by_cases hempty : before = [] <;> simp [nextLine, lineResult, hempty]
          | error => simp [nextLine, lineResult]
          | byte c =>
              by_cases hc : c = 10
              · simp [nextLine, lineResult, hc]
              · -- one more character stored, one place less
                have hstep := ih left (before ++ [c]) hrest
                simp only [hc, if_false, hstep, nextLine, lineResult, List.length_cons,
                  Nat.add_le_add_iff_right, List.take_succ_cons, List.append_assoc,
                  List.singleton_append]

/-- And it leaves what is behind that. -/
theorem readlineLoop_items {items : List Item} : ∀ (left : Nat) (before : Str) {rp rp' : Rio}
    {result : LineResult}, rp.items = items → readlineLoop left before rp = some (result, rp') →
    rp'.items = items.drop (min left ((nextLine items).1.length + 1)) := by
  induction items with
  | nil =>
      intro left before rp rp' result h hloop
      cases left with
      | zero =>
          obtain ⟨-, rfl⟩ := Prod.mk.inj (Option.some.inj hloop)
          simpa using h
      | succ left =>
          rw [readlineLoop, rioRead_nil h] at hloop
          exact absurd hloop (by simp)
  | cons i rest ih =>
      intro left before rp rp' result h hloop
      cases left with
      | zero =>
          obtain ⟨-, rfl⟩ := Prod.mk.inj (Option.some.inj hloop)
          simpa using h
      | succ left =>
          obtain ⟨rp₁, hread, hrest⟩ := rioRead_cons h
          rw [readlineLoop, hread] at hloop
          cases i with
          | eof =>
              obtain ⟨-, rfl⟩ := Prod.mk.inj (Option.some.inj hloop)
              simp [nextLine, hrest]
          | error =>
              obtain ⟨-, rfl⟩ := Prod.mk.inj (Option.some.inj hloop)
              simp [nextLine, hrest]
          | byte c =>
              by_cases hc : c = 10
              · simp only [hc, if_true] at hloop
                obtain ⟨-, rfl⟩ := Prod.mk.inj (Option.some.inj hloop)
                simp [nextLine, hc, hrest]
              · simp only [hc, if_false] at hloop
                rw [ih left (before ++ [c]) hrest hloop, nextLine, if_neg hc, List.length_cons,
                  Nat.add_min_add_right, List.drop_succ_cons]

theorem newline_notMem_nextLine (items : List Item) : 10 ∉ (nextLine items).1 := by
  induction items with
  | nil => simp [nextLine]
  | cons i rest ih =>
      cases i with
      | eof => simp [nextLine]
      | error => simp [nextLine]
      | byte c =>
          by_cases hc : c = 10
          · simp [nextLine, hc]
          · simp [nextLine, hc, ih, Ne.symm hc]

/-! ## What is made of it -/

/-- The message that a call takes here, if it accepts one. -/
def Place.message (p : Place) : Option Message :=
  match lineResult (maxLen - 1) [] p.line p.ending with
  | some (.line l) =>
      if (parse (cString l)).tag ∈ standardTags then some (parse (cString l)) else none
  | _ => none

section

variable {c c' : Connection} {p : Place} {into msg : Message} {ok : Bool}

theorem newline_notMem_line (p : Place) : 10 ∉ p.line := newline_notMem_nextLine p.items

theorem message_eq_some : p.message = some msg ↔
    ∃ l, lineResult (maxLen - 1) [] p.line p.ending = some (.line l) ∧ parse (cString l) = msg ∧
      msg.tag ∈ standardTags := by
  unfold Place.message
  constructor
  · intro h
    split at h
    · next l hl =>
        split at h
        · next htag =>
            obtain rfl := Option.some.inj h
            exact ⟨l, hl, rfl, htag⟩
        · exact absurd h (by simp)
    · exact absurd h (by simp)
  · rintro ⟨l, hl, rfl, htag⟩
    simp only [hl]
    exact if_pos htag

/-- `receive` is true on a line that is parsed to a message with a standard tag. -/
theorem receive_true_iff (h : c.fdbuf.items = p.items) :
    (∃ c', c.receive into = some (true, msg, c')) ↔ p.message = some msg := by
  have hread : (readlineLoop (maxLen - 1) [] c.fdbuf).map Prod.fst =
      lineResult (maxLen - 1) [] p.line p.ending := readlineLoop_eq _ _ h
  rw [message_eq_some, ← hread]
  constructor
  · rintro ⟨c', h⟩
    obtain ⟨l, fdbuf, hrun, hmsg, htag⟩ := receive_eq_true h
    exact ⟨l, Option.map_eq_some_iff.mpr ⟨_, hrun, rfl⟩, hmsg, htag⟩
  · rintro ⟨l, hl, rfl, htag⟩
    obtain ⟨⟨result, fdbuf⟩, hrun, rfl⟩ := Option.map_eq_some_iff.mp hl
    refine ⟨{ c with fdbuf := fdbuf, lastResult := .success }, (receive_of_line hrun).trans ?_⟩
    rw [Connection.accept]
    exact congrArg some (if_pos htag)

theorem message_of_receive (h : c.fdbuf.items = p.items)
    (hreceive : c.receive into = some (ok, msg, c')) :
    p.message = if ok = true then some msg else none := by
  cases ok with
  | true => exact (receive_true_iff h).mp ⟨c', hreceive⟩
  | false =>
      -- a call that accepts a message is not one that accepts none
      show p.message = none
      by_contra hne
      obtain ⟨msg', hmsg⟩ := Option.ne_none_iff_exists'.mp hne
      obtain ⟨c'', htrue⟩ : ∃ c'', c.receive into = some (true, msg', c'') :=
        (receive_true_iff h).mpr hmsg
      rw [hreceive] at htrue
      exact absurd (Prod.mk.inj (Option.some.inj htrue)).1 (by simp)

theorem next_items (p : Place) :
    p.next.items = p.items.drop (min (maxLen - 1) (p.line.length + 1)) := by
  unfold Place.next
  split
  · rw [Nat.min_eq_right (by omega)]
  · rw [Nat.min_eq_left (by omega)]

/-- A call leaves the reader at the next place. -/
theorem receive_items (h : c.fdbuf.items = p.items)
    (hreceive : c.receive into = some (ok, msg, c')) : c'.fdbuf.items = p.next.items := by
  obtain ⟨⟨result, fdbuf⟩, hread, hsplit⟩ := Option.map_eq_some_iff.mp hreceive
  have hfdbuf : c'.fdbuf = fdbuf := by
    cases result with
    | line l =>
        simp only at hsplit
        split_ifs at hsplit <;> rw [← (Prod.mk.inj (Prod.mk.inj hsplit).2).2]
    | eof => rw [← (Prod.mk.inj (Prod.mk.inj hsplit).2).2]
    | error => rw [← (Prod.mk.inj (Prod.mk.inj hsplit).2).2]
  rw [hfdbuf, next_items]
  exact readlineLoop_items _ _ h hread

/-- A call waits only at the end of what has come. -/
theorem receive_eq_none (h : c.fdbuf.items = p.items) (hnone : c.receive into = none) :
    p.ending = .pending ∧ p.line.length < maxLen - 1 := by
  have hread : (readlineLoop (maxLen - 1) [] c.fdbuf).map Prod.fst =
      lineResult (maxLen - 1) [] p.line p.ending := readlineLoop_eq _ _ h
  have hloop : readlineLoop (maxLen - 1) [] c.fdbuf = none := Option.map_eq_none_iff.mp hnone
  rw [hloop, lineResult.eq_def] at hread
  split at hread
  · exact absurd hread (by simp)
  · next hroom =>
      cases hend : p.ending with
      | pending => exact ⟨rfl, by omega⟩
      | newline => exact absurd hread (by simp [hend])
      | eof => exact absurd hread (by simp [hend])
      | error => exact absurd hread (by simp [hend])

theorem nextLine_pending {items : List Item} (h : (nextLine items).2 = .pending) :
    items = (nextLine items).1.map .byte := by
  induction items with
  | nil => rfl
  | cons i rest ih =>
      cases i with
      | eof => exact absurd h (by simp [nextLine])
      | error => exact absurd h (by simp [nextLine])
      | byte c =>
          by_cases hc : c = 10
          · exact absurd h (by simp [nextLine, hc])
          · rw [nextLine, if_neg hc] at h ⊢
            rw [List.map_cons, ← ih h]

/-- Behind a line that is waited for, nothing has come. -/
theorem next_items_pending (h : p.ending = .pending) (hroom : p.line.length < maxLen - 1) :
    p.next.items = [] := by
  rw [next_items, Nat.min_eq_right hroom, List.drop_eq_nil_iff, nextLine_pending h,
    List.length_map]
  exact Nat.le_succ _

/-- What a line that is passed on consists of is what there is room for. -/
theorem lineResult_eq {l : Str} (hl : lineResult (maxLen - 1) [] p.line p.ending = some (.line l)) :
    l = p.passed := by
  unfold lineResult at hl
  unfold Place.passed
  split at hl
  · next hroom =>
      cases hl
      split
      · rw [List.take_append_of_le_length hroom, List.nil_append]
      · rw [List.nil_append]
  · next hroom =>
      cases hend : p.ending with
      | error => exact absurd hl (by simp [hend])
      | pending => exact absurd hl (by simp [hend])
      | eof =>
          simp only [hend, List.nil_append] at hl
          split at hl
          · exact absurd hl (by simp)
          · cases hl
            rw [if_neg (by simp), List.take_of_length_le (by omega)]
      | newline =>
          simp only [hend, List.nil_append] at hl
          cases hl
          rw [if_pos rfl, List.take_of_length_le (by rw [List.length_append]; simp; omega)]

/-- A line is passed on unless the call waits, fails or is at the end of the stream. -/
theorem lineResult_passed (hread : ¬((p.ending = .error ∨ p.ending = .pending) ∧
    p.line.length + 1 < maxLen)) (hne : p.passed ≠ []) :
    lineResult (maxLen - 1) [] p.line p.ending = some (.line p.passed) := by
  obtain ⟨l, hl⟩ : ∃ l, lineResult (maxLen - 1) [] p.line p.ending = some (.line l) := by
    unfold lineResult
    split
    · exact ⟨_, rfl⟩
    · next hroom =>
        have hlen : p.line.length + 1 < maxLen := by omega
        cases hend : p.ending with
        | error => exact absurd ⟨.inl hend, hlen⟩ hread
        | pending => exact absurd ⟨.inr hend, hlen⟩ hread
        | newline => exact ⟨_, rfl⟩
        | eof =>
            have hline : p.line ≠ [] := by
              intro hnil
              rw [Place.passed, if_neg (by simp [hend]), hnil] at hne
              exact hne rfl
            exact ⟨p.line, by simp [hline]⟩
  rw [hl, lineResult_eq hl]

/-- A message is taken here just if what is passed on begins like one. -/
theorem isSome_message_iff : (∃ msg, p.message = some msg) ↔
    ¬((p.ending = .error ∨ p.ending = .pending) ∧ p.line.length + 1 < maxLen) ∧
      Begins (cString p.passed) := by
  constructor
  · rintro ⟨msg, hmsg⟩
    obtain ⟨l, hl, rfl, htag⟩ := message_eq_some.mp hmsg
    refine ⟨?_, lineResult_eq hl ▸ begins_iff.mpr htag⟩
    rintro ⟨hend, hroom⟩
    rw [lineResult.eq_def, if_neg (by omega)] at hl
    rcases hend with hend | hend <;> exact absurd hl (by simp [hend])
  · rintro ⟨hread, hbegins⟩
    have hne : p.passed ≠ [] := by
      intro hnil
      rw [hnil, begins_iff] at hbegins
      exact absurd hbegins (by decide)
    exact ⟨_, message_eq_some.mpr
      ⟨_, lineResult_passed hread hne, rfl, begins_iff.mp hbegins⟩⟩

theorem Place.Whole.passed_eq (h : p.Whole) : p.passed = p.line ++ [10] := by
  have hroom := h.room
  rw [Place.passed, if_pos h.newline, List.take_of_length_le]
  rw [List.length_append, List.length_singleton]
  omega

/-- A whole line is parsed by the grammar. -/
theorem Place.Whole.message_iff (h : p.Whole) : p.message = some msg ↔ Grammatical p.items msg := by
  have hresult : lineResult (maxLen - 1) [] p.line p.ending = some (.line (p.line ++ [10])) := by
    rw [← h.passed_eq]
    refine lineResult_passed ?_ (by rw [h.passed_eq]; simp)
    rintro ⟨hend | hend, -⟩ <;> exact absurd (h.newline.symm.trans hend) (by simp)
  have hstring : cString (p.line ++ [10]) = p.line ++ [10] :=
    cString_of_no_nul (by simpa using h.nul)
  rw [message_eq_some, hresult]
  constructor
  · rintro ⟨l, hl, hparse, htag⟩
    cases hl
    rw [hstring, parse_eq_iff htag] at hparse
    rcases hparse with hs | ⟨hs, -⟩
    · -- the newline ends the data, as it is no colon
      obtain ⟨payload, hdata⟩ : ∃ payload, msg.data = payload ++ [10] := by
        rcases List.eq_nil_or_concat' msg.data with hnil | ⟨payload, last, hlast⟩
        · rw [hnil] at hs
          exact absurd (List.append_inj_right' hs rfl) (by decide)
        · rw [hlast, ← List.cons_append, ← List.append_assoc] at hs
          obtain rfl : 10 = last := by simpa using List.append_inj_right' hs rfl
          exact ⟨payload, hlast⟩
      rw [hdata, ← List.cons_append, ← List.append_assoc] at hs
      have hline := List.append_inj_left' hs rfl
      have hnul := h.nul
      have hroom := h.room
      rw [hline] at hnul hroom
      exact ⟨payload, Prod.ext hline h.newline, htag, hnul, hroom.le, hdata⟩
    · exact absurd (hs ▸ (plain_of_standard htag).2.1) (by simp)
  · rintro ⟨payload, hline, htag, -, -, hdata⟩
    have htext : p.line = msg.tag ++ 58 :: payload := congrArg Prod.fst hline
    refine ⟨_, rfl, ?_, htag⟩
    rw [hstring, parse_eq_iff htag, hdata, htext]
    exact .inl (by simp)

/-- A message that is taken as the grammar says is a whole line. -/
theorem whole_of_grammatical (hfresh : p.fresh = true) (hmsg : p.message = some msg)
    (hgram : Grammatical p.items msg) : p.Whole := by
  obtain ⟨payload, hline, htag, hnul, hlen, hdata⟩ := hgram
  have htext : p.line = msg.tag ++ 58 :: payload := congrArg Prod.fst hline
  have hend : p.ending = .newline := congrArg Prod.snd hline
  rw [← htext] at hnul hlen
  refine ⟨hfresh, hend, lt_of_le_of_ne hlen ?_, hnul⟩
  -- a line of the full length loses its newline
  intro hfull
  obtain ⟨l, hl, hparse, -⟩ := message_eq_some.mp hmsg
  have hpassed : p.passed = p.line := by
    rw [Place.passed, if_pos hend, List.take_append_of_le_length (by omega),
      List.take_of_length_le (by omega)]
  rw [lineResult_eq hl, hpassed, cString_of_no_nul hnul, htext,
    parse_colon (plain_of_standard htag).1] at hparse
  rw [← hparse] at hdata
  exact absurd hdata (by simp)

/-! ## What is asked for and what is taken -/

section

variable {tag payload : Str}

theorem asked_eq_some : p.asked tag = some payload ↔
    p.fresh = true ∧ p.ending = .newline ∧ p.line = tag ++ 58 :: payload := by
  have hdrop : ∀ rest : Str, (tag ++ [58] ++ rest).drop (tag.length + 1) = rest := by
    intro rest
    have hlen : tag.length + 1 = (tag ++ [58]).length := by simp
    rw [hlen, List.drop_left]
  unfold Place.asked
  constructor
  · intro h
    split at h
    · next hasks =>
        obtain ⟨hfresh, hend, rest, hline⟩ := hasks
        rw [← hline, hdrop] at h
        rw [← hline, Option.some.inj h]
        exact ⟨hfresh, hend, by simp⟩
    · exact absurd h (by simp)
  · rintro ⟨hfresh, hend, hline⟩
    have hsplit : p.line = tag ++ [58] ++ payload := by simp [hline]
    rw [if_pos ⟨hfresh, hend, payload, hsplit.symm⟩, hsplit, hdrop]

/-- Of what a line asks for, `receive` takes what there is room for before a NUL. -/
theorem data_of_asked (hmsg : p.message = some msg) (hasked : p.asked msg.tag = some payload) :
    msg.data = cString ((payload ++ [10]).take (maxLen - 2 - msg.tag.length)) := by
  obtain ⟨l, hl, hparse, htag⟩ := message_eq_some.mp hmsg
  obtain ⟨hcolon, -, hnul⟩ := plain_of_standard htag
  have hshort : ∀ tag ∈ standardTags, tag.length + 2 ≤ maxLen := by decide
  have hroom := hshort msg.tag htag
  obtain ⟨-, hend, hline⟩ := asked_eq_some.mp hasked
  have hpassed : p.passed =
      (msg.tag ++ [58]) ++ (payload ++ [10]).take (maxLen - 2 - msg.tag.length) := by
    have hsplit : p.line ++ [10] = (msg.tag ++ [58]) ++ (payload ++ [10]) := by
      rw [hline]
      simp
    have hlen : maxLen - 1 = (msg.tag ++ [58]).length + (maxLen - 2 - msg.tag.length) := by
      rw [List.length_append, List.length_singleton]
      omega
    rw [Place.passed, if_pos hend, hsplit, hlen, List.take_length_add_append]
  have hplain : 0 ∉ msg.tag ++ [58] := by simp [hnul]
  rw [lineResult_eq hl, hpassed, cString_append hplain, List.append_assoc, List.singleton_append,
    parse_colon hcolon] at hparse
  exact (congrArg Message.data hparse).symm

/-- What is taken is asked for, from its first character on. -/
theorem taken_of_asked (hmsg : p.message = some msg) (hasked : p.asked msg.tag = some payload) :
    msg.data = payload ++ [10] ∨ msg.data <+: payload := by
  rw [← List.prefix_concat_iff, data_of_asked hmsg hasked]
  exact (cString_prefix_line _).trans (List.take_prefix _ _)

theorem dropLast_of_asked (hmsg : p.message = some msg)
    (hasked : p.asked msg.tag = some payload) : msg.data.dropLast <+: payload := by
  rcases taken_of_asked hmsg hasked with hdata | hdata
  · rw [hdata, List.dropLast_concat]
  · exact (List.dropLast_prefix _).trans hdata

/-- A whole line is taken as it was asked. -/
theorem Place.Whole.asked_eq (h : p.Whole) (hmsg : p.message = some msg) :
    p.asked msg.tag = some msg.data.dropLast := by
  obtain ⟨payload, hline, -, -, -, hdata⟩ := h.message_iff.mp hmsg
  rw [hdata, List.dropLast_concat]
  exact asked_eq_some.mpr ⟨h.fresh, h.newline, congrArg Prod.fst hline⟩

/-- And only a whole line is. -/
theorem whole_of_asked (hmsg : p.message = some msg) (hasked : p.asked msg.tag = some payload)
    (hlen : msg.data.dropLast.length = payload.length) : p.Whole := by
  obtain ⟨-, -, -, htag⟩ := message_eq_some.mp hmsg
  obtain ⟨-, -, hnul⟩ := plain_of_standard htag
  obtain ⟨hfresh, hend, hline⟩ := asked_eq_some.mp hasked
  have hlength : p.line.length = msg.tag.length + (payload.length + 1) := by
    rw [hline, List.length_append, List.length_cons]
  rcases taken_of_asked hmsg hasked with hdata | hdata
  · -- the newline is among what is taken, so there is room for it
    have hcut := data_of_asked hmsg hasked
    have hfits : payload.length + 1 ≤ maxLen - 2 - msg.tag.length := by
      have htaken := (cString_prefix_line _).length_le.trans_eq
        (List.length_take (l := payload ++ [10]) (i := maxLen - 2 - msg.tag.length))
      rw [← hcut, hdata, List.length_append, List.length_singleton] at htaken
      exact htaken.trans (Nat.min_le_left _ _)
    refine ⟨hfresh, hend, by omega, ?_⟩
    have hno : 0 ∉ payload ++ [10] := by
      rw [← hdata, hcut]
      exact nul_notMem_cString _
    rw [hline]
    simp only [List.mem_append, List.mem_cons, not_or] at hno ⊢
    exact ⟨hnul, by decide, hno.1⟩
  · -- nothing is taken, as nothing is asked
    have hempty : payload = [] := by
      by_contra hne
      have hpos := List.length_pos_iff.mpr hne
      have hle := hdata.length_le
      rw [List.length_dropLast] at hlen
      omega
    have hshort : ∀ tag ∈ standardTags, tag.length + 2 < maxLen := by decide
    refine ⟨hfresh, hend, ?_, ?_⟩
    · rw [hlength, hempty]
      exact hshort msg.tag htag
    · rw [hline, hempty]
      simp [hnul]

end

/-- One call accepts exactly the grammar at the places that do no harm. -/
theorem exactAt_iff (h : c.fdbuf.items = p.items) : c.ExactAt p ↔ p.Harmless := by
  constructor
  · intro hexact
    by_contra hharm
    obtain ⟨hwhole, hrest⟩ := not_or.mp hharm
    obtain ⟨hread, hbegins⟩ := not_or.mp hrest
    obtain ⟨msg, hmsg⟩ := isSome_message_iff.mpr ⟨hread, not_not.mp hbegins⟩
    obtain ⟨hfresh, hgram⟩ := (hexact msg msg).mp ((receive_true_iff h).mpr hmsg)
    exact hwhole (whole_of_grammatical hfresh hmsg hgram)
  · intro hfine into msg
    rw [receive_true_iff h]
    rcases hfine with hwhole | hnone
    · rw [hwhole.message_iff]
      exact (and_iff_right hwhole.fresh).symm
    · -- nothing is taken, and nothing begins here
      have htaken : p.message ≠ some msg := by
        intro hmsg
        obtain ⟨hread, hbegins⟩ := isSome_message_iff.mp ⟨msg, hmsg⟩
        exact hnone.elim hread fun hno => hno hbegins
      refine iff_of_false htaken ?_
      rintro ⟨hfresh, payload, hline, htag, hnul, hlen, hdata⟩
      have htext : p.line = msg.tag ++ 58 :: payload := congrArg Prod.fst hline
      have hend : p.ending = .newline := congrArg Prod.snd hline
      rw [← htext] at hnul hlen
      rcases hnone with ⟨herr | hpend, -⟩ | hbegins
      · exact absurd (hend.symm.trans herr) (by simp)
      · exact absurd (hend.symm.trans hpend) (by simp)
      · refine hbegins ⟨msg.tag, htag, .inr ?_⟩
        have hroom : (msg.tag ++ [58]).length ≤ maxLen - 1 := by
          rw [htext, List.length_append, List.length_cons] at hlen
          rw [List.length_append, List.length_singleton]
          omega
        rw [Place.passed, if_pos hend]
        rw [cString_of_no_nul fun hmem => ?_]
        · rw [List.prefix_take_iff]
          exact ⟨⟨payload ++ [10], by rw [htext]; simp⟩, hroom⟩
        · have := List.mem_of_mem_take hmem
          rw [List.mem_append, List.mem_singleton] at this
          exact this.elim hnul (by decide)

end

/-! ## Call after call -/

section

variable {c c' : Connection} {n : ℕ}

theorem place_succ (items : List Item) (n : ℕ) : place items (n + 1) = (place items n).next :=
  Function.iterate_succ_apply' _ _ _

/-- After `n` calls the reader stands at the `n`-th place. -/
theorem Connection.Calls.items (h : c.Calls n c') :
    c'.fdbuf.items = (place c.fdbuf.items n).items := by
  induction h with
  | zero => rfl
  | succ _ hreceive ih =>
      rw [place_succ]
      exact receive_items ih hreceive

/-- There are `n` calls, unless one before that waits for what has not come. -/
theorem exists_calls (c : Connection) (n : ℕ) :
    (∃ c', c.Calls n c') ∨ (place c.fdbuf.items n).items = [] := by
  induction n with
  | zero => exact .inl ⟨c, .zero⟩
  | succ n ih =>
      rw [place_succ]
      rcases ih with ⟨c', hcalls⟩ | hnil
      · cases hreceive : c'.receive ⟨[], []⟩ with
        | none =>
            obtain ⟨hend, hroom⟩ := receive_eq_none hcalls.items hreceive
            exact .inr (next_items_pending hend hroom)
        | some result =>
            obtain ⟨ok, msg, c''⟩ := result
            exact .inl ⟨c'', .succ hcalls hreceive⟩
      · rw [next_items, hnil, List.drop_nil]
        exact .inr rfl

/-- **The message grammar.** Every call of `receive` accepts exactly the grammar on the streams
whose lines do no harm, nor the parts that they are read in. -/
theorem receivesExactly_iff (c : Connection) :
    ReceivesExactly c ↔ ∀ n, (place c.fdbuf.items n).Harmless := by
  constructor
  · intro hexact n
    rcases exists_calls c n with ⟨c', hcalls⟩ | hnil
    · exact (exactAt_iff hcalls.items).mp (hexact n c' hcalls)
    · -- where nothing has come, nothing is taken
      refine .inr (.inl ?_)
      rw [Place.ending, Place.line, hnil]
      exact ⟨.inr rfl, by decide⟩
  · intro hfine n c' hcalls
    exact (exactAt_iff hcalls.items).mpr (hfine n)

end

/-- A connection from which one text can be read. -/
def Connection.reading (text : Str) : Connection := .new [.bytes text] []

theorem nextLine_reading {text : Str} (hn : 10 ∉ text) :
    nextLine (Connection.reading (text ++ [10])).fdbuf.items = (text, .newline) := by
  have hitems : (Connection.reading (text ++ [10])).fdbuf.items =
      text.map .byte ++ [.byte 10] := by
    cases text with
    | nil => rfl
    | cons c text => simp [Connection.reading, Connection.new, Rio.items, ReadResult.items]
  rw [hitems]
  clear hitems
  induction text with
  | nil => rfl
  | cons c text ih =>
      rw [List.mem_cons, not_or] at hn
      rw [List.map_cons, List.cons_append, nextLine, if_neg (Ne.symm hn.1), ih hn.2]

/-- A message of the full length loses its newline. -/
theorem fullLine_not_exact : ¬∀ c, ReceivesExactly c := by
  intro hall
  obtain ⟨n, hpayload⟩ : ∃ n, n = 251 := ⟨_, rfl⟩
  obtain ⟨text, htext⟩ : ∃ text, tagOk ++ [58] ++ List.replicate n 120 = text := ⟨_, rfl⟩
  have hlen : text.length + 1 = maxLen := by
    rw [← htext, List.length_append, List.length_replicate, hpayload]
    rfl
  have hmem : ∀ {c : UInt8}, c ∈ text → c ∈ tagOk ++ [58] ∨ c = 120 := by
    intro c hc
    rw [← htext] at hc
    exact (List.mem_append.mp hc).imp_right List.eq_of_mem_replicate
  have hnul : 0 ∉ text := fun hc => absurd (hmem hc) (by decide)
  have hn : 10 ∉ text := fun hc => absurd (hmem hc) (by decide)
  have hline := nextLine_reading hn
  obtain ⟨p, hp⟩ : ∃ p, place (Connection.reading (text ++ [10])).fdbuf.items 0 = p := ⟨_, rfl⟩
  have htaken : p.line = text := by
    rw [← hp]
    exact congrArg Prod.fst hline
  have hend : p.ending = .newline := by
    rw [← hp]
    exact congrArg Prod.snd hline
  have hexact := hall (.reading (text ++ [10])) 0 _ .zero
  rw [hp, exactAt_iff (by rw [← hp]; rfl)] at hexact
  rcases hexact with hwhole | ⟨hfail | hfail, -⟩ | hbegins
  · exact absurd hwhole.room (by rw [htaken]; exact hlen.not_lt)
  · exact absurd (hend.symm.trans hfail) (by simp)
  · exact absurd (hend.symm.trans hfail) (by simp)
  · have hpassed : p.passed = text := by
      rw [Place.passed, if_pos hend, htaken, List.take_append_of_le_length (by omega),
        List.take_of_length_le (by omega)]
    rw [hpassed, cString_of_no_nul hnul] at hbegins
    exact hbegins ⟨tagOk, by decide, .inr ⟨List.replicate n 120, htext⟩⟩

end Csf.Chat
