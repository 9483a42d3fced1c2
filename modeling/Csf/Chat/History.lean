import Csf.Chat.Rooms

/-!
# Chat: what a receiver is to get

A history is what a run has shown: the critical sections of the rooms in the
order in which their locks were taken, and what was dequeued. From it alone
follows which broadcasts each receiver is to get; nothing here looks at a state.
-/

namespace Csf.Chat

open Csf.Lib

variable {W : Type} [DecidableEq W]

/-- The name of the room that `u` is in, after an event. -/
def Event.memberOf (u : W) (before : Option Str) : Event W → Option Str
  | .add user t => if user = u then some t.name else before
  | .remove user _ => if user = u then none else before
  | _ => before

/-- The name of the room that `u` is in after a history: that of its `add_member`,
until its `remove_member`. -/
def memberOf (u : W) (h : List (Event W)) : Option Str := h.foldl (Event.memberOf u) none

/-- Whether an event is a broadcast to the room of a name. -/
def Event.broadcastTo (name : Option Str) : Event W → Bool
  | .broadcast _ t _ _ => name = some t.name
  | _ => false

/-- What a broadcast delivers. -/
def Event.delivered : Event W → Option Message
  | .broadcast _ t senderUsername messageText =>
      some (delivery t.name senderUsername messageText)
  | _ => none

/-- What the members of the room of a name are to get at an event. -/
def Event.gained (name : Option Str) (e : Event W) : List Message :=
  if e.broadcastTo name then e.delivered.toList else []

/-- What `u` has dequeued with an event. -/
def Event.dequeuedBy (u : W) : Event W → Option Message
  | .dequeue user msg => if user = u then some msg else none
  | _ => none

/-- The positions in a history of the broadcasts made to the room that `u` was in at
the time. -/
def heard (u : W) (h : List (Event W)) : List ℕ :=
  (List.range h.length).filter fun i =>
    (h[i]?).any (Event.broadcastTo (memberOf u (h.take i)))

/-- The messages of the broadcasts at some positions. -/
def deliveries (h : List (Event W)) (is : List ℕ) : List Message :=
  is.filterMap fun i => (h[i]?).bind Event.delivered

/-- What `u` has dequeued. -/
def dequeued (u : W) (h : List (Event W)) : List Message := h.filterMap (Event.dequeuedBy u)

section

variable {u : W} {h : List (Event W)} {e : Event W}

theorem dequeued_append {es : List (Event W)} :
    dequeued u (h ++ es) = dequeued u h ++ dequeued u es :=
  List.filterMap_append

theorem memberOf_append {es : List (Event W)} :
    memberOf u (h ++ es) = es.foldl (Event.memberOf u) (memberOf u h) :=
  List.foldl_append

theorem heard_lt {i : ℕ} (hi : i ∈ heard u h) : i < h.length :=
  List.mem_range.mp (List.mem_of_mem_filter hi)

/-- A position that is heard is that of a broadcast to the room of `u`. -/
theorem mem_heard {i : ℕ} : i ∈ heard u h ↔ ∃ worker t senderUsername messageText,
    h[i]? = some (.broadcast worker t senderUsername messageText) ∧
      memberOf u (h.take i) = some t.name := by
  rw [heard, List.mem_filter, List.mem_range]
  refine ⟨?_, ?_⟩
  · intro ⟨hi, hany⟩
    rw [List.getElem?_eq_getElem hi, Option.any_some] at hany
    have he := List.getElem?_eq_getElem hi
    generalize h[i] = e at he hany
    cases e with
    | broadcast worker t senderUsername messageText =>
        exact ⟨worker, t, senderUsername, messageText, he, of_decide_eq_true hany⟩
    | _ => cases hany
  · intro ⟨worker, t, senderUsername, messageText, he, hname⟩
    refine ⟨(List.getElem?_eq_some_iff.mp he).1, ?_⟩
    rw [he]
    exact decide_eq_true hname

/-- Another event adds its position, if it is a broadcast to the room of `u`. -/
theorem heard_append_singleton : heard u (h ++ [e]) =
    heard u h ++ if e.broadcastTo (memberOf u h) then [h.length] else [] := by
  have hold : ∀ i ∈ List.range h.length,
      ((h ++ [e])[i]?).any (Event.broadcastTo (memberOf u ((h ++ [e]).take i))) =
        (h[i]?).any (Event.broadcastTo (memberOf u (h.take i))) := by
    intro i hi
    have hlt := List.mem_range.mp hi
    rw [List.getElem?_append_left hlt, List.take_append_of_le_length hlt.le]
  rw [heard, List.length_append, List.length_singleton, List.range_succ, List.filter_append,
    List.filter_congr hold, ← heard]
  congr 1
  simp [List.filter_cons]

/-- Positions are heard in the order of the history, each once. -/
theorem heard_sorted (u : W) (h : List (Event W)) : (heard u h).Pairwise (· < ·) :=
  List.Pairwise.filter _ List.pairwise_lt_range

omit [DecidableEq W] in
/-- What is delivered at positions of a history does not depend on what comes later. -/
theorem deliveries_append {is : List ℕ} (his : ∀ i ∈ is, i < h.length) :
    deliveries (h ++ [e]) is = deliveries h is := by
  refine List.filterMap_congr fun i hi => ?_
  rw [List.getElem?_append_left (his i hi)]

/-- What `u` is to get, one event later. -/
theorem deliveries_heard_append_singleton :
    deliveries (h ++ [e]) (heard u (h ++ [e])) =
      deliveries h (heard u h) ++ e.gained (memberOf u h) := by
  rw [Event.gained, heard_append_singleton, deliveries, List.filterMap_append, ← deliveries,
    ← deliveries, deliveries_append fun i hi => heard_lt hi]
  congr 1
  split
  · cases hdel : e.delivered <;> simp [deliveries, hdel]
  · rfl

end

end Csf.Chat
