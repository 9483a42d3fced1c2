import Mathlib.Data.List.Perm.Basic
import Mathlib.Data.List.Nodup

/-!
# Replacement disciplines on bounded lists

A fully associative store of bounded capacity, as a list of keys with the next
victim at the head. `touch` is the effect of a hit, `fill` the effect of a miss
that brings its key in, `access` one request. Under `lru` the list is ordered
by last use; under `fifo` by arrival.

Everything here is about lists; an implementation refines it by exhibiting the
order its own bookkeeping (clocks, stamps, links) stands for.
-/

namespace Csf.Lib.Replacement

/-- Which hits reorder the store. -/
inductive Policy where
  | lru
  | fifo
deriving DecidableEq, Repr

variable {α β : Type*}

/-- A hit: `lru` moves the key to the young end, `fifo` leaves the order. -/
def touch [DecidableEq α] : Policy → α → List α → List α
  | .lru, a, s => s.erase a ++ [a]
  | .fifo, _, s => s

/-- Bring `a` in at the young end; a full store first drops its head. -/
def fill (capacity : Nat) (a : α) (s : List α) : List α :=
  (if s.length < capacity then s else s.tail) ++ [a]

/-- One request: whether it hit, and the order it leaves behind. -/
def access [DecidableEq α] (policy : Policy) (capacity : Nat) (allocate : Bool) (a : α)
    (s : List α) : Bool × List α :=
  if a ∈ s then (true, touch policy a s)
  else (false, if allocate then fill capacity a s else s)

theorem access_fst [DecidableEq α] (policy : Policy) (capacity : Nat) (allocate : Bool) (a : α)
    (s : List α) : (access policy capacity allocate a s).1 = decide (a ∈ s) := by
  unfold access
  split <;> simp [*]

/-! ## Capacity and distinctness -/

theorem touch_perm [DecidableEq α] {policy : Policy} {a : α} {s : List α} (h : a ∈ s) :
    (touch policy a s).Perm s := by
  cases policy with
  | lru =>
      exact List.perm_append_comm.trans (List.perm_cons_erase h).symm
  | fifo => exact List.Perm.refl s

theorem fill_of_lt {capacity : Nat} {a : α} {s : List α} (h : s.length < capacity) :
    fill capacity a s = s ++ [a] := by
  rw [fill, if_pos h]

theorem fill_of_full {capacity : Nat} {a : α} {s : List α} (h : s.length = capacity) :
    fill capacity a s = s.tail ++ [a] := by
  rw [fill, if_neg (by omega)]

theorem length_fill_le {capacity : Nat} (hc : 0 < capacity) {a : α} {s : List α}
    (h : s.length ≤ capacity) : (fill capacity a s).length ≤ capacity := by
  unfold fill
  split <;> simp only [List.length_append, List.length_tail, List.length_singleton] <;> omega

theorem nodup_fill {capacity : Nat} {a : α} {s : List α} (hs : s.Nodup) (ha : a ∉ s) :
    (fill capacity a s).Nodup := by
  unfold fill
  split
  · exact List.nodup_append.mpr ⟨hs, List.nodup_singleton a, by
      rintro x hx y hy rfl
      exact ha (List.mem_singleton.mp hy ▸ hx)⟩
  · exact List.nodup_append.mpr ⟨hs.tail, List.nodup_singleton a, by
      rintro x hx y hy rfl
      exact ha (List.mem_singleton.mp hy ▸ List.mem_of_mem_tail hx)⟩

/-- A request keeps a store within its capacity and free of duplicates. -/
theorem access_wellFormed [DecidableEq α] {policy : Policy} {capacity : Nat}
    (hc : 0 < capacity)
    {allocate : Bool} {a : α} {s : List α} (hl : s.length ≤ capacity) (hs : s.Nodup) :
    (access policy capacity allocate a s).2.length ≤ capacity ∧
      (access policy capacity allocate a s).2.Nodup := by
  unfold access
  split
  · next h =>
      exact ⟨(touch_perm h).length_eq.symm ▸ hl, (touch_perm h).nodup_iff.mpr hs⟩
  · next h =>
      cases allocate with
      | true => exact ⟨length_fill_le hc hl, nodup_fill hs h⟩
      | false => exact ⟨hl, hs⟩

/-! ## Renaming keys

An implementation may store a key under another name (a tag instead of an
address). Under an injective renaming every request behaves alike. -/

theorem touch_map [DecidableEq α] [DecidableEq β] (policy : Policy) {f : α → β}
    (hf : Function.Injective f) (a : α) (s : List α) :
    touch policy (f a) (s.map f) = (touch policy a s).map f := by
  cases policy with
  | lru => simp [touch, List.map_erase hf]
  | fifo => rfl

theorem fill_map (capacity : Nat) (f : α → β) (a : α) (s : List α) :
    fill capacity (f a) (s.map f) = (fill capacity a s).map f := by
  simp only [fill, List.length_map, List.map_append, List.map_singleton]
  split
  · rfl
  · rw [List.map_tail]

theorem access_map [DecidableEq α] [DecidableEq β] (policy : Policy) (capacity : Nat)
    (allocate : Bool) {f : α → β} (hf : Function.Injective f) (a : α) (s : List α) :
    access policy capacity allocate (f a) (s.map f) =
      ((access policy capacity allocate a s).1,
        (access policy capacity allocate a s).2.map f) := by
  unfold access
  by_cases h : a ∈ s
  · rw [if_pos ((List.mem_map_of_injective hf).mpr h), if_pos h, touch_map policy hf]
  · rw [if_neg (fun hm => h ((List.mem_map_of_injective hf).mp hm)), if_neg h]
    cases allocate with
    | true => simp [fill_map]
    | false => rfl

/-! ## Two capacities

Under `lru` a larger store holds everything that a smaller one does, whichever
requests of either allocate: the smaller order is a sublist of the larger one. -/

/-- The order `small` of a store of capacity `c` against that of a larger store: it is a
sublist, and the same list until the small store is full. -/
structure Included (c : Nat) (small large : List α) : Prop where
  sublist : small.Sublist large
  until_full : small.length < c → small = large

theorem Included.refl (c : Nat) (s : List α) : Included c s s :=
  ⟨List.Sublist.refl s, fun _ => rfl⟩

/-- One request keeps the inclusion. -/
theorem Included.access [DecidableEq α] {c d : Nat} (hc : 0 < c) (hcd : c ≤ d) {allocate : Bool}
    {a : α} {small large : List α} (hsmall : small.length ≤ c) (h : Included c small large) :
    Included c (access .lru c allocate a small).2 (access .lru d allocate a large).2 := by
  have hpush : ∀ {s t : List α}, s.Sublist t → (s ++ [a]).Sublist (t ++ [a]) :=
    fun hst => hst.append (List.Sublist.refl [a])
  unfold Replacement.access
  by_cases hs : a ∈ small
  · -- a hit in both
    rw [if_pos hs, if_pos (h.sublist.subset hs)]
    refine ⟨hpush (h.sublist.erase a), fun hlen => ?_⟩
    have hsame : (touch .lru a small).length = small.length := (touch_perm hs).length_eq
    rw [hsame] at hlen
    rw [h.until_full hlen]
  · rw [if_neg hs]
    by_cases hl : a ∈ large
    · -- a hit in the large store alone: the small one is full
      have hfull : small.length = c :=
        Nat.le_antisymm hsmall (Nat.not_lt.mp fun hlt => hs (h.until_full hlt ▸ hl))
      rw [if_pos hl]
      have herase : small.Sublist (large.erase a) :=
        List.erase_of_not_mem hs ▸ h.sublist.erase a
      cases allocate with
      | true =>
          rw [if_pos rfl, fill_of_full hfull]
          refine ⟨hpush ((List.tail_sublist small).trans herase), fun hlen => ?_⟩
          rw [List.length_append, List.length_tail, List.length_singleton] at hlen
          omega
      | false =>
          rw [if_neg Bool.false_ne_true]
          exact ⟨herase.trans (List.sublist_append_left _ _),
            fun hlen => absurd hlen (Nat.not_lt.mpr (Nat.le_of_eq hfull.symm))⟩
    · -- a miss in both
      rw [if_neg hl]
      cases allocate with
      | false =>
          rw [if_neg Bool.false_ne_true]
          exact h
      | true =>
          rw [if_pos rfl, if_pos rfl]
          rcases Nat.lt_or_ge small.length c with hlt | hge
          · have heq := h.until_full hlt
            rw [fill_of_lt hlt, fill_of_lt (by rw [← heq]; omega), heq]
            exact Included.refl c _
          · have hfull : small.length = c := Nat.le_antisymm hsmall hge
            rw [fill_of_full hfull]
            refine ⟨?_, fun hlen => ?_⟩
            · unfold fill
              split
              · exact hpush ((List.tail_sublist small).trans h.sublist)
              · exact hpush h.sublist.tail
            · rw [List.length_append, List.length_tail, List.length_singleton] at hlen
              omega

end Csf.Lib.Replacement
