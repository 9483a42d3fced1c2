import Csf.Lib.Replacement
import Mathlib.Data.List.Dedup
import Mathlib.Data.List.DropRight
import Mathlib.Data.Finset.Card
import Mathlib.Data.Finset.Dedup

/-!
# Replacement disciplines without the store

What a store holds is a matter of its past requests alone. Under `lru` it is the keys that
were requested last, each once; under `fifo` the keys that were brought in last (`access_view`).
`mem_view_lru` and `mem_view_fifo` say it of one key: it is in the store as long as fewer keys
than the capacity came after it.
-/

namespace Csf.Lib.Replacement

variable {α : Type*} [DecidableEq α]

/-- Whether a request counts: a miss that allocates, and under `lru` every hit. -/
def counts (policy : Policy) (allocate hit : Bool) : Bool :=
  if hit then policy = .lru else allocate

/-- The store that counting requests for these keys leaves. -/
def view (policy : Policy) (capacity : ℕ) (keys : List α) : List α :=
  match policy with
  | .lru => keys.dedup.rtake capacity
  | .fifo => keys.rtake capacity

variable {policy : Policy} {capacity n : ℕ} {a : α} {s keys : List α}

/-! ## The young end of a list -/

theorem dedup_concat (keys : List α) (a : α) :
    (keys ++ [a]).dedup = keys.dedup.erase a ++ [a] := by
  induction keys with
  | nil => rfl
  | cons x keys ih =>
      rw [List.cons_append]
      by_cases hx : x ∈ keys
      · rw [List.dedup_cons_of_mem (List.mem_append_left _ hx), List.dedup_cons_of_mem hx, ih]
      · rw [List.dedup_cons_of_notMem hx]
        by_cases hxa : x = a
        · subst hxa
          have herase : keys.dedup.erase x = keys.dedup :=
            List.erase_of_not_mem (mt List.mem_dedup.mp hx)
          rw [List.dedup_cons_of_mem (by simp), ih, herase, List.erase_cons_head]
        · have hnew : x ∉ keys ++ [a] := by simp [hx, hxa]
          rw [List.dedup_cons_of_notMem hnew, ih, List.erase_cons_tail (by simpa using hxa),
            List.cons_append]

omit [DecidableEq α] in
theorem rtake_of_length_le (h : s.length ≤ n) : s.rtake n = s := by
  rw [List.rtake, Nat.sub_eq_zero_of_le h, List.drop_zero]

omit [DecidableEq α] in
theorem length_rtake (s : List α) (n : ℕ) : (s.rtake n).length = min n s.length := by
  rw [List.rtake, List.length_drop]
  omega

omit [DecidableEq α] in
theorem rtake_subset (s : List α) (n : ℕ) : s.rtake n ⊆ s := List.drop_subset _ _

/-- A key among the last ones leaves the others of them. -/
theorem erase_rtake (hs : s.Nodup) : ∀ {n : ℕ}, a ∈ s.rtake (n + 1) →
    (s.rtake (n + 1)).erase a = (s.erase a).rtake n := by
  induction s using List.reverseRecOn with
  | nil => simp
  | append_singleton s x ih =>
      intro n h
      obtain ⟨hs', -, hx⟩ := List.nodup_append.mp hs
      have hxs : x ∉ s := fun hmem => hx x hmem x (List.mem_singleton_self x) rfl
      rw [List.rtake_concat_succ] at h ⊢
      by_cases hxa : x = a
      · subst hxa
        rw [List.erase_append_right _ (fun hmem => hxs (rtake_subset s n hmem)),
          List.erase_append_right _ hxs, List.erase_cons_head, List.append_nil, List.append_nil]
      · have hmem : a ∈ s.rtake n := by simpa [Ne.symm hxa] using h
        cases n with
        | zero => exact absurd hmem (by simp)
        | succ n =>
            rw [List.erase_append_left _ hmem, ih hs' hmem,
              List.erase_append_left _ (rtake_subset s _ hmem), List.rtake_concat_succ]

/-- One that is not among them makes no difference to the ones before the last. -/
theorem rtake_erase : ∀ {n : ℕ}, a ∉ s.rtake (n + 1) → (s.erase a).rtake n = s.rtake n := by
  induction s using List.reverseRecOn with
  | nil => simp
  | append_singleton s x ih =>
      intro n h
      rw [List.rtake_concat_succ, List.mem_append, not_or, List.mem_singleton] at h
      obtain ⟨hmem, hxa⟩ := h
      have herase : (s ++ [x]).erase a = s.erase a ++ [x] := by
        by_cases has : a ∈ s
        · exact List.erase_append_left _ has
        · rw [List.erase_append_right _ has, List.erase_of_not_mem has,
            List.erase_of_not_mem (by simpa using hxa)]
      cases n with
      | zero => rw [List.rtake_zero, List.rtake_zero]
      | succ n => rw [herase, List.rtake_concat_succ, List.rtake_concat_succ, ih hmem]

omit [DecidableEq α] in
theorem fill_rtake (a : α) (s : List α) (n : ℕ) :
    fill (n + 1) a (s.rtake (n + 1)) = s.rtake n ++ [a] := by
  rcases Nat.lt_or_ge s.length (n + 1) with hlt | hge
  · have hlen : (s.rtake (n + 1)).length < n + 1 := by
      rw [length_rtake]
      omega
    rw [fill_of_lt hlen, rtake_of_length_le (by omega), rtake_of_length_le (by omega)]
  · have hlen : (s.rtake (n + 1)).length = n + 1 := by
      rw [length_rtake]
      omega
    rw [fill_of_full hlen, List.rtake, List.rtake, List.tail_drop]
    congr 2
    omega

/-! ## Stores are views of the past -/

/-- One request. -/
theorem access_view (hc : 0 < capacity) (allocate : Bool) (a : α) (keys : List α) :
    (access policy capacity allocate a (view policy capacity keys)).2 =
      view policy capacity
        (keys ++ if counts policy allocate (decide (a ∈ view policy capacity keys)) then [a]
          else []) := by
  obtain ⟨n, rfl⟩ := Nat.exists_eq_succ_of_ne_zero hc.ne'
  unfold access
  by_cases h : a ∈ view policy (n + 1) keys
  · -- a hit counts under `lru` alone
    rw [if_pos h, decide_eq_true h]
    cases policy with
    | fifo => simp [counts, touch]
    | lru =>
        show (keys.dedup.rtake (n + 1)).erase a ++ [a] = (keys ++ [a]).dedup.rtake (n + 1)
        rw [dedup_concat, List.rtake_concat_succ, erase_rtake (List.nodup_dedup keys) h]
  · rw [if_neg h, decide_eq_false h]
    cases allocate with
    | false => simp [counts]
    | true =>
        cases policy with
        | fifo =>
            show fill (n + 1) a (keys.rtake (n + 1)) = (keys ++ [a]).rtake (n + 1)
            rw [fill_rtake, List.rtake_concat_succ]
        | lru =>
            show fill (n + 1) a (keys.dedup.rtake (n + 1)) = (keys ++ [a]).dedup.rtake (n + 1)
            rw [fill_rtake, dedup_concat, List.rtake_concat_succ, rtake_erase h]

theorem view_nil : view policy capacity ([] : List α) = [] := by
  cases policy <;> simp [view]

/-! ## What a view holds -/

omit [DecidableEq α] in
theorem mem_rtake_iff : a ∈ keys.rtake n ↔
    ∃ older newer, keys = older ++ a :: newer ∧ newer.length < n := by
  constructor
  · intro h
    obtain ⟨older, newer, hsplit⟩ := List.append_of_mem h
    refine ⟨keys.take (keys.length - n) ++ older, newer, ?_, ?_⟩
    · rw [List.append_assoc, ← hsplit, List.rtake, List.take_append_drop]
    · have hlen := congrArg List.length hsplit
      rw [length_rtake, List.length_append, List.length_cons] at hlen
      omega
  · rintro ⟨older, newer, rfl, hlen⟩
    have hdrop : (older ++ a :: newer).length - n ≤ older.length := by
      rw [List.length_append, List.length_cons]
      omega
    rw [List.rtake, List.drop_append_of_le_length hdrop]
    exact List.mem_append_right _ List.mem_cons_self

/-- Behind its last request, a key has the others that were requested since, each once. -/
theorem dedup_split (older : List α) {newer : List α} (ha : a ∉ newer) :
    ∃ before, (older ++ a :: newer).dedup = before ++ a :: newer.dedup := by
  induction older with
  | nil => exact ⟨[], List.dedup_cons_of_notMem ha⟩
  | cons x older ih =>
      obtain ⟨before, hbefore⟩ := ih
      by_cases hx : x ∈ older ++ a :: newer
      · exact ⟨before, (List.dedup_cons_of_mem hx).trans hbefore⟩
      · refine ⟨x :: before, ?_⟩
        rw [List.cons_append, List.dedup_cons_of_notMem hx, hbefore, List.cons_append]

omit [DecidableEq α] in
/-- A key that occurs, occurs for the last time. -/
theorem exists_last (h : a ∈ keys) : ∃ older newer, keys = older ++ a :: newer ∧ a ∉ newer := by
  obtain ⟨newer, older, hreverse, hnewer⟩ :=
    List.eq_append_cons_of_mem (List.mem_reverse.mpr h)
  refine ⟨older.reverse, newer.reverse, ?_, mt List.mem_reverse.mp hnewer⟩
  rw [← List.reverse_reverse keys, hreverse]
  simp

/-- **Recency.** Under `lru` a key is held if and only if fewer different keys than the capacity
were requested since it was requested last. -/
theorem mem_view_lru : a ∈ view .lru capacity keys ↔
    ∃ older newer, keys = older ++ a :: newer ∧ a ∉ newer ∧ newer.toFinset.card < capacity := by
  constructor
  · intro h
    have hmem : a ∈ keys := List.mem_dedup.mp (rtake_subset _ _ h)
    obtain ⟨older, newer, rfl, hnewer⟩ := exists_last hmem
    refine ⟨older, newer, rfl, hnewer, ?_⟩
    -- the key stands at one place of a list without duplicates
    obtain ⟨before, hbefore⟩ := dedup_split older hnewer
    obtain ⟨before', after, hdedup, hlen⟩ := mem_rtake_iff.mp h
    have hnodup := List.nodup_dedup (older ++ a :: newer)
    rw [hdedup, List.nodup_middle, List.nodup_cons, List.mem_append, not_or] at hnodup
    rw [hdedup] at hbefore
    obtain ⟨-, -, hafter⟩ :=
      (List.append_cons_inj_of_notMem hnodup.1.1 hnodup.1.2).mp hbefore
    rwa [List.card_toFinset, ← hafter]
  · rintro ⟨older, newer, rfl, hnewer, hlen⟩
    rw [List.card_toFinset] at hlen
    obtain ⟨before, hbefore⟩ := dedup_split older hnewer
    exact mem_rtake_iff.mpr ⟨before, newer.dedup, hbefore, hlen⟩

/-- **Arrival.** Under `fifo` a key is held if and only if fewer keys than the capacity were
brought in since it was brought in. -/
theorem mem_view_fifo : a ∈ view .fifo capacity keys ↔
    ∃ older newer, keys = older ++ a :: newer ∧ newer.length < capacity := mem_rtake_iff

end Csf.Lib.Replacement
