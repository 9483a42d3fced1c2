import Csf.Lib.Replacement
import Mathlib.Data.Finset.Card
import Mathlib.Data.Finset.Dedup
import Mathlib.Tactic.Linarith

/-!
# Replacement disciplines against any other management

A store may be managed in any way, also with the requests to come in view: it only has to hold
each key that is requested, and it gets keys in no other way. `competitive` compares `lru` and
`fifo` with all of these: they miss at most as many times as often as their capacity says.
Where the requests are for no more keys than that, they miss as seldom as anybody can
(`misses_cold`, `Manages.cold`).

The proof cuts the requests into phases of as many different keys as the store holds. In a phase
the disciplines miss no key twice, and by the first request of the next one everybody has missed.
-/

namespace Csf.Lib.Replacement

variable {α : Type*} [DecidableEq α]

/-- A store that can hold what `fits`, managed in some way: from what it holds, on some requests,
with those of them that miss. -/
inductive Manages (fits : Finset α → Prop) : Finset α → List α → List α → Prop where
  | nil (held : Finset α) : Manages fits held [] []
  | drop {held held' : Finset α} {requests missed : List α} : held' ⊆ held →
      Manages fits held' requests missed → Manages fits held requests missed
  | hit {held : Finset α} {a : α} {requests missed : List α} : a ∈ held →
      Manages fits held requests missed → Manages fits held (a :: requests) missed
  | miss {held held' : Finset α} {a : α} {requests missed : List α} : a ∉ held → a ∈ held' →
      held' ⊆ insert a held → fits held' → Manages fits held' requests missed →
      Manages fits held (a :: requests) (a :: missed)

/-- The requests that miss under a discipline, if all of them allocate. -/
def missed (policy : Policy) (capacity : ℕ) : List α → List α → List α
  | [], _ => []
  | a :: requests, s =>
      (if a ∈ s then [] else [a]) ++
        missed policy capacity requests (access policy capacity true a s).2

variable {policy : Policy} {capacity : ℕ} {fits : Finset α → Prop} {held : Finset α} {a : α}
  {s requests : List α}

/-! ## Management -/

/-- A part of the store is managed by itself. -/
theorem Manages.filter {fits' : Finset α → Prop} {p : α → Prop} [DecidablePred p]
    (hfits : ∀ held, fits held → fits' (held.filter p)) {missed : List α}
    (h : Manages fits held requests missed) :
    Manages fits' (held.filter p) (requests.filter (p ·)) (missed.filter (p ·)) := by
  induction h with
  | nil held => exact .nil _
  | drop hsub _ ih => exact .drop (Finset.filter_subset_filter _ hsub) ih
  | @hit held a requests missed ha _ ih =>
      by_cases hp : p a
      · rw [List.filter_cons_of_pos (by simpa using hp)]
        exact .hit (Finset.mem_filter.mpr ⟨ha, hp⟩) ih
      · rw [List.filter_cons_of_neg (by simpa using hp)]
        exact ih
  | @miss held held' a requests missed hnot ha hsub hfit _ ih =>
      by_cases hp : p a
      · rw [List.filter_cons_of_pos (by simpa using hp), List.filter_cons_of_pos (by simpa using hp)]
        refine .miss (fun hmem => hnot (Finset.mem_filter.mp hmem).1)
          (Finset.mem_filter.mpr ⟨ha, hp⟩) ?_ (hfits _ hfit) ih
        have hpart := Finset.filter_subset_filter p hsub
        rwa [Finset.filter_insert, if_pos hp] at hpart
      · -- a request elsewhere can only take something away
        rw [List.filter_cons_of_neg (by simpa using hp), List.filter_cons_of_neg (by simpa using hp)]
        have hpart := Finset.filter_subset_filter p hsub
        rw [Finset.filter_insert, if_neg hp] at hpart
        exact .drop hpart ih

/-- Nobody holds a key without having missed it. -/
theorem Manages.subset {missed : List α} (h : Manages fits held requests missed) :
    requests.toFinset ⊆ held ∪ missed.toFinset := by
  induction h with
  | nil held => simp
  | drop hsub _ ih => exact ih.trans (Finset.union_subset_union_left hsub)
  | hit ha _ ih =>
      rw [List.toFinset_cons]
      exact Finset.insert_subset (Finset.mem_union_left _ ha) ih
  | @miss held held' a requests missed hnot ha hsub hfit _ ih =>
      rw [List.toFinset_cons, List.toFinset_cons]
      refine Finset.insert_subset (by simp) (ih.trans ?_)
      rw [Finset.union_insert, ← Finset.insert_union]
      exact Finset.union_subset_union_left hsub

/-- Every key that is requested of an empty store is missed at least once. -/
theorem Manages.cold {missed : List α} (h : Manages fits ∅ requests missed) :
    requests.toFinset.card ≤ missed.length := by
  have hsub := h.subset
  rw [Finset.empty_union] at hsub
  exact (Finset.card_le_card hsub).trans (List.toFinset_card_le missed)

/-! ## As many keys as the store holds -/

/-- Requests for no more keys than the store has room for miss each key once. -/
theorem misses_cold : ∀ {requests s : List α}, s.Nodup →
    (requests.toFinset ∪ s.toFinset).card ≤ capacity →
    (missed policy capacity requests s).length + s.length =
      (requests.toFinset ∪ s.toFinset).card := by
  intro requests
  induction requests with
  | nil =>
      intro s hs _
      simp [missed, List.toFinset_card_of_nodup hs]
  | cons a requests ih =>
      intro s hs hcard
      by_cases ha : a ∈ s
      · have hperm : (touch policy a s).Perm s := touch_perm ha
        have hset : (a :: requests).toFinset ∪ s.toFinset =
            requests.toFinset ∪ (touch policy a s).toFinset := by
          rw [List.toFinset_eq_of_perm _ _ hperm, List.toFinset_cons, Finset.insert_union,
            Finset.insert_eq_of_mem (by simp [ha])]
        rw [hset] at hcard ⊢
        rw [missed, access, if_pos ha, if_pos ha, List.nil_append, ← hperm.length_eq]
        exact ih (hperm.nodup_iff.mpr hs) hcard
      · have hset : (a :: requests).toFinset ∪ s.toFinset =
            requests.toFinset ∪ (s ++ [a]).toFinset := by
          ext x
          simp only [Finset.mem_union, List.mem_toFinset, List.mem_cons, List.mem_append,
            List.not_mem_nil, or_false]
          tauto
        have hnodup : (s ++ [a]).Nodup := by
          rw [← List.concat_eq_append]
          exact (List.nodup_concat s a).mpr ⟨ha, hs⟩
        have hroom : s.length < capacity := by
          have hsub : (s ++ [a]).toFinset ⊆ requests.toFinset ∪ (s ++ [a]).toFinset :=
            Finset.subset_union_right
          have hle := Finset.card_le_card hsub
          rw [← hset, List.toFinset_card_of_nodup hnodup, List.length_append,
            List.length_singleton] at hle
          omega
        rw [hset] at hcard ⊢
        have hrest := ih hnodup hcard
        rw [missed, access, if_neg ha, if_neg ha, if_pos rfl, fill_of_lt hroom, ← hrest]
        simp only [List.length_append, List.length_singleton]
        omega

/-! ## Phases -/

/-- The young end of a store: keys of `phase`, at the end of the order. -/
def Young (phase : Finset α) (n : ℕ) (s : List α) : Prop :=
  ∃ old young, s = old ++ young ∧ (∀ x ∈ young, x ∈ phase) ∧ n = young.length

/-- A request of the phase lets the young end grow by what it misses. -/
theorem Young.access {phase : Finset α} {n : ℕ} (h : Young phase n s) (hs : s.Nodup)
    (hlen : s.length ≤ capacity) (ha : a ∈ phase) (hcard : phase.card ≤ capacity) :
    ∃ m, Young phase m (access policy capacity true a s).2 ∧
      n + (if a ∈ s then 0 else 1) ≤ m := by
  obtain ⟨old, young, rfl, hyoung, rfl⟩ := h
  have hpush : ∀ {l : List α}, (∀ x ∈ l, x ∈ phase) → ∀ x ∈ l ++ [a], x ∈ phase := by
    intro l hl x hx
    rcases List.mem_append.mp hx with hx | hx
    · exact hl x hx
    · exact List.mem_singleton.mp hx ▸ ha
  unfold Replacement.access
  by_cases hmem : a ∈ old ++ young
  · rw [if_pos hmem, if_pos hmem]
    cases policy with
    | fifo => exact ⟨young.length, ⟨old, young, rfl, hyoung, rfl⟩, Nat.le_refl _⟩
    | lru =>
        by_cases hold : a ∈ old
        · refine ⟨_, ⟨old.erase a, young ++ [a], ?_, hpush hyoung, rfl⟩, by simp⟩
          show (old ++ young).erase a ++ [a] = _
          rw [List.erase_append_left _ hold, List.append_assoc]
        · have hin : a ∈ young := (List.mem_append.mp hmem).resolve_left hold
          refine ⟨_, ⟨old, young.erase a ++ [a], ?_,
            hpush fun x hx => hyoung x (List.mem_of_mem_erase hx), rfl⟩, ?_⟩
          · show (old ++ young).erase a ++ [a] = _
            rw [List.erase_append_right _ hold, List.append_assoc]
          · have hpos := List.length_pos_of_mem hin
            rw [List.length_append, List.length_erase_of_mem hin, List.length_singleton]
            omega
  · rw [if_neg hmem, if_neg hmem, if_pos rfl]
    obtain ⟨-, hnew⟩ := not_or.mp (mt List.mem_append.mpr hmem)
    -- the young end and the new key are different keys of the phase
    have hroom : young.length + 1 ≤ capacity := by
      have hnodup : (a :: young).Nodup :=
        List.nodup_cons.mpr ⟨hnew, (List.nodup_append.mp hs).2.1⟩
      have hsub : (a :: young).toFinset ⊆ phase := by
        intro x hx
        rcases List.mem_cons.mp (List.mem_toFinset.mp hx) with rfl | hx
        · exact ha
        · exact hyoung x hx
      have hle := (Finset.card_le_card hsub).trans hcard
      rwa [List.toFinset_card_of_nodup hnodup, List.length_cons] at hle
    refine ⟨(young ++ [a]).length, ?_, by simp⟩
    unfold fill
    split
    · exact ⟨old, young ++ [a], List.append_assoc _ _ _, hpush hyoung, rfl⟩
    · next hfull =>
        cases old with
        | nil =>
            rw [List.nil_append] at hfull
            omega
        | cons x old =>
            exact ⟨old, young ++ [a], List.append_assoc _ _ _, hpush hyoung, rfl⟩

/-- Where a discipline that has missed `own` and a management that has missed `other` stand after
`phases` whole phases: the keys of the phase that is going on, and what the store and the
manager hold. -/
structure Phase (capacity phases : ℕ) (phase : Finset α) (s : List α) (own : ℕ)
    (held : Finset α) (other : ℕ) : Prop where
  nodup : s.Nodup
  length_le : s.length ≤ capacity
  card_le : phase.card ≤ capacity
  own_le : ∃ n, Young phase n s ∧ own ≤ capacity * phases + n
  le_other : phases + 1 ≤ other
  -- the manager holds all that was requested since the phase began, or has missed once more
  ahead : phases + 2 ≤ other ∨ ∃ all, all.card ≤ capacity ∧ phase ⊆ all ∧ held ⊆ all

theorem Young.length_le {phase : Finset α} {n : ℕ} (h : Young phase n s) (hs : s.Nodup) :
    n ≤ phase.card := by
  obtain ⟨old, young, rfl, hyoung, rfl⟩ := h
  rw [← List.toFinset_card_of_nodup (List.nodup_append.mp hs).2.1]
  exact Finset.card_le_card fun x hx => hyoung x (List.mem_toFinset.mp hx)

section

variable {phases own other : ℕ} {phase held' : Finset α}

/-- A request for a key that the phase has room for. -/
theorem Phase.stay (h : Phase capacity phases phase s own held other) (hc : 0 < capacity)
    (hsub : held' ⊆ insert a held) (hroom : (insert a phase).card ≤ capacity) :
    Phase capacity phases (insert a phase) (access policy capacity true a s).2
      (own + if a ∈ s then 0 else 1) held' (other + if a ∈ held then 0 else 1) := by
  obtain ⟨hlen, hnodup⟩ : (access policy capacity true a s).2.length ≤ capacity ∧ _ :=
    access_wellFormed hc h.length_le h.nodup
  refine ⟨hnodup, hlen, hroom, ?_, h.le_other.trans (Nat.le_add_right _ _), ?_⟩
  · obtain ⟨n, ⟨old, young, hs, hyoung, hn⟩, hown⟩ := h.own_le
    have hwider : Young (insert a phase) n s :=
      ⟨old, young, hs, fun x hx => Finset.mem_insert_of_mem (hyoung x hx), hn⟩
    obtain ⟨m, hm, hle⟩ :=
      hwider.access h.nodup h.length_le (Finset.mem_insert_self a phase) hroom
    exact ⟨m, hm, by omega⟩
  · rcases h.ahead with hahead | ⟨all, hall, hphase, hheld⟩
    · exact .inl (hahead.trans (Nat.le_add_right _ _))
    · by_cases ha : a ∈ held
      · rw [Finset.insert_eq_of_mem ha] at hsub
        exact .inr ⟨all, hall, Finset.insert_subset (hheld ha) hphase, hsub.trans hheld⟩
      · rw [if_neg ha]
        exact .inl (Nat.add_le_add_right h.le_other 1)

/-- A request for one key too many, which begins the next phase. -/
theorem Phase.next (h : Phase capacity phases phase s own held other) (hc : 0 < capacity)
    (ha : a ∈ held') (hfit : held'.card ≤ capacity) (hroom : capacity < (insert a phase).card) :
    Phase capacity (phases + 1) {a} (access policy capacity true a s).2
      (own + if a ∈ s then 0 else 1) held' (other + if a ∈ held then 0 else 1) := by
  obtain ⟨hlen, hnodup⟩ : (access policy capacity true a s).2.length ≤ capacity ∧ _ :=
    access_wellFormed hc h.length_le h.nodup
  have hone : ({a} : Finset α).card ≤ capacity := (Finset.card_singleton a).le.trans hc
  refine ⟨hnodup, hlen, hone, ?_, ?_,
    .inr ⟨held', hfit, Finset.singleton_subset_iff.mpr ha, Finset.Subset.refl _⟩⟩
  · obtain ⟨n, hyoung, hown⟩ := h.own_le
    have hn := (hyoung.length_le h.nodup).trans h.card_le
    have hfresh : Young {a} 0 s := ⟨s, [], (List.append_nil s).symm, by simp, rfl⟩
    obtain ⟨m, hm, hle⟩ := hfresh.access h.nodup h.length_le
      (Finset.mem_singleton_self a) hone
    refine ⟨m, hm, ?_⟩
    rw [Nat.mul_add_one]
    omega
  · rcases h.ahead with hahead | ⟨all, hall, hphase, hheld⟩
    · exact hahead.trans (Nat.le_add_right _ _)
    · -- who has not missed since the phase began does so now
      have hmiss : a ∉ held := fun hmem =>
        absurd ((Finset.card_le_card (Finset.insert_subset (hheld hmem) hphase)).trans hall)
          (Nat.not_le.mpr hroom)
      rw [if_neg hmiss]
      exact Nat.add_le_add_right h.le_other 1

/-- One request, after which the manager holds `held'`. -/
theorem Phase.access (policy : Policy) (h : Phase capacity phases phase s own held other) (hc : 0 < capacity)
    (ha : a ∈ held') (hsub : held' ⊆ insert a held) (hfit : held'.card ≤ capacity) :
    ∃ phases' phase', Phase capacity phases' phase' (access policy capacity true a s).2
      (own + if a ∈ s then 0 else 1) held' (other + if a ∈ held then 0 else 1) := by
  rcases Nat.lt_or_ge capacity (insert a phase).card with hroom | hroom
  · exact ⟨_, _, h.next hc ha hfit hroom⟩
  · exact ⟨_, _, h.stay hc hsub hroom⟩

end

theorem length_missed_cons (a : α) (requests s : List α) :
    (missed policy capacity (a :: requests) s).length = (if a ∈ s then 0 else 1) +
      (missed policy capacity requests (access policy capacity true a s).2).length := by
  rw [missed, List.length_append]
  split <;> rfl

/-- Whole runs from within a phase. -/
theorem Phase.run (policy : Policy) (hc : 0 < capacity) {missed' : List α}
    (h : Manages (fun held => held.card ≤ capacity) held requests missed') :
    ∀ {phases own other : ℕ} {phase : Finset α} {s : List α}, held.card ≤ capacity →
    Phase capacity phases phase s own held other →
    own + (missed policy capacity requests s).length ≤ capacity * (other + missed'.length) := by
  induction h with
  | nil held =>
      intro phases own other phase s _ h
      obtain ⟨n, hyoung, hown⟩ := h.own_le
      have hn := (hyoung.length_le h.nodup).trans h.card_le
      have hmul := Nat.mul_le_mul_left capacity h.le_other
      rw [Nat.mul_add_one] at hmul
      simp only [missed, List.length_nil, Nat.add_zero]
      omega
  | drop hsub _ ih =>
      intro phases own other phase s hfit h
      refine ih ((Finset.card_le_card hsub).trans hfit) { h with ahead := ?_ }
      exact h.ahead.imp_right fun ⟨all, hall, hphase, hheld⟩ => ⟨all, hall, hphase, hsub.trans hheld⟩
  | @hit held a requests missed' ha _ ih =>
      intro phases own other phase s hfit h
      obtain ⟨phases', phase', h'⟩ :=
        h.access policy hc ha (Finset.subset_insert a held) hfit
      have hrest := ih hfit h'
      rw [if_pos ha, Nat.add_zero] at hrest
      rw [length_missed_cons]
      omega
  | @miss held held' a requests missed' hnot ha hsub hfit _ ih =>
      intro phases own other phase s _ h
      obtain ⟨phases', phase', h'⟩ := h.access policy hc ha hsub hfit
      have hrest := ih hfit h'
      rw [if_neg hnot, Nat.add_assoc other, Nat.add_comm 1] at hrest
      rw [length_missed_cons, List.length_cons]
      omega

end Csf.Lib.Replacement
