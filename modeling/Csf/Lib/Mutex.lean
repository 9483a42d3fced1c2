import Mathlib.Logic.Function.Basic
import Mathlib.Data.List.Basic

/-!
# Mutexes

A table of mutexes says who owns each. Threads take and give back mutexes one at
a time; `Agrees` ties the table to the mutexes that every thread takes itself to
hold, and the lemmas keep it along the three things a step can do.
-/

namespace Csf.Lib.Mutex

universe u v

variable {M : Type u} {T : Type v} [DecidableEq M]

/-- Who owns each mutex. -/
abbrev Table (M : Type u) (T : Type v) := M → Option T

/-- The table once `t` has taken `m`. -/
def Table.take (owner : Table M T) (m : M) (t : T) : Table M T :=
  Function.update owner m (some t)

/-- The table once `m` has been given back. -/
def Table.give (owner : Table M T) (m : M) : Table M T := Function.update owner m none

/-- The owner of a mutex is the one thread that holds it. -/
def Agrees (owner : Table M T) (held : T → List M) : Prop :=
  ∀ m t, owner m = some t ↔ m ∈ held t

variable {owner : Table M T} {held held' : T → List M} {m : M} {t t' : T}

omit [DecidableEq M] in
/-- Mutual exclusion. -/
theorem Agrees.exclusive (h : Agrees owner held) (hm : m ∈ held t) (hm' : m ∈ held t') :
    t = t' := by
  have howner : some t = some t' := ((h m t).mpr hm).symm.trans ((h m t').mpr hm')
  exact Option.some.inj howner

omit [DecidableEq M] in
/-- A free mutex is held by nobody. -/
theorem Agrees.free (h : Agrees owner held) (hm : owner m = none) (t : T) : m ∉ held t := by
  intro hmem
  rw [(h m t).mpr hmem] at hm
  exact absurd hm (by simp)

omit [DecidableEq M] in
/-- A step that leaves the table and every thread's mutexes alone. -/
theorem Agrees.same (h : Agrees owner held) (hheld : ∀ t m, m ∈ held' t ↔ m ∈ held t) :
    Agrees owner held' := by
  intro m t
  rw [h m t, hheld t m]

/-- A thread takes a free mutex. -/
theorem Agrees.take (h : Agrees owner held) (hfree : owner m = none)
    (hself : ∀ m', m' ∈ held' t ↔ m' = m ∨ m' ∈ held t)
    (hothers : ∀ t' ≠ t, held' t' = held t') : Agrees (owner.take m t) held' := by
  intro m' t'
  rcases eq_or_ne m' m with rfl | hm
  · rw [Table.take, Function.update_self, Option.some.injEq]
    rcases eq_or_ne t' t with rfl | ht
    · simp [hself]
    · -- nobody else can hold a mutex that was free
      rw [hothers t' ht]
      exact ⟨fun h' => absurd h'.symm ht, fun h' => absurd h' (h.free hfree t')⟩
  · rw [Table.take, Function.update_of_ne hm, h m' t']
    rcases eq_or_ne t' t with rfl | ht
    · simp [hself, hm]
    · rw [hothers t' ht]

/-- A thread gives back a mutex that it holds. -/
theorem Agrees.give (h : Agrees owner held) (hm : m ∈ held t)
    (hself : ∀ m', m' ∈ held' t ↔ m' ≠ m ∧ m' ∈ held t)
    (hothers : ∀ t' ≠ t, held' t' = held t') : Agrees (owner.give m) held' := by
  intro m' t'
  rcases eq_or_ne m' m with rfl | hm'
  · rw [Table.give, Function.update_self]
    rcases eq_or_ne t' t with rfl | ht
    · simp [hself]
    · -- the thread that gives it back was the only one to hold it
      rw [hothers t' ht]
      exact ⟨fun h' => absurd h' (by simp), fun h' => absurd (h.exclusive h' hm) ht⟩
  · rw [Table.give, Function.update_of_ne hm', h m' t']
    rcases eq_or_ne t' t with rfl | ht
    · simp [hself, hm']
    · rw [hothers t' ht]

omit [DecidableEq M] in
/-- Where threads ask for mutexes in the order of a rank only, somebody who holds one
is not kept waiting: the search goes from a mutex that is taken to the one its owner
waits for, and up the ranks. -/
theorem Agrees.exists_unblocked (h : Agrees owner held) (wants : T → M → Prop) (rank : M → ℕ)
    (bound : ℕ) (hbound : ∀ m, rank m ≤ bound)
    (hrank : ∀ t m m', wants t m → m' ∈ held t → rank m' < rank m) :
    ∀ {m : M} {t : T}, owner m = some t →
      ∃ t', held t' ≠ [] ∧ ∀ m', wants t' m' → owner m' = none := by
  suffices ∀ n {m : M} {t : T}, bound - rank m = n → owner m = some t →
      ∃ t', held t' ≠ [] ∧ ∀ m', wants t' m' → owner m' = none by
    intro m t howner
    exact this _ rfl howner
  intro n
  induction n using Nat.strongRecOn with
  | ind n ih =>
      intro m t hn howner
      have hheld := (h m t).mp howner
      by_cases hblocked : ∃ m', wants t m' ∧ owner m' ≠ none
      · obtain ⟨m', hwants, htaken⟩ := hblocked
        obtain ⟨t', howner'⟩ := Option.ne_none_iff_exists'.mp htaken
        have hlt := hrank t m' m hwants hheld
        -- the next mutex ranks higher, and ranks are bounded
        have hle := hbound m'
        exact ih (bound - rank m') (by omega) rfl howner'
      · refine ⟨t, List.ne_nil_of_mem hheld, fun m' hwants => ?_⟩
        by_contra htaken
        exact hblocked ⟨m', hwants, htaken⟩

end Csf.Lib.Mutex
