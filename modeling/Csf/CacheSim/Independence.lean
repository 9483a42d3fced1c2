import Csf.CacheSim.Sets
import Csf.CacheSim.WriteBack
import Csf.Lib.Commute

/-!
# Cache simulator: the sets are independent

Accesses to different sets commute, for an access works on one set and what it adds to
the statistics does not depend on the others. So a trace may be reordered freely as long
as the accesses to each set keep their order.
-/

namespace Csf.CacheSim

open Csf.Lib Csf.Lib.Commute

/-- The set that an access addresses, by number. -/
def Access.setNumber (cfg : Config) (a : Access) : ℕ :=
  blockNumber cfg a.address % cfg.numSets.toNat

section

variable {cfg : Config}

theorem readIndex_setNumber (ha : cfg.Accepted)
    (hfit : cfg.numSets.toNat * cfg.numBytes.toNat ≤ 2 ^ 32) {a : Access} {index : UInt32}
    (hindex : readIndex a.address cfg.numSets cfg.numBytes = .ok index) :
    index.toNat = a.setNumber cfg := by
  obtain ⟨index', -, hindex', -, hval, -⟩ := fields_spec ha hfit a.address
  rw [Except.ok.inj (hindex.symm.trans hindex'), hval]
  rfl

/-- Accesses to different sets may change places. -/
theorem accesses_commute (ha : cfg.Accepted)
    (hfit : cfg.numSets.toNat * cfg.numBytes.toNat ≤ 2 ^ 32) :
    Commutes (fun s a s' => Sim.step cfg s a = .ok s') (Access.setNumber cfg) := by
  intro s s₁ s₂ a b hne hstep hstep'
  obtain ⟨i, tag, set, r, hi, htag, hset, haccess, rfl⟩ := step_access hstep
  obtain ⟨j, tag', set', r', hj, htag', hset', haccess', rfl⟩ := step_access hstep'
  have hij : i.toNat ≠ j.toNat := by
    rw [readIndex_setNumber ha hfit hi, readIndex_setNumber ha hfit hj]
    exact hne
  -- neither access sees what the other one writes
  have hsetj : s.cache.sets[j.toNat]? = some set' :=
    (Cache.getElem?_putSet_of_ne (Ne.symm hij)).symm.trans hset'
  have hseti : (s.cache.putSet j r'.1).sets[i.toNat]? = some set :=
    (Cache.getElem?_putSet_of_ne hij).trans hset
  refine ⟨{ cache := s.cache.putSet j r'.1, stats := s.stats.add r'.2 }, ?_, ?_⟩
  · show Sim.step cfg { cache := s.cache, stats := s.stats } b = _
    rw [step_eq hsetj hj htag', haccess']
    rfl
  · show Sim.step cfg _ a = _
    rw [step_eq hseti hi htag, haccess, Cache.putSet_comm hij, CacheStats.add_right_comm]
    rfl

/-- `main`'s loop is a run of its rounds. -/
theorem run_iff_run {trace : List Access} {s s' : Sim} :
    (∃ events, run cfg trace s = .ok (events, s')) ↔
      Run (fun s a s' => Sim.step cfg s a = .ok s') s trace s' := by
  constructor
  · rintro ⟨events, hrun⟩
    induction trace generalizing s events with
    | nil =>
        cases hrun
        exact .nil
    | cons a rest ih =>
        simp only [run, bind_eq_ok, pure_eq_ok, Prod.mk.injEq] at hrun
        obtain ⟨e, -, s₁, hstep, ⟨events', s₂⟩, hrest, -, rfl⟩ := hrun
        exact .cons hstep (ih events' hrest)
  · intro hrun
    induction hrun with
    | nil => exact ⟨[], rfl⟩
    | @cons s s₁ s' a rest hstep hrest ih =>
        obtain ⟨events, hevents⟩ := ih
        -- an access that runs through has been observed
        obtain ⟨index, tag, set, r, hindex, htag, hset, -, -⟩ := step_access hstep
        let e : Event := { op := a.op, index := index, tag := tag
                           hit := set.tagIndex.contains tag }
        have hobserve : observe cfg s.cache a = .ok e := by
          rw [observe, hindex, ok_bind, htag, ok_bind, hit_eq hset]
          rfl
        refine ⟨e :: events, ?_⟩
        rw [run_cons_eq hobserve hstep, hevents]
        rfl

/-- **Sets are independent.** From a state that a run has reached, two traces with the same
accesses to each set in the same order leave the same cache and the same statistics. -/
theorem sets_independent (haccept : (handleError cfg).2 = 0) (hblocks : 1 ≤ cfg.numBlocks.toNat)
    (hfit : cfg.numSets.toNat * cfg.numBytes.toNat ≤ 2 ^ 32) {past : List Access}
    {events : List Event} {s : Sim} (hpast : Reaches cfg past events s)
    {trace trace' : List Access} (hlen : past.length + trace.length < 2 ^ 32)
    (horder : SameOrder (Access.setNumber cfg) trace trace') :
    ∃ events₁ events₂ s', run cfg trace s = .ok (events₁, s') ∧
      run cfg trace' s = .ok (events₂, s') := by
  have ha := (handleError_eq_zero_iff cfg).mp haccept
  obtain ⟨-, htracks⟩ := hpast.tracks ha hblocks (by omega)
  obtain ⟨events₁, s', hrun, -⟩ :=
    run_spec ha hfit hblocks trace s.cache s.stats past.length _ _ htracks hlen
  obtain ⟨events₂, hrun'⟩ :=
    run_iff_run.mpr ((run_iff_run.mp ⟨events₁, hrun⟩).reorder (accesses_commute ha hfit) horder)
  exact ⟨events₁, events₂, s', hrun, hrun'⟩

end

theorem sets_independent_smallConfig : ∃ events s events₁ events₂ s',
    Reaches smallConfig [⟨.store, 0⟩] events s ∧
    run smallConfig [⟨.load, 0⟩, ⟨.store, 4⟩, ⟨.load, 8⟩, ⟨.load, 4⟩] s = .ok (events₁, s') ∧
    run smallConfig [⟨.store, 4⟩, ⟨.load, 4⟩, ⟨.load, 0⟩, ⟨.load, 8⟩] s = .ok (events₂, s') := by
  obtain ⟨events, s, hpast, -⟩ :=
    run_spec ((handleError_eq_zero_iff _).mp smallConfig_accepted) (by decide) (by decide)
      [⟨.store, 0⟩] _ CacheStats.zero 0 _ _ (tracks_init smallConfig) (by decide)
  have horder : SameOrder (Access.setNumber smallConfig)
      [⟨.load, 0⟩, ⟨.store, 4⟩, ⟨.load, 8⟩, ⟨.load, 4⟩]
      [⟨.store, 4⟩, ⟨.load, 4⟩, ⟨.load, 0⟩, ⟨.load, 8⟩] := by
    intro k
    match k with
    | 0 => rfl
    | 1 => rfl
    | k + 2 => rfl
  obtain ⟨events₁, events₂, s', hrun, hrun'⟩ :=
    sets_independent smallConfig_accepted (by decide) (by decide) hpast (by simp) horder
  exact ⟨events, s, events₁, events₂, s', hpast, hrun, hrun'⟩

end Csf.CacheSim
