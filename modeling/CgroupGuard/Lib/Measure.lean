import Mathlib.Algebra.Ring.Nat
import CgroupGuard.Lib.Steps
/-!
# Measure — runs that come to an end

A measure that every step makes smaller bounds the length of every run, so that every run can be taken to a state
without a step.  Over threads the measure is a sum, and one thread's step changes one summand.
-/

namespace Steps

variable {σ α : Type} {step : σ → α → Option σ}

def Decreasing (step : σ → α → Option σ) (μ : σ → Nat) : Prop := ∀ s a t, step s a = some t → μ t < μ s

def Final (step : σ → α → Option σ) (s : σ) : Prop := ∀ a, step s a = none

/-- **A run is no longer than the measure it uses up.** -/
theorem Decreasing.length_add_le {μ : σ → Nat} (hμ : Decreasing step μ) : ∀ (as : List α) {s t : σ},
    run step s as = some t → as.length + μ t ≤ μ s
  | [], s, t, h => by
    cases h
    exact Nat.le_of_eq (Nat.zero_add _)
  | a :: as, s, t, h => by
    obtain ⟨m, hm, hrest⟩ := Option.bind_eq_some_iff.1 h
    have hlt := hμ s a m hm
    have ih := hμ.length_add_le as hrest
    rw [List.length_cons]
    omega

/-- **Every state leads to a final one.** -/
theorem Decreasing.exists_final {μ : σ → Nat} (hμ : Decreasing step μ) (s : σ) :
    ∃ as t, run step s as = some t ∧ Final step t := by
  by_cases hs : Final step s
  · exact ⟨[], s, rfl, hs⟩
  · unfold Final at hs
    push Not at hs
    obtain ⟨a, ha⟩ := hs
    obtain ⟨m, hm⟩ := Option.ne_none_iff_exists'.1 ha
    have hlt := hμ s a m hm
    obtain ⟨as, t, hrun, ht⟩ := exists_final hμ m
    refine ⟨a :: as, t, ?_, ht⟩
    rw [run_cons, hm]
    exact hrun
termination_by μ s

end Steps

namespace Threads

variable {ρ : Type}

theorem sum_map_set (f : ρ → Nat) (q : ρ) {ps : List ρ} {i : Nat} {p : ρ} (hp : ps[i]? = some p) :
    ((ps.set i q).map f).sum + f p = (ps.map f).sum + f q := by
  induction ps generalizing i with
  | nil => cases hp
  | cons r ps ih =>
    cases i with
    | zero =>
      obtain rfl := Option.some.inj hp
      simp only [List.set_cons_zero, List.map_cons, List.sum_cons]
      omega
    | succ i =>
      have htail := ih (i := i) hp
      simp only [List.set_cons_succ, List.map_cons, List.sum_cons]
      omega

end Threads
