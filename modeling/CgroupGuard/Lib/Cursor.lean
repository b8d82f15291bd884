import Mathlib.Data.List.MinMax
/-!
# Cursor — going through keys that come and go

The keys are gone through by rank.  A cursor that is still among them has those of a higher rank ahead, and one that is
not has them all: it goes back to the start.  What is ahead gets less with every move over keys that stay as they are.
-/

namespace Cursor

variable {κ : Type} [DecidableEq κ] (rank : κ → Nat)

/-- The keys to come: behind the cursor, or all where there is none or it is gone. -/
def ahead (keys : List κ) : Option κ → List κ
  | none => keys
  | some k => if k ∈ keys then keys.filter (fun k' => rank k < rank k') else keys

def next (keys : List κ) (cursor : Option κ) : Option κ := (ahead rank keys cursor).argmin rank

variable {rank} {keys : List κ} {cursor : Option κ} {k k' : κ}

theorem ahead_of_mem (hk : k ∈ keys) : ahead rank keys (some k) = keys.filter (fun k' => rank k < rank k') := if_pos hk

theorem ahead_of_not_mem (hk : k ∉ keys) : ahead rank keys (some k) = keys := if_neg hk

theorem ahead_subset : ∀ cursor : Option κ, ahead rank keys cursor ⊆ keys
  | none => List.Subset.refl _
  | some c => by
    by_cases hc : c ∈ keys
    · rw [ahead_of_mem hc]
      exact List.filter_subset_self _
    · rw [ahead_of_not_mem hc]
      exact List.Subset.refl _

theorem length_ahead_le : ∀ cursor : Option κ, (ahead rank keys cursor).length ≤ keys.length
  | none => Nat.le_refl _
  | some c => by
    by_cases hc : c ∈ keys
    · rw [ahead_of_mem hc]
      exact List.length_filter_le _ _
    · rw [ahead_of_not_mem hc]

/-- **A key above the cursor is to come**, wherever the cursor is. -/
theorem mem_ahead (hk : k ∈ keys) : ∀ {cursor : Option κ}, (∀ c ∈ cursor, rank c < rank k) → k ∈ ahead rank keys cursor
  | none, _ => hk
  | some c, h => by
    by_cases hc : c ∈ keys
    · rw [ahead_of_mem hc]
      exact List.mem_filter.2 ⟨hk, decide_eq_true (h c rfl)⟩
    · rw [ahead_of_not_mem hc]
      exact hk

theorem next_mem (h : next rank keys cursor = some k) : k ∈ ahead rank keys cursor := List.argmin_mem h

theorem rank_next_le (h : next rank keys cursor = some k) (hk : k' ∈ ahead rank keys cursor) : rank k ≤ rank k' :=
  List.le_of_mem_argmin hk h

theorem next_eq_none (h : next rank keys cursor = none) : ahead rank keys cursor = [] := List.argmin_eq_none.1 h

theorem ahead_next (h : next rank keys cursor = some k) :
    ahead rank keys (some k) = (ahead rank keys cursor).filter (fun k' => rank k < rank k') := by
  have hk := next_mem h
  rw [ahead_of_mem (ahead_subset cursor hk)]
  cases cursor with
  | none => rfl
  | some c =>
    by_cases hc : c ∈ keys
    · rw [ahead_of_mem hc, List.mem_filter, decide_eq_true_iff] at hk
      rw [ahead_of_mem hc, List.filter_filter]
      refine List.filter_congr (fun k' _ => ?_)
      rw [← Bool.decide_and]
      exact decide_eq_decide.2 ⟨fun hlt => ⟨hlt, Nat.lt_trans hk.2 hlt⟩, And.left⟩
    · rw [ahead_of_not_mem hc]

/-- **Every move leaves less to come.** -/
theorem length_ahead_next (h : next rank keys cursor = some k) :
    (ahead rank keys (some k)).length < (ahead rank keys cursor).length := by
  rw [ahead_next h]
  exact List.length_filter_lt_length_iff_exists.2 ⟨k, next_mem h, by simp⟩

end Cursor
