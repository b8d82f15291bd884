import Mathlib.Data.List.Induction
import CgroupGuard.ExecControl.Hook
/-!
# Run — sequential runs of the exec hook

A run is the list of its calls, from empty maps, each call with its own `cgroup_filter` (tracking is switched on and
off between calls).  Here is what every run keeps: a record, once there, stays; its `last_new_exec_ns` is the clock of
one of its container's earlier checked calls; a key in `allow_map` is one of an earlier checked call; and a call
touches only its own cgroup's entries.
-/
namespace CgroupGuard
namespace ExecControl

def run (xs : List Invocation) : Maps := xs.foldl (fun m x => (execControl m x).1) Maps.init

/-- What the call `x` answers after the run `pre`. -/
def result (pre : List Invocation) (x : Invocation) : Int := (execControl (run pre) x).2

def Nondecreasing (xs : List Invocation) : Prop := xs.Pairwise (fun x y => x.now ≤ y.now)

theorem run_concat (xs : List Invocation) (x : Invocation) : run (xs ++ [x]) = (execControl (run xs) x).1 := by
  unfold run
  rw [List.foldl_append]
  rfl

theorem result_zero_or (pre : List Invocation) (x : Invocation) : result pre x = 0 ∨ result pre x = -1 :=
  execControl_zero_or _ x

theorem Nondecreasing.left {xs ys : List Invocation} (h : Nondecreasing (xs ++ ys)) : Nondecreasing xs :=
  (List.pairwise_append.1 h).1

theorem Nondecreasing.upTo {xs p q : List Invocation} {x : Invocation} (h : Nondecreasing xs)
    (hxs : xs = p ++ x :: q) : Nondecreasing (p ++ [x]) := by
  rw [hxs, List.append_cons] at h
  exact h.left

theorem Nondecreasing.le {xs : List Invocation} {x : Invocation} (h : Nondecreasing (xs ++ [x])) :
    ∀ y ∈ xs, y.now ≤ x.now :=
  fun y hy => (List.pairwise_append.1 h).2.2 y hy x (List.mem_singleton.2 rfl)

/-! ## The clock arithmetic -/

def horizon : Nat := horizonNs.toNat

theorem toNat_elapsed {last now : UInt64} (h : last ≤ now) : (now - last).toNat = now.toNat - last.toNat :=
  UInt64.toNat_sub_of_le now last h

theorem elapsed_lt_iff {last now : UInt64} (h : last ≤ now) :
    now - last < horizonNs ↔ now.toNat - last.toNat < horizon := by
  rw [UInt64.lt_iff_toNat_lt, toNat_elapsed h]
  rfl

theorem le_elapsed_iff {last now : UInt64} (h : last ≤ now) :
    horizonNs ≤ now - last ↔ last.toNat + horizon ≤ now.toNat := by
  have hpos : 0 < horizon := by decide
  have hle := UInt64.le_iff_toNat_le.1 h
  rw [UInt64.le_iff_toNat_le, toNat_elapsed h]
  show horizon ≤ _ ↔ _
  omega

/-! ## What one call does to the entries -/

theorem mem_cgStateMap_of_mem {m : Maps} (x : Invocation) {c : UInt64} (h : c ∈ m.cgStateMap.keys) :
    c ∈ (execControl m x).1.cgStateMap.keys := by
  cases hx : x.checked with
  | none => rwa [execControl_of_unchecked m hx]
  | some key =>
    have hc := execControl_of_checked m hx
    generalize execControl m x = r at hc ⊢
    cases hc with
    | create hst => exact BoundedMap.mem_keys_put_of_mem _ h
    | known => exact h
    | learn st s hst hk hd => exact BoundedMap.mem_keys_put_of_mem _ h
    | deny st hst hk hd => exact BoundedMap.mem_keys_put_of_mem _ h

theorem mem_allowMap_of_mem {m : Maps} (x : Invocation) {k : ExecKey} (h : k ∈ m.allowMap.keys) :
    k ∈ (execControl m x).1.allowMap.keys := by
  cases hx : x.checked with
  | none => rwa [execControl_of_unchecked m hx]
  | some key =>
    have hc := execControl_of_checked m hx
    generalize execControl m x = r at hc ⊢
    cases hc with
    | create hst => exact h
    | known => exact h
    | learn st s hst hk hd => exact BoundedMap.mem_keys_put_of_mem _ h
    | deny st hst hk hd => exact h

/-- **A call writes no other cgroup's record.** -/
theorem lookup_of_other (m : Maps) (x : Invocation) {c : UInt64} (h : ∀ key, x.checked = some key → key.cgid ≠ c) :
    (execControl m x).1.cgStateMap.lookup c = m.cgStateMap.lookup c := by
  cases hx : x.checked with
  | none => rw [execControl_of_unchecked m hx]
  | some key =>
    have hne : c ≠ key.cgid := (h key hx).symm
    have hc := execControl_of_checked m hx
    generalize execControl m x = r at hc ⊢
    cases hc with
    | create hst => exact BoundedMap.lookup_put_ne _ _ hne
    | known => rfl
    | learn st s hst hk hd => exact BoundedMap.lookup_put_ne _ _ hne
    | deny st hst hk hd => exact BoundedMap.lookup_put_ne _ _ hne

/-- **A call allows no key but its own.** -/
theorem mem_allowMap_of_other (m : Maps) (x : Invocation) {k : ExecKey} (h : x.checked ≠ some k) :
    k ∈ (execControl m x).1.allowMap.keys ↔ k ∈ m.allowMap.keys := by
  cases hx : x.checked with
  | none => rw [execControl_of_unchecked m hx]
  | some key =>
    have hne : k ≠ key := fun he => h (he ▸ hx)
    have hc := execControl_of_checked m hx
    generalize execControl m x = r at hc ⊢
    cases hc with
    | create hst => rfl
    | known => rfl
    | learn st s hst hk hd =>
      show k ∈ (m.allowMap.put key 1).keys ↔ _
      rw [BoundedMap.mem_keys_put]
      simp [hne]
    | deny st hst hk hd => rfl

/-! ## What every run keeps -/

theorem mem_cgStateMap_run_append {xs : List Invocation} {c : UInt64} (h : c ∈ (run xs).cgStateMap.keys)
    (ys : List Invocation) : c ∈ (run (xs ++ ys)).cgStateMap.keys := by
  induction ys using List.reverseRecOn with
  | nil => rwa [List.append_nil]
  | append_singleton ys y ih =>
    rw [← List.append_assoc, run_concat]
    exact mem_cgStateMap_of_mem y ih

theorem mem_allowMap_run_append {xs : List Invocation} {k : ExecKey} (h : k ∈ (run xs).allowMap.keys)
    (ys : List Invocation) : k ∈ (run (xs ++ ys)).allowMap.keys := by
  induction ys using List.reverseRecOn with
  | nil => rwa [List.append_nil]
  | append_singleton ys y ih =>
    rw [← List.append_assoc, run_concat]
    exact mem_allowMap_of_mem y ih

/-- **A key in `allow_map` is the key of an earlier checked call.** -/
theorem exists_checked_of_mem_allowMap : ∀ (xs : List Invocation) {k : ExecKey}, k ∈ (run xs).allowMap.keys →
    ∃ x ∈ xs, x.checked = some k := by
  intro xs
  induction xs using List.reverseRecOn with
  | nil => intro k h; cases h
  | append_singleton xs x ih =>
    intro k h
    by_cases hx : x.checked = some k
    · exact ⟨x, by simp, hx⟩
    · rw [run_concat, mem_allowMap_of_other _ _ hx] at h
      obtain ⟨y, hy, hyk⟩ := ih h
      exact ⟨y, by simp [hy], hyk⟩

/-- **A record's `last_new_exec_ns` is the clock of an earlier checked call of its cgroup.** -/
theorem exists_checked_of_lookup : ∀ (xs : List Invocation) {c : UInt64} {st : CgState},
    (run xs).cgStateMap.lookup c = some st →
      ∃ x ∈ xs, ∃ key, x.checked = some key ∧ key.cgid = c ∧ x.now = st.lastNewExecNs := by
  intro xs
  induction xs using List.reverseRecOn with
  | nil => intro c st h; cases h
  | append_singleton xs x ih =>
    intro c st h
    have hold : (run xs).cgStateMap.lookup c = some st →
        ∃ y ∈ xs ++ [x], ∃ key, y.checked = some key ∧ key.cgid = c ∧ y.now = st.lastNewExecNs := fun h => by
      obtain ⟨y, hy, hyc⟩ := ih h
      exact ⟨y, by simp [hy], hyc⟩
    rw [run_concat] at h
    by_cases hx : ∀ key, x.checked = some key → key.cgid ≠ c
    · rw [lookup_of_other _ _ hx] at h
      exact hold h
    · push Not at hx
      obtain ⟨key, hx, rfl⟩ := hx
      have hnow : x.now = st.lastNewExecNs →
          ∃ y ∈ xs ++ [x], ∃ key', y.checked = some key' ∧ key'.cgid = key.cgid ∧ y.now = st.lastNewExecNs :=
        fun he => ⟨x, by simp, key, hx, rfl, he⟩
      have hc := execControl_of_checked (run xs) hx
      generalize execControl (run xs) x = r at h hc
      cases hc with
      | create hst =>
        simp only [BoundedMap.lookup_put_self_eq] at h
        split at h
        · cases h; exact hnow rfl
        · cases h
      | known => exact hold h
      | learn st' s hst hk hd =>
        rw [BoundedMap.lookup_put_self (.inl (BoundedMap.mem_keys_of_lookup hst))] at h
        cases h
        exact hnow rfl
      | deny st' hst hk hd =>
        rw [BoundedMap.lookup_put_self (.inl (BoundedMap.mem_keys_of_lookup hst))] at h
        cases h
        obtain ⟨y, hy, hyc⟩ := ih hst
        exact ⟨y, by simp [hy], hyc⟩

theorem last_le_now {pre : List Invocation} {x : Invocation} (hclock : Nondecreasing (pre ++ [x])) {c : UInt64}
    {st : CgState} (h : (run pre).cgStateMap.lookup c = some st) : st.lastNewExecNs ≤ x.now := by
  obtain ⟨y, hy, _, _, _, hn⟩ := exists_checked_of_lookup pre h
  rw [← hn]
  exact hclock.le y hy

/-! ## Calls of a tracked container -/

def trackedExec (c ino now : UInt64) : Invocation :=
  { cgroupFilter := BoundedMap.empty.put c 1
    cgid := c
    file := some ⟨some ⟨ino, ⟨1⟩⟩⟩
    now := now }

theorem checked_trackedExec (c ino now : UInt64) : (trackedExec c ino now).checked = some ⟨c, ⟨1, ino⟩⟩ := by
  have hf : (trackedExec c ino now).cgroupFilter.lookup c = some 1 := BoundedMap.lookup_put_self (.inr (by decide)) 1
  unfold Invocation.checked
  rw [show (trackedExec c ino now).cgroupFilter.lookup (trackedExec c ino now).cgid = some 1 from hf]
  rfl

theorem size_run_le (xs : List Invocation) :
    (run xs).cgStateMap.size ≤ xs.length ∧ (run xs).allowMap.size ≤ xs.length := by
  induction xs using List.reverseRecOn with
  | nil => exact ⟨Nat.le_refl 0, Nat.le_refl 0⟩
  | append_singleton xs x ih =>
    obtain ⟨hs, ha⟩ := ih
    rw [run_concat, List.length_append, List.length_singleton]
    cases hx : x.checked with
    | none => rw [execControl_of_unchecked _ hx]; exact ⟨Nat.le_succ_of_le hs, Nat.le_succ_of_le ha⟩
    | some key =>
      have hc := execControl_of_checked (run xs) hx
      generalize execControl (run xs) x = r at hc ⊢
      cases hc with
      | create hst =>
        exact ⟨Nat.le_trans (BoundedMap.size_put_le _ _ _) (Nat.succ_le_succ hs), Nat.le_succ_of_le ha⟩
      | known => exact ⟨Nat.le_succ_of_le hs, Nat.le_succ_of_le ha⟩
      | learn st s hst hk hd =>
        exact ⟨Nat.le_trans (BoundedMap.size_put_le _ _ _) (Nat.succ_le_succ hs),
          Nat.le_trans (BoundedMap.size_put_le _ _ _) (Nat.succ_le_succ ha)⟩
      | deny st hst hk hd =>
        exact ⟨Nat.le_trans (BoundedMap.size_put_le _ _ _) (Nat.succ_le_succ hs), Nat.le_succ_of_le ha⟩

end ExecControl
end CgroupGuard
