import CgroupGuard.ExecControl.Run
/-!
# Capacity — enforcement and the 1024 records

`cg_state_map` is never emptied and its write is unchecked.  A container whose first checked exec comes when 1024
others have a record gets none, then or later, and every exec of it is allowed (`denies_iff`).
-/
namespace CgroupGuard
namespace ExecControl

def checkedCgids (xs : List Invocation) : List UInt64 := (xs.filterMap Invocation.checked).map ExecKey.cgid

theorem checkedCgids_concat (xs : List Invocation) (x : Invocation) :
    checkedCgids (xs ++ [x]) = checkedCgids xs ++ (x.checked.map ExecKey.cgid).toList := by
  unfold checkedCgids
  cases h : x.checked <;> simp [h]

theorem mem_checkedCgids {xs : List Invocation} {c : UInt64} :
    c ∈ checkedCgids xs ↔ ∃ x ∈ xs, ∃ key, x.checked = some key ∧ key.cgid = c := by
  unfold checkedCgids
  simp only [List.mem_map, List.mem_filterMap]
  constructor
  · rintro ⟨key, ⟨x, hx, hk⟩, hc⟩
    exact ⟨x, hx, key, hk, hc⟩
  · rintro ⟨x, hx, key, hk, hc⟩
    exact ⟨key, ⟨x, hx, hk⟩, hc⟩

theorem mem_cgStateMap_of_checked (m : Maps) {x : Invocation} {key : ExecKey} (h : x.checked = some key) (c : UInt64) :
    c ∈ (execControl m x).1.cgStateMap.keys ↔
      (c = key.cgid ∧ m.cgStateMap.Accepts key.cgid) ∨ c ∈ m.cgStateMap.keys := by
  have hc := execControl_of_checked m h
  generalize execControl m x = r at hc ⊢
  cases hc with
  | create hst => exact BoundedMap.mem_keys_put _ _ _ _
  | known st hst hk =>
    have hmem := BoundedMap.mem_keys_of_lookup hst
    exact ⟨.inr, fun h => h.elim (fun h => h.1 ▸ hmem) id⟩
  | learn st s hst hk hd => exact BoundedMap.mem_keys_put _ _ _ _
  | deny st hst hk hd => exact BoundedMap.mem_keys_put _ _ _ _

theorem size_cgStateMap_le (m : Maps) (x : Invocation) : m.cgStateMap.size ≤ (execControl m x).1.cgStateMap.size :=
  (List.subperm_of_subset m.cgStateMap.nodup_keys (fun _ h => mem_cgStateMap_of_mem x h)).length_le

theorem records_of_run (xs : List Invocation) :
    (run xs).cgStateMap.keys ⊆ checkedCgids xs ∧
      ((run xs).cgStateMap.size < 1024 → checkedCgids xs ⊆ (run xs).cgStateMap.keys) := by
  induction xs using List.reverseRecOn with
  | nil => exact ⟨List.Subset.refl _, fun _ => List.Subset.refl _⟩
  | append_singleton xs x ih =>
    obtain ⟨hsub, hcov⟩ := ih
    rw [run_concat, checkedCgids_concat]
    cases hx : x.checked with
    | none =>
      rw [execControl_of_unchecked _ hx]
      simpa using ⟨hsub, hcov⟩
    | some key =>
      simp only [Option.map_some, Option.toList_some]
      constructor
      · intro c hc
        rcases (mem_cgStateMap_of_checked _ hx c).1 hc with ⟨rfl, -⟩ | hc
        · simp
        · exact List.mem_append_left _ (hsub hc)
      · intro hsize c hc
        have hold : (run xs).cgStateMap.size < 1024 := Nat.lt_of_le_of_lt (size_cgStateMap_le _ x) hsize
        rw [mem_cgStateMap_of_checked _ hx c]
        rcases List.mem_append.1 hc with hc | hc
        · exact .inr (hcov hold hc)
        · exact .inl ⟨List.mem_singleton.1 hc, .inr hold⟩

theorem records_lt_iff (xs : List Invocation) :
    (run xs).cgStateMap.size < 1024 ↔ (checkedCgids xs).dedup.length < 1024 :=
  BoundedMap.size_lt_iff_dedup_length_lt (records_of_run xs).1 (records_of_run xs).2

theorem not_mem_cgStateMap_of_full {m : Maps} {c : UInt64} (hfull : ¬ m.cgStateMap.size < 1024)
    (hc : c ∉ m.cgStateMap.keys) (x : Invocation) :
    ¬ (execControl m x).1.cgStateMap.size < 1024 ∧ c ∉ (execControl m x).1.cgStateMap.keys := by
  cases hx : x.checked with
  | none => rw [execControl_of_unchecked m hx]; exact ⟨hfull, hc⟩
  | some key =>
    have hstep := execControl_of_checked m hx
    generalize execControl m x = r at hstep ⊢
    cases hstep with
    | create hst => exact BoundedMap.not_mem_put_of_full hfull hc _ _
    | known st hst hk => exact ⟨hfull, hc⟩
    | learn st s hst hk hd => exact BoundedMap.not_mem_put_of_full hfull hc _ _
    | deny st hst hk hd => exact BoundedMap.not_mem_put_of_full hfull hc _ _

theorem not_mem_of_full {xs : List Invocation} {c : UInt64} (hfull : ¬ (run xs).cgStateMap.size < 1024)
    (hc : c ∉ (run xs).cgStateMap.keys) (ys : List Invocation) :
    ¬ (run (xs ++ ys)).cgStateMap.size < 1024 ∧ c ∉ (run (xs ++ ys)).cgStateMap.keys := by
  induction ys using List.reverseRecOn with
  | nil => rw [List.append_nil]; exact ⟨hfull, hc⟩
  | append_singleton ys y ih =>
    obtain ⟨hfull', hc'⟩ := ih
    rw [← List.append_assoc, run_concat]
    exact not_mem_cgStateMap_of_full hfull' hc' y

/-- **A container has a record exactly when its first checked exec found fewer than 1024 checked cgroups.** -/
theorem mem_records_iff (p₁ p₂ : List Invocation) {f : Invocation} {kf : ExecKey} (hf : f.checked = some kf)
    (hfirst : ∀ y ∈ p₁, ∀ k, y.checked = some k → k.cgid ≠ kf.cgid) :
    kf.cgid ∈ (run (p₁ ++ f :: p₂)).cgStateMap.keys ↔ (checkedCgids p₁).dedup.length < 1024 := by
  have hnew : kf.cgid ∉ (run p₁).cgStateMap.keys := fun h => by
    obtain ⟨y, hy, k, hk, hc⟩ := mem_checkedCgids.1 ((records_of_run p₁).1 h)
    exact hfirst y hy k hk hc
  rw [List.append_cons, ← records_lt_iff]
  have hstep := mem_cgStateMap_of_checked (run p₁) hf kf.cgid
  rw [← run_concat] at hstep
  constructor
  · intro h
    by_contra hfull
    have hnot : kf.cgid ∉ (run (p₁ ++ [f])).cgStateMap.keys := fun hmem => by
      rcases hstep.1 hmem with ⟨-, hacc⟩ | hmem
      · exact hacc.elim hnew hfull
      · exact hnew hmem
    have hfull' : ¬ (run (p₁ ++ [f])).cgStateMap.size < 1024 := fun hlt => by
      rw [run_concat] at hlt
      exact hfull (Nat.lt_of_le_of_lt (size_cgStateMap_le _ f) hlt)
    exact (not_mem_of_full hfull' hnot p₂).2 h
  · intro hlt
    exact mem_cgStateMap_run_append (hstep.2 (.inl ⟨rfl, .inr hlt⟩)) p₂

/-! ## Denials -/

/-- The calls of a run before the first checked exec of `c`. -/
def callsBefore (c : UInt64) (xs : List Invocation) : List Invocation :=
  xs.takeWhile (fun y => decide (y.checked.map ExecKey.cgid ≠ some c))

/-- After the run `pre`, `x` runs an executable new to its container, whose checked execs, at least one, are all at
least the two windows ago. -/
structure NewToIdle (pre : List Invocation) (x : Invocation) (key : ExecKey) : Prop where
  clock : Nondecreasing (pre ++ [x])
  checked : x.checked = some key
  seen : key.cgid ∈ checkedCgids pre
  idle : ∀ y ∈ pre, ∀ k, y.checked = some k → k.cgid = key.cgid →
    y.now.toNat + (learnWindowNs + graceWindowNs).toNat ≤ x.now.toNat
  fresh : ∀ y ∈ pre, y.checked ≠ some key

theorem exists_first_checked {c : UInt64} : ∀ {xs : List Invocation}, (∃ y ∈ xs, ∃ k, y.checked = some k ∧ k.cgid = c) →
    ∃ f kf post, xs = callsBefore c xs ++ f :: post ∧ f.checked = some kf ∧ kf.cgid = c ∧
      ∀ y ∈ callsBefore c xs, ∀ k, y.checked = some k → k.cgid ≠ c
  | [], h => by
    obtain ⟨y, hy, -⟩ := h
    cases hy
  | x :: xs, h => by
    unfold callsBefore
    by_cases hx : x.checked.map ExecKey.cgid = some c
    · obtain ⟨kf, hk, hc⟩ := Option.map_eq_some_iff.1 hx
      rw [List.takeWhile_cons_of_neg (by simpa using hx)]
      exact ⟨x, kf, xs, rfl, hk, hc, fun y hy => by cases hy⟩
    · have hxk : ∀ k, x.checked = some k → k.cgid ≠ c := fun k hk hc => hx (by rw [hk, Option.map_some, hc])
      obtain ⟨y, hy, k, hk, hc⟩ := h
      have hy' : y ∈ xs := (List.mem_cons.1 hy).resolve_left (fun he => hxk k (he ▸ hk) hc)
      obtain ⟨f, kf, post, hxs, hf, hfc, hbefore⟩ := exists_first_checked ⟨y, hy', k, hk, hc⟩
      rw [List.takeWhile_cons_of_pos (by simpa using hx)]
      refine ⟨f, kf, post, congrArg (x :: ·) hxs, hf, hfc, fun z hz => ?_⟩
      rcases List.mem_cons.1 hz with rfl | hz
      · exact hxk
      · exact hbefore z hz

theorem result_of_newToIdle {pre : List Invocation} {x : Invocation} {key : ExecKey} (h : NewToIdle pre x key) :
    result pre x = if key.cgid ∈ (run pre).cgStateMap.keys then -1 else 0 := by
  have hk : key ∉ (run pre).allowMap.keys := fun hmem => by
    obtain ⟨y, hy, hyk⟩ := exists_checked_of_mem_allowMap pre hmem
    exact h.fresh y hy hyk
  unfold result
  have hc := execControl_of_checked (run pre) h.checked
  generalize execControl (run pre) x = r at hc ⊢
  cases hc with
  | create hst => exact (if_neg ((BoundedMap.lookup_eq_none _ _).1 hst)).symm
  | known st hst hk' => exact absurd hk' hk
  | learn st s hst _ hd =>
    obtain ⟨y, hy, k, hyk, hyc, hyn⟩ := exists_checked_of_lookup pre hst
    have hfar : ¬ x.now - st.lastNewExecNs < horizonNs := by
      rw [UInt64.not_lt, le_elapsed_iff (last_le_now h.clock hst), ← hyn]
      exact h.idle y hy k hyk hyc
    exact absurd hd hfar
  | deny st hst _ hd => exact (if_pos (BoundedMap.mem_keys_of_lookup hst)).symm

/-- **An executable new to an idle container is denied exactly when fewer than 1024 cgroups had a checked exec before
the container's first.** -/
theorem denies_iff (pre : List Invocation) (x : Invocation) (key : ExecKey) (h : NewToIdle pre x key) :
    result pre x = -1 ↔ (checkedCgids (callsBefore key.cgid pre)).dedup.length < 1024 := by
  obtain ⟨f, kf, post, hpre, hf, hown, hbefore⟩ := exists_first_checked (mem_checkedCgids.1 h.seen)
  have hrec := mem_records_iff (callsBefore key.cgid pre) post hf (hown ▸ hbefore)
  rw [← hpre, hown] at hrec
  rw [result_of_newToIdle h, ← hrec]
  by_cases hmem : key.cgid ∈ (run pre).cgStateMap.keys
  · exact iff_of_true (if_pos hmem) hmem
  · exact iff_of_false (by rw [if_neg hmem]; decide) hmem

theorem denies_iff_alone :
    NewToIdle [trackedExec 7 1 0] (trackedExec 7 2 6000000000) ⟨7, ⟨1, 2⟩⟩ ∧
      (result [trackedExec 7 1 0] (trackedExec 7 2 6000000000) = -1 ↔
        (checkedCgids (callsBefore 7 [trackedExec 7 1 0])).dedup.length < 1024) := by
  have h : NewToIdle [trackedExec 7 1 0] (trackedExec 7 2 6000000000) ⟨7, ⟨1, 2⟩⟩ := by
    refine ⟨by unfold Nondecreasing; decide, by decide, by decide, ?_, by decide⟩
    intro y hy k _ _
    obtain rfl := List.mem_singleton.1 hy
    decide
  exact ⟨h, denies_iff _ _ _ h⟩

/-- Each of the containers 0 to 1023 runs its entry. -/
def crowd : List Invocation := (List.range 1024).map (fun i => trackedExec (UInt64.ofNat i) 1 0)

theorem checkedCgids_crowd : checkedCgids crowd = (List.range 1024).map UInt64.ofNat := by
  have hkey : Invocation.checked ∘ (fun i => trackedExec (UInt64.ofNat i) 1 0) =
      some ∘ (fun i => ⟨UInt64.ofNat i, ⟨1, 1⟩⟩) := funext (fun i => checked_trackedExec _ _ _)
  unfold checkedCgids crowd
  rw [List.filterMap_map, hkey, List.filterMap_eq_map, List.map_map]
  rfl

theorem toNat_ofNat_crowd {i : Nat} (hi : i < 1024) : (UInt64.ofNat i).toNat = i :=
  UInt64.toNat_ofNat_of_lt' (Nat.lt_trans hi (by decide))

theorem length_dedup_checkedCgids_crowd : (checkedCgids crowd).dedup.length = 1024 := by
  have hnodup : ((List.range 1024).map UInt64.ofNat).Nodup := by
    refine List.Nodup.map_on (fun i hi j hj hij => ?_) List.nodup_range
    have := congrArg UInt64.toNat hij
    rwa [toNat_ofNat_crowd (List.mem_range.1 hi), toNat_ofNat_crowd (List.mem_range.1 hj)] at this
  rw [checkedCgids_crowd, hnodup.dedup, List.length_map, List.length_range]

theorem of_mem_crowd {y : Invocation} (hy : y ∈ crowd) :
    y.now = 0 ∧ ∃ c : UInt64, c.toNat < 1024 ∧ y.checked = some ⟨c, ⟨1, 1⟩⟩ := by
  obtain ⟨i, hi, rfl⟩ := List.mem_map.1 hy
  have hi' := List.mem_range.1 hi
  exact ⟨rfl, UInt64.ofNat i, by rw [toNat_ofNat_crowd hi']; exact hi', checked_trackedExec _ _ _⟩

theorem newToIdle_after_crowd :
    NewToIdle (crowd ++ [trackedExec 5000 1 0]) (trackedExec 5000 2 6000000000) ⟨5000, ⟨1, 2⟩⟩ := by
  have hf := checked_trackedExec 5000 1 0
  have hold : ∀ y ∈ crowd ++ [trackedExec 5000 1 0], y.now = 0 ∧ ∃ c, y.checked = some ⟨c, ⟨1, 1⟩⟩ := by
    intro y hy
    rcases List.mem_append.1 hy with hy | hy
    · obtain ⟨hn, c, -, hc⟩ := of_mem_crowd hy
      exact ⟨hn, c, hc⟩
    · obtain rfl := List.mem_singleton.1 hy
      exact ⟨rfl, 5000, hf⟩
  refine ⟨?_, checked_trackedExec _ _ _, ?_, ?_, ?_⟩
  · refine List.pairwise_append.2 ⟨?_, List.pairwise_singleton _ _, ?_⟩
    · apply List.pairwise_of_forall_mem_list
      intro y hy z hz
      rw [(hold y hy).1, (hold z hz).1]
      exact UInt64.le_iff_toNat_le.2 (Nat.le_refl _)
    · intro y hy z _
      rw [(hold y hy).1]
      exact UInt64.le_iff_toNat_le.2 (Nat.zero_le _)
  · exact mem_checkedCgids.2 ⟨_, List.mem_append_right _ (List.mem_singleton.2 rfl), _, hf, rfl⟩
  · intro y hy _ _ _
    rw [(hold y hy).1]
    decide
  · intro y hy hk
    obtain ⟨c, hc⟩ := (hold y hy).2
    rw [hc] at hk
    cases hk

theorem result_after_crowd : result (crowd ++ [trackedExec 5000 1 0]) (trackedExec 5000 2 6000000000) = 0 := by
  have hfirst : ∀ y ∈ crowd, ∀ k, y.checked = some k → k.cgid ≠ 5000 := by
    intro y hy k hk hkc
    obtain ⟨-, c, hlt, hc⟩ := of_mem_crowd hy
    rw [hc] at hk
    cases hk
    obtain rfl : c = 5000 := hkc
    exact absurd hlt (by decide)
  have hrec := mem_records_iff crowd [] (checked_trackedExec 5000 1 0) hfirst
  rw [length_dedup_checkedCgids_crowd] at hrec
  rw [result_of_newToIdle newToIdle_after_crowd]
  exact if_neg (fun hmem => absurd (hrec.1 hmem) (Nat.lt_irrefl 1024))

/-- **After the crowd, a container that ran its entry runs anything**: six seconds later a second executable, new to
it, is allowed. -/
theorem crowded_not_denied :
    NewToIdle (crowd ++ [trackedExec 5000 1 0]) (trackedExec 5000 2 6000000000) ⟨5000, ⟨1, 2⟩⟩ ∧
      ¬ result (crowd ++ [trackedExec 5000 1 0]) (trackedExec 5000 2 6000000000) = -1 := by
  refine ⟨newToIdle_after_crowd, ?_⟩
  rw [result_after_crowd]
  decide

end ExecControl
end CgroupGuard
