import CgroupGuard.ExecControl.Run
/-!
# Absorbing — after its first denial a container stays enforcing

Nothing reads the record's state field; what keeps a denied container denied is arithmetic (`Enforced`): its
`last_new_exec_ns` is at least the two windows before the clock, the clock does not go back, and only a call inside
the windows writes it again.  Neither map needs room for any of this.
-/
namespace CgroupGuard
namespace ExecControl

/-- The record `st` of `c` is enforcing, and the clock `t` has left its windows. -/
structure Enforced (m : Maps) (c : UInt64) (st : CgState) (t : UInt64) : Prop where
  record : m.cgStateMap.lookup c = some st
  state : st.state = .enforcing
  elapsed : st.lastNewExecNs.toNat + horizon ≤ t.toNat

theorem Enforced.far {m : Maps} {c : UInt64} {st : CgState} {t now : UInt64} (h : Enforced m c st t) (ht : t ≤ now) :
    ¬ now - st.lastNewExecNs < horizonNs := by
  have helapsed := h.elapsed
  have hnow := UInt64.le_iff_toNat_le.1 ht
  have hle : st.lastNewExecNs ≤ now := UInt64.le_iff_toNat_le.2 (by omega)
  rw [UInt64.not_lt, le_elapsed_iff hle]
  omega

theorem Enforced.step {m : Maps} {c : UInt64} {st : CgState} {t : UInt64} (h : Enforced m c st t) (x : Invocation)
    (ht : t ≤ x.now) :
    Enforced (execControl m x).1 c st t ∧
      (∀ fid, (⟨c, fid⟩ : ExecKey) ∈ (execControl m x).1.allowMap.keys ↔ (⟨c, fid⟩ : ExecKey) ∈ m.allowMap.keys) ∧
      (∀ key, x.checked = some key → key.cgid = c →
        (execControl m x).2 = if key ∈ m.allowMap.keys then 0 else -1) := by
  by_cases hown : ∃ key, x.checked = some key ∧ key.cgid = c
  · obtain ⟨key, hx, rfl⟩ := hown
    have hkey : ∀ key', x.checked = some key' → key' = key := fun key' hk' => Option.some.inj (hk'.symm.trans hx)
    have hc := execControl_of_checked m hx
    generalize execControl m x = r at hc ⊢
    cases hc with
    | create hst => rw [h.record] at hst; cases hst
    | known st' hst hk =>
      refine ⟨h, fun fid => Iff.rfl, fun key' hk' _ => ?_⟩
      rw [hkey key' hk', if_pos hk]
    | learn st' s hst hk hd =>
      rw [h.record] at hst
      cases hst
      exact absurd hd (h.far ht)
    | deny st' hst hk hd =>
      rw [h.record] at hst
      cases hst
      refine ⟨⟨?_, h.state, h.elapsed⟩, fun fid => Iff.rfl, fun key' hk' _ => ?_⟩
      · rw [BoundedMap.lookup_put_self (.inl (BoundedMap.mem_keys_of_lookup h.record)), ← h.state]
      · rw [hkey key' hk', if_neg hk]
  · have hother : ∀ key, x.checked = some key → key.cgid ≠ c := fun key hk hc => hown ⟨key, hk, hc⟩
    refine ⟨⟨?_, h.state, h.elapsed⟩, fun fid => ?_, fun key hk hc => absurd hc (hother key hk)⟩
    · rw [lookup_of_other m x hother]
      exact h.record
    · exact mem_allowMap_of_other m x (fun hk => hother _ hk rfl)

theorem enforced_of_denied {pre : List Invocation} {d : Invocation} (hclock : Nondecreasing (pre ++ [d]))
    (hdeny : result pre d = -1) :
    (∃ st, Enforced (run (pre ++ [d])) d.cgid st d.now) ∧ (run (pre ++ [d])).allowMap = (run pre).allowMap := by
  cases hd : d.checked with
  | none => rw [result, execControl_of_unchecked _ hd] at hdeny; cases hdeny
  | some key =>
    rw [← Invocation.cgid_of_checked hd, run_concat]
    unfold result at hdeny
    have hc := execControl_of_checked (run pre) hd
    generalize execControl (run pre) d = r at hdeny hc ⊢
    cases hc with
    | create hst => cases hdeny
    | known st hst hk => cases hdeny
    | learn st s hst hk hlt => cases hdeny
    | deny st hst hk hle =>
      refine ⟨⟨_, BoundedMap.lookup_put_self (.inl (BoundedMap.mem_keys_of_lookup hst)) _, rfl, ?_⟩, rfl⟩
      exact (le_elapsed_iff (last_le_now hclock hst)).1 hle

theorem enforced_run {pre : List Invocation} {d : Invocation} {st : CgState}
    (h : Enforced (run (pre ++ [d])) d.cgid st d.now) (mid : List Invocation) (hle : ∀ y ∈ mid, d.now ≤ y.now) :
    Enforced (run (pre ++ d :: mid)) d.cgid st d.now ∧
      ∀ fid, (⟨d.cgid, fid⟩ : ExecKey) ∈ (run (pre ++ d :: mid)).allowMap.keys ↔
        (⟨d.cgid, fid⟩ : ExecKey) ∈ (run (pre ++ [d])).allowMap.keys := by
  induction mid using List.reverseRecOn with
  | nil => exact ⟨h, fun fid => Iff.rfl⟩
  | append_singleton mid y ih =>
    obtain ⟨he, hkeys⟩ := ih (fun z hz => hle z (by simp [hz]))
    obtain ⟨he', hkeys', -⟩ := he.step y (hle y (by simp))
    rw [show pre ++ d :: (mid ++ [y]) = (pre ++ d :: mid) ++ [y] by simp, run_concat]
    exact ⟨he', fun fid => (hkeys' fid).trans (hkeys fid)⟩

/-- **Enforcing is absorbing**: after a denial of `d`'s container, in every later state its keys are those it had at
the denial and its record is unchanged and enforcing, and every later checked call of it is answered by those keys. -/
theorem enforcing_absorbing (pre : List Invocation) (d : Invocation) (post : List Invocation)
    (hclock : Nondecreasing (pre ++ d :: post)) (hdeny : result pre d = -1) :
    ∃ st, (run (pre ++ [d])).cgStateMap.lookup d.cgid = some st ∧ st.state = .enforcing ∧
      ∀ mid rest, post = mid ++ rest →
        (∀ fid, (⟨d.cgid, fid⟩ : ExecKey) ∈ (run (pre ++ d :: mid)).allowMap.keys ↔
          (⟨d.cgid, fid⟩ : ExecKey) ∈ (run pre).allowMap.keys) ∧
        (run (pre ++ d :: mid)).cgStateMap.lookup d.cgid = some st ∧
        (∀ y rest' key, rest = y :: rest' → y.checked = some key → key.cgid = d.cgid →
          result (pre ++ d :: mid) y = if key ∈ (run pre).allowMap.keys then 0 else -1) := by
  have hclock' : Nondecreasing (pre ++ [d]) := hclock.upTo rfl
  have hle : ∀ y ∈ post, d.now ≤ y.now := (List.pairwise_cons.1 (List.pairwise_append.1 hclock).2.1).1
  obtain ⟨⟨st, hst⟩, hallow⟩ := enforced_of_denied hclock' hdeny
  refine ⟨st, hst.record, hst.state, ?_⟩
  rintro mid rest rfl
  obtain ⟨he, hkeys⟩ := enforced_run hst mid (fun y hy => hle y (by simp [hy]))
  rw [hallow] at hkeys
  refine ⟨hkeys, he.record, ?_⟩
  rintro y rest' ⟨c, fid⟩ rfl hy rfl
  rw [result, (he.step y (hle y (by simp))).2.2 _ hy rfl]
  simp only [hkeys fid]

theorem enforcing_absorbing_entry :
    Nondecreasing ([trackedExec 7 1 0] ++ trackedExec 7 2 6000000000 :: [trackedExec 7 1 6000000001]) ∧
    result [trackedExec 7 1 0] (trackedExec 7 2 6000000000) = -1 ∧
    result [trackedExec 7 1 0, trackedExec 7 2 6000000000] (trackedExec 7 1 6000000001) = -1 := by
  have hclock : Nondecreasing ([trackedExec 7 1 0] ++ trackedExec 7 2 6000000000 :: [trackedExec 7 1 6000000001]) := by
    unfold Nondecreasing; decide
  have hdeny : result [trackedExec 7 1 0] (trackedExec 7 2 6000000000) = -1 := by decide
  obtain ⟨st, -, -, h⟩ := enforcing_absorbing [trackedExec 7 1 0] (trackedExec 7 2 6000000000)
    [trackedExec 7 1 6000000001] hclock hdeny
  refine ⟨hclock, hdeny, ?_⟩
  exact ((h [] [trackedExec 7 1 6000000001] rfl).2.2 (trackedExec 7 1 6000000001) [] ⟨7, ⟨1, 1⟩⟩
      rfl (by decide) rfl).trans
    (if_neg (by decide))

end ExecControl
end CgroupGuard
