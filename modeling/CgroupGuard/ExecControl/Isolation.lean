import CgroupGuard.ExecControl.Capacity
import CgroupGuard.ExecControl.View
/-!
# Isolation — what one container's answers tell of the others

Keys are separated by cgroup, so another container reaches `c` only through room in the two maps.  The answers to `c`
are a function of its own calls and of which of their writes a full map refused (`results_eq_replay`), and a write
refused in one run and taken in another shows at some later call of `c` (`isolated_exactly`).
-/
namespace CgroupGuard
namespace ExecControl

/-- What `c` itself does in a run: the key and the clock of each of its calls. -/
def calls (c : UInt64) (xs : List Invocation) : List (Option ExecKey × UInt64) :=
  (xs.filter (fun x => decide (x.cgid = c))).map (fun x => (x.checked, x.now))

def mapsFrom (m : Maps) (xs : List Invocation) : Maps := xs.foldl (fun m x => (execControl m x).1) m

def resultsFrom (c : UInt64) : Maps → List Invocation → List Int
  | _, [] => []
  | m, x :: xs =>
    if x.cgid = c then (execControl m x).2 :: resultsFrom c (execControl m x).1 xs
    else resultsFrom c (execControl m x).1 xs

/-- A full map refuses a write of this call: its container's record, or the key it would learn. -/
def refused (m : Maps) (x : Invocation) : Bool :=
  match x.checked with
  | none => false
  | some key =>
    match m.cgStateMap.lookup key.cgid with
    | none => decide (¬ m.cgStateMap.Accepts key.cgid)
    | some st => decide (key ∉ m.allowMap.keys ∧ x.now - st.lastNewExecNs < horizonNs ∧ ¬ m.allowMap.Accepts key)

def refusalsFrom (c : UInt64) : Maps → List Invocation → List Bool
  | _, [] => []
  | m, x :: xs =>
    if x.cgid = c then refused m x :: refusalsFrom c (execControl m x).1 xs
    else refusalsFrom c (execControl m x).1 xs

def results (c : UInt64) (xs : List Invocation) : List Int := resultsFrom c Maps.init xs

def refusals (c : UInt64) (xs : List Invocation) : List Bool := refusalsFrom c Maps.init xs

/-- One call of `c` on its view, knowing whether its write is refused. -/
def replayStep (v : View) (call : Option ExecKey × UInt64) (refuse : Bool) : View × Int :=
  match call.1 with
  | none => (v, 0)
  | some key => viewStep v (!refuse) (!refuse) key.fid call.2

def replay : View → List ((Option ExecKey × UInt64) × Bool) → List Int
  | _, [] => []
  | v, (call, refuse) :: rest => (replayStep v call refuse).2 :: replay (replayStep v call refuse).1 rest

theorem viewStep_refused (m : Maps) {x : Invocation} {key : ExecKey} (h : x.checked = some key) :
    viewStep (view m key.cgid) (decide (m.cgStateMap.Accepts key.cgid)) (decide (m.allowMap.Accepts key)) key.fid x.now
      = viewStep (view m key.cgid) (!refused m x) (!refused m x) key.fid x.now := by
  have hself : (view m key.cgid).allowed key.fid = decide (key ∈ m.allowMap.keys) := rfl
  unfold viewStep refused
  rw [h, hself]
  cases hst : m.cgStateMap.lookup key.cgid with
  | none =>
    have hlast : (view m key.cgid).last = none := by simp [view, hst]
    rw [hlast]
    simp [hst]
  | some st =>
    have hlast : (view m key.cgid).last = some st.lastNewExecNs := by simp [view, hst]
    rw [hlast]
    by_cases hk : key ∈ m.allowMap.keys
    · simp [hk]
    by_cases hd : x.now - st.lastNewExecNs < horizonNs
    · simp [hst, hk, hd]
    · simp [hk, hd]

/-- **A call of `c` acts on its view as `replayStep`.** -/
theorem execControl_replayStep (m : Maps) (x : Invocation) :
    (view (execControl m x).1 x.cgid, (execControl m x).2) =
      replayStep (view m x.cgid) (x.checked, x.now) (refused m x) := by
  cases hx : x.checked with
  | none => rw [execControl_of_unchecked m hx]; rfl
  | some key =>
    rw [← Invocation.cgid_of_checked hx, execControl_view m hx, viewStep_refused m hx]
    rfl

theorem calls_cons_of_own {c : UInt64} {x : Invocation} (xs : List Invocation) (h : x.cgid = c) :
    calls c (x :: xs) = (x.checked, x.now) :: calls c xs := by
  simp [calls, h]

theorem calls_cons_of_other {c : UInt64} {x : Invocation} (xs : List Invocation) (h : x.cgid ≠ c) :
    calls c (x :: xs) = calls c xs := by
  simp [calls, h]

theorem resultsFrom_cons_of_own {c : UInt64} (m : Maps) {x : Invocation} (xs : List Invocation) (h : x.cgid = c) :
    resultsFrom c m (x :: xs) = (execControl m x).2 :: resultsFrom c (execControl m x).1 xs := if_pos h

theorem resultsFrom_cons_of_other {c : UInt64} (m : Maps) {x : Invocation} (xs : List Invocation) (h : x.cgid ≠ c) :
    resultsFrom c m (x :: xs) = resultsFrom c (execControl m x).1 xs := if_neg h

theorem refusalsFrom_cons_of_own {c : UInt64} (m : Maps) {x : Invocation} (xs : List Invocation) (h : x.cgid = c) :
    refusalsFrom c m (x :: xs) = refused m x :: refusalsFrom c (execControl m x).1 xs := if_pos h

theorem refusalsFrom_cons_of_other {c : UInt64} (m : Maps) {x : Invocation} (xs : List Invocation) (h : x.cgid ≠ c) :
    refusalsFrom c m (x :: xs) = refusalsFrom c (execControl m x).1 xs := if_neg h

theorem view_of_other_cgid (m : Maps) {x : Invocation} {c : UInt64} (h : x.cgid ≠ c) :
    view (execControl m x).1 c = view m c :=
  view_of_other m x (fun _ hk hkc => h ((Invocation.cgid_of_checked hk).symm.trans hkc))

/-- **The answers to `c` are a function of its own calls and of their refusals.** -/
theorem results_eq_replay (c : UInt64) : ∀ (xs : List Invocation) (m : Maps),
    resultsFrom c m xs = replay (view m c) ((calls c xs).zip (refusalsFrom c m xs))
  | [], _ => rfl
  | x :: xs, m => by
    have ih := results_eq_replay c xs (execControl m x).1
    by_cases hc : x.cgid = c
    · rw [resultsFrom_cons_of_own m xs hc, refusalsFrom_cons_of_own m xs hc, calls_cons_of_own xs hc,
        List.zip_cons_cons, replay, ih]
      subst hc
      rw [← execControl_replayStep m x]
    · rw [resultsFrom_cons_of_other m xs hc, refusalsFrom_cons_of_other m xs hc, calls_cons_of_other xs hc, ih,
        view_of_other_cgid m hc]

theorem resultsFrom_append (c : UInt64) : ∀ (xs ys : List Invocation) (m : Maps),
    resultsFrom c m (xs ++ ys) = resultsFrom c m xs ++ resultsFrom c (mapsFrom m xs) ys
  | [], _, _ => rfl
  | x :: xs, ys, m => by
    have ih := resultsFrom_append c xs ys (execControl m x).1
    simp only [List.cons_append, resultsFrom, ih, mapsFrom, List.foldl_cons]
    split <;> rfl

theorem results_concat_own {c : UInt64} (xs : List Invocation) {x : Invocation} (h : x.cgid = c) :
    results c (xs ++ [x]) = results c xs ++ [result xs x] := by
  unfold results
  rw [resultsFrom_append]
  simp [resultsFrom, h, result, run, mapsFrom]

/-! ## A refusal shows -/

/-- Whatever is called from `m` and from `m'`, they stay apart for `c`: it has a record, or a key, that a full map
keeps from it in `m'`. -/
inductive Parted (c : UInt64) (m m' : Maps) : Prop
  | record (hhas : c ∈ m.cgStateMap.keys) (hfull : ¬ m'.cgStateMap.size < 1024) (hnot : c ∉ m'.cgStateMap.keys)
  | key (fid : FileId) (hrec : c ∈ m.cgStateMap.keys) (hrec' : c ∈ m'.cgStateMap.keys)
    (hhas : (⟨c, fid⟩ : ExecKey) ∈ m.allowMap.keys) (hfull : ¬ m'.allowMap.size < 8192)
    (hnot : (⟨c, fid⟩ : ExecKey) ∉ m'.allowMap.keys)

theorem not_mem_allowMap_of_full {m : Maps} {k : ExecKey} (hfull : ¬ m.allowMap.size < 8192)
    (hk : k ∉ m.allowMap.keys) (x : Invocation) :
    ¬ (execControl m x).1.allowMap.size < 8192 ∧ k ∉ (execControl m x).1.allowMap.keys := by
  cases hx : x.checked with
  | none => rw [execControl_of_unchecked m hx]; exact ⟨hfull, hk⟩
  | some key =>
    have hstep := execControl_of_checked m hx
    generalize execControl m x = r at hstep ⊢
    cases hstep with
    | create hst => exact ⟨hfull, hk⟩
    | known st hst hk' => exact ⟨hfull, hk⟩
    | learn st s hst hk' hd => exact BoundedMap.not_mem_put_of_full hfull hk _ _
    | deny st hst hk' hd => exact ⟨hfull, hk⟩

theorem Parted.left {c : UInt64} {m m' : Maps} (h : Parted c m m') (x : Invocation) :
    Parted c (execControl m x).1 m' := by
  cases h with
  | record hhas hfull hnot => exact .record (mem_cgStateMap_of_mem x hhas) hfull hnot
  | key fid hrec hrec' hhas hfull hnot =>
    exact .key fid (mem_cgStateMap_of_mem x hrec) hrec' (mem_allowMap_of_mem x hhas) hfull hnot

theorem Parted.right {c : UInt64} {m m' : Maps} (h : Parted c m m') (x : Invocation) :
    Parted c m (execControl m' x).1 := by
  cases h with
  | record hhas hfull hnot =>
    obtain ⟨hfull', hnot'⟩ := not_mem_cgStateMap_of_full hfull hnot x
    exact .record hhas hfull' hnot'
  | key fid hrec hrec' hhas hfull hnot =>
    obtain ⟨hfull', hnot'⟩ := not_mem_allowMap_of_full hfull hnot x
    exact .key fid hrec (mem_cgStateMap_of_mem x hrec') hhas hfull' hnot'

theorem Parted.mapsFrom_both {c : UInt64} {m m' : Maps} (h : Parted c m m') (xs ys : List Invocation) :
    Parted c (mapsFrom m xs) (mapsFrom m' ys) := by
  induction xs generalizing m with
  | cons x xs ih => exact ih (h.left x)
  | nil =>
    induction ys generalizing m' with
    | nil => exact h
    | cons y ys ih => exact ih (h.right y)

theorem refused_eq_true {m : Maps} {x : Invocation} (h : refused m x = true) :
    ∃ key, x.checked = some key ∧
      ((key.cgid ∉ m.cgStateMap.keys ∧ ¬ m.cgStateMap.size < 1024) ∨
        ∃ st, m.cgStateMap.lookup key.cgid = some st ∧ key ∉ m.allowMap.keys ∧ x.now - st.lastNewExecNs < horizonNs ∧
          ¬ m.allowMap.size < 8192) := by
  unfold refused at h
  cases hx : x.checked with
  | none => rw [hx] at h; cases h
  | some key =>
    refine ⟨key, rfl, ?_⟩
    simp only [hx] at h
    cases hst : m.cgStateMap.lookup key.cgid with
    | none =>
      rw [hst] at h
      have hacc := of_decide_eq_true h
      exact .inl ⟨fun hk => hacc (.inl hk), fun hlt => hacc (.inr hlt)⟩
    | some st =>
      rw [hst] at h
      obtain ⟨hk, hd, hacc⟩ := of_decide_eq_true h
      exact .inr ⟨st, rfl, hk, hd, fun hlt => hacc (.inr hlt)⟩

/-- **A write taken on one side and refused on the other parts the two for good.** -/
theorem parted_of_refused {m m' : Maps} {x y : Invocation} (hview : view m x.cgid = view m' x.cgid)
    (hcall : (x.checked, x.now) = (y.checked, y.now)) (hx : refused m x = false) (hy : refused m' y = true) :
    Parted x.cgid (execControl m x).1 (execControl m' y).1 := by
  obtain ⟨hchecked, hnow⟩ := Prod.ext_iff.1 hcall
  dsimp only at hchecked hnow
  obtain ⟨key, hky, hcase⟩ := refused_eq_true hy
  have hkx : x.checked = some key := hchecked.trans hky
  have hlast : (m.cgStateMap.lookup key.cgid).map CgState.lastNewExecNs =
      (m'.cgStateMap.lookup key.cgid).map CgState.lastNewExecNs := by
    rw [Invocation.cgid_of_checked hkx]
    exact congrArg View.last hview
  have hallow : key ∈ m.allowMap.keys ↔ key ∈ m'.allowMap.keys := by
    have h := congrArg (fun v : View => v.allowed key.fid) hview
    rw [← Invocation.cgid_of_checked hkx] at h
    rw [← view_allowed, ← view_allowed, h]
  rw [← Invocation.cgid_of_checked hkx]
  simp only [refused, hkx] at hx
  rcases hcase with ⟨hnot, hfull⟩ | ⟨st', hst', hnot, hd, hfull⟩
  · rw [(BoundedMap.lookup_eq_none _ _).2 hnot, Option.map_none, Option.map_eq_none_iff] at hlast
    rw [hlast] at hx
    have hacc : m.cgStateMap.Accepts key.cgid := Decidable.of_not_not (of_decide_eq_false hx)
    obtain ⟨hfull', hnot'⟩ := not_mem_cgStateMap_of_full hfull hnot y
    exact .record ((mem_cgStateMap_of_checked m hkx _).2 (.inl ⟨rfl, hacc⟩)) hfull' hnot'
  · rw [hst', Option.map_some] at hlast
    obtain ⟨st, hst, hsame⟩ := Option.map_eq_some_iff.1 hlast
    have hd' : x.now - st.lastNewExecNs < horizonNs := by rw [hsame, hnow]; exact hd
    have hk : key ∉ m.allowMap.keys := fun hk => hnot (hallow.1 hk)
    rw [hst] at hx
    have hacc : m.allowMap.Accepts key := by
      by_contra hacc
      exact of_decide_eq_false hx ⟨hk, hd', hacc⟩
    have hlearned : key ∈ (execControl m x).1.allowMap.keys := by
      have hstep := execControl_of_checked m hkx
      generalize execControl m x = r at hstep ⊢
      cases hstep with
      | create hst₁ => rw [hst] at hst₁; cases hst₁
      | known st₁ hst₁ hk₁ => exact absurd hk₁ hk
      | learn st₁ s hst₁ hk₁ hd₁ => exact (BoundedMap.mem_keys_put _ _ _ _).2 (.inl ⟨rfl, hacc⟩)
      | deny st₁ hst₁ hk₁ hd₁ =>
        rw [hst] at hst₁
        cases hst₁
        exact absurd hd' (UInt64.not_lt.2 hd₁)
    obtain ⟨hfull', hnot'⟩ := not_mem_allowMap_of_full hfull hnot y
    exact .key key.fid (mem_cgStateMap_of_mem x (BoundedMap.mem_keys_of_lookup hst))
      (mem_cgStateMap_of_mem y (BoundedMap.mem_keys_of_lookup hst')) hlearned hfull' hnot'

theorem length_refusalsFrom (c : UInt64) : ∀ (xs : List Invocation) (m : Maps),
    (refusalsFrom c m xs).length = (calls c xs).length
  | [], _ => rfl
  | x :: xs, m => by
    have ih := length_refusalsFrom c xs (execControl m x).1
    by_cases hc : x.cgid = c
    · rw [calls_cons_of_own xs hc, refusalsFrom_cons_of_own m xs hc, List.length_cons, List.length_cons, ih]
    · rw [calls_cons_of_other xs hc, refusalsFrom_cons_of_other m xs hc, ih]

/-- **Runs of the same calls of `c` whose refusals differ end up parted.** -/
theorem parted_of_refusals (c : UInt64) : ∀ (xs ys : List Invocation) (m m' : Maps), view m c = view m' c →
    calls c xs = calls c ys → refusalsFrom c m xs ≠ refusalsFrom c m' ys →
      Parted c (mapsFrom m xs) (mapsFrom m' ys) ∨ Parted c (mapsFrom m' ys) (mapsFrom m xs)
  | [], ys, m, m', _, hcalls, hne => by
    have hlen := length_refusalsFrom c ys m'
    rw [← hcalls] at hlen
    exact absurd (List.eq_nil_of_length_eq_zero hlen).symm hne
  | x :: xs, [], m, m', _, hcalls, hne => by
    have hlen := length_refusalsFrom c (x :: xs) m
    rw [hcalls] at hlen
    exact absurd (List.eq_nil_of_length_eq_zero hlen) hne
  | x :: xs, y :: ys, m, m', hview, hcalls, hne => by
    by_cases hx : x.cgid = c
    · by_cases hy : y.cgid = c
      · rw [calls_cons_of_own xs hx, calls_cons_of_own ys hy] at hcalls
        obtain ⟨hcall, hrest⟩ := List.cons.inj hcalls
        rw [refusalsFrom_cons_of_own m xs hx, refusalsFrom_cons_of_own m' ys hy] at hne
        by_cases hr : refused m x = refused m' y
        · have hview' : view (execControl m x).1 c = view (execControl m' y).1 c := by
            have hstep := congrArg Prod.fst (execControl_replayStep m x)
            have hstep' := congrArg Prod.fst (execControl_replayStep m' y)
            rw [hx, hview, hcall, hr] at hstep
            rw [hy] at hstep'
            exact hstep.trans hstep'.symm
          rw [hr] at hne
          exact parted_of_refusals c xs ys _ _ hview' hrest (fun he => hne (congrArg _ he))
        · -- the first refusal that differs
          subst hx
          cases hmx : refused m x with
          | false =>
            rw [hmx] at hr
            have hmy : refused m' y = true := by simpa using Ne.symm hr
            exact .inl ((parted_of_refused hview hcall hmx hmy).mapsFrom_both xs ys)
          | true =>
            rw [hmx] at hr
            have hmy : refused m' y = false := by simpa using Ne.symm hr
            have hview' : view m' y.cgid = view m y.cgid := by rw [hy]; exact hview.symm
            have hp := parted_of_refused hview' hcall.symm hmy hmx
            rw [hy] at hp
            exact .inr (hp.mapsFrom_both ys xs)
      · have hstep := parted_of_refusals c (x :: xs) ys m (execControl m' y).1
        rw [view_of_other_cgid m' hy, ← calls_cons_of_other ys hy] at hstep
        rw [refusalsFrom_cons_of_other m' ys hy] at hne
        exact hstep hview hcalls hne
    · have hstep := parted_of_refusals c xs (y :: ys) (execControl m x).1 m'
      rw [view_of_other_cgid m hx, ← calls_cons_of_other xs hx] at hstep
      rw [refusalsFrom_cons_of_other m xs hx] at hne
      exact hstep hview hcalls hne
termination_by xs ys => xs.length + ys.length

def Late (xs : List Invocation) (t : UInt64) : Prop := ∀ y ∈ xs, y.now.toNat + horizon ≤ t.toNat

theorem Late.far {xs : List Invocation} {t : UInt64} (h : Late xs t) {c : UInt64} {st : CgState}
    (hst : (run xs).cgStateMap.lookup c = some st) : horizonNs ≤ t - st.lastNewExecNs := by
  obtain ⟨y, hy, _, _, _, hn⟩ := exists_checked_of_lookup xs hst
  have hlate := h y hy
  rw [hn] at hlate
  exact (le_elapsed_iff (UInt64.le_iff_toNat_le.2 (by omega))).2 hlate

theorem result_of_late {xs : List Invocation} {z : Invocation} {key : ExecKey} (h : Late xs z.now)
    (hz : z.checked = some key) :
    result xs z = if key.cgid ∈ (run xs).cgStateMap.keys ∧ key ∉ (run xs).allowMap.keys then -1 else 0 := by
  unfold result
  have hstep := execControl_of_checked (run xs) hz
  generalize execControl (run xs) z = r at hstep ⊢
  cases hstep with
  | create hst => exact (if_neg (fun hk => (BoundedMap.lookup_eq_none _ _).1 hst hk.1)).symm
  | known st hst hk => exact (if_neg (fun hk' => hk'.2 hk)).symm
  | learn st s hst hk hd => exact absurd (h.far hst) (UInt64.not_le.2 hd)
  | deny st hst hk hd => exact (if_pos ⟨BoundedMap.mem_keys_of_lookup hst, hk⟩).symm

theorem exists_fresh_ino (m : Maps) (c : UInt64) : ∃ ino : UInt64, (⟨c, ⟨1, ino⟩⟩ : ExecKey) ∉ m.allowMap.keys := by
  by_contra hall
  push Not at hall
  have hinj : ∀ i ∈ List.range 8193, ∀ j ∈ List.range 8193,
      (⟨c, ⟨1, UInt64.ofNat i⟩⟩ : ExecKey) = ⟨c, ⟨1, UInt64.ofNat j⟩⟩ → i = j := fun i hi j hj hij => by
    have hof : ∀ i ∈ List.range 8193, (UInt64.ofNat i).toNat = i := fun i hi =>
      UInt64.toNat_ofNat_of_lt' (Nat.lt_trans (List.mem_range.1 hi) (by decide))
    have hino := congrArg (fun k : ExecKey => k.fid.ino.toNat) hij
    dsimp only at hino
    rwa [hof i hi, hof j hj] at hino
  have hnodup := List.Nodup.map_on hinj List.nodup_range
  have hsub : (List.range 8193).map (fun i => (⟨c, ⟨1, UInt64.ofNat i⟩⟩ : ExecKey)) ⊆ m.allowMap.keys := fun k hk => by
    obtain ⟨i, -, rfl⟩ := List.mem_map.1 hk
    exact hall _
  have hlen := (List.subperm_of_subset hnodup hsub).length_le
  rw [List.length_map, List.length_range] at hlen
  exact absurd (Nat.le_trans hlen m.allowMap.size_le) (by decide)

theorem Parted.exists_call {c : UInt64} {xs ys : List Invocation} (h : Parted c (run xs) (run ys)) {t : UInt64}
    (hx : Late xs t) (hy : Late ys t) : ∃ z : Invocation, z.cgid = c ∧ z.now = t ∧ result xs z ≠ result ys z := by
  cases h with
  | record hhas hfull hnot =>
    obtain ⟨ino, hino⟩ := exists_fresh_ino (run xs) c
    refine ⟨trackedExec c ino t, rfl, rfl, ?_⟩
    have hz := checked_trackedExec c ino t
    rw [result_of_late (show Late xs (trackedExec c ino t).now from hx) hz, if_pos ⟨hhas, hino⟩,
      result_of_late (show Late ys (trackedExec c ino t).now from hy) hz, if_neg (fun hk => hnot hk.1)]
    decide
  | key fid hrec hrec' hhas hfull hnot =>
    obtain ⟨x, -, hk⟩ := exists_checked_of_mem_allowMap xs hhas
    have hz : ({ x with now := t } : Invocation).checked = some ⟨c, fid⟩ := hk
    refine ⟨{ x with now := t }, (Invocation.cgid_of_checked hk).symm, rfl, ?_⟩
    rw [result_of_late (show Late xs ({ x with now := t } : Invocation).now from hx) hz, if_neg (fun hk' => hk'.2 hhas),
      result_of_late (show Late ys ({ x with now := t } : Invocation).now from hy) hz, if_pos ⟨hrec', hnot⟩]
    decide

/-- **Containers influence each other's decisions through full maps alone**: two runs with the same calls of `c`, the
same ones of them with a refused write, give `c` the same answers; and where the refusals differ, the answers do, at
the latest at one more call of `c` once the two windows are over. -/
theorem isolated_exactly (c : UInt64) (xs ys : List Invocation) (hcalls : calls c xs = calls c ys) :
    (refusals c xs = refusals c ys → results c xs = results c ys) ∧
      ∀ t, Late xs t → Late ys t → refusals c xs ≠ refusals c ys →
        ∃ z, z.cgid = c ∧ z.now = t ∧ results c (xs ++ [z]) ≠ results c (ys ++ [z]) := by
  constructor
  · intro hrefusals
    unfold results
    rw [results_eq_replay, results_eq_replay, hcalls]
    exact congrArg _ (congrArg _ hrefusals)
  · intro t hx hy hne
    have hcall : ∃ z : Invocation, z.cgid = c ∧ z.now = t ∧ result xs z ≠ result ys z := by
      rcases parted_of_refusals c xs ys Maps.init Maps.init rfl hcalls hne with hp | hp
      · exact hp.exists_call hx hy
      · obtain ⟨z, hzc, hzt, hz⟩ := hp.exists_call hy hx
        exact ⟨z, hzc, hzt, hz.symm⟩
    obtain ⟨z, hzc, hzt, hz⟩ := hcall
    refine ⟨z, hzc, hzt, fun he => hz ?_⟩
    rw [results_concat_own xs hzc, results_concat_own ys hzc] at he
    have hlast := congrArg List.getLast? he
    rw [List.getLast?_concat, List.getLast?_concat] at hlast
    exact Option.some.inj hlast

theorem isolated_exactly_pair :
    calls 7 [trackedExec 7 1 0, trackedExec 7 2 6000000000] =
        calls 7 [trackedExec 7 1 0, trackedExec 8 2 1, trackedExec 7 2 6000000000] ∧
      results 7 [trackedExec 7 1 0, trackedExec 7 2 6000000000] =
        results 7 [trackedExec 7 1 0, trackedExec 8 2 1, trackedExec 7 2 6000000000] :=
  have hcalls : calls 7 [trackedExec 7 1 0, trackedExec 7 2 6000000000] =
      calls 7 [trackedExec 7 1 0, trackedExec 8 2 1, trackedExec 7 2 6000000000] := by decide
  ⟨hcalls, (isolated_exactly 7 _ _ hcalls).1 (by decide)⟩

theorem filter_crowd : crowd.filter (fun x => decide (x.cgid = 5000)) = [] := by
  apply List.filter_eq_nil_iff.2
  intro y hy
  obtain ⟨-, c, hlt, hc⟩ := of_mem_crowd hy
  have hown : c = y.cgid := Invocation.cgid_of_checked hc
  have hne : c ≠ 5000 := fun he => absurd (he ▸ hlt) (by decide)
  simpa [← hown] using hne

/-- **The crowd decides for container 5000**: alone, its second executable is denied; after 1024 other containers, the
same two calls are both allowed. -/
theorem crowd_changes_results :
    calls 5000 [trackedExec 5000 1 0, trackedExec 5000 2 6000000000] =
        calls 5000 (crowd ++ [trackedExec 5000 1 0, trackedExec 5000 2 6000000000]) ∧
      results 5000 [trackedExec 5000 1 0, trackedExec 5000 2 6000000000] ≠
        results 5000 (crowd ++ [trackedExec 5000 1 0, trackedExec 5000 2 6000000000]) := by
  constructor
  · unfold calls
    rw [List.filter_append, filter_crowd, List.nil_append]
  · have halone : results 5000 [trackedExec 5000 1 0, trackedExec 5000 2 6000000000] = [0, -1] := by decide
    have hcrowd := results_concat_own (crowd ++ [trackedExec 5000 1 0])
      (show (trackedExec 5000 2 6000000000).cgid = 5000 from rfl)
    rw [List.append_assoc, result_after_crowd] at hcrowd
    intro h
    have hlast := congrArg List.getLast? (halone.symm.trans (h.trans hcrowd))
    rw [List.getLast?_append] at hlast
    exact absurd hlast (by decide)

end ExecControl
end CgroupGuard
