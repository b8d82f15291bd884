import CgroupGuard.ExecControl.Run
import CgroupGuard.Lib.IdleWindow
/-!
# View — one cgroup's share of the maps

Nothing a call for cgroup `c` answers depends on more than `view m c` and on whether the two writes it may make find
room (`execControl_view`), and no other cgroup's call changes `view m c` (`view_of_other`).  While neither map is
full, the view is a learner of `IdleWindow` fed the cgroup's history (`simulates_run`).
-/
namespace CgroupGuard
namespace ExecControl

open IdleWindow (Learner offer)

structure View where
  last : Option UInt64
  allowed : FileId → Bool

def view (m : Maps) (c : UInt64) : View :=
  { last := (m.cgStateMap.lookup c).map CgState.lastNewExecNs
    allowed := fun fid => decide ((⟨c, fid⟩ : ExecKey) ∈ m.allowMap.keys) }

/-- One checked call on its cgroup's view: `roomState` and `roomAllow` say whether a write to `cg_state_map` and to
`allow_map` would be taken. -/
def viewStep (v : View) (roomState roomAllow : Bool) (fid : FileId) (now : UInt64) : View × Int :=
  match v.last with
  | none => (if roomState then { v with last := some now } else v, 0)
  | some last =>
    if v.allowed fid then (v, 0)
    else if now - last < horizonNs then
      ({ last := some now, allowed := fun f => v.allowed f || (roomAllow && decide (f = fid)) }, 0)
    else (v, -1)

theorem View.ext_of {v w : View} (hl : v.last = w.last) (ha : ∀ f, v.allowed f = w.allowed f) : v = w := by
  cases v; cases w
  obtain rfl : _ = _ := hl
  obtain rfl : _ = _ := funext ha
  rfl

theorem view_allowed (m : Maps) (c : UInt64) (fid : FileId) :
    (view m c).allowed fid = true ↔ (⟨c, fid⟩ : ExecKey) ∈ m.allowMap.keys := by
  simp [view]

theorem view_last_put {m : Maps} {c : UInt64} (h : m.cgStateMap.Accepts c) (st : CgState) :
    ((m.cgStateMap.put c st).lookup c).map CgState.lastNewExecNs = some st.lastNewExecNs := by
  rw [BoundedMap.lookup_put_self h]
  rfl

theorem mem_put_own (m : Maps) (key : ExecKey) (f : FileId) :
    decide ((⟨key.cgid, f⟩ : ExecKey) ∈ (m.allowMap.put key 1).keys)
      = (decide ((⟨key.cgid, f⟩ : ExecKey) ∈ m.allowMap.keys) ||
          (decide (m.allowMap.Accepts key) && decide (f = key.fid))) := by
  have hkey : (⟨key.cgid, f⟩ : ExecKey) = key ↔ f = key.fid :=
    ⟨fun h => congrArg ExecKey.fid h, fun h => by rw [h]⟩
  rw [Bool.eq_iff_iff]
  simp only [BoundedMap.mem_keys_put, hkey, decide_eq_true_eq, Bool.or_eq_true, Bool.and_eq_true]
  tauto

/-- **A checked call acts on its cgroup's view alone.** -/
theorem execControl_view (m : Maps) {x : Invocation} {key : ExecKey} (h : x.checked = some key) :
    (view (execControl m x).1 key.cgid, (execControl m x).2) =
      viewStep (view m key.cgid) (decide (m.cgStateMap.Accepts key.cgid)) (decide (m.allowMap.Accepts key))
        key.fid x.now := by
  have hc := execControl_of_checked m h
  have hself : (view m key.cgid).allowed key.fid = decide (key ∈ m.allowMap.keys) := rfl
  generalize execControl m x = r at hc ⊢
  unfold viewStep
  rw [hself]
  cases hc with
  | create hst =>
    have hlast : (view m key.cgid).last = none := by simp [view, hst]
    rw [hlast]
    by_cases hacc : m.cgStateMap.Accepts key.cgid
    · simp only [hacc, decide_true, if_true]
      exact Prod.ext (View.ext_of (view_last_put hacc _) (fun _ => rfl)) rfl
    · simp only [hacc, decide_false, BoundedMap.put_of_not_accepts hacc]
      rfl
  | known st hst hk =>
    have hlast : (view m key.cgid).last = some st.lastNewExecNs := by simp [view, hst]
    simp only [hlast, hk, decide_true, if_true]
  | learn st s hst hk hd =>
    have hlast : (view m key.cgid).last = some st.lastNewExecNs := by simp [view, hst]
    have hacc : m.cgStateMap.Accepts key.cgid := .inl (BoundedMap.mem_keys_of_lookup hst)
    simp only [hlast, hk, decide_false, Bool.false_eq_true, if_false, if_pos hd]
    exact Prod.ext (View.ext_of (view_last_put hacc _) (mem_put_own m key)) rfl
  | deny st hst hk hd =>
    have hlast : (view m key.cgid).last = some st.lastNewExecNs := by simp [view, hst]
    have hacc : m.cgStateMap.Accepts key.cgid := .inl (BoundedMap.mem_keys_of_lookup hst)
    simp only [hlast, hk, decide_false, Bool.false_eq_true, if_false, if_neg (UInt64.not_lt.2 hd)]
    exact Prod.ext (View.ext_of ((view_last_put hacc _).trans hlast.symm) (fun _ => rfl)) rfl

/-- **No other cgroup's call changes a view.** -/
theorem view_of_other (m : Maps) (x : Invocation) {c : UInt64} (h : ∀ key, x.checked = some key → key.cgid ≠ c) :
    view (execControl m x).1 c = view m c := by
  refine View.ext_of ?_ (fun f => ?_)
  · show Option.map _ _ = Option.map _ _
    rw [lookup_of_other m x h]
  · have hx : x.checked ≠ some ⟨c, f⟩ := fun hk => h _ hk rfl
    show decide _ = decide _
    rw [decide_eq_decide]
    exact mem_allowMap_of_other m x hx

/-! ## The history of a cgroup -/

/-- What a call adds to the history of `c`: the executable and the clock, when it is a checked call of `c`. -/
def occurrence (c : UInt64) (x : Invocation) : Option (FileId × Nat) :=
  x.checked.bind (fun key => if key.cgid = c then some (key.fid, x.now.toNat) else none)

def history (c : UInt64) (xs : List Invocation) : List (FileId × Nat) := xs.filterMap (occurrence c)

theorem occurrence_of_checked {x : Invocation} {key : ExecKey} (h : x.checked = some key) :
    occurrence key.cgid x = some (key.fid, x.now.toNat) := by
  simp [occurrence, h]

theorem occurrence_eq_some {c : UInt64} {x : Invocation} {e : FileId × Nat} (h : occurrence c x = some e) :
    x.checked = some ⟨c, e.1⟩ ∧ e.2 = x.now.toNat := by
  unfold occurrence at h
  obtain ⟨⟨c', fid⟩, hk, hif⟩ := Option.bind_eq_some_iff.1 h
  split at hif
  · rename_i hc
    obtain rfl : c' = c := hc
    cases hif
    exact ⟨hk, rfl⟩
  · cases hif

theorem occurrence_eq_none {c : UInt64} {x : Invocation} (h : occurrence c x = none) {key : ExecKey}
    (hk : x.checked = some key) : key.cgid ≠ c := fun hc => by
  rw [← hc, occurrence_of_checked hk] at h
  cases h

theorem history_append (c : UInt64) (xs ys : List Invocation) : history c (xs ++ ys) = history c xs ++ history c ys :=
  List.filterMap_append

theorem history_concat (c : UInt64) (xs : List Invocation) (x : Invocation) :
    history c (xs ++ [x]) = history c xs ++ (occurrence c x).toList := by
  rw [history_append]
  cases h : occurrence c x <;> simp [history, h]

theorem history_concat_of_checked (xs : List Invocation) {x : Invocation} {key : ExecKey} (h : x.checked = some key) :
    history key.cgid (xs ++ [x]) = history key.cgid xs ++ [(key.fid, x.now.toNat)] := by
  rw [history_concat, occurrence_of_checked h]
  rfl

theorem exists_of_history_eq {c : UInt64} {xs : List Invocation} {h₁ h₂ : List (FileId × Nat)} {e : FileId × Nat}
    (h : history c xs = h₁ ++ e :: h₂) :
    ∃ pre x post, xs = pre ++ x :: post ∧ history c pre = h₁ ∧ x.checked = some ⟨c, e.1⟩ ∧ e.2 = x.now.toNat := by
  obtain ⟨pre, rest, rfl, hpre, hrest⟩ := List.filterMap_eq_append_iff.1 h
  obtain ⟨skip, x, post, rfl, hskip, hx, -⟩ := List.filterMap_eq_cons_iff.1 hrest
  obtain ⟨hk, he⟩ := occurrence_eq_some hx
  refine ⟨pre ++ skip, x, post, by simp, ?_, hk, he⟩
  rw [history_append, show history c skip = [] from List.filterMap_eq_nil_iff.2 hskip, List.append_nil]
  exact hpre

theorem history_nondecreasing (c : UInt64) {xs : List Invocation} (h : Nondecreasing xs) :
    ((history c xs).map Prod.snd).Pairwise (· ≤ ·) := by
  rw [List.pairwise_map]
  refine List.Pairwise.filterMap (occurrence c) (fun x y hxy e he e' he' => ?_) h
  rw [(occurrence_eq_some he).2, (occurrence_eq_some he').2]
  exact UInt64.le_iff_toNat_le.1 hxy

end ExecControl
end CgroupGuard
