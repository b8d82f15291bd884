import CgroupGuard.ExecControl.Interleaved
/-!
# Underflow — the elapsed time under concurrent execs

`now` is read before the record, and another call may write the record in between.  The subtraction wraps exactly in
the runs where a call decides about a record that a call with a later clock reading has written (`noUnderflow_iff`).
-/
namespace CgroupGuard
namespace ExecControl

/-! ## What a step does to the records -/

def Kernel.lasts (k : Kernel) : List UInt64 := k.records.map CgState.lastNewExecNs

/-- The record whose `last_new_exec_ns` the next step of a call writes, and the clock reading it writes. -/
def Call.writes (k : Kernel) (c : Call) : Option (Nat × UInt64) :=
  match c.pc with
  | .createState now => some (k.records.length, now)
  | .decide now st =>
    match k.records[st]? with
    | none => none
    | some r => if now - r.lastNewExecNs < horizonNs then some (st, now) else none
  | _ => none

def writeLast (lasts : List UInt64) (w : Nat × UInt64) : List UInt64 :=
  if w.1 < lasts.length then lasts.set w.1 w.2 else lasts ++ [w.2]

theorem map_lastNewExecNs_set {records : List CgState} {st : Nat} {r r' : CgState} (h : records[st]? = some r)
    (hr : r'.lastNewExecNs = r.lastNewExecNs) :
    (records.set st r').map CgState.lastNewExecNs = records.map CgState.lastNewExecNs := by
  rw [List.map_set, hr]
  apply List.ext_getElem?
  intro j
  rw [List.getElem?_set]
  split
  · rename_i hj
    subst hj
    simp only [List.length_map, List.getElem?_map, h, Option.map_some]
    rw [if_pos (List.getElem?_eq_some_iff.1 h).1]
  · rfl

/-- **A step leaves the last new execs as they are, or writes one of them.** -/
theorem lasts_stepCall {k : Kernel} {c : Call} {r : Kernel × Call} (h : stepCall k c = some r) :
    r.1.lasts = match c.writes k with
      | none => k.lasts
      | some w => writeLast k.lasts w := by
  unfold stepCall at h
  unfold Call.writes
  split at h <;> rename_i hpc <;> simp only [hpc]
  · cases h; rfl
  · split at h <;> cases h <;> rfl
  · cases h
    simp [writeLast, Kernel.lasts]
  · split at h <;> cases h <;> rfl
  · rename_i now st
    cases hrec : k.records[st]? with
    | none => rw [hrec] at h; cases h
    | some rec =>
      have hlt : st < k.records.length := (List.getElem?_eq_some_iff.1 hrec).1
      rw [hrec] at h
      dsimp only at h ⊢
      split at h
      · rename_i hl
        cases h
        rw [if_pos (lt_horizonNs_of_lt_learnWindowNs hl)]
        simp [writeLast, Kernel.lasts, hlt, List.map_set]
      split at h
      · rename_i hg
        cases h
        rw [if_pos (show now - rec.lastNewExecNs < horizonNs from hg)]
        simp [writeLast, Kernel.lasts, hlt, List.map_set]
      · rename_i hg
        cases h
        rw [if_neg (show ¬ now - rec.lastNewExecNs < horizonNs from hg)]
        exact map_lastNewExecNs_set hrec rfl
  · cases h

def writes (s : Threads Kernel Call) : Act → List (Nat × UInt64)
  | .tick _ => []
  | .call i => (s.locals[i]?.bind (Call.writes s.shared)).toList

theorem lasts_act {s t : Threads Kernel Call} {a : Act} (h : act s a = some t) :
    t.shared.lasts = (writes s a).foldl writeLast s.shared.lasts := by
  cases a with
  | tick now =>
    obtain ⟨_, ht⟩ := Option.ite_none_right_eq_some.1 h
    cases ht
    rfl
  | call i =>
    obtain ⟨c, r, hc, hr, rfl⟩ := Threads.stepAt_eq_some h
    have hl := lasts_stepCall hr
    have hws : writes s (.call i) = (c.writes s.shared).toList := by
      simp only [writes, hc, Option.bind_some]
    rw [hws]
    cases hw : c.writes s.shared with
    | none => rw [hw] at hl; exact hl
    | some w => rw [hw] at hl; exact hl

/-! ## Underflow -/

structure Decides (s : Threads Kernel Call) (i st : Nat) (now last : UInt64) : Prop where
  pc : ∃ key, s.locals[i]? = some ⟨key, .decide now st⟩
  last : s.shared.lasts[st]? = some last

def Answers (s : Threads Kernel Call) (i : Nat) (ret : Int) : Prop :=
  ∃ t key, act s (.call i) = some t ∧ t.locals[i]? = some ⟨key, .done ret⟩

/-- No subtraction of the run wraps, and a denial comes the two windows or more after the last new exec it read. -/
def NoUnderflow (keys : List ExecKey) (acts : List Act) : Prop :=
  ∀ pre i post s st now last, acts = pre ++ .call i :: post → Steps.run act (start keys) pre = some s →
    Decides s i st now last → last ≤ now ∧ (Answers s i (-1) → last.toNat + horizon ≤ now.toNat)

/-- No call of the run decides about a record that a call with a later clock reading has written. -/
def NeverOvertaken (keys : List ExecKey) (acts : List Act) : Prop :=
  ∀ pre i post s st now last, acts = pre ++ .call i :: post → Steps.run act (start keys) pre = some s →
    Decides s i st now last → ∀ w ∈ Steps.outputs act writes (start keys) pre, w.1 = st → w.2 ≤ now

theorem mem_of_getElem?_writeLast {lasts : List UInt64} {w : Nat × UInt64} {st : Nat} {last : UInt64}
    (hw : w.1 ≤ lasts.length) (h : (writeLast lasts w)[st]? = some last) :
    (st, last) = w ∨ lasts[st]? = some last := by
  obtain ⟨wst, wnow⟩ := w
  unfold writeLast at h
  dsimp only at h hw
  split at h
  · rcases Threads.getElem?_set h with ⟨rfl, rfl⟩ | ⟨-, h⟩
    · exact .inl rfl
    · exact .inr h
  · rename_i hlen
    rcases Nat.lt_or_ge st lasts.length with hst | hst
    · rw [List.getElem?_append_left hst] at h
      exact .inr h
    · rw [List.getElem?_append_right hst, List.getElem?_singleton] at h
      split at h
      · cases h
        exact .inl (Prod.ext (by dsimp only; omega) rfl)
      · cases h

theorem length_writeLast {lasts : List UInt64} {w : Nat × UInt64} (hw : w.1 ≤ lasts.length) :
    w.1 < (writeLast lasts w).length ∧ lasts.length ≤ (writeLast lasts w).length := by
  unfold writeLast
  split
  · rw [List.length_set]; omega
  · rw [List.length_append, List.length_singleton]; omega

theorem writes_le_length {k : Kernel} {c : Call} {w : Nat × UInt64} (h : c.writes k = some w) :
    w.1 ≤ k.lasts.length := by
  have hlen : k.lasts.length = k.records.length := List.length_map _
  rw [hlen]
  unfold Call.writes at h
  split at h
  · cases h; exact Nat.le_refl _
  · split at h
    · cases h
    · rename_i hrec
      split at h
      · cases h; exact Nat.le_of_lt (List.getElem?_eq_some_iff.1 hrec).1
      · cases h
  · cases h

theorem writes_cases (s : Threads Kernel Call) (a : Act) :
    writes s a = [] ∨ ∃ i c w, a = .call i ∧ s.locals[i]? = some c ∧ c.writes s.shared = some w ∧ writes s a = [w] := by
  cases a with
  | tick now => exact .inl rfl
  | call i =>
    cases hc : s.locals[i]? with
    | none => exact .inl (by simp only [writes, hc, Option.bind_none, Option.toList_none])
    | some c =>
      cases hw : c.writes s.shared with
      | none => exact .inl (by simp only [writes, hc, Option.bind_some, hw, Option.toList_none])
      | some w => exact .inr ⟨i, c, w, rfl, hc, hw, by simp only [writes, hc, Option.bind_some, hw, Option.toList_some]⟩

structure Recorded (ws : List (Nat × UInt64)) (lasts : List UInt64) : Prop where
  mem : ∀ st last, lasts[st]? = some last → (st, last) ∈ ws
  bound : ∀ w ∈ ws, w.1 < lasts.length

theorem recorded_run (keys : List ExecKey) : ∀ as s, Steps.run act (start keys) as = some s →
    Recorded (Steps.outputs act writes (start keys) as) s.shared.lasts := by
  refine Steps.run_induction _ ⟨fun st last h => ?_, fun w hw => by cases hw⟩ (fun as m a t hm ih ha => ?_)
  · rw [show (start keys).shared.lasts = [] from rfl] at h
    cases h
  · rw [Steps.outputs_concat writes as a hm, lasts_act ha]
    rcases writes_cases m a with hw | ⟨i, c, w, -, -, hcw, hw⟩ <;> rw [hw]
    · rwa [List.append_nil]
    · have hle := writes_le_length hcw
      refine ⟨fun st last h => ?_, fun v hv => ?_⟩
      · rcases mem_of_getElem?_writeLast hle h with rfl | h
        · exact List.mem_append_right _ (List.mem_singleton.2 rfl)
        · exact List.mem_append_left _ (ih.mem st last h)
      · obtain ⟨hnew, hgrow⟩ := length_writeLast hle
        rcases List.mem_append.1 hv with hv | hv
        · exact Nat.lt_of_lt_of_le (ih.bound v hv) hgrow
        · obtain rfl := List.mem_singleton.1 hv
          exact hnew

/-- While no subtraction wraps, a record holds the latest of the clock readings written to it. -/
def Latest (ws : List (Nat × UInt64)) (lasts : List UInt64) : Prop :=
  ∀ w ∈ ws, ∀ last, lasts[w.1]? = some last → w.2 ≤ last

theorem NoUnderflow.left {keys : List ExecKey} {as bs : List Act} (h : NoUnderflow keys (as ++ bs)) :
    NoUnderflow keys as :=
  fun pre i post s st now last has => h pre i (post ++ bs) s st now last (by rw [has]; simp)

theorem le_of_writes {s : Threads Kernel Call} {i : Nat} {c : Call} {w : Nat × UInt64} {last : UInt64}
    (hc : s.locals[i]? = some c) (hw : c.writes s.shared = some w) (hlast : s.shared.lasts[w.1]? = some last)
    (hsound : ∀ st now last, Decides s i st now last → last ≤ now) : last ≤ w.2 := by
  obtain ⟨key, pc⟩ := c
  unfold Call.writes at hw
  split at hw
  · cases hw
    have hlen : s.shared.lasts.length = s.shared.records.length := List.length_map _
    rw [List.getElem?_eq_none (Nat.le_of_eq hlen)] at hlast
    cases hlast
  · rename_i hpc
    split at hw
    · cases hw
    · split at hw
      · cases hw
        exact hsound _ _ _ ⟨⟨key, by rw [hc, show pc = _ from hpc]⟩, hlast⟩
      · cases hw
  · cases hw

theorem latest_run (keys : List ExecKey) : ∀ as s, Steps.run act (start keys) as = some s → NoUnderflow keys as →
    Latest (Steps.outputs act writes (start keys) as) s.shared.lasts := by
  refine Steps.run_induction _ (fun _ w hw => by cases hw) (fun as m a t hm ih ha hsound => ?_)
  have hlatest := ih hsound.left
  have hrec := recorded_run keys as m hm
  rw [Steps.outputs_concat writes as a hm, lasts_act ha]
  rcases writes_cases m a with hw | ⟨i, c, w, rfl, hc, hcw, hw⟩ <;> rw [hw]
  · rwa [List.append_nil]
  · have hle := writes_le_length hcw
    have hmono : ∀ last, m.shared.lasts[w.1]? = some last → last ≤ w.2 := fun last hlast =>
      le_of_writes hc hcw hlast (fun st now l hd => (hsound as i [] m st now l rfl hm hd).1)
    intro v hv last hlast
    rcases mem_of_getElem?_writeLast hle hlast with he | hold
    · -- the record of `v` is the one written: it held `v`'s reading or a later one
      obtain ⟨hst, rfl⟩ := Prod.ext_iff.1 he
      rcases List.mem_append.1 hv with hv | hv
      · have hlt := hrec.bound v hv
        have hget : m.shared.lasts[v.1]? = some m.shared.lasts[v.1] := List.getElem?_eq_getElem hlt
        exact UInt64.le_trans (hlatest v hv _ hget) (hmono _ (by rw [← show v.1 = w.1 from hst]; exact hget))
      · obtain rfl := List.mem_singleton.1 hv
        exact UInt64.le_refl _
    · rcases List.mem_append.1 hv with hv | hv
      · exact hlatest v hv last hold
      · obtain rfl := List.mem_singleton.1 hv
        have hself : (writeLast m.shared.lasts v)[v.1]? = some v.2 := by
          have hlt := (List.getElem?_eq_some_iff.1 hold).1
          unfold writeLast
          rw [if_pos hlt, List.getElem?_set_self hlt]
        obtain rfl : v.2 = last := Option.some.inj (hself.symm.trans hlast)
        exact UInt64.le_refl _

theorem horizonNs_le_of_answers {s : Threads Kernel Call} {i st : Nat} {now last : UInt64}
    (h : Decides s i st now last) (ha : Answers s i (-1)) : horizonNs ≤ now - last := by
  obtain ⟨⟨key, hpc⟩, hlast⟩ := h
  obtain ⟨t, key', ht, hdone⟩ := ha
  obtain ⟨c, r, hc, hr, rfl⟩ := Threads.stepAt_eq_some ht
  rw [hpc] at hc
  cases hc
  have hlt := (List.getElem?_eq_some_iff.1 hpc).1
  rw [List.getElem?_set_self hlt] at hdone
  obtain ⟨rec, hrec, rfl⟩ := Option.map_eq_some_iff.1 (List.getElem?_map.symm.trans hlast)
  simp only [stepCall, hrec] at hr
  split at hr
  · cases hr; cases hdone
  split at hr
  · cases hr; cases hdone
  · rename_i hg
    exact UInt64.not_lt.1 hg

/-- **The subtraction wraps in no run whose calls decide before any call with a later clock reading has written their
record, and in no other.** -/
theorem noUnderflow_iff (keys : List ExecKey) (acts : List Act) :
    NoUnderflow keys acts ↔ NeverOvertaken keys acts := by
  constructor
  · intro hsound pre i post s st now last hacts hrun hd w hw hst
    rw [hacts] at hsound
    have hlatest := latest_run keys pre s hrun hsound.left
    subst hst
    exact UInt64.le_trans (hlatest w hw last hd.last) (hsound pre i post s w.1 now last rfl hrun hd).1
  · intro hover pre i post s st now last hacts hrun hd
    have hmem := (recorded_run keys pre s hrun).mem st last hd.last
    have hle : last ≤ now := hover pre i post s st now last hacts hrun hd _ hmem rfl
    exact ⟨hle, fun ha => (le_elapsed_iff hle).1 (horizonNs_le_of_answers hd ha)⟩

/-! ## A call that learns between another's clock reading and its decision -/

/-- Call 0 creates the record at 0; call 1 reads the clock at 1; call 2 reads it at 2 and learns; call 1 decides. -/
def overtaken : List Act :=
  [.call 0, .call 0, .call 0, .tick 1, .call 1, .tick 2, .call 2, .call 2, .call 2, .call 2, .call 1, .call 1]

def overtakenKeys : List ExecKey := [⟨7, ⟨1, 1⟩⟩, ⟨7, ⟨1, 2⟩⟩, ⟨7, ⟨1, 3⟩⟩]

/-- **One nanosecond is taken for more than the two windows**: call 1 read 1, the record holds 2, and the call is
denied. -/
theorem underflow_overtaken :
    (Steps.run act (start overtakenKeys) (overtaken ++ [.call 1])).bind (fun s => s.locals[1]?) =
        some ⟨⟨7, ⟨1, 2⟩⟩, .done (-1)⟩ ∧
      ¬ NoUnderflow overtakenKeys (overtaken ++ [.call 1]) := by
  refine ⟨by decide, fun h => ?_⟩
  have hd : Decides ((Steps.run act (start overtakenKeys) overtaken).get (by decide)) 1 0 1 2 :=
    ⟨⟨⟨7, ⟨1, 2⟩⟩, by decide⟩, by decide⟩
  exact absurd (h overtaken 1 [] _ 0 1 2 rfl (Option.some_get (by decide)).symm hd).1 (by decide)

end ExecControl
end CgroupGuard
