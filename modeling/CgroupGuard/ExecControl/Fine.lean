import CgroupGuard.ExecControl.Interleaved
/-!
# Fine — the decision access by access

`stepCall` decides at once.  The program reads `last_new_exec_ns`, writes the state, writes `allow_map` and writes
`last_new_exec_ns`, and other CPUs can come between any two of these.  As long as no two calls are between the first and
the last on one record, whatever they do on others, the runs are those of `stepCall` (`decides_at_once`).
-/
namespace CgroupGuard
namespace ExecControl

def verdict (delta : UInt64) : State :=
  if delta < learnWindowNs then .learning
  else if delta < learnWindowNs + graceWindowNs then .stable
  else .enforcing

inductive FinePc where
  | readClock
  | lookupState (now : UInt64)
  | createState (now : UInt64)
  | lookupAllow (now : UInt64) (st : Nat)
  | readLast (now : UInt64) (st : Nat)
  | writeState (now : UInt64) (st : Nat) (v : State)
  | updateAllow (now : UInt64) (st : Nat)
  | writeLast (now : UInt64) (st : Nat)
  | done (ret : Int)
  deriving DecidableEq, Repr

structure FineCall where
  key : ExecKey
  pc : FinePc
  deriving DecidableEq, Repr

def stepFine (k : Kernel) (c : FineCall) : Option (Kernel × FineCall) :=
  match c.pc with
  | .readClock => some (k, { c with pc := .lookupState k.clock })
  | .lookupState now =>
    match k.cgStateMap.lookup c.key.cgid with
    | none => some (k, { c with pc := .createState now })
    | some st => some (k, { c with pc := .lookupAllow now st })
  | .createState now =>
    some ({ k with records := k.records ++ [⟨.learning, now⟩]
                   cgStateMap := k.cgStateMap.put c.key.cgid k.records.length }, { c with pc := .done 0 })
  | .lookupAllow now st =>
    match k.allowMap.lookup c.key with
    | some _ => some (k, { c with pc := .done 0 })
    | none => some (k, { c with pc := .readLast now st })
  | .readLast now st =>
    match k.records[st]? with
    | none => none
    | some r => some (k, { c with pc := .writeState now st (verdict (now - r.lastNewExecNs)) })
  | .writeState now st v =>
    match k.records[st]? with
    | none => none
    | some r =>
      some ({ k with records := k.records.set st { r with state := v } },
        { c with pc := if v = .enforcing then .done (-1) else .updateAllow now st })
  | .updateAllow now st => some ({ k with allowMap := k.allowMap.put c.key 1 }, { c with pc := .writeLast now st })
  | .writeLast now st =>
    match k.records[st]? with
    | none => none
    | some r => some ({ k with records := k.records.set st { r with lastNewExecNs := now } }, { c with pc := .done 0 })
  | .done _ => none

def actFine (s : Threads Kernel FineCall) : Act → Option (Threads Kernel FineCall)
  | .tick now => if s.shared.clock ≤ now then some { s with shared := { s.shared with clock := now } } else none
  | .call i => Threads.stepAt stepFine s i

def startFine (keys : List ExecKey) : Threads Kernel FineCall :=
  { shared := ⟨0, [], BoundedMap.empty, BoundedMap.empty⟩
    locals := keys.map (⟨·, .readClock⟩) }

/-- The record on which a call is between the first access of its decision and the last. -/
def FinePc.deciding : FinePc → Option Nat
  | .writeState _ st _ => some st
  | .updateAllow _ st => some st
  | .writeLast _ st => some st
  | _ => none

/-- No call begins to decide about a record on which another has not ended. -/
def Apart (s : Threads Kernel FineCall) : Act → Prop
  | .tick _ => True
  | .call i => ∀ key now st, s.locals[i]? = some ⟨key, .readLast now st⟩ → ∀ call ∈ s.locals, call.pc.deciding ≠ some st

/-- Where `stepCall` has the call: its decision is the write of `allow_map`, or that of the state where it denies. -/
def FinePc.coarse : FinePc → Pc
  | .readClock => .readClock
  | .lookupState now => .lookupState now
  | .createState now => .createState now
  | .lookupAllow now st => .lookupAllow now st
  | .readLast now st => .decide now st
  | .writeState now st _ => .decide now st
  | .updateAllow now st => .decide now st
  | .writeLast _ _ => .done 0
  | .done ret => .done ret

def FineCall.coarse (c : FineCall) : Call := ⟨c.key, c.pc.coarse⟩

/-! ## The records in the two -/

/-- What a call has done to its record and has still to do. -/
def Midway (k k' : Kernel) : FinePc → Prop
  | .writeState now st v =>
    ∃ r, k.records[st]? = some r ∧ k'.records[st]? = some r ∧ v = verdict (now - r.lastNewExecNs)
  | .updateAllow now st =>
    ∃ r, k'.records[st]? = some r ∧ verdict (now - r.lastNewExecNs) ≠ .enforcing ∧
      k.records[st]? = some ⟨verdict (now - r.lastNewExecNs), r.lastNewExecNs⟩
  | .writeLast now st => ∃ v last, k.records[st]? = some ⟨v, last⟩ ∧ k'.records[st]? = some ⟨v, now⟩
  | _ => True

structure Collapses (s : Threads Kernel FineCall) (t : Threads Kernel Call) : Prop where
  clock : t.shared.clock = s.shared.clock
  cgStateMap : t.shared.cgStateMap = s.shared.cgStateMap
  allowMap : t.shared.allowMap = s.shared.allowMap
  calls : t.locals = s.locals.map FineCall.coarse
  length : t.shared.records.length = s.shared.records.length
  one : ∀ (i j : Nat) (c d : FineCall) (p : Nat), s.locals[i]? = some c → s.locals[j]? = some d →
    c.pc.deciding = some p → d.pc.deciding = some p → i = j
  free : ∀ p : Nat, (∀ call ∈ s.locals, call.pc.deciding ≠ some p) → s.shared.records[p]? = t.shared.records[p]?
  midway : ∀ call ∈ s.locals, Midway s.shared t.shared call.pc

theorem Midway.congr {k k' m m' : Kernel} {pc : FinePc} (h : Midway k k' pc)
    (hrecord : ∀ p, pc.deciding = some p → p < k.records.length → p < k'.records.length →
      m.records[p]? = k.records[p]? ∧ m'.records[p]? = k'.records[p]?) : Midway m m' pc := by
  have hlt : ∀ {l : List CgState} {p : Nat} {r : CgState}, l[p]? = some r → p < l.length := fun hp =>
    (List.getElem?_eq_some_iff.1 hp).1
  cases pc with
  | writeState now st v =>
    obtain ⟨r, hr, hr', hv⟩ := h
    obtain ⟨he, he'⟩ := hrecord st rfl (hlt hr) (hlt hr')
    exact ⟨r, he.trans hr, he'.trans hr', hv⟩
  | updateAllow now st =>
    obtain ⟨r, hr', hv, hr⟩ := h
    obtain ⟨he, he'⟩ := hrecord st rfl (hlt hr) (hlt hr')
    exact ⟨r, he'.trans hr', hv, he.trans hr⟩
  | writeLast now st =>
    obtain ⟨v, last, hr, hr'⟩ := h
    obtain ⟨he, he'⟩ := hrecord st rfl (hlt hr) (hlt hr')
    exact ⟨v, last, he.trans hr, he'.trans hr'⟩
  | _ => trivial

theorem stepCall_decide {k : Kernel} (key : ExecKey) (now : UInt64) {st : Nat} {r : CgState}
    (hr : k.records[st]? = some r) :
    stepCall k ⟨key, .decide now st⟩ = some (if verdict (now - r.lastNewExecNs) = .enforcing then
        ({ k with records := k.records.set st { r with state := .enforcing } }, ⟨key, .done (-1)⟩)
      else ({ k with records := k.records.set st ⟨verdict (now - r.lastNewExecNs), now⟩
                     allowMap := k.allowMap.put key 1 }, ⟨key, .done 0⟩)) := by
  unfold verdict
  simp only [stepCall, hr]
  by_cases hl : now - r.lastNewExecNs < learnWindowNs
  · simp [hl]
  · by_cases hg : now - r.lastNewExecNs < learnWindowNs + graceWindowNs
    · simp [hl, hg]
    · simp [hl, hg]

theorem getElem?_set_of_deciding {l : List CgState} {st p : Nat} {r : CgState} (h : some st ≠ some p) :
    (l.set st r)[p]? = l[p]? := List.getElem?_set_ne (fun he => h (congrArg some he))

theorem getElem?_set_beyond {l : List CgState} {st p : Nat} {r : CgState} (h : l.length ≤ p) :
    (l.set st r)[p]? = none :=
  List.getElem?_eq_none (by rw [List.length_set]; exact h)

section
variable {s : Threads Kernel FineCall} {t : Threads Kernel Call} {i : Nat} {key : ExecKey} {pc pc₁ : FinePc}
  {k k' : Kernel}

/-- What a step of a call leaves to be shown, if it writes no record but the one that the call decides on, and adds the
same to both. -/
theorem Collapses.replace (hs : Collapses s t) (hi : s.locals[i]? = some ⟨key, pc⟩)
    (hmaps : k'.clock = k.clock ∧ k'.cgStateMap = k.cgStateMap ∧ k'.allowMap = k.allowMap ∧
      k'.records.length = k.records.length)
    (hbegins : ∀ p, pc₁.deciding = some p → pc.deciding = some p ∨ ∀ call ∈ s.locals, call.pc.deciding ≠ some p)
    (hothers : ∀ p, pc.deciding ≠ some p → p < s.shared.records.length →
      k.records[p]? = s.shared.records[p]? ∧ k'.records[p]? = t.shared.records[p]?)
    (hnew : ∀ p, s.shared.records.length ≤ p → k.records[p]? = k'.records[p]?)
    (hends : ∀ p, pc.deciding = some p → pc₁.deciding ≠ some p → k.records[p]? = k'.records[p]?)
    (hmid : Midway k k' pc₁) {l : List Call} (hl : l = (s.locals.set i ⟨key, pc₁⟩).map FineCall.coarse) :
    Collapses ⟨k, s.locals.set i ⟨key, pc₁⟩⟩ ⟨k', l⟩ := by
  obtain ⟨hclock, hcg, hallow, hlen⟩ := hmaps
  refine ⟨hclock, hcg, hallow, hl, hlen, fun a b c d p ha hb hc hd => ?_, fun p hfree => ?_, ?_⟩
  · rcases Threads.getElem?_set ha with ⟨rfl, rfl⟩ | ⟨-, hold₁⟩ <;>
      rcases Threads.getElem?_set hb with ⟨rfl, rfl⟩ | ⟨-, hold₂⟩
    · rfl
    · rcases hbegins p hc with hdec | hnone
      · exact hs.one a b _ d p hi hold₂ hdec hd
      · exact absurd hd (hnone d (List.mem_of_getElem? hold₂))
    · rcases hbegins p hd with hdec | hnone
      · exact hs.one a b c _ p hold₁ hi hc hdec
      · exact absurd hc (hnone c (List.mem_of_getElem? hold₁))
    · exact hs.one a b c d p hold₁ hold₂ hc hd
  · have hlast : pc₁.deciding ≠ some p := hfree ⟨key, pc₁⟩ (Threads.mem_set_self hi)
    by_cases hown : pc.deciding = some p
    · exact hends p hown hlast
    · rcases Nat.lt_or_ge p s.shared.records.length with hlt | hge
      · obtain ⟨he, he'⟩ := hothers p hown hlt
        rw [he, he']
        refine hs.free p (fun call hcall hp => ?_)
        obtain ⟨j, hj⟩ := List.mem_iff_getElem?.1 hcall
        have hji : j ≠ i := by
          rintro rfl
          obtain rfl : (⟨key, pc⟩ : FineCall) = call := Option.some.inj (hi.symm.trans hj)
          exact hown hp
        exact hfree call (List.mem_of_getElem? ((List.getElem?_set_ne (Ne.symm hji)).trans hj)) hp
      · exact hnew p hge
  · refine fun call hcall => ?_
    obtain ⟨j, hj⟩ := List.mem_iff_getElem?.1 hcall
    rcases Threads.getElem?_set hj with ⟨-, rfl⟩ | ⟨hji, hj⟩
    · exact hmid
    · refine (hs.midway call (List.mem_of_getElem? hj)).congr (fun p hp hlt _ => hothers p (fun hown => ?_) hlt)
      exact hji (hs.one j i call _ p hj hi hp hown)

theorem Collapses.local (hs : Collapses s t) (hi : s.locals[i]? = some ⟨key, pc⟩) :
    t.locals[i]? = some ⟨key, pc.coarse⟩ := by
  rw [hs.calls, List.getElem?_map, hi]
  rfl

theorem Collapses.locals_set (hs : Collapses s t) (i : Nat) (key : ExecKey) (pc₁ : FinePc) :
    t.locals.set i ⟨key, pc₁.coarse⟩ = (s.locals.set i ⟨key, pc₁⟩).map FineCall.coarse := by
  rw [hs.calls, List.map_set]
  rfl

theorem Collapses.locals_stay (hs : Collapses s t) (hi : s.locals[i]? = some ⟨key, pc⟩) (hpc : pc₁.coarse = pc.coarse) :
    t.locals = (s.locals.set i ⟨key, pc₁⟩).map FineCall.coarse := by
  rw [← hs.locals_set, hpc, ← List.getElem?_eq_some_iff.1 (hs.local hi) |>.2, List.set_getElem_self]

theorem Collapses.run_call (hs : Collapses s t) (hi : s.locals[i]? = some ⟨key, pc⟩) {r : Kernel × Call}
    (hr : stepCall t.shared ⟨key, pc.coarse⟩ = some r) :
    Steps.run act t [.call i] = some ⟨r.1, t.locals.set i r.2⟩ := by
  rw [Steps.run_cons, act, Threads.stepAt_of_step (hs.local hi) hr]
  rfl

/-- A step of a call that is not deciding, and does not begin to, is the same step. -/
theorem Collapses.same (hs : Collapses s t) (hi : s.locals[i]? = some ⟨key, pc⟩) (hpc : pc.deciding = none)
    (hpc₁ : pc₁.deciding = none) (hcall : stepCall t.shared ⟨key, pc.coarse⟩ = some (t.shared, ⟨key, pc₁.coarse⟩)) :
    ∃ bs t₁, Steps.run act t bs = some t₁ ∧ Collapses ⟨s.shared, s.locals.set i ⟨key, pc₁⟩⟩ t₁ := by
  have hnone : ∀ {p : Nat} {q : FinePc}, q.deciding = none → q.deciding ≠ some p := fun hq hp => by
    rw [hq] at hp
    cases hp
  refine ⟨[.call i], _, hs.run_call hi hcall, hs.replace hi ⟨hs.clock, hs.cgStateMap, hs.allowMap, hs.length⟩
    (fun p hp => absurd hp (hnone hpc₁)) (fun p _ _ => ⟨rfl, rfl⟩) (fun p hp => ?_)
      (fun p hp => absurd hp (hnone hpc)) ?_
    (hs.locals_set i key pc₁)⟩
  · rw [List.getElem?_eq_none hp, List.getElem?_eq_none (hs.length ▸ hp)]
  · cases pc₁ with
    | writeState => cases hpc₁
    | updateAllow => cases hpc₁
    | writeLast => cases hpc₁
    | _ => trivial

theorem Collapses.create {now : UInt64} {r : Kernel × FineCall} (hs : Collapses s t)
    (hi : s.locals[i]? = some ⟨key, .createState now⟩) (hr : stepFine s.shared ⟨key, .createState now⟩ = some r) :
    ∃ bs t₁, Steps.run act t bs = some t₁ ∧ Collapses ⟨r.1, s.locals.set i r.2⟩ t₁ := by
  cases hr
  have hstep : stepCall t.shared ⟨key, .createState now⟩ = some
      ({ t.shared with records := t.shared.records ++ [⟨.learning, now⟩]
                       cgStateMap := t.shared.cgStateMap.put key.cgid t.shared.records.length }, ⟨key, .done 0⟩) := rfl
  refine ⟨[.call i], _, hs.run_call hi hstep, ?_⟩
  apply hs.replace hi
  · refine ⟨hs.clock, ?_, hs.allowMap, ?_⟩
    · show t.shared.cgStateMap.put _ _ = _
      rw [hs.cgStateMap, hs.length]
    · show (t.shared.records ++ _).length = _
      rw [List.length_append, List.length_append, hs.length]
  · exact fun p hp => by cases hp
  · exact fun p _ hlt => ⟨List.getElem?_append_left hlt, List.getElem?_append_left (hs.length ▸ hlt)⟩
  · intro p hge
    show (s.shared.records ++ _)[p]? = (t.shared.records ++ _)[p]?
    rw [List.getElem?_append_right hge, List.getElem?_append_right (hs.length ▸ hge), hs.length]
  · exact fun p hp => by cases hp
  · trivial
  · exact hs.locals_set i key (.done 0)

theorem Collapses.begin {now : UInt64} {st : Nat} {r : Kernel × FineCall} (hs : Collapses s t)
    (hi : s.locals[i]? = some ⟨key, .readLast now st⟩) (hnone : ∀ call ∈ s.locals, call.pc.deciding ≠ some st)
    (hr : stepFine s.shared ⟨key, .readLast now st⟩ = some r) :
    ∃ bs t₁, Steps.run act t bs = some t₁ ∧ Collapses ⟨r.1, s.locals.set i r.2⟩ t₁ := by
  cases hget : s.shared.records[st]? with
  | none => simp only [stepFine, hget] at hr; cases hr
  | some rec =>
    simp only [stepFine, hget] at hr
    cases hr
    refine ⟨[], t, rfl, ?_⟩
    apply hs.replace hi
    · exact ⟨hs.clock, hs.cgStateMap, hs.allowMap, hs.length⟩
    · intro p hp
      cases hp
      exact .inr hnone
    · exact fun p _ _ => ⟨rfl, rfl⟩
    · intro p hp
      rw [List.getElem?_eq_none hp, List.getElem?_eq_none (hs.length ▸ hp)]
    · exact fun p hp => by cases hp
    · exact ⟨rec, hget, by rw [← hs.free st hnone, hget], rfl⟩
    · exact hs.locals_stay hi rfl

theorem Collapses.judge {now : UInt64} {st : Nat} {v : State} {r : Kernel × FineCall} (hs : Collapses s t)
    (hi : s.locals[i]? = some ⟨key, .writeState now st v⟩)
    (hr : stepFine s.shared ⟨key, .writeState now st v⟩ = some r) :
    ∃ bs t₁, Steps.run act t bs = some t₁ ∧ Collapses ⟨r.1, s.locals.set i r.2⟩ t₁ := by
  obtain ⟨rec, hget, hget', rfl⟩ := hs.midway _ (List.mem_of_getElem? hi)
  simp only [stepFine, hget] at hr
  cases hr
  have hlt := (List.getElem?_eq_some_iff.1 hget).1
  have hlt' := (List.getElem?_eq_some_iff.1 hget').1
  by_cases hv : verdict (now - rec.lastNewExecNs) = .enforcing
  · rw [if_pos hv, hv]
    have hstep := stepCall_decide key now hget'
    rw [if_pos hv] at hstep
    refine ⟨[.call i], _, hs.run_call hi hstep, ?_⟩
    apply hs.replace hi
    · exact ⟨hs.clock, hs.cgStateMap, hs.allowMap, by simp only [List.length_set, hs.length]⟩
    · exact fun p hp => by cases hp
    · exact fun p hp _ => ⟨getElem?_set_of_deciding hp, getElem?_set_of_deciding hp⟩
    · intro p hp
      rw [getElem?_set_beyond hp, getElem?_set_beyond (hs.length ▸ hp)]
    · intro p hp _
      cases hp
      exact (List.getElem?_set_self hlt).trans (List.getElem?_set_self hlt').symm
    · trivial
    · exact hs.locals_set i key (.done (-1))
  · rw [if_neg hv]
    refine ⟨[], t, rfl, ?_⟩
    apply hs.replace hi
    · exact ⟨hs.clock, hs.cgStateMap, hs.allowMap, by simp only [List.length_set, hs.length]⟩
    · exact fun p hp => .inl hp
    · exact fun p hp _ => ⟨getElem?_set_of_deciding hp, rfl⟩
    · intro p hp
      rw [getElem?_set_beyond hp, List.getElem?_eq_none (hs.length ▸ hp)]
    · exact fun p hp hend => absurd hp hend
    · exact ⟨rec, hget', hv, List.getElem?_set_self hlt⟩
    · exact hs.locals_stay hi rfl

theorem Collapses.allow {now : UInt64} {st : Nat} {r : Kernel × FineCall} (hs : Collapses s t)
    (hi : s.locals[i]? = some ⟨key, .updateAllow now st⟩) (hr : stepFine s.shared ⟨key, .updateAllow now st⟩ = some r) :
    ∃ bs t₁, Steps.run act t bs = some t₁ ∧ Collapses ⟨r.1, s.locals.set i r.2⟩ t₁ := by
  obtain ⟨rec, hget', hv, hget⟩ := hs.midway _ (List.mem_of_getElem? hi)
  have hlt' := (List.getElem?_eq_some_iff.1 hget').1
  cases hr
  have hstep := stepCall_decide key now hget'
  rw [if_neg hv] at hstep
  refine ⟨[.call i], _, hs.run_call hi hstep, ?_⟩
  apply hs.replace hi
  · refine ⟨hs.clock, hs.cgStateMap, ?_, by simp only [List.length_set, hs.length]⟩
    show t.shared.allowMap.put key 1 = _
    rw [hs.allowMap]
  · exact fun p hp => .inl hp
  · exact fun p hp _ => ⟨rfl, getElem?_set_of_deciding hp⟩
  · intro p hp
    rw [List.getElem?_eq_none hp, getElem?_set_beyond (hs.length ▸ hp)]
  · exact fun p hp hend => absurd hp hend
  · exact ⟨_, _, hget, List.getElem?_set_self hlt'⟩
  · exact hs.locals_set i key (.writeLast now st)

theorem Collapses.settle {now : UInt64} {st : Nat} {r : Kernel × FineCall} (hs : Collapses s t)
    (hi : s.locals[i]? = some ⟨key, .writeLast now st⟩) (hr : stepFine s.shared ⟨key, .writeLast now st⟩ = some r) :
    ∃ bs t₁, Steps.run act t bs = some t₁ ∧ Collapses ⟨r.1, s.locals.set i r.2⟩ t₁ := by
  obtain ⟨v, last, hget, hget'⟩ := hs.midway _ (List.mem_of_getElem? hi)
  have hlt := (List.getElem?_eq_some_iff.1 hget).1
  simp only [stepFine, hget] at hr
  cases hr
  refine ⟨[], t, rfl, ?_⟩
  apply hs.replace hi
  · exact ⟨hs.clock, hs.cgStateMap, hs.allowMap, by simp only [List.length_set, hs.length]⟩
  · exact fun p hp => by cases hp
  · exact fun p hp _ => ⟨getElem?_set_of_deciding hp, rfl⟩
  · intro p hp
    rw [getElem?_set_beyond hp, List.getElem?_eq_none (hs.length ▸ hp)]
  · intro p hp _
    cases hp
    exact (List.getElem?_set_self hlt).trans hget'.symm
  · trivial
  · exact hs.locals_stay hi rfl

theorem Collapses.call {s₁ : Threads Kernel FineCall} (hs : Collapses s t) (hapart : Apart s (.call i))
    (h : actFine s (.call i) = some s₁) : ∃ bs t₁, Steps.run act t bs = some t₁ ∧ Collapses s₁ t₁ := by
  obtain ⟨⟨key, pc⟩, r, hi, hr, rfl⟩ := Threads.stepAt_eq_some h
  cases pc with
  | readClock =>
    cases hr
    exact hs.same hi rfl rfl (by rw [← hs.clock]; rfl)
  | lookupState now =>
    cases hst : s.shared.cgStateMap.lookup key.cgid with
    | none =>
      simp only [stepFine, hst] at hr
      cases hr
      exact hs.same hi rfl rfl (by simp only [FinePc.coarse, stepCall, hs.cgStateMap, hst])
    | some st =>
      simp only [stepFine, hst] at hr
      cases hr
      exact hs.same hi rfl rfl (by simp only [FinePc.coarse, stepCall, hs.cgStateMap, hst])
  | createState now => exact hs.create hi hr
  | lookupAllow now st =>
    cases hk : s.shared.allowMap.lookup key with
    | none =>
      simp only [stepFine, hk] at hr
      cases hr
      exact hs.same hi rfl rfl (by simp only [FinePc.coarse, stepCall, hs.allowMap, hk])
    | some v =>
      simp only [stepFine, hk] at hr
      cases hr
      exact hs.same hi rfl rfl (by simp only [FinePc.coarse, stepCall, hs.allowMap, hk])
  | readLast now st => exact hs.begin hi (hapart key now st hi) hr
  | writeState now st v => exact hs.judge hi hr
  | updateAllow now st => exact hs.allow hi hr
  | writeLast now st => exact hs.settle hi hr
  | done ret => cases hr

end

theorem collapses_start (keys : List ExecKey) : Collapses (startFine keys) (start keys) := by
  have hidle : ∀ call ∈ (startFine keys).locals, call.pc = .readClock := fun call hcall => by
    obtain ⟨key, -, rfl⟩ := List.mem_map.1 hcall
    rfl
  refine ⟨rfl, rfl, rfl, ?_, rfl, fun i j c d p hi hj hc hd => ?_, fun p _ => rfl, fun call hcall => ?_⟩
  · simp [start, startFine, Function.comp_def, FineCall.coarse, FinePc.coarse]
  · rw [hidle c (List.mem_of_getElem? hi)] at hc
    cases hc
  · rw [hidle call hcall]
    trivial

/-- **A run of the accesses whose decisions keep apart is a run of decisions.** -/
theorem exists_coarse {keys : List ExecKey} {acts : List Act} {s : Threads Kernel FineCall}
    (hrun : Steps.run actFine (startFine keys) acts = some s)
    (hapart : Steps.Always actFine Apart (startFine keys) acts) :
    ∃ bs t, Steps.run act (start keys) bs = some t ∧ Collapses s t := by
  refine Steps.run_refines Collapses (fun s t a s' hs hP h => ?_) (collapses_start keys) hapart hrun
  cases a with
  | tick now =>
    obtain ⟨hle, he⟩ := Option.ite_none_right_eq_some.1 h
    cases he
    have htick : act t (.tick now) = some { t with shared := { t.shared with clock := now } } :=
      if_pos (by rw [hs.clock]; exact hle)
    refine ⟨[.tick now], _, by rw [Steps.run_cons, htick]; rfl, ?_⟩
    exact ⟨rfl, hs.cgStateMap, hs.allowMap, hs.calls, hs.length, hs.one, hs.free,
      fun call hcall => (hs.midway call hcall).congr (fun _ _ _ _ => ⟨rfl, rfl⟩)⟩
  | call i => exact hs.call hP h

def AtRest (s : Threads Kernel FineCall) : Prop := ∀ call ∈ s.locals, call.pc.deciding = none

theorem Collapses.shared_eq {s : Threads Kernel FineCall} {t : Threads Kernel Call} (hs : Collapses s t)
    (hrest : AtRest s) : t.shared = s.shared := by
  have hrecords : t.shared.records = s.shared.records := by
    refine List.ext_getElem? (fun p => (hs.free p (fun call hcall hp => ?_)).symm)
    rw [hrest call hcall] at hp
    cases hp
  obtain ⟨⟨clock, records, cgStateMap, allowMap⟩, calls⟩ := t
  cases hs.clock
  cases hrecords
  cases hs.cgStateMap
  cases hs.allowMap
  rfl

/-! ## And the other way round -/

def Pc.fine : Pc → FinePc
  | .readClock => .readClock
  | .lookupState now => .lookupState now
  | .createState now => .createState now
  | .lookupAllow now st => .lookupAllow now st
  | .decide now st => .readLast now st
  | .done ret => .done ret

def Call.fine (c : Call) : FineCall := ⟨c.key, c.pc.fine⟩

theorem Call.coarse_fine (c : Call) : c.fine.coarse = c := by
  obtain ⟨key, pc⟩ := c
  cases pc <;> rfl

theorem Call.deciding_fine (c : Call) : c.fine.pc.deciding = none := by
  obtain ⟨key, pc⟩ := c
  cases pc <;> rfl

/-- **A step of `stepCall` is some steps of the accesses** that no other comes between. -/
theorem exists_alone {k : Kernel} {c : Call} {r : Kernel × Call} (h : stepCall k c = some r) :
    ∃ n, Threads.alone stepFine n k c.fine = (r.1, r.2.fine) := by
  obtain ⟨key, pc⟩ := c
  cases pc with
  | readClock => cases h; exact ⟨1, rfl⟩
  | lookupState now =>
    cases hst : k.cgStateMap.lookup key.cgid <;> simp only [stepCall, hst] at h <;> cases h <;>
      exact ⟨1, by simp only [Threads.alone, Call.fine, Pc.fine, stepFine, hst]⟩
  | createState now => cases h; exact ⟨1, rfl⟩
  | lookupAllow now st =>
    cases hk : k.allowMap.lookup key <;> simp only [stepCall, hk] at h <;> cases h <;>
      exact ⟨1, by simp only [Threads.alone, Call.fine, Pc.fine, stepFine, hk]⟩
  | decide now st =>
    cases hget : k.records[st]? with
    | none => simp only [stepCall, hget] at h; cases h
    | some rec =>
      have hlt := (List.getElem?_eq_some_iff.1 hget).1
      have hset : ∀ x : CgState, (k.records.set st x)[st]? = some x := fun x => List.getElem?_set_self hlt
      rw [stepCall_decide key now hget] at h
      refine ⟨4, ?_⟩
      by_cases hv : verdict (now - rec.lastNewExecNs) = .enforcing
      · rw [if_pos hv] at h
        cases h
        simp only [Threads.alone, Call.fine, Pc.fine, stepFine, hget, hv, if_true]
      · rw [if_neg hv] at h
        cases h
        simp only [Threads.alone, Call.fine, Pc.fine, stepFine, hget, hv, if_false, hset, List.set_set]
  | done ret => cases h

def OthersRest (i : Nat) (s : Threads Kernel FineCall) : Prop :=
  ∀ (j : Nat) (call : FineCall), j ≠ i → s.locals[j]? = some call → call.pc.deciding = none

theorem OthersRest.apart {i : Nat} {s : Threads Kernel FineCall} (hs : OthersRest i s) : Apart s (.call i) := by
  intro key now st hi call hcall hp
  obtain ⟨j, hj⟩ := List.mem_iff_getElem?.1 hcall
  by_cases hji : j = i
  · subst hji
    obtain rfl : (⟨key, .readLast now st⟩ : FineCall) = call := Option.some.inj (hi.symm.trans hj)
    cases hp
  · rw [hs j call hji hj] at hp
    cases hp

theorem OthersRest.step {i : Nat} {s t : Threads Kernel FineCall} (hs : OthersRest i s)
    (h : Threads.stepAt stepFine s i = some t) : OthersRest i t := by
  obtain ⟨c, r, -, -, rfl⟩ := Threads.stepAt_eq_some h
  intro j call hji hj
  exact hs j call hji ((List.getElem?_set_ne (Ne.symm hji)).symm.trans hj)

theorem run_apart {i : Nat} : ∀ (n : Nat) {s t : Threads Kernel FineCall}, OthersRest i s →
    Steps.run (Threads.stepAt stepFine) s (List.replicate n i) = some t →
      Steps.run actFine s (List.replicate n (.call i)) = some t ∧
        Steps.Always actFine Apart s (List.replicate n (.call i))
  | 0, _, _, _, h => ⟨h, trivial⟩
  | n + 1, s, t, hs, h => by
    obtain ⟨m, hm, hrest⟩ := Option.bind_eq_some_iff.1 h
    obtain ⟨hrun, halways⟩ := run_apart n (hs.step hm) hrest
    refine ⟨?_, hs.apart, fun u hu => ?_⟩
    · rw [List.replicate_succ, Steps.run_cons, actFine, hm]
      exact hrun
    · obtain rfl : m = u := Option.some.inj (hm.symm.trans hu)
      exact halways

def resting (t : Threads Kernel Call) : Threads Kernel FineCall := ⟨t.shared, t.locals.map Call.fine⟩

theorem atRest_resting (t : Threads Kernel Call) : AtRest (resting t) := fun call hcall => by
  obtain ⟨c, -, rfl⟩ := List.mem_map.1 hcall
  exact c.deciding_fine

/-- **A run of decisions is a run of accesses whose decisions keep apart.** -/
theorem exists_fine {keys : List ExecKey} : ∀ (bs : List Act) (t : Threads Kernel Call),
    Steps.run act (start keys) bs = some t → ∃ acts, Steps.run actFine (startFine keys) acts = some (resting t) ∧
      Steps.Always actFine Apart (startFine keys) acts := by
  refine Steps.run_induction _ ⟨[], ?_, trivial⟩ (fun bs t a t₁ _ ih ha => ?_)
  · simp [resting, start, startFine, Function.comp_def, Call.fine, Pc.fine]
  · obtain ⟨acts, hacts, hapart⟩ := ih
    cases a with
    | tick now =>
      obtain ⟨hle, he⟩ := Option.ite_none_right_eq_some.1 ha
      cases he
      have htick : Steps.Always actFine Apart (resting t) [.tick now] := ⟨trivial, fun _ _ => trivial⟩
      refine ⟨acts ++ [.tick now], Steps.run_append_of_run hacts ?_, hapart.append hacts htick⟩
      rw [Steps.run_cons, actFine, resting, if_pos hle]
      rfl
    | call i =>
      obtain ⟨c, r, hi, hr, rfl⟩ := Threads.stepAt_eq_some ha
      obtain ⟨n, halone⟩ := exists_alone hr
      have hfine : (resting t).locals[i]? = some c.fine := by rw [resting, List.getElem?_map, hi]; rfl
      obtain ⟨m, hm⟩ := Threads.run_alone n (resting t) i c.fine hfine
      rw [show (resting t).shared = t.shared from rfl, halone] at hm
      have hothers : OthersRest i (resting t) := fun j call _ hj => atRest_resting t call (List.mem_of_getElem? hj)
      obtain ⟨hrun, halways⟩ := run_apart m hothers hm
      refine ⟨acts ++ List.replicate m (.call i), Steps.run_append_of_run hacts ?_, hapart.append hacts halways⟩
      rw [hrun, resting, resting, List.map_set]

end ExecControl
end CgroupGuard
