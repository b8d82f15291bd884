import CgroupGuard.ControlPlane.CgroupPath
import CgroupGuard.Lib.Steps
/-!
# DriverCache — `_systemd_driver_cache` between the threads

`_is_systemd_driver` takes no lock: it tests the global, returns it in a read of its own, or asks `docker info`, stores
what comes of it, and returns the global as it is then.  Threads that find it empty ask one after the other and the last
to store wins, so that a wrong answer can still come after a right one, and the other way round.
-/
namespace CgroupGuard
namespace ControlPlane

inductive CachePc where
  | check
  | found
  | asking
  | storing (systemd : Bool)
  | returning
  | done (systemd : Option Bool)
  deriving DecidableEq, Repr

/-- The next step of a call; `info` is what `docker info` prints, if that is the step. -/
def CachePc.step (info : Option Text) (cache : Option Bool) : CachePc → Option (Option Bool × CachePc)
  | .check => if cache.isSome then some (cache, .found) else some (cache, .asking)
  | .found => some (cache, .done cache)
  | .asking => some (cache, .storing (isSystemdDriver none info))
  | .storing systemd => some (some systemd, .returning)
  | .returning => some (cache, .done cache)
  | .done _ => none

abbrev Lookups := Threads (Option Bool) CachePc

inductive LookupAct where
  | call
  | step (i : Nat) (info : Option Text)
  deriving DecidableEq, Repr

namespace Lookups

def init : Lookups := ⟨none, []⟩

def step (s : Lookups) : LookupAct → Option Lookups
  | .call => some { s with locals := s.locals ++ [.check] }
  | .step i info => Threads.stepAt (CachePc.step info) s i

abbrev run (s : Lookups) (acts : List LookupAct) : Option Lookups := Steps.run step s acts

theorem alone_check (info : Option Text) (cache : Option Bool) :
    Threads.alone (CachePc.step info) 4 cache .check =
      (some (isSystemdDriver cache info), .done (some (isSystemdDriver cache info))) := by
  cases cache <;> rfl

/-! ## What a step can do -/

inductive Looks (info : Option Text) (cache : Option Bool) : CachePc → Option Bool → CachePc → Prop
  | present (systemd : Bool) (hc : cache = some systemd) : Looks info cache .check cache .found
  | absent (hc : cache = none) : Looks info cache .check cache .asking
  | answer (pc : CachePc) (hpc : pc = .found ∨ pc = .returning) : Looks info cache pc cache (.done cache)
  | ask : Looks info cache .asking cache (.storing (isSystemdDriver none info))
  | store (systemd : Bool) : Looks info cache (.storing systemd) (some systemd) .returning

theorem looks_of_step {info : Option Text} {cache : Option Bool} {pc : CachePc} {r : Option Bool × CachePc}
    (h : pc.step info cache = some r) : Looks info cache pc r.1 r.2 := by
  cases pc with
  | check =>
    cases cache with
    | none => cases h; exact .absent rfl
    | some systemd => cases h; exact .present systemd rfl
  | found => cases h; exact .answer _ (.inl rfl)
  | asking => cases h; exact .ask
  | storing systemd => cases h; exact .store systemd
  | returning => cases h; exact .answer _ (.inr rfl)
  | done systemd => cases h

theorem holds_of_step {s t : Lookups} {a : LookupAct} {P : Option Bool → CachePc → Prop}
    (hs : ∀ pc ∈ s.locals, P s.shared pc) (h : s.step a = some t) (hcall : P s.shared .check)
    (hstep : ∀ i info pc cache pc', a = .step i info → P s.shared pc → Looks info s.shared pc cache pc' →
      P cache pc' ∧ ∀ other, P s.shared other → P cache other) : ∀ pc ∈ t.locals, P t.shared pc := by
  cases a with
  | call =>
    cases h
    exact List.forall_mem_append.2 ⟨hs, List.forall_mem_singleton.2 hcall⟩
  | step i info =>
    obtain ⟨pc, r, hpc, hr, rfl⟩ := Threads.stepAt_eq_some h
    obtain ⟨hnew, hothers⟩ := hstep i info pc r.1 r.2 rfl (hs pc (List.mem_of_getElem? hpc)) (looks_of_step hr)
    exact Threads.forall_mem_set (fun other ho => hothers other (hs other ho)) hnew

def Sees (cache : Option Bool) : CachePc → Prop
  | .found => cache ≠ none
  | .returning => cache ≠ none
  | .done systemd => systemd ≠ none
  | _ => True

theorem Sees.looks {info : Option Text} {cache cache' : Option Bool} {pc pc' : CachePc} (hpc : Sees cache pc)
    (h : Looks info cache pc cache' pc') : Sees cache' pc' ∧ ∀ other, Sees cache other → Sees cache' other := by
  cases h with
  | present systemd hc => exact ⟨by rw [hc]; nofun, fun _ => id⟩
  | absent hc => exact ⟨trivial, fun _ => id⟩
  | answer pc hat =>
    refine ⟨?_, fun _ => id⟩
    rcases hat with rfl | rfl <;> exact hpc
  | ask => exact ⟨trivial, fun _ => id⟩
  | store systemd =>
    refine ⟨nofun, fun other ho => ?_⟩
    cases other with
    | found => exact nofun
    | returning => exact nofun
    | _ => exact ho

/-- **No call returns before the global is set**, and nothing empties it again. -/
theorem sees_of_run {acts : List LookupAct} {s : Lookups} (hrun : init.run acts = some s) :
    ∀ pc ∈ s.locals, Sees s.shared pc :=
  Steps.run_invariant (fun s : Lookups => ∀ pc ∈ s.locals, Sees s.shared pc) (fun pc hpc => by cases hpc)
    (fun _ _ _ hm h => holds_of_step hm h trivial (fun _ _ _ _ _ _ hpc hlooks => hpc.looks hlooks)) hrun

/-! ## When the answers are right -/

def right (driver : Text) : Bool := isSystemdDriver none (some driver)

def Answered (driver : Text) : LookupAct → Prop
  | .call => True
  | .step _ info => info = some driver

def Honest (driver : Text) : LookupAct → Prop
  | .call => True
  | .step _ info => info = none ∨ info = some driver

/-- While Docker answers, every call that has not returned yet returns the right answer. -/
def RightFromNow (driver : Text) (s : Lookups) : Prop :=
  ∀ acts t, (∀ a ∈ acts, Answered driver a) → s.run acts = some t →
    ∀ (i : Nat) (systemd : Option Bool), t.locals[i]? = some (CachePc.done systemd) →
      s.locals[i]? = some (CachePc.done systemd) ∨ systemd = some (right driver)

/-- The global is wrong and stays so, whatever Docker does. -/
def WrongForEver (driver : Text) (s : Lookups) : Prop :=
  ∀ acts t, (∀ a ∈ acts, Honest driver a) → s.run acts = some t → t.shared = some (!right driver)

structure Sound (driver : Text) (s t : Lookups) : Prop where
  cache : t.shared ≠ some (!right driver)
  storing : ∀ pc ∈ t.locals, pc ≠ .storing (!right driver)
  sees : ∀ pc ∈ t.locals, Sees t.shared pc
  answers : ∀ (i : Nat) (systemd : Option Bool), t.locals[i]? = some (CachePc.done systemd) →
    s.locals[i]? = some (CachePc.done systemd) ∨ systemd = some (right driver)

theorem eq_right {driver : Text} {cache : Option Bool} (hset : cache ≠ none) (hwrong : cache ≠ some (!right driver)) :
    cache = some (right driver) := by
  obtain ⟨systemd, rfl⟩ := Option.ne_none_iff_exists'.1 hset
  exact congrArg some (Bool.eq_not_of_ne (fun he => hwrong (congrArg some he)) ▸ Bool.not_not _)

theorem Sound.step {driver : Text} {s t u : Lookups} {a : LookupAct} (ht : Sound driver s t) (ha : Answered driver a)
    (h : t.step a = some u) : Sound driver s u := by
  have hsees : ∀ pc ∈ u.locals, Sees u.shared pc :=
    holds_of_step ht.sees h trivial (fun _ _ _ _ _ _ hpc hlooks => hpc.looks hlooks)
  have hstoring : ∀ pc ∈ u.locals, pc ≠ .storing (!right driver) := by
    refine holds_of_step (P := fun _ pc => pc ≠ .storing (!right driver)) ht.storing h nofun
      (fun i info pc cache pc' hact hpc hlooks => ⟨?_, fun _ => id⟩)
    subst hact
    cases hlooks with
    | ask =>
      obtain rfl : info = some driver := ha
      exact fun he => (Bool.eq_not_self _).1 (CachePc.storing.inj he)
    | _ => nofun
  cases a with
  | call =>
    cases h
    refine ⟨ht.cache, hstoring, hsees, fun i systemd hi => ?_⟩
    rcases List.getElem?_eq_some_iff.1 hi with ⟨hlt, hget⟩
    rcases Nat.lt_or_ge i t.locals.length with hold | hnew
    · exact ht.answers i systemd ((List.getElem?_append_left hold).symm.trans hi)
    · rw [List.getElem?_append_right hnew] at hi
      cases List.mem_singleton.1 (List.mem_of_getElem? hi)
  | step j info =>
    obtain ⟨pc, r, hpc, hr, rfl⟩ := Threads.stepAt_eq_some h
    have hmem := List.mem_of_getElem? hpc
    have hold := ht.sees pc hmem
    have hnot := ht.storing pc hmem
    have hlooks := looks_of_step hr
    refine ⟨?_, hstoring, hsees, fun i systemd hi => ?_⟩
    · generalize r.1 = cache, r.2 = pc' at hlooks
      cases hlooks with
      | store systemd => exact fun he => hnot (congrArg CachePc.storing (Option.some.inj he))
      | _ => exact ht.cache
    · rcases Threads.getElem?_set hi with ⟨rfl, hdone⟩ | ⟨-, hi⟩
      · rw [← hdone] at hlooks
        generalize r.1 = cache at hlooks
        cases hlooks with
        | answer pc hat =>
          right
          rcases hat with rfl | rfl <;> exact eq_right hold ht.cache
      · exact ht.answers i systemd hi

/-- **Every answer from now on is right exactly when the global is not wrong and no thread is about to store the wrong
answer.** -/
theorem right_from_now_iff (driver : Text) {acts : List LookupAct} {s : Lookups} (hrun : init.run acts = some s) :
    RightFromNow driver s ↔ s.shared ≠ some (!right driver) ∧ ∀ pc ∈ s.locals, pc ≠ .storing (!right driver) := by
  constructor
  · intro h
    refine ⟨fun hwrong => ?_, fun pc hpc hstoring => ?_⟩
    · -- a call that begins now finds it
      have hlast : ∀ pc : CachePc, (s.locals ++ [pc])[s.locals.length]? = some pc :=
          fun pc => List.getElem?_concat_length
      have hrun : s.run [.call, .step s.locals.length (some driver), .step s.locals.length (some driver)] =
          some ⟨s.shared, s.locals ++ [.done s.shared]⟩ := by
        simp [step, Threads.stepAt, CachePc.step, hwrong]
      rcases h _ _ (by simp [Answered]) hrun _ _ (hlast _) with hold | hright
      · rw [List.getElem?_eq_none (Nat.le_refl _)] at hold
        cases hold
      · exact (Bool.eq_not_self _).1 (Option.some.inj (hright.symm.trans hwrong))
    · subst hstoring
      obtain ⟨i, hi⟩ := List.mem_iff_getElem?.1 hpc
      have hlt := (List.getElem?_eq_some_iff.1 hi).1
      have hstore : s.step (.step i (some driver)) = some ⟨some (!right driver), s.locals.set i .returning⟩ := by
        simp [step, Threads.stepAt, hi, CachePc.step]
      have hreturn : step ⟨some (!right driver), s.locals.set i .returning⟩ (.step i (some driver)) =
          some ⟨some (!right driver), (s.locals.set i .returning).set i (.done (some (!right driver)))⟩ := by
        simp [step, Threads.stepAt, List.getElem?_set_self hlt, CachePc.step]
      have hrun : s.run [.step i (some driver), .step i (some driver)] =
          some ⟨some (!right driver), s.locals.set i (.done (some (!right driver)))⟩ := by
        rw [run, Steps.run_cons, hstore, Option.bind_some, Steps.run_cons, hreturn, List.set_set]
        rfl
      rcases h _ _ (by simp [Answered]) hrun i _ (List.getElem?_set_self hlt) with hold | hright
      · cases hi.symm.trans hold
      · exact (Bool.eq_not_self _).1 (Option.some.inj hright).symm
  · rintro ⟨hcache, hstoring⟩ more t hmore ht
    have hstart : Sound driver s s := ⟨hcache, hstoring, sees_of_run hrun, fun i systemd hi => .inl hi⟩
    have hsound : Sound driver s t := by
      refine Steps.run_induction (fun more t => (∀ a ∈ more, Answered driver a) → Sound driver s t) (fun _ => hstart)
        (fun more m a t _ ih hstep hall => ?_) more t ht hmore
      exact (ih (fun b hb => hall b (List.mem_append_left _ hb))).step
        (hall a (List.mem_append_right _ List.mem_cons_self)) hstep
    exact hsound.answers

/-! ## When they stay wrong -/

/-- **The global is wrong for good exactly when it is wrong and no thread is asking, or about to store the right
answer.** -/
theorem wrong_for_ever_iff (driver : Text) (s : Lookups) :
    WrongForEver driver s ↔
      s.shared = some (!right driver) ∧ ∀ pc ∈ s.locals, pc ≠ .asking ∧ pc ≠ .storing (right driver) := by
  have hrepairs : ∀ (i : Nat) (m : Lookups), m.locals[i]? = some (.storing (right driver)) →
      ∃ t, m.step (.step i none) = some t ∧ t.shared ≠ some (!right driver) := fun i m hi => by
    refine ⟨⟨some (right driver), m.locals.set i .returning⟩, by simp [step, Threads.stepAt, hi, CachePc.step], ?_⟩
    exact fun he => (Bool.eq_not_self _).1 (Option.some.inj he)
  constructor
  · intro h
    refine ⟨h [] s nofun rfl, fun pc hpc => ⟨fun hasking => ?_, fun hstoring => ?_⟩⟩
    · subst hasking
      obtain ⟨i, hi⟩ := List.mem_iff_getElem?.1 hpc
      have hask : s.step (.step i (some driver)) = some ⟨s.shared, s.locals.set i (.storing (right driver))⟩ := by
        simp [step, Threads.stepAt, hi, CachePc.step, right]
      obtain ⟨t, ht, hright⟩ := hrepairs i ⟨s.shared, s.locals.set i (.storing (right driver))⟩
        (List.getElem?_set_self (List.getElem?_eq_some_iff.1 hi).1)
      refine hright (h [.step i (some driver), .step i none] t ?_ ?_)
      · simp [Honest]
      · rw [run, Steps.run_cons, hask, Option.bind_some, Steps.run_cons, ht]
        rfl
    · subst hstoring
      obtain ⟨i, hi⟩ := List.mem_iff_getElem?.1 hpc
      obtain ⟨t, ht, hright⟩ := hrepairs i s hi
      refine hright (h [.step i none] t ?_ ?_)
      · simp [Honest]
      · rw [run, Steps.run_cons, ht]
        rfl
  · rintro ⟨hwrong, hnone⟩ acts t - ht
    refine (Steps.run_invariant (fun t : Lookups => t.shared = some (!right driver) ∧
      ∀ pc ∈ t.locals, pc ≠ .asking ∧ pc ≠ .storing (right driver)) ⟨hwrong, hnone⟩ (fun m a u hm h => ?_) ht).1
    obtain ⟨hcache, hpcs⟩ := hm
    have hstep : ∀ i info pc cache pc', a = .step i info → (pc ≠ .asking ∧ pc ≠ .storing (right driver)) →
        Looks info m.shared pc cache pc' →
          cache = some (!right driver) ∧ pc' ≠ .asking ∧ pc' ≠ .storing (right driver) := by
      intro i info pc cache pc' _ hpc hlooks
      cases hlooks with
      | present systemd hc => exact ⟨hcache, nofun, nofun⟩
      | absent hc => rw [hcache] at hc; cases hc
      | answer pc hat => exact ⟨hcache, nofun, nofun⟩
      | ask => exact absurd rfl hpc.1
      | store systemd =>
        refine ⟨congrArg some (Bool.eq_not_of_ne (fun he => hpc.2 (congrArg CachePc.storing he))), nofun, nofun⟩
    refine ⟨?_, holds_of_step (P := fun _ pc => pc ≠ .asking ∧ pc ≠ .storing (right driver)) hpcs h ⟨nofun, nofun⟩
      (fun i info pc cache pc' ha hpc hlooks => ⟨(hstep i info pc cache pc' ha hpc hlooks).2, fun _ => id⟩)⟩
    cases a with
    | call => cases h; exact hcache
    | step i info =>
      obtain ⟨pc, r, hpc, hr, rfl⟩ := Threads.stepAt_eq_some h
      exact (hstep i info pc r.1 r.2 rfl (hpcs pc (List.mem_of_getElem? hpc)) (looks_of_step hr)).1

/-- **What becomes of the global**, from every state that calls can come to: from when on every answer is right, when it
is past repair, and that no call returns without an answer. -/
theorem cache_fate (driver : Text) (acts : List LookupAct) (s : Lookups) (hrun : init.run acts = some s) :
    (RightFromNow driver s ↔ s.shared ≠ some (!right driver) ∧ ∀ pc ∈ s.locals, pc ≠ .storing (!right driver)) ∧
      (WrongForEver driver s ↔
        s.shared = some (!right driver) ∧ ∀ pc ∈ s.locals, pc ≠ .asking ∧ pc ≠ .storing (right driver)) ∧
      ∀ pc ∈ s.locals, pc ≠ .done none := by
  refine ⟨right_from_now_iff driver hrun, wrong_for_ever_iff driver s, fun pc hpc hnone => ?_⟩
  have hsees := sees_of_run hrun pc hpc
  rw [hnone] at hsees
  exact hsees rfl

def twoAsk : List LookupAct := [.call, .call, .step 0 none, .step 1 none, .step 0 none, .step 0 none]

def afterTwoAsk : Lookups := (init.run twoAsk).get (by decide)

/-- **The second call can still put the global right**, and until it does every call returns the wrong answer. -/
theorem cache_fate_twoAsk :
    ¬ RightFromNow "systemd".toList afterTwoAsk ∧ ¬ WrongForEver "systemd".toList afterTwoAsk := by
  obtain ⟨hright, hwrong, -⟩ := cache_fate "systemd".toList twoAsk afterTwoAsk (Option.some_get (by decide)).symm
  rw [hright, hwrong]
  decide

end Lookups

end ControlPlane
end CgroupGuard
