import CgroupGuard.ControlPlane.Registration
import CgroupGuard.ControlPlane.Shutdown
import CgroupGuard.Lib.Linearizable
/-!
# Linearization — `_store` as if one thread used it

`add`, `remove` and the one `flush` of `_shutdown`, with any result of `resolve_cgid` and of each bpf call.  An `add`
takes effect where it finds the id, fails or stores it, a `remove` where it pops, `flush` where it clears.  In that
order the calls do to `_store` what they would one after the other (`linearizable`).  This is about `_store` only: the
deletion of a `remove` comes after its effect, and the map is behind in between.
-/
namespace CgroupGuard
namespace ControlPlane

open Linearizable (Object Stage marksOf order)

abbrev Store := AList (fun _ : String => UInt64)

inductive RegistryOp where
  | add (cid : String)
  | remove (cid : String)
  | flush
  deriving DecidableEq, Repr

/-- What a call does to `_store`, and the cgroup id it stores or pops.  An `add` that stores nothing found its id there,
or `resolve_cgid` or `map_insert` failed it, if they may. -/
inductive RegistryEffect (mayFail : Prop) : Store → RegistryOp → Option UInt64 → Store → Prop
  | added (s : Store) (cid : String) (cgid : UInt64) (h : cid ∉ s) :
    RegistryEffect mayFail s (.add cid) (some cgid) (s.insert cid cgid)
  | present (s : Store) (cid : String) (h : cid ∈ s) : RegistryEffect mayFail s (.add cid) none s
  | failed (s : Store) (cid : String) (h : mayFail) : RegistryEffect mayFail s (.add cid) none s
  | popped (s : Store) (cid : String) (cgid : UInt64) (h : s.lookup cid = some cgid) :
    RegistryEffect mayFail s (.remove cid) (some cgid) (s.erase cid)
  | unknown (s : Store) (cid : String) (h : s.lookup cid = none) : RegistryEffect mayFail s (.remove cid) none s
  | flushed (s : Store) : RegistryEffect mayFail s .flush none ∅

/-- What is returned: an `add` says whether it stored, a `remove` does not return true without popping. -/
def registryAnswer : RegistryOp → Option UInt64 → Bool → Prop
  | .add _, out, res => res = out.isSome
  | .remove _, out, res => res = true → out.isSome = true
  | .flush, _, _ => True

def registry (mayFail : Prop) : Object Store RegistryOp (Option UInt64) Bool where
  effect := RegistryEffect mayFail
  answer := registryAnswer

/-- A call begins or goes on, or `_shutdown` takes its next step; `fault` is that the bpf call of the step fails. -/
inductive Move where
  | call (o : Outcome)
  | shutdown (fault : Bool)
  deriving DecidableEq, Repr

abbrev CallId := Option Nat

abbrev RegistryMark := Linearizable.Mark CallId RegistryOp (Option UInt64) Bool

/-- What the next step of the call `i` marks. -/
def Worker.registryMarks (resolved : Option UInt64) (fault : Bool) (m : ContainerMap) (i : Nat) (w : Worker) :
    List RegistryMark :=
  match w.pc with
  | .addCheck => if w.cid ∈ m.store then [.effect (some i) (.add w.cid) none, .ret (some i) false] else []
  | .addResolve =>
    match resolved with
    | none => [.effect (some i) (.add w.cid) none, .ret (some i) false]
    | some _ => []
  | .addCommit cgid =>
    if w.cid ∉ m.store ∧ (mapInsert m.fd cgid fault).2 = true then
      [.effect (some i) (.add w.cid) (some cgid), .ret (some i) true]
    else [.effect (some i) (.add w.cid) none, .ret (some i) false]
  | .removePop =>
    match m.store.lookup w.cid with
    | none => [.effect (some i) (.remove w.cid) none, .ret (some i) false]
    | some cgid => [.effect (some i) (.remove w.cid) (some cgid)]
  | .removeDelete cgid => [.ret (some i) (mapDelete m.fd cgid fault).2]
  | .done _ => []

def Worker.stage (w : Worker) : Stage RegistryOp (Option UInt64) :=
  match w.pc with
  | .addCheck => .called (.add w.cid)
  | .addResolve => .called (.add w.cid)
  | .addCommit _ => .called (.add w.cid)
  | .removePop => .called (.remove w.cid)
  | .removeDelete cgid => .taken (.remove w.cid) (some cgid)
  | .done _ => .returned

def Worker.Unfailing (resolved : Option UInt64) (fault : Bool) (m : ContainerMap) (w : Worker) : Bool :=
  match w.pc with
  | .addResolve => resolved.isSome
  | .addCommit cgid => (mapInsert m.fd cgid fault).2
  | _ => true

def Flush.stage : Flush → Stage RegistryOp (Option UInt64)
  | .idle => .idle
  | .deleting _ => .called .flush
  | .cleared => .returned
  | .closed => .returned

namespace Process

def fresh (fd : CgroupFilter) : Process := ⟨Pool.fresh fd, .idle⟩

def attempt (s : Process) : Move → Option Process
  | .call o => (s.pool.step (o.fault || s.flush.isClosed) o.call).map ({ s with pool := · })
  | .shutdown fault =>
    match s.flush with
    | .idle => some { s with flush := .deleting s.pool.shared.items }
    | .deleting (item :: items) =>
      let fd := (mapDelete s.fd item.2 fault).1
      some { pool := { s.pool with shared := { s.pool.shared with fd := fd } }, flush := .deleting items }
    | .deleting [] =>
      some { pool := { s.pool with shared := { s.pool.shared with store := ∅ } }, flush := .cleared }
    | .cleared => some { s with flush := .closed }
    | .closed => none

/-- **Without faults it is the step of `Shutdown`.** -/
theorem attempt_eq_step (s : Process) (a : Turn) :
    s.step a = s.attempt (match a with | .call c => .call ⟨c, false⟩ | .shutdown => .shutdown false) := by
  cases a with
  | call c => simp only [step, attempt, Bool.false_or]
  | shutdown =>
    obtain ⟨pool, flush⟩ := s
    cases flush with
    | deleting items => cases items <;> rfl
    | _ => rfl

def registryMarks (s : Process) : Move → List RegistryMark
  | .call ⟨.add cid, _⟩ => [.call (some s.pool.locals.length) (.add cid)]
  | .call ⟨.remove cid, _⟩ => [.call (some s.pool.locals.length) (.remove cid)]
  | .call ⟨.worker i resolved, fault⟩ =>
    (s.pool.locals[i]?.map (Worker.registryMarks resolved (fault || s.flush.isClosed) s.pool.shared i)).getD []
  | .shutdown _ =>
    match s.flush with
    | .idle => [.call none .flush]
    | .deleting [] => [.effect none .flush none, .ret none true]
    | _ => []

def registryTrace (fd : CgroupFilter) (moves : List Move) : List RegistryMark :=
  Steps.outputs attempt registryMarks (fresh fd) moves

def Unfailing (s : Process) : Move → Prop
  | .call ⟨.worker i resolved, fault⟩ =>
    ∀ w ∈ s.pool.locals[i]?, w.Unfailing resolved (fault || s.flush.isClosed) s.pool.shared = true
  | _ => True

instance (s : Process) : ∀ mv : Move, Decidable (s.Unfailing mv)
  | .call ⟨.worker i resolved, fault⟩ => Option.decidableForallMem
    (p := fun w : Worker => w.Unfailing resolved (fault || s.flush.isClosed) s.pool.shared = true) s.pool.locals[i]?
  | .call ⟨.add _, _⟩ => inferInstanceAs (Decidable True)
  | .call ⟨.remove _, _⟩ => inferInstanceAs (Decidable True)
  | .shutdown _ => inferInstanceAs (Decidable True)

def stage (s : Process) : CallId → Stage RegistryOp (Option UInt64)
  | some i => (s.pool.locals[i]?.map Worker.stage).getD .idle
  | none => s.flush.stage

end Process

/-! ## What a step marks -/

section
variable {resolve : String → Option UInt64} {fault : Bool} {m m' : ContainerMap} {cid : String} {pc pc' : Pc}

theorem id_of_mem_registryMarks {resolved : Option UInt64} {i : Nat} {w : Worker} {mk : RegistryMark}
    (h : mk ∈ w.registryMarks resolved fault m i) : mk.id = some i := by
  unfold Worker.registryMarks at h
  split at h
  · split at h <;> simp at h
    rcases h with rfl | rfl <;> rfl
  · split at h <;> simp at h
    rcases h with rfl | rfl <;> rfl
  · split at h <;> simp at h <;> rcases h with rfl | rfl <;> rfl
  · split at h <;> simp at h
    · rcases h with rfl | rfl <;> rfl
    · subst h
      rfl
  · simp at h
    subst h
    rfl
  · cases h

theorem not_stored_of_refused {cgid : UInt64} (h : cid ∈ m.store ∨ mapInsert m.fd cgid fault = (m.fd, false)) :
    ¬ (cid ∉ m.store ∧ (mapInsert m.fd cgid fault).2 = true) := by
  rintro ⟨hmem, hok⟩
  rcases h with h | h
  · exact hmem h
  · rw [h] at hok
    cases hok

theorem conduct_of_moves {mayFail : Prop} (h : Moves resolve fault m cid pc m' pc') (i : Nat) {ms : List RegistryMark}
    (hms : (registry mayFail).Conduct (some i) ms (Worker.stage ⟨cid, pc⟩)) :
    (registry mayFail).Conduct (some i) (ms ++ Worker.registryMarks (resolve cid) fault m i ⟨cid, pc⟩)
      (Worker.stage ⟨cid, pc'⟩) := by
  cases h with
  | present _ hadd hmem =>
    rcases hadd with rfl | ⟨cgid, rfl⟩
    · simp only [Worker.registryMarks, if_pos hmem]
      cases hms
      exact .returned _ _ _ rfl
    · simp only [Worker.registryMarks, if_neg (not_stored_of_refused (.inl hmem))]
      cases hms
      exact .returned _ _ _ rfl
  | absent hmem =>
    simp only [Worker.registryMarks, if_neg hmem, List.append_nil]
    exact hms
  | unresolved hr =>
    simp only [Worker.registryMarks, hr]
    cases hms
    exact .returned _ _ _ rfl
  | resolved cgid hr =>
    simp only [Worker.registryMarks, hr, List.append_nil]
    exact hms
  | refused cgid hmem hins =>
    simp only [Worker.registryMarks, if_neg (not_stored_of_refused (.inr hins))]
    cases hms
    exact .returned _ _ _ rfl
  | commit cgid fd hmem hins =>
    have hok : (mapInsert m.fd cgid fault).2 = true := by rw [hins]
    simp only [Worker.registryMarks, if_pos (And.intro hmem hok)]
    cases hms
    exact .returned _ _ _ rfl
  | unknown hl =>
    simp only [Worker.registryMarks, hl]
    cases hms
    exact .returned _ _ _ nofun
  | pop cgid hl =>
    simp only [Worker.registryMarks, hl]
    cases hms
    exact .taken _ _
  | delete cgid fd ok hdel =>
    simp only [Worker.registryMarks]
    cases hms
    exact .returned _ _ _ (fun _ => rfl)

theorem sequential_of_moves {mayFail : Prop} (h : Moves resolve fault m cid pc m' pc') (i : Nat)
    (hfail : mayFail ∨ Worker.Unfailing (resolve cid) fault m ⟨cid, pc⟩ = true) :
    (registry mayFail).Sequential m.store
      (order (Worker.registryMarks (resolve cid) fault m i ⟨cid, pc⟩)) m'.store := by
  cases h with
  | present _ hadd hmem =>
    rcases hadd with rfl | ⟨cgid, rfl⟩
    · simp only [Worker.registryMarks, if_pos hmem]
      exact ⟨_, .present _ _ hmem, rfl⟩
    · simp only [Worker.registryMarks, if_neg (not_stored_of_refused (.inl hmem))]
      exact ⟨_, .present _ _ hmem, rfl⟩
  | absent hmem =>
    simp only [Worker.registryMarks, if_neg hmem]
    rfl
  | unresolved hr =>
    simp only [Worker.registryMarks, hr]
    refine ⟨_, .failed _ _ (hfail.resolve_right ?_), rfl⟩
    simp [Worker.Unfailing, hr]
  | resolved cgid hr =>
    simp only [Worker.registryMarks, hr]
    rfl
  | refused cgid hmem hins =>
    simp only [Worker.registryMarks, if_neg (not_stored_of_refused (.inr hins))]
    refine ⟨_, .failed _ _ (hfail.resolve_right ?_), rfl⟩
    simp [Worker.Unfailing, hins]
  | commit cgid fd hmem hins =>
    have hok : (mapInsert m.fd cgid fault).2 = true := by rw [hins]
    simp only [Worker.registryMarks, if_pos (And.intro hmem hok)]
    exact ⟨_, .added _ _ _ hmem, rfl⟩
  | unknown hl =>
    simp only [Worker.registryMarks, hl]
    exact ⟨_, .unknown _ _ hl, rfl⟩
  | pop cgid hl =>
    simp only [Worker.registryMarks, hl]
    exact ⟨_, .popped _ _ _ hl, rfl⟩
  | delete cgid fd ok hdel =>
    simp only [Worker.registryMarks]
    rfl

end

namespace Process

variable {mayFail : Prop} {s t : Process}

theorem stage_begin (p : Pool) (flush : Flush) (w : Worker) (i : Nat) :
    stage ⟨{ p with locals := p.locals ++ [w] }, flush⟩ (some i) =
      if i = p.locals.length then w.stage else stage ⟨p, flush⟩ (some i) := by
  show ((p.locals ++ [w])[i]?.map Worker.stage).getD .idle =
    if i = p.locals.length then w.stage else (p.locals[i]?.map Worker.stage).getD .idle
  rcases Nat.lt_trichotomy i p.locals.length with hlt | rfl | hgt
  · rw [if_neg (Nat.ne_of_lt hlt), List.getElem?_append_left hlt]
  · rw [if_pos rfl, List.getElem?_append_right (Nat.le_refl _), Nat.sub_self]
    rfl
  · rw [if_neg (Nat.ne_of_gt hgt), List.getElem?_eq_none (by simp; omega), List.getElem?_eq_none (Nat.le_of_lt hgt)]

theorem conduct_begin {w : Worker} {op : RegistryOp} (hw : w.stage = .called op) (id : CallId) {ms : List RegistryMark}
    (hms : (registry mayFail).Conduct id ms (s.stage id)) :
    (registry mayFail).Conduct id (ms ++ marksOf id [.call (some s.pool.locals.length) op])
      (stage ⟨{ s.pool with locals := s.pool.locals ++ [w] }, s.flush⟩ id) := by
  cases id with
  | none =>
    rw [Linearizable.marksOf_eq_nil (by simp [Linearizable.Mark.id]), List.append_nil]
    exact hms
  | some i =>
    rw [stage_begin]
    split
    · rename_i hi
      subst hi
      have hidle : s.stage (some s.pool.locals.length) = .idle := by simp [stage]
      rw [hidle] at hms
      cases hms
      rw [Linearizable.marksOf_eq_self (by simp [Linearizable.Mark.id]), hw]
      exact .called op
    · rename_i hi
      rw [Linearizable.marksOf_eq_nil (by simpa [Linearizable.Mark.id] using Ne.symm hi), List.append_nil]
      exact hms

/-- **A step of the process takes every call from one stage to the next.** -/
theorem conduct_of_attempt {mv : Move} (h : s.attempt mv = some t) (id : CallId) {ms : List RegistryMark}
    (hms : (registry mayFail).Conduct id ms (s.stage id)) :
    (registry mayFail).Conduct id (ms ++ marksOf id (s.registryMarks mv)) (t.stage id) := by
  cases mv with
  | call o =>
    obtain ⟨call, fault⟩ := o
    obtain ⟨q, hq, rfl⟩ := Option.map_eq_some_iff.1 h
    cases call with
    | add cid =>
      cases hq
      exact conduct_begin (w := .adding cid) rfl id hms
    | remove cid =>
      cases hq
      exact conduct_begin (w := .removing cid) rfl id hms
    | worker i resolved =>
      obtain ⟨⟨cid, pc⟩, ⟨m, ⟨cid', pc'⟩⟩, hw, hr, rfl⟩ := Threads.stepAt_eq_some hq
      obtain ⟨hcid, hm⟩ := moves_of_step hr
      obtain rfl : cid' = cid := hcid
      simp only [registryMarks, hw, Option.map_some, Option.getD_some]
      by_cases hid : id = some i
      · subst hid
        have hlt := (List.getElem?_eq_some_iff.1 hw).1
        rw [Linearizable.marksOf_eq_self (fun mk hmk => id_of_mem_registryMarks hmk)]
        simp only [stage, hw, Option.map_some, Option.getD_some] at hms
        simp only [stage, List.getElem?_set_self hlt, Option.map_some, Option.getD_some]
        exact conduct_of_moves hm i hms
      · have hkept : stage { s with pool := ⟨m, s.pool.locals.set i ⟨cid', pc'⟩⟩ } id = s.stage id := by
          cases id with
          | none => rfl
          | some j =>
            have hne : i ≠ j := fun he => hid (congrArg some he.symm)
            simp only [stage, List.getElem?_set_ne hne]
        rw [Linearizable.marksOf_eq_nil (fun mk hmk he => hid (he.symm.trans (id_of_mem_registryMarks hmk))),
          List.append_nil, hkept]
        exact hms
  | shutdown fault =>
    obtain ⟨pool, flush⟩ := s
    cases id with
    | some i =>
      have hnil : marksOf (some i) (registryMarks ⟨pool, flush⟩ (.shutdown fault)) = [] :=
        Linearizable.marksOf_eq_nil (fun mk hmk => by
          cases flush with
          | deleting items => cases items <;> simp [registryMarks] at hmk; rcases hmk with rfl | rfl <;> exact nofun
          | idle => simp [registryMarks] at hmk; subst hmk; exact nofun
          | _ => cases hmk)
      rw [hnil, List.append_nil]
      cases flush with
      | deleting items => cases items <;> cases h <;> exact hms
      | _ => cases h <;> exact hms
    | none =>
      rw [Linearizable.marksOf_eq_self (fun mk hmk => by
        cases flush with
        | deleting items => cases items <;> simp [registryMarks] at hmk; rcases hmk with rfl | rfl <;> rfl
        | idle => simp [registryMarks] at hmk; subst hmk; rfl
        | _ => cases hmk)]
      cases flush with
      | idle => cases h; cases hms; exact .called _
      | deleting items =>
        cases items with
        | nil => cases h; cases hms; exact .returned _ _ _ trivial
        | cons item items =>
          cases h
          rw [show registryMarks _ _ = [] from rfl, List.append_nil]
          exact hms
      | cleared =>
        cases h
        rw [show registryMarks _ _ = [] from rfl, List.append_nil]
        exact hms
      | closed => cases h

/-- **A step of the process does to `_store` what it marks.** -/
theorem sequential_of_attempt {mv : Move} (h : s.attempt mv = some t) (hfail : mayFail ∨ s.Unfailing mv) :
    (registry mayFail).Sequential s.pool.store (order (s.registryMarks mv)) t.pool.store := by
  cases mv with
  | call o =>
    obtain ⟨call, fault⟩ := o
    obtain ⟨q, hq, rfl⟩ := Option.map_eq_some_iff.1 h
    cases call with
    | add cid => cases hq; rfl
    | remove cid => cases hq; rfl
    | worker i resolved =>
      obtain ⟨⟨cid, pc⟩, ⟨m, ⟨cid', pc'⟩⟩, hw, hr, rfl⟩ := Threads.stepAt_eq_some hq
      obtain ⟨-, hm⟩ := moves_of_step hr
      simp only [registryMarks, hw, Option.map_some, Option.getD_some]
      exact sequential_of_moves hm i (hfail.imp_right (fun hall => hall ⟨cid, pc⟩ hw))
  | shutdown fault =>
    obtain ⟨pool, flush⟩ := s
    cases flush with
    | deleting items =>
      cases items with
      | nil => cases h; exact ⟨_, .flushed _, rfl⟩
      | cons item items => cases h; rfl
    | idle => cases h; rfl
    | cleared => cases h; rfl
    | closed => cases h

/-- **`add`, `remove` and `flush` are linearizable**: what the calls of a run do to `_store` and return, whatever the
interleaving and whatever fails, they do and return one after the other in an order in which a call that returned
before another began comes first; and where nothing fails an `add`, it returns false in that order only on an id that
is there. -/
theorem linearizable (fd : CgroupFilter) (moves : List Move) (s : Process)
    (hrun : Steps.run attempt (fresh fd) moves = some s) (mayFail : Prop)
    (hfail : mayFail ∨ Steps.Always attempt Unfailing (fresh fd) moves) :
    ∃ order, (registry mayFail).Linearization ∅ s.pool.store (Linearizable.history (registryTrace fd moves)) order := by
  have htrace : ∀ as m a, Steps.run attempt (fresh fd) as = some m →
      registryTrace fd (as ++ [a]) = registryTrace fd as ++ m.registryMarks a := fun as m a hm =>
    Steps.outputs_concat registryMarks as a hm
  have hconduct : ∀ id, (registry mayFail).Conduct id (marksOf id (registryTrace fd moves)) (s.stage id) := by
    refine Steps.run_induction (fun as m => ∀ id, (registry mayFail).Conduct id (marksOf id (registryTrace fd as))
      (m.stage id)) (fun id => ?_) (fun as m a t hm ih ha id => ?_) moves s hrun
    · cases id <;> exact .idle
    · rw [htrace as m a hm, marksOf, List.filter_append]
      exact conduct_of_attempt ha id (ih id)
  have hseq : (registry mayFail).Sequential ∅ (order (registryTrace fd moves)) s.pool.store := by
    have hall : Steps.Always attempt (fun s mv => mayFail ∨ s.Unfailing mv) (fresh fd) moves := by
      rcases hfail with h | h
      · exact Steps.always_of_forall (fun _ _ _ _ _ _ => .inl h)
      · exact h.imp (fun _ _ => .inr)
    refine Steps.always_induction (s := fresh fd)
      (fun as (m : Process) => (registry mayFail).Sequential ∅ (order (registryTrace fd as)) m.pool.store)
      rfl (fun as m a t hm ih ha ht => ?_) moves s hall hrun
    rw [htrace as m a hm, order, List.filterMap_append]
    exact ih.append (sequential_of_attempt ht ha)
  exact ⟨_, Linearizable.linearization_of_conduct (fun id => ⟨_, hconduct id⟩) hseq⟩

/-- Two starts of one container are handled at once; a `remove` pops between the snapshot and the clearing of `flush`,
and the deletion of `flush` comes first. -/
def shuttingDown : List Move :=
  [.call ⟨.add "4f0c9d2e7a1b", false⟩, .call ⟨.add "4f0c9d2e7a1b", false⟩, .call ⟨.worker 0 none, false⟩,
    .call ⟨.worker 1 none, false⟩, .call ⟨.worker 1 (some 5), false⟩, .call ⟨.worker 1 none, false⟩,
    .call ⟨.worker 0 (some 5), false⟩, .call ⟨.worker 0 none, false⟩, .shutdown false,
    .call ⟨.remove "4f0c9d2e7a1b", false⟩,
    .call ⟨.worker 2 none, false⟩, .shutdown false, .shutdown false, .call ⟨.worker 2 none, false⟩]

theorem linearizable_shuttingDown :
    Linearizable.history (registryTrace BoundedMap.empty shuttingDown) =
        [.call (some 0) (.add "4f0c9d2e7a1b"), .call (some 1) (.add "4f0c9d2e7a1b"), .ret (some 1) true,
          .ret (some 0) false, .call none .flush, .call (some 2) (.remove "4f0c9d2e7a1b"), .ret none true,
          .ret (some 2) false] ∧
      ∃ order, (registry False).Linearization ∅ ∅ (Linearizable.history (registryTrace BoundedMap.empty shuttingDown))
        order := by
  have hrun : Steps.run attempt (fresh BoundedMap.empty) shuttingDown =
      some ((Steps.run attempt (fresh BoundedMap.empty) shuttingDown).get (by decide)) := (Option.some_get _).symm
  have hunfailing : Steps.Always attempt Unfailing (fresh BoundedMap.empty) shuttingDown := by decide
  exact ⟨by decide, linearizable BoundedMap.empty shuttingDown _ hrun False (.inr hunfailing)⟩

end Process

end ControlPlane
end CgroupGuard
