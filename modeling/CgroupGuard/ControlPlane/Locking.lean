import CgroupGuard.ControlPlane.Registration
/-!
# Locking — `_lock` between the threads and the signal handlers

The lock is taken and given up in steps of their own, so that a thread can be found waiting for it.  A signal starts
`_shutdown` on the main thread, over whatever the main thread is at: `stack` has the handler that runs on top of those
it interrupted.  The lock does not know that its holder asks for it.
-/
namespace CgroupGuard
namespace ControlPlane
namespace Locking

inductive Holder where
  | main
  | worker (i : Nat)
  deriving DecidableEq, Repr

/-- The next step is a section of the source under the lock. -/
def locked : Pc → Bool
  | .addCheck => true
  | .addCommit _ => true
  | .removePop => true
  | _ => false

structure Thread where
  worker : Worker
  inside : Bool

/-- Where a call of `_shutdown` is: before the `with` of `flush`, inside it with the snapshot to take, in the loop over
the items of the snapshot, before the second `with`, inside it with the dict to clear, and behind `flush`. -/
inductive Frame where
  | enter
  | snapshot
  | deleting (items : List (Σ _ : String, UInt64))
  | reenter
  | clear
  | close

def Frame.holds : Frame → Bool
  | .snapshot => true
  | .clear => true
  | _ => false

def Frame.waits : Frame → Bool
  | .enter => true
  | .reenter => true
  | _ => false

/-- `sys.exit` has the main thread leave `event_loop`, and the process ends when it has: the threads are daemons. -/
inductive Life where
  | running
  | exiting
  | gone
  deriving DecidableEq, Repr

/-- The main thread is in `event_loop`, or leaving it, under the frames of `stack`. -/
structure State where
  shared : ContainerMap
  lock : Option Holder
  workers : List Thread
  stack : List Frame
  life : Life

def start (m : ContainerMap) : State := ⟨m, none, [], [], .running⟩

/-- `event_loop` starts a thread or a thread goes on, the handler on top goes on, or a signal arrives; `fault` is that a
bpf call fails, if that is the step. -/
inductive Act where
  | call (c : Call) (fault : Bool)
  | main (fault : Bool)
  | signal
  deriving DecidableEq, Repr

def startThread (s : State) (w : Worker) : Option State :=
  if s.stack = [] ∧ s.life = .running then some { s with workers := s.workers ++ [⟨w, false⟩] } else none

/-- The next step of thread `i`: into its `with` if nobody is in one, out of it with the section done, or a step
outside. -/
def stepWorker (s : State) (i : Nat) (resolved : Option UInt64) (fault : Bool) : Option State :=
  s.workers[i]?.bind (fun t =>
    if locked t.worker.pc = true ∧ t.inside = false then
      if s.lock = none then
        some { s with lock := some (.worker i), workers := s.workers.set i { t with inside := true } }
      else none
    else
      (t.worker.step (fun _ => resolved) fault s.shared).map (fun r =>
        { s with
          shared := r.1
          lock := if locked t.worker.pc then none else s.lock
          workers := s.workers.set i ⟨r.2, false⟩ }))

/-- The next step of the handler on top, or the end of the process.  `sys.exit` leaves every frame, and every `with`
on its way. -/
def stepMain (s : State) (fault : Bool) : Option State :=
  match s.stack with
  | [] => if s.life = .exiting then some { s with life := .gone } else none
  | .enter :: below =>
    if s.lock = none then some { s with lock := some .main, stack := .snapshot :: below } else none
  | .snapshot :: below => some { s with lock := none, stack := .deleting s.shared.items :: below }
  | .deleting (item :: items) :: below =>
    some { s with shared := { s.shared with fd := (mapDelete s.shared.fd item.2 fault).1 }
                  stack := .deleting items :: below }
  | .deleting [] :: below => some { s with stack := .reenter :: below }
  | .reenter :: below =>
    if s.lock = none then some { s with lock := some .main, stack := .clear :: below } else none
  | .clear :: below =>
    some { s with shared := { s.shared with store := ∅ }, lock := none, stack := .close :: below }
  | .close :: _ => some { s with lock := if s.lock = some .main then none else s.lock, stack := [], life := .exiting }

def stepAlive (s : State) : Act → Option State
  | .call (.add cid) _ => startThread s (.adding cid)
  | .call (.remove cid) _ => startThread s (.removing cid)
  | .call (.worker i resolved) fault => stepWorker s i resolved fault
  | .main fault => stepMain s fault
  | .signal => some { s with stack := .enter :: s.stack }

def step (s : State) (a : Act) : Option State := if s.life = .gone then none else stepAlive s a

def Waits (s : State) : Holder → Prop
  | .main => ∃ f ∈ s.stack.head?, f.waits = true
  | .worker i => ∃ t ∈ s.workers[i]?, locked t.worker.pc = true ∧ t.inside = false

def SelfDeadlocked (s : State) : Prop := ∃ h, Waits s h ∧ s.lock = some h

/-- If it is a signal, no handler below is in a `with`. -/
def Timely (s : State) (a : Act) : Prop := a = .signal → s.lock ≠ some .main

theorem alive_of_step {s s' : State} {a : Act} (h : step s a = some s') : s.life ≠ .gone ∧ stepAlive s a = some s' := by
  unfold step at h
  split at h
  · cases h
  · rename_i halive
    exact ⟨halive, h⟩

theorem step_of_alive {s : State} (halive : s.life ≠ .gone) (a : Act) : step s a = stepAlive s a := if_neg halive

/-! ## Who has the lock -/

structure Inside (s : State) : Prop where
  main : s.lock = some .main → ∃ f ∈ s.stack.head?, f.holds = true
  worker : ∀ i, s.lock = some (.worker i) → ∃ t ∈ s.workers[i]?, locked t.worker.pc = true ∧ t.inside = true

theorem inside_start (m : ContainerMap) : Inside (start m) := ⟨nofun, nofun⟩

theorem Frame.waits_eq_false : ∀ {f : Frame}, f.holds = true → f.waits = false
  | .snapshot, _ => rfl
  | .clear, _ => rfl

theorem Inside.not_selfDeadlocked {s : State} (hs : Inside s) : ¬ SelfDeadlocked s := by
  rintro ⟨h, hwaits, hlock⟩
  cases h with
  | main =>
    obtain ⟨f, hf, hwait⟩ := hwaits
    obtain ⟨f', hf', hhold⟩ := hs.main hlock
    obtain rfl : f = f' := Option.some.inj (hf.symm.trans hf')
    rw [Frame.waits_eq_false hhold] at hwait
    cases hwait
  | worker i =>
    obtain ⟨t, ht, -, hout⟩ := hwaits
    obtain ⟨t', ht', -, hin⟩ := hs.worker i hlock
    obtain rfl : t = t' := Option.some.inj (ht.symm.trans ht')
    rw [hin] at hout
    cases hout

section
variable {s s' : State}

theorem Inside.startThread {w : Worker} (hs : Inside s) (h : startThread s w = some s') : Inside s' := by
  unfold Locking.startThread at h
  split at h
  · cases h
    refine ⟨hs.main, fun i hi => ?_⟩
    obtain ⟨t, ht, hin⟩ := hs.worker i hi
    exact ⟨t, List.getElem?_append_left (List.getElem?_eq_some_iff.1 ht).1 ▸ ht, hin⟩
  · cases h

theorem Inside.stepWorker {i : Nat} {resolved : Option UInt64} {fault : Bool} (hs : Inside s)
    (h : stepWorker s i resolved fault = some s') : Inside s' := by
  obtain ⟨t, ht, h⟩ := Option.bind_eq_some_iff.1 h
  have hlt := (List.getElem?_eq_some_iff.1 ht).1
  split at h
  · rename_i hwaits
    split at h
    · cases h
      refine ⟨nofun, fun j hj => ?_⟩
      cases hj
      exact ⟨_, List.getElem?_set_self hlt, hwaits.1, rfl⟩
    · cases h
  · obtain ⟨r, -, rfl⟩ := Option.map_eq_some_iff.1 h
    cases hlocked : locked t.worker.pc with
    | true => exact ⟨nofun, nofun⟩
    | false =>
      refine ⟨hs.main, fun j hj => ?_⟩
      obtain ⟨t', ht', hin⟩ := hs.worker j hj
      have hne : i ≠ j := by
        rintro rfl
        obtain rfl : t = t' := Option.some.inj (ht.symm.trans ht')
        rw [hlocked] at hin
        cases hin.1
      exact ⟨t', (List.getElem?_set_ne hne).trans ht', hin⟩

theorem Inside.lock_ne_main {f : Frame} {below : List Frame} (hs : Inside s) (hstack : s.stack = f :: below)
    (hf : f.holds = false) : s.lock ≠ some .main := by
  intro hmain
  obtain ⟨f', hf', hhold⟩ := hs.main hmain
  rw [hstack] at hf'
  obtain rfl := Option.some.inj hf'
  rw [hf] at hhold
  cases hhold

theorem Inside.stepMain {fault : Bool} (hs : Inside s) (h : stepMain s fault = some s') : Inside s' := by
  unfold Locking.stepMain at h
  split at h
  · split at h <;> cases h
    exact ⟨hs.main, hs.worker⟩
  · split at h
    · cases h
      exact ⟨fun _ => ⟨.snapshot, rfl, rfl⟩, nofun⟩
    · cases h
  · cases h
    exact ⟨nofun, nofun⟩
  · rename_i hstack
    cases h
    exact ⟨fun hmain => absurd hmain (hs.lock_ne_main hstack rfl), hs.worker⟩
  · rename_i hstack
    cases h
    exact ⟨fun hmain => absurd hmain (hs.lock_ne_main hstack rfl), hs.worker⟩
  · split at h
    · cases h
      exact ⟨fun _ => ⟨.clear, rfl, rfl⟩, nofun⟩
    · cases h
  · cases h
    exact ⟨nofun, nofun⟩
  · cases h
    refine ⟨fun hmain => ?_, fun i hi => ?_⟩
    · dsimp only at hmain
      split at hmain
      · cases hmain
      · rename_i hnot
        exact absurd hmain hnot
    · dsimp only at hi
      split at hi
      · cases hi
      · exact hs.worker i hi

theorem Inside.step {a : Act} (hs : Inside s) (ha : Timely s a) (h : step s a = some s') : Inside s' := by
  obtain ⟨-, h⟩ := alive_of_step h
  cases a with
  | call c fault =>
    cases c with
    | add cid => exact hs.startThread h
    | remove cid => exact hs.startThread h
    | worker i resolved => exact hs.stepWorker h
  | main fault => exact hs.stepMain h
  | signal =>
    cases h
    exact ⟨fun hmain => absurd hmain (ha rfl), hs.worker⟩

end

theorem inside_of_run (m : ContainerMap) : ∀ (acts : List Act) (s : State), Steps.Always step Timely (start m) acts →
    Steps.run step (start m) acts = some s → Inside s :=
  Steps.always_induction (fun _ s => Inside s) (inside_start m) (fun _ _ _ _ _ hs ha h => hs.step ha h)

/-- What a thread leaves as it is: the main thread, which does not come to have the lock by it. -/
theorem main_of_stepWorker {s s' : State} {i : Nat} {resolved : Option UInt64} {fault : Bool}
    (h : stepWorker s i resolved fault = some s') :
    s'.stack = s.stack ∧ s'.life = s.life ∧ (s'.lock = some .main → s.lock = some .main) := by
  obtain ⟨t, -, h⟩ := Option.bind_eq_some_iff.1 h
  split at h
  · split at h <;> cases h
    exact ⟨rfl, rfl, nofun⟩
  · obtain ⟨r, -, rfl⟩ := Option.map_eq_some_iff.1 h
    refine ⟨rfl, rfl, fun hmain => ?_⟩
    dsimp only at hmain
    split at hmain
    · cases hmain
    · exact hmain

/-- The main thread has the lock in a handler only, and then the process is there. -/
def Held (s : State) : Prop := s.lock = some .main → s.stack ≠ [] ∧ s.life ≠ .gone

theorem Held.stepAlive {s s' : State} {a : Act} (hs : Held s) (halive : s.life ≠ .gone) (h : stepAlive s a = some s') :
    Held s' := by
  have hstart : ∀ {w : Worker}, startThread s w = some s' → Held s' := fun h => by
    obtain ⟨-, he⟩ := Option.ite_none_right_eq_some.1 h
    cases he
    exact hs
  cases a with
  | call c fault =>
    cases c with
    | add cid => exact hstart h
    | remove cid => exact hstart h
    | worker i resolved =>
      obtain ⟨hstack, hlife, hlock⟩ := main_of_stepWorker h
      intro hmain
      rw [hstack, hlife]
      exact hs (hlock hmain)
  | main fault =>
    have hstep : stepMain s fault = some s' := h
    unfold stepMain at hstep
    split at hstep
    case h_1 hstack =>
      split at hstep <;> cases hstep
      exact fun hmain => absurd hstack (hs hmain).1
    case h_2 => split at hstep <;> cases hstep; exact fun _ => ⟨nofun, halive⟩
    case h_6 => split at hstep <;> cases hstep; exact fun _ => ⟨nofun, halive⟩
    case h_8 =>
      cases hstep
      intro hmain
      dsimp only at hmain
      split at hmain
      · cases hmain
      · rename_i hnot
        exact absurd hmain hnot
    all_goals cases hstep; exact fun _ => ⟨nofun, halive⟩
  | signal =>
    cases h
    exact fun _ => ⟨nofun, halive⟩

theorem Held.step {s s' : State} {a : Act} (hs : Held s) (h : step s a = some s') : Held s' :=
  hs.stepAlive (alive_of_step h).1 (alive_of_step h).2

theorem held_of_run (m : ContainerMap) {acts : List Act} {s : State} (hrun : Steps.run step (start m) acts = some s) :
    Held s :=
  Steps.run_invariant Held (fun h => by cases h) (fun _ _ _ hs h => hs.step h) hrun

/-- **No thread comes to wait for the lock it holds exactly when no signal arrives while the main thread has it**,
whatever the threads do: in every state the acts lead to, the one after the last of them included. -/
theorem no_self_deadlock_iff (m : ContainerMap) (acts : List Act) :
    (∀ pre post s, acts = pre ++ post → Steps.run step (start m) pre = some s → ¬ SelfDeadlocked s) ↔
      Steps.Always step Timely (start m) acts := by
  constructor
  · intro h
    refine Steps.always_of_forall (fun pre a post s hacts hrun ha hmain => ?_)
    subst ha
    have hsignal : Steps.run step (start m) (pre ++ [.signal]) = some { s with stack := .enter :: s.stack } := by
      refine Steps.run_append_of_run hrun ?_
      rw [Steps.run_cons, step_of_alive (held_of_run m hrun hmain).2]
      rfl
    have hwaits : Waits { s with stack := .enter :: s.stack } .main := ⟨.enter, rfl, rfl⟩
    refine h (pre ++ [.signal]) post _ ?_ hsignal ⟨.main, hwaits, hmain⟩
    rw [hacts, List.append_assoc, List.singleton_append]
  · rintro h pre post s rfl hrun
    exact (inside_of_run m pre s h.left hrun).not_selfDeadlocked

/-- **A second signal while the first handler takes its snapshot** ends in a main thread that never goes on. -/
theorem second_signal : ∃ s,
    Steps.run step (start (ContainerMap.init BoundedMap.empty)) [.signal, .main false, .signal] = some s ∧
      SelfDeadlocked s ∧ ∀ fault, step s (.main fault) = none := by
  refine ⟨⟨ContainerMap.init BoundedMap.empty, some .main, [], [.enter, .snapshot], .running⟩, rfl, ?_, fun _ => rfl⟩
  exact ⟨.main, ⟨.enter, rfl, rfl⟩, rfl⟩

/-! ## The sections are the steps of the pool -/

def State.pool (s : State) : Pool := ⟨s.shared, s.workers.map Thread.worker⟩

theorem pool_set (s : State) (m : ContainerMap) (lock : Option Holder) (i : Nat) (t : Thread) :
    State.pool { s with shared := m, lock := lock, workers := s.workers.set i t } =
      ⟨m, s.pool.locals.set i t.worker⟩ := by
  rw [State.pool, List.map_set]
  rfl

theorem pool_of_stepWorker {s s' : State} {i : Nat} {resolved : Option UInt64} {fault : Bool}
    (h : stepWorker s i resolved fault = some s') :
    s'.pool = s.pool ∨ s.pool.step fault (.worker i resolved) = some s'.pool := by
  obtain ⟨t, ht, h⟩ := Option.bind_eq_some_iff.1 h
  have hworker : s.pool.locals[i]? = some t.worker := by
    rw [State.pool, List.getElem?_map, ht]
    rfl
  split at h
  · split at h
    · cases h
      obtain ⟨hlt, hget⟩ := List.getElem?_eq_some_iff.1 hworker
      refine .inl ((pool_set s s.shared _ i _).trans ?_)
      rw [← hget, List.set_getElem_self]
      rfl
    · cases h
  · obtain ⟨r, hr, rfl⟩ := Option.map_eq_some_iff.1 h
    rw [pool_set]
    exact .inr (Threads.stepAt_of_step hworker hr)

theorem pool_of_startThread {s s' : State} {w : Worker} (h : startThread s w = some s') :
    s'.pool = ⟨s.shared, s.pool.locals ++ [w]⟩ := by
  unfold startThread at h
  split at h
  · cases h
    rw [State.pool, List.map_append]
    rfl
  · cases h

/-- **As long as no handler runs, the threads under the lock do what the pool does**, whose steps are whole sections. -/
theorem exists_run_pool (m : ContainerMap) : ∀ (acts : List Act) (s : State),
    Steps.run step (start m) acts = some s → (∀ fault, .main fault ∉ acts) →
      ∃ os, Steps.run Pool.attempt ⟨m, []⟩ os = some s.pool := by
  refine Steps.run_induction _ (fun _ => ⟨[], rfl⟩) (fun acts s a s' _ ih ha hmain => ?_)
  obtain ⟨os, hos⟩ := ih (fun fault hmem => hmain fault (List.mem_append_left _ hmem))
  have hstep : s'.pool = s.pool ∨ ∃ o, Pool.attempt s.pool o = some s'.pool := by
    obtain ⟨-, ha⟩ := alive_of_step ha
    cases a with
    | call c fault =>
      cases c with
      | add cid => exact .inr ⟨⟨.add cid, fault⟩, (congrArg some (pool_of_startThread ha)).symm⟩
      | remove cid => exact .inr ⟨⟨.remove cid, fault⟩, (congrArg some (pool_of_startThread ha)).symm⟩
      | worker i resolved => exact (pool_of_stepWorker ha).imp_right (fun h => ⟨⟨.worker i resolved, fault⟩, h⟩)
    | main fault => exact absurd (List.mem_append_right _ (List.mem_singleton_self _)) (hmain fault)
    | signal => cases ha; exact .inl rfl
  rcases hstep with heq | ⟨o, ho⟩
  · exact ⟨os, heq ▸ hos⟩
  · exact ⟨os ++ [o], Steps.run_append_of_run hos (by rw [Steps.run_cons, ho]; rfl)⟩

end Locking
end ControlPlane
end CgroupGuard
