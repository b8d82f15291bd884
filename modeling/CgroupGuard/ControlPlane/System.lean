import CgroupGuard.ControlPlane.Docker
import CgroupGuard.ControlPlane.Registry
/-!
# System — the control plane beside Docker

`main` takes the `docker ps` snapshot and starts one `add` for each id it prints, joins them, subscribes to
`docker events`, and then reads line after line and starts a thread for each.  Docker goes on all the while, and the
threads interleave.  An event is printed when the subscription is there; the lines of one container are read in order.
-/
namespace CgroupGuard
namespace ControlPlane

inductive Phase where
  | ps
  | join
  | subscribe
  | loop
  deriving DecidableEq, Repr

structure System where
  docker : Docker
  phase : Phase
  pipe : List Event
  threads : Threads ContainerMap Worker

inductive Act where
  | happen (h : Happening)
  | main
  | read (n : Nat)
  | worker (i : Nat)
  deriving DecidableEq, Repr

namespace System

abbrev fd (s : System) : CgroupFilter := s.threads.shared.fd

abbrev store (s : System) : AList (fun _ : String => UInt64) := s.threads.shared.store

abbrev workers (s : System) : List Worker := s.threads.locals

end System

/-- The control plane as `main` begins, over the map pinned at the path if there is one. -/
def System.boot (d : Docker) (pinned : Option CgroupFilter) : System :=
  { docker := d
    phase := .ps
    pipe := []
    threads := ⟨ContainerMap.init (mapEnsure pinned), []⟩ }

/-- The thread `event_loop` starts for a line. -/
def Event.worker (e : Event) : Worker :=
  match e.action with
  | .start => .adding e.id.id
  | .die => .removing e.id.id
  | .stop => .removing e.id.id
  | .destroy => .removing e.id.id

theorem Event.worker_eq (e : Event) :
    e.worker = if e.action = .start then .adding e.id.id else .removing e.id.id := by
  unfold Event.worker
  cases e.action <;> rfl

def System.step (s : System) : Act → Option System
  | .happen h =>
    match s.docker.step h with
    | none => none
    | some d => some { s with docker := d, pipe := if s.phase = .loop then s.pipe ++ [h.event] else s.pipe }
  | .main =>
    match s.phase with
    | .ps =>
      some { s with phase := .join
                    threads := { s.threads with locals := s.threads.locals ++ s.docker.ps.map Worker.adding } }
    | .join => if s.workers.all Worker.isDone then some { s with phase := .subscribe } else none
    | .subscribe => some { s with phase := .loop }
    | .loop => none
  | .read n =>
    match s.pipe[n]? with
    | none => none
    | some e =>
      if s.phase = .loop ∧ ∀ e' ∈ s.pipe.take n, e'.id ≠ e.id then
        some { s with pipe := s.pipe.eraseIdx n
                      threads := { s.threads with locals := s.threads.locals ++ [e.worker] } }
      else none
  | .worker i => (Threads.stepAt (Worker.step s.docker.resolveCgid false) s.threads i).map ({ s with threads := · })

abbrev System.run (s : System) (acts : List Act) : Option System := Steps.run System.step s acts

theorem eq_or_mem_eraseIdx {pipe : List Event} {n : Nat} {e e' : Event} (he : pipe[n]? = some e) (he' : e' ∈ pipe) :
    e' = e ∨ e' ∈ pipe.eraseIdx n := by
  by_cases heq : e' = e
  · exact .inl heq
  · obtain ⟨j, hj⟩ := List.mem_iff_getElem?.1 he'
    have hjn : j ≠ n := fun hjn => heq (Option.some.inj (hj.symm.trans (hjn ▸ he)))
    exact .inr (List.mem_eraseIdx_iff_getElem?.2 ⟨j, hjn, hj⟩)

/-! ## What an act can do -/

inductive Stepped (s : System) : Act → System → Prop
  | happen (h : Happening) (d : Docker) (hd : s.docker.step h = some d) :
    Stepped s (.happen h) { s with docker := d, pipe := if s.phase = .loop then s.pipe ++ [h.event] else s.pipe }
  | ps (hph : s.phase = .ps) :
    Stepped s .main
      { s with phase := .join
               threads := { s.threads with locals := s.threads.locals ++ s.docker.ps.map Worker.adding } }
  | join (hph : s.phase = .join) (hdone : ∀ w ∈ s.workers, w.isDone = true) :
    Stepped s .main { s with phase := .subscribe }
  | subscribe (hph : s.phase = .subscribe) : Stepped s .main { s with phase := .loop }
  | read (n : Nat) (e : Event) (hph : s.phase = .loop) (he : s.pipe[n]? = some e) :
    Stepped s (.read n)
      { s with pipe := s.pipe.eraseIdx n
               threads := { s.threads with locals := s.threads.locals ++ [e.worker] } }
  | worker (i : Nat) (cid : String) (pc pc' : Pc) (m : ContainerMap) (hw : s.workers[i]? = some ⟨cid, pc⟩)
    (hm : Moves s.docker.resolveCgid false s.threads.shared cid pc m pc') :
    Stepped s (.worker i) { s with threads := ⟨m, s.workers.set i ⟨cid, pc'⟩⟩ }

/-- **An act does one of six things.** -/
theorem stepped_of_step {s t : System} {a : Act} (h : s.step a = some t) : Stepped s a t := by
  cases a with
  | happen hp =>
    simp only [System.step] at h
    split at h
    · cases h
    · rename_i d hd
      cases h
      exact .happen hp d hd
  | main =>
    simp only [System.step] at h
    split at h
    · rename_i hph; cases h; exact .ps hph
    · rename_i hph
      obtain ⟨hall, ht⟩ := Option.ite_none_right_eq_some.1 h
      cases ht
      exact .join hph (List.all_eq_true.1 hall)
    · rename_i hph; cases h; exact .subscribe hph
    · cases h
  | read n =>
    simp only [System.step] at h
    split at h
    · cases h
    · rename_i e he
      obtain ⟨hcond, ht⟩ := Option.ite_none_right_eq_some.1 h
      cases ht
      exact .read n e hcond.1 he
  | worker i =>
    obtain ⟨th, hth, ht⟩ := Option.map_eq_some_iff.1 h
    obtain ⟨⟨cid, pc⟩, ⟨m, ⟨cid', pc'⟩⟩, hw, hr, rfl⟩ := Threads.stepAt_eq_some hth
    obtain ⟨hcid, hm⟩ := moves_of_step hr
    obtain rfl : cid' = cid := hcid
    cases ht
    exact .worker i _ pc pc' m hw hm

/-! ## Conditions on an act -/

def Worker.inserts (m : ContainerMap) (w : Worker) : Option UInt64 :=
  match w.pc with
  | .addCommit cgid => if w.cid ∈ m.store then none else some cgid
  | _ => none

def System.inserts (s : System) : Act → Option UInt64
  | .worker i => s.workers[i]?.bind (Worker.inserts s.threads.shared)
  | _ => none

/-- The `map_insert` of the act, if it makes one, finds an entry. -/
def System.InsertAccepted (s : System) (a : Act) : Prop := ∀ cgid ∈ s.inserts a, s.fd.Accepts cgid

instance (s : System) (a : Act) : Decidable (s.InsertAccepted a) := Option.decidableForallMem (s.inserts a)

def System.AtRest (s : System) : Prop := s.pipe = [] ∧ ∀ w ∈ s.workers, w.isDone = true

instance (s : System) : Decidable s.AtRest := inferInstanceAs (Decidable (_ ∧ _))

theorem mapInsert_of_inserts {s : System} {i : Nat} {cid : String} {cgid : UInt64} (hs : s.InsertAccepted (.worker i))
    (hw : s.workers[i]? = some ⟨cid, .addCommit cgid⟩) (hmem : cid ∉ s.threads.shared.store) :
    mapInsert s.threads.shared.fd cgid false ≠ (s.threads.shared.fd, false) := fun h => by
  have hi : s.inserts (.worker i) = some cgid := by
    simp only [System.inserts, hw, Option.bind_some, Worker.inserts, if_neg hmem]
  rw [mapInsert_of_accepts (hs cgid hi)] at h
  exact Bool.noConfusion (Prod.ext_iff.1 h).2

end ControlPlane
end CgroupGuard
