import CgroupGuard.ControlPlane.Pool
/-!
# Shutdown — `flush` while the threads go on

`_shutdown` runs in the main thread: the snapshot of `_store` under the lock, the deletions without it, the clearing
under it again, and then the map fd is closed.  Nothing stops the other threads, so calls begin and go on before,
between and after; once the fd is closed their bpf calls fail.
-/
namespace CgroupGuard
namespace ControlPlane

/-- Where `_shutdown` is; `items` is what the loop of `flush` has still to delete. -/
inductive Flush where
  | idle
  | deleting (items : List (Σ _ : String, UInt64))
  | cleared
  | closed

def Flush.remaining : Flush → List UInt64
  | .deleting items => items.map Sigma.snd
  | _ => []

def Flush.isClosed : Flush → Bool
  | .closed => true
  | _ => false

structure Process where
  pool : Pool
  flush : Flush

inductive Turn where
  | call (c : Call)
  | shutdown
  deriving DecidableEq, Repr

namespace Process

def init : Process := ⟨Pool.init, .idle⟩

abbrev fd (s : Process) : CgroupFilter := s.pool.fd

def step (s : Process) : Turn → Option Process
  | .call c => (s.pool.step s.flush.isClosed c).map ({ s with pool := · })
  | .shutdown =>
    match s.flush with
    -- a dict lists its items in the order of insertion, an `AList` the other way round
    | .idle => some { s with flush := .deleting s.pool.store.entries.reverse }
    | .deleting (item :: items) =>
      let fd := (mapDelete s.fd item.2 false).1
      some { pool := { s.pool with shared := { s.pool.shared with fd := fd } }, flush := .deleting items }
    | .deleting [] =>
      some { pool := { s.pool with shared := { s.pool.shared with store := ∅ } }, flush := .cleared }
    | .cleared => some { s with flush := .closed }
    | .closed => none

abbrev run (s : Process) (turns : List Turn) : Option Process := Steps.run step s turns

/-- The cgroup id a turn hands to `map_insert`, while the fd is open. -/
def insertsNow (s : Process) : Turn → List UInt64
  | .call c => if s.flush.isClosed then [] else (s.pool.inserts c).toList
  | .shutdown => []

def inserted (turns : List Turn) : List UInt64 := Steps.outputs step insertsNow init turns

def Succeeds (s : Process) : Turn → Prop
  | .call c => s.flush.isClosed = true ∨ s.pool.Succeeds c
  | .shutdown => ∀ g ∈ s.flush.remaining.head?, g ∈ s.fd.keys

instance (s : Process) : ∀ a : Turn, Decidable (s.Succeeds a)
  | .call _ => inferInstanceAs (Decidable (_ ∨ _))
  | .shutdown => Option.decidableForallMem (p := (· ∈ s.fd.keys)) _

/-! ## What is left behind -/

/-- From the snapshot to the end of `flush`, nothing is inserted that its loop is not still to delete, and the fd is not
closed between the pop and the deletion of a key. -/
def Timely (s : Process) (a : Turn) : Prop :=
  match s.flush, a with
  | .deleting _, .call c => ∀ g ∈ s.pool.inserts c, g ∈ s.flush.remaining
  | .cleared, .call c => s.pool.inserts c = none
  | .cleared, .shutdown => ∀ g ∈ s.fd.keys, ¬ s.pool.Deleting g
  | _, _ => True

instance (s : Process) (a : Turn) : Decidable (s.Timely a) :=
  match s, a with
  | ⟨_, .idle⟩, _ => inferInstanceAs (Decidable True)
  | ⟨pool, .deleting items⟩, .call c => Option.decidableForallMem (p := (· ∈ Flush.remaining (.deleting items)))
    (pool.inserts c)
  | ⟨_, .deleting _⟩, .shutdown => inferInstanceAs (Decidable True)
  | ⟨pool, .cleared⟩, .call c => inferInstanceAs (Decidable (pool.inserts c = none))
  | ⟨pool, .cleared⟩, .shutdown => List.decidableBAll (¬ pool.Deleting ·) pool.fd.keys
  | ⟨_, .closed⟩, .call _ => inferInstanceAs (Decidable True)
  | ⟨_, .closed⟩, .shutdown => inferInstanceAs (Decidable True)

/-- What the keys are of: entries before the snapshot, then what `flush` or a `remove` is still to delete. -/
def Clearing (s : Process) : Prop :=
  match s.flush with
  | .idle => s.pool.Accounted
  | .deleting items => ∀ g ∈ s.fd.keys, g ∈ items.map Sigma.snd ∨ s.pool.Deleting g
  | .cleared => ∀ g ∈ s.fd.keys, s.pool.Deleting g
  | .closed => ∀ g, g ∉ s.fd.keys

theorem left_of_call {p q : Pool} {c : Call} {rest : List UInt64} (h : p.step false c = some q)
    (hins : ∀ g ∈ p.inserts c, g ∈ rest) (hp : ∀ g ∈ p.fd.keys, g ∈ rest ∨ p.Deleting g) :
    ∀ g ∈ q.fd.keys, g ∈ rest ∨ q.Deleting g := by
  have he := Pool.effect_of_step h
  intro g hg
  rcases he.key g hg with ⟨hold, hkept⟩ | ⟨hnew, -⟩
  · rcases hp g hold with hr | hd
    · exact .inl hr
    · exact (he.deleting g hd).elim .inr (fun hdel => absurd hdel hkept)
  · exact .inl (hins g hnew)

theorem mem_snapshot_of_stores {p : Pool} {g : UInt64} (h : p.Stores g) :
    g ∈ (p.store.entries.reverse).map Sigma.snd := by
  obtain ⟨cid, hl⟩ := h
  exact List.mem_map.2 ⟨⟨cid, g⟩, List.mem_reverse.2 (AList.mem_lookup_iff.1 hl), rfl⟩

theorem Clearing.call {s : Process} {c : Call} {q : Pool} (hs : s.Clearing) (htimely : s.Timely (.call c))
    (h : s.pool.step s.flush.isClosed c = some q) : Clearing { s with pool := q } := by
  obtain ⟨p, flush⟩ := s
  cases flush with
  | idle => exact Pool.Accounted.step hs h
  | deleting items => exact left_of_call h htimely hs
  | cleared =>
    intro g hg
    have hnone : p.inserts c = none := htimely
    have hleft : g ∈ [] ∨ q.Deleting g :=
      left_of_call h (by rw [hnone]; exact nofun) (fun g hg => .inr (hs g hg)) g hg
    exact hleft.resolve_left List.not_mem_nil
  | closed =>
    intro g hg
    have hfd : q.fd = p.fd := Pool.fd_of_fault h
    exact hs g (show g ∈ p.fd.keys from hfd ▸ hg)

theorem Clearing.step {s t : Process} {a : Turn} (hs : s.Clearing) (htimely : s.Timely a) (h : s.step a = some t) :
    t.Clearing := by
  cases a with
  | call c =>
    obtain ⟨q, hq, rfl⟩ := Option.map_eq_some_iff.1 h
    exact hs.call htimely hq
  | shutdown =>
    obtain ⟨p, flush⟩ := s
    cases flush with
    | idle =>
      cases h
      intro g hg
      exact (hs g hg).imp mem_snapshot_of_stores id
    | deleting items =>
      cases items with
      | nil =>
        cases h
        intro g hg
        exact (hs g hg).resolve_left List.not_mem_nil
      | cons item items =>
        cases h
        intro g hg
        obtain ⟨hne, hold⟩ := (mem_keys_of_mapDelete rfl g).1 hg
        rcases hs g hold with hmem | hd
        · exact .inl ((List.mem_cons.1 hmem).resolve_left hne)
        · exact .inr hd
    | cleared =>
      cases h
      exact fun g hg => htimely g hg (hs g hg)
    | closed => cases h

/-- **Shutdown leaves no key**, in every run that inserts nothing `flush` will not delete and closes the fd on no
deletion. -/
theorem no_key_left (turns : List Turn) (s : Process) (htimely : Steps.Always step Timely init turns)
    (hrun : init.run turns = some s) (hclosed : s.flush = .closed) (g : UInt64) : g ∉ s.fd.keys := by
  have hs : s.Clearing := Steps.always_induction (fun _ s => s.Clearing) Pool.accounted_init
    (fun _ m a t _ hm ha ht => hm.step ha ht) turns s htimely hrun
  unfold Clearing at hs
  rw [hclosed] at hs
  exact hs g

def removing : List Turn :=
  [.call (.add "4f0c9d2e7a1b"), .call (.worker 0 none), .call (.worker 0 (some 5)), .call (.worker 0 none),
    .call (.remove "4f0c9d2e7a1b"), .shutdown, .call (.worker 1 none), .shutdown, .call (.worker 1 none), .shutdown,
    .shutdown]

def removed : Process := (init.run removing).get (by decide)

theorem no_key_left_removing :
    Steps.Always step Timely init removing ∧ removed.flush = .closed ∧ ∀ g, g ∉ removed.fd.keys := by
  have htimely : Steps.Always step Timely init removing := by decide
  exact ⟨htimely, rfl, no_key_left removing removed htimely (Option.some_get (by decide)).symm rfl⟩

/-- An `add` that has resolved its cgroup id when the signal comes, and inserts it after the snapshot. -/
def insertsLate : List Turn :=
  [.call (.add "4f0c9d2e7a1b"), .call (.worker 0 none), .call (.worker 0 (some 5)), .shutdown,
    .call (.worker 0 none), .shutdown, .shutdown]

/-- A `remove` that has popped its entry when the signal comes, and is too late to delete the key. -/
def deletesLate : List Turn :=
  [.call (.add "4f0c9d2e7a1b"), .call (.worker 0 none), .call (.worker 0 (some 5)), .call (.worker 0 none),
    .call (.remove "4f0c9d2e7a1b"), .call (.worker 1 none), .shutdown, .shutdown, .shutdown]

/-- **A key of the process's own is left behind**, though every call on the map succeeds while the fd is open. -/
theorem inserted_key_left :
    (Steps.Always step Succeeds init insertsLate ∧ 5 ∈ inserted insertsLate ∧
      ∃ s, init.run insertsLate = some s ∧ s.flush = .closed ∧ 5 ∈ s.fd.keys) ∧
    (Steps.Always step Succeeds init deletesLate ∧ 5 ∈ inserted deletesLate ∧
      ∃ s, init.run deletesLate = some s ∧ s.flush = .closed ∧ 5 ∈ s.fd.keys) := by
  refine ⟨⟨by decide, by decide, ?_⟩, ⟨by decide, by decide, ?_⟩⟩
  · exact ⟨(init.run insertsLate).get (by decide), (Option.some_get _).symm, rfl, by decide⟩
  · exact ⟨(init.run deletesLate).get (by decide), (Option.some_get _).symm, rfl, by decide⟩

/-! ## From any state of the control plane -/

theorem run_calls {p q : Pool} {calls : List Call} (h : p.run calls = some q) :
    Process.run ⟨p, .idle⟩ (calls.map Turn.call) = some ⟨q, .idle⟩ := by
  have hstep : ∀ p (s : Process) c p', s = ⟨p, .idle⟩ → Pool.step false p c = some p' →
      ∃ s', s.step (.call c) = some s' ∧ s' = ⟨p', .idle⟩ := by
    rintro p _ c p' rfl hc
    refine ⟨⟨p', .idle⟩, ?_, rfl⟩
    show (p.step false c).map _ = _
    rw [hc]
    rfl
  obtain ⟨s, hs, rfl⟩ := Steps.run_simulation _ Turn.call hstep calls rfl h
  exact hs

/-- **Every state of the control plane over an empty map is one the signal can find.** -/
theorem turns_of_run {d : Docker} {acts : List Act} {s : System} (h : (System.boot d none).run acts = some s) :
    ∃ turns, init.run turns = some ⟨s.threads, .idle⟩ := by
  obtain ⟨calls, hcalls⟩ := calls_of_run h
  exact ⟨calls.map Turn.call, run_calls hcalls⟩

end Process

end ControlPlane
end CgroupGuard
