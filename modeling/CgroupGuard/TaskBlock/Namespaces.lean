import CgroupGuard.Lib.Steps
import CgroupGuard.Policies.Hooks
/-!
# Namespaces — the namespace a task lives in and the one its children will

A child lives in the `pid_ns_for_children` of its parent; `unshare` gives a task a new one and leaves it where it lives,
and a task that exits loses its `nsproxy`.  The hooks compare the namespaces of children to come, so that they follow
those the tasks live in as long as nobody unshares or exits, and not beyond.
-/
namespace CgroupGuard
namespace TaskBlock

/-- The tasks, and a PID namespace that was never used. -/
structure World where
  tasks : List Task
  next : Nat

def World.init (cgid : UInt64) : World := ⟨[⟨cgid, 0, some ⟨0⟩⟩], 1⟩

inductive TaskAct where
  | fork (i : Nat)
  | unshare (i : Nat)
  | exit (i : Nat)
  /-- The task is moved to another cgroup. -/
  | attach (i : Nat) (cgid : UInt64)
  deriving DecidableEq, Repr

def World.step (w : World) : TaskAct → Option World
  | .fork i =>
    match w.tasks[i]? with
    | some ⟨cgid, _, some ns⟩ => some { w with tasks := w.tasks ++ [⟨cgid, ns.pidNsForChildren, some ns⟩] }
    | _ => none
  | .unshare i =>
    match w.tasks[i]? with
    | some ⟨cgid, pidNs, some _⟩ =>
      some { tasks := w.tasks.set i ⟨cgid, pidNs, some ⟨w.next⟩⟩, next := w.next + 1 }
    | _ => none
  | .exit i =>
    match w.tasks[i]? with
    | some ⟨cgid, pidNs, some _⟩ => some { w with tasks := w.tasks.set i ⟨cgid, pidNs, none⟩ }
    | _ => none
  | .attach i cgid =>
    match w.tasks[i]? with
    | some ⟨_, pidNs, some ns⟩ => some { w with tasks := w.tasks.set i ⟨cgid, pidNs, some ns⟩ }
    | _ => none

abbrev World.run (w : World) (acts : List TaskAct) : Option World := Steps.run World.step w acts

/-- The law: a signal and a ptrace are allowed within the cgroup and the namespace, and denied otherwise. -/
structure FollowsNamespaces (cgroupFilter : CgroupFilter) (current target : Task) : Prop where
  allowed : current.cgid = target.cgid ∧ current.pidNs = target.pidNs →
    blockCrossContainerKill cgroupFilter current target = 0 ∧ blockPtrace cgroupFilter current target = 0
  denied : ¬ (current.cgid = target.cgid ∧ current.pidNs = target.pidNs) →
    blockCrossContainerKill cgroupFilter current target = -EPERM ∧ blockPtrace cgroupFilter current target = -1

/-- Tasks of one cgroup have the same `pid_ns_for_children` exactly when they live in the same namespace. -/
def Matched (current target : Task) : Prop :=
  current.cgid = target.cgid →
    (current.pidNsForChildren = target.pidNsForChildren ↔ current.pidNs = target.pidNs)

instance (current target : Task) : Decidable (Matched current target) := inferInstanceAs (Decidable (_ → _))

/-- **The hooks follow the namespaces tasks live in exactly between matched tasks.** -/
theorem followsNamespaces_iff {cgroupFilter : CgroupFilter} {current : Task} (target : Task)
    (htracked : current.cgid ∈ cgroupFilter.keys) :
    FollowsNamespaces cgroupFilter current target ↔ Matched current target := by
  have hkill : blockCrossContainerKill cgroupFilter current target = _ := sameCgroupAndNamespace_eq target htracked
  have hptrace : blockPtrace cgroupFilter current target = _ := sameCgroupAndNamespace_eq target htracked
  constructor
  · intro h hc
    constructor
    · intro hchildren
      rw [if_pos ⟨hc, hchildren⟩] at hkill
      refine Classical.byContradiction (fun hlive => ?_)
      have hdenied := (h.denied (fun hboth => hlive hboth.2)).1
      rw [hkill] at hdenied
      cases hdenied
    · intro hlive
      refine Classical.byContradiction (fun hchildren => ?_)
      rw [if_neg (fun hboth => hchildren hboth.2)] at hkill
      have hallowed := (h.allowed ⟨hc, hlive⟩).1
      rw [hkill] at hallowed
      cases hallowed
  · intro h
    refine ⟨fun hboth => ?_, fun hnot => ?_⟩
    · have hboth' := And.intro hboth.1 ((h hboth.1).2 hboth.2)
      rw [if_pos hboth'] at hkill hptrace
      exact ⟨hkill, hptrace⟩
    · have hnot' : ¬ (current.cgid = target.cgid ∧ current.pidNsForChildren = target.pidNsForChildren) :=
        fun hboth => hnot ⟨hboth.1, (h hboth.1).1 hboth.2⟩
      rw [if_neg hnot'] at hkill hptrace
      exact ⟨hkill, hptrace⟩

/-! ## Tasks that never unshare or exit -/

def TaskAct.changes : TaskAct → Option Nat
  | .unshare i => some i
  | .exit i => some i
  | _ => none

def Task.Plain (t : Task) : Prop := t.nsproxy = some ⟨t.pidNs⟩

theorem matched_of_plain {current target : Task} (hc : current.Plain) (ht : target.Plain) :
    Matched current target := by
  intro _
  unfold Task.pidNsForChildren
  rw [hc, ht]
  exact Option.some_inj

theorem plain_set_of_ne {tasks : List Task} {i j : Nat} {u : Task} (h : ∀ t, tasks[i]? = some t → t.Plain)
    (hne : i ≠ j) : ∀ t, (tasks.set j u)[i]? = some t → t.Plain := by
  intro t ht
  exact h t ((Threads.getElem?_set ht).resolve_left (fun he => hne he.1)).2

theorem plain_of_step {w w' : World} {a : TaskAct} {i : Nat} (hw : ∀ t, w.tasks[i]? = some t → t.Plain)
    (ha : a.changes ≠ some i) (h : w.step a = some w') : ∀ t, w'.tasks[i]? = some t → t.Plain := by
  cases a with
  | fork j =>
    simp only [World.step] at h
    split at h
    · cases h
      intro t ht
      rcases Nat.lt_or_ge i w.tasks.length with hlt | hge
      · rw [List.getElem?_append_left hlt] at ht
        exact hw t ht
      · rw [List.getElem?_append_right hge] at ht
        obtain rfl := List.mem_singleton.1 (List.mem_of_getElem? ht)
        rfl
    · cases h
  | unshare j =>
    have hne : i ≠ j := fun he => ha (congrArg some he.symm)
    simp only [World.step] at h
    split at h
    · cases h; exact plain_set_of_ne hw hne
    · cases h
  | exit j =>
    have hne : i ≠ j := fun he => ha (congrArg some he.symm)
    simp only [World.step] at h
    split at h
    · cases h; exact plain_set_of_ne hw hne
    · cases h
  | attach j cgid =>
    simp only [World.step] at h
    split at h
    · rename_i ns hj
      cases h
      intro t ht
      rcases Threads.getElem?_set ht with ⟨rfl, rfl⟩ | ⟨-, ht⟩
      · have hplain : some ns = some ⟨_⟩ := hw _ hj
        exact hplain
      · exact hw t ht
    · cases h

theorem plain_of_run {cgid : UInt64} {acts : List TaskAct} {w : World} (hrun : (World.init cgid).run acts = some w)
    {i : Nat} (hacts : ∀ a ∈ acts, a.changes ≠ some i) : ∀ t, w.tasks[i]? = some t → t.Plain := by
  refine Steps.run_induction (fun acts w => (∀ a ∈ acts, a.changes ≠ some i) → ∀ t, w.tasks[i]? = some t → t.Plain)
    (fun _ t ht => ?_) (fun as m a t _ ih hstep has => ?_) acts w hrun hacts
  · obtain rfl := List.mem_singleton.1 (List.mem_of_getElem? ht)
    rfl
  · exact plain_of_step (ih (fun b hb => has b (List.mem_append_left _ hb)))
      (has a (List.mem_append_right _ List.mem_cons_self)) hstep

/-- **In every state reached, isolation follows the namespaces exactly between matched tasks**, and two tasks that have
neither unshared nor exited are matched. -/
theorem isolation_follows_namespaces (cgid : UInt64) (acts : List TaskAct) (w : World)
    (hrun : (World.init cgid).run acts = some w) (i j : Nat) (current target : Task) (hi : w.tasks[i]? = some current)
    (hj : w.tasks[j]? = some target) :
    (∀ cgroupFilter : CgroupFilter, current.cgid ∈ cgroupFilter.keys →
        (FollowsNamespaces cgroupFilter current target ↔ Matched current target)) ∧
      ((∀ a ∈ acts, a.changes ≠ some i ∧ a.changes ≠ some j) → Matched current target) := by
  refine ⟨fun _ htracked => followsNamespaces_iff target htracked, fun hacts => ?_⟩
  exact matched_of_plain (plain_of_run hrun (fun a ha => (hacts a ha).1) current hi)
    (plain_of_run hrun (fun a ha => (hacts a ha).2) target hj)

def tracking7 : CgroupFilter := BoundedMap.empty.put 7 1

def unsharing : List TaskAct := [.fork 0, .fork 0, .unshare 2, .fork 2]

def afterUnsharing : World := ((World.init 7).run unsharing).get (by decide)

theorem isolation_follows_namespaces_unsharing :
    7 ∈ tracking7.keys ∧ FollowsNamespaces tracking7 ⟨7, 0, some ⟨0⟩⟩ ⟨7, 0, some ⟨0⟩⟩ := by
  have h := isolation_follows_namespaces 7 unsharing afterUnsharing (Option.some_get (by decide)).symm 0 1
    ⟨7, 0, some ⟨0⟩⟩ ⟨7, 0, some ⟨0⟩⟩ (by decide) (by decide)
  exact ⟨by decide, (h.1 tracking7 (by decide)).2 (h.2 (by decide))⟩

/-- **A parent may not signal a child it shares its namespace with, and a task may signal a child in another.** -/
theorem isolation_not_by_namespaces :
    ∃ parent unshared child : Task, afterUnsharing.tasks[0]? = some parent ∧ afterUnsharing.tasks[2]? = some unshared ∧
      afterUnsharing.tasks[3]? = some child ∧ parent.cgid = 7 ∧ unshared.cgid = 7 ∧ child.cgid = 7 ∧
      (parent.pidNs = unshared.pidNs ∧ blockCrossContainerKill tracking7 parent unshared = -EPERM ∧
        blockPtrace tracking7 parent unshared = -1) ∧
      unshared.pidNs ≠ child.pidNs ∧ blockCrossContainerKill tracking7 unshared child = 0 ∧
      blockPtrace tracking7 unshared child = 0 := by
  refine ⟨⟨7, 0, some ⟨0⟩⟩, ⟨7, 0, some ⟨1⟩⟩, ⟨7, 1, some ⟨1⟩⟩, ?_⟩
  decide

end TaskBlock
end CgroupGuard
