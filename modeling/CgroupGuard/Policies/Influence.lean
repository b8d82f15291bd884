import CgroupGuard.Policies.Membership
import CgroupGuard.TaskBlock.Namespaces
/-!
# Influence — how far tasks get by signals and ptrace

A task under somebody's influence passes it on to its children, and to every task it is allowed to signal or to ptrace.
The two programs look at the caller's cgroup alone to see whether it is tracked, so that influence stays within one
cgroup exactly as long as that one is tracked (`influence_confined_iff`), whatever else is.
-/
namespace CgroupGuard
namespace Policies

open TaskBlock (World TaskAct Task blockCrossContainerKill blockPtrace)

/-- The tasks, the map, and the tasks under influence, by their index. -/
structure Spread where
  world : World
  cgroupFilter : CgroupFilter
  influenced : List Nat

inductive SpreadAct where
  | task (a : TaskAct)
  | kill (i j : Nat)
  | ptrace (i j : Nat)
  | write (w : Write)
  deriving DecidableEq, Repr

namespace Spread

def reach (s : Spread) (hook : CgroupFilter → Task → Task → Int) (i j : Nat) : Option Spread :=
  match s.world.tasks[i]?, s.world.tasks[j]? with
  | some current, some target =>
    if current.nsproxy.isNone then none
    else if hook s.cgroupFilter current target = 0 ∧ i ∈ s.influenced then
        some { s with influenced := j :: s.influenced }
    else some s
  | _, _ => none

def born (s : Spread) : TaskAct → List Nat
  | .fork i => if i ∈ s.influenced then [s.world.tasks.length] else []
  | _ => []

def step (s : Spread) : SpreadAct → Option Spread
  | .task a => (s.world.step a).map (fun w => { s with world := w, influenced := s.born a ++ s.influenced })
  | .kill i j => s.reach blockCrossContainerKill i j
  | .ptrace i j => s.reach blockPtrace i j
  | .write w => some { s with cgroupFilter := Policies.write s.cgroupFilter w }

abbrev run (s : Spread) (acts : List SpreadAct) : Option Spread := Steps.run step s acts

/-- Every task under influence is in the cgroup. -/
def Within (s : Spread) (g : UInt64) : Prop := ∀ i ∈ s.influenced, ∃ t, s.world.tasks[i]? = some t ∧ t.cgid = g

/-- Nobody takes the cgroup out of the map, or moves a task under influence to another one. -/
def Guarded (g : UInt64) (s : Spread) : SpreadAct → Prop
  | .task (.attach i cgid) => i ∈ s.influenced → cgid = g
  | .write w => g ∈ s.cgroupFilter.keys → g ∈ (Policies.write s.cgroupFilter w).keys
  | _ => True

end Spread

/-! ## What the programs allow -/

theorem cgid_of_allowed {denial : Int} (hdenial : denial ≠ 0) {cgroupFilter : CgroupFilter} {current target : Task}
    (htracked : current.cgid ∈ cgroupFilter.keys)
    (h : TaskBlock.sameCgroupAndNamespace denial cgroupFilter current target = 0) : target.cgid = current.cgid := by
  rw [TaskBlock.sameCgroupAndNamespace_eq target htracked] at h
  split at h
  · rename_i hsame
    exact hsame.1.symm
  · exact absurd h hdenial

theorem allowed_of_untracked (denial : Int) {cgroupFilter : CgroupFilter} {current : Task} (target : Task)
    (h : current.cgid ∉ cgroupFilter.keys) :
    TaskBlock.sameCgroupAndNamespace denial cgroupFilter current target = 0 := by
  unfold TaskBlock.sameCgroupAndNamespace
  rw [(BoundedMap.lookup_eq_none _ _).2 h]

/-! ## What an act does to the tasks -/

/-- **What an act does to the tasks**: it adds a child in its parent's cgroup, or replaces one task, which stays in its
cgroup unless it is moved and lives unless it exits. -/
theorem tasks_of_step {w w' : World} {a : TaskAct} (h : w.step a = some w') :
    (∃ i parent child, a = .fork i ∧ w.tasks[i]? = some parent ∧ child.cgid = parent.cgid ∧
        w'.tasks = w.tasks ++ [child]) ∨
      ∃ i old new, (∀ k, a ≠ .fork k) ∧ w.tasks[i]? = some old ∧ w'.tasks = w.tasks.set i new ∧
        (new.cgid = old.cgid ∨ a = .attach i new.cgid) ∧ (new.nsproxy ≠ none ∨ a = .exit i) := by
  cases a with
  | fork i =>
    simp only [World.step] at h
    split at h
    · rename_i cgid pidNs ns hi
      cases h
      exact .inl ⟨i, _, ⟨cgid, ns.pidNsForChildren, some ns⟩, rfl, hi, rfl, rfl⟩
    · cases h
  | unshare i =>
    have hne : ∀ k, TaskAct.unshare i ≠ .fork k := fun _ he => by cases he
    simp only [World.step] at h
    split at h
    · rename_i hi
      cases h
      exact .inr ⟨i, _, _, hne, hi, rfl, .inl rfl, .inl (Option.some_ne_none _)⟩
    · cases h
  | exit i =>
    have hne : ∀ k, TaskAct.exit i ≠ .fork k := fun _ he => by cases he
    simp only [World.step] at h
    split at h
    · rename_i hi
      cases h
      exact .inr ⟨i, _, _, hne, hi, rfl, .inl rfl, .inr rfl⟩
    · cases h
  | attach i cgid =>
    have hne : ∀ k, TaskAct.attach i cgid ≠ .fork k := fun _ he => by cases he
    simp only [World.step] at h
    split at h
    · rename_i hi
      cases h
      exact .inr ⟨i, _, _, hne, hi, rfl, .inr rfl, .inl (Option.some_ne_none _)⟩
    · cases h

theorem task_of_step {w w' : World} {a : TaskAct} {i : Nat} {t : Task} (ht : w.tasks[i]? = some t)
    (h : w.step a = some w') :
    ∃ t', w'.tasks[i]? = some t' ∧ (t'.cgid = t.cgid ∨ a = .attach i t'.cgid) ∧
      (t.nsproxy ≠ none → t'.nsproxy ≠ none ∨ a = .exit i) := by
  have hlt := (List.getElem?_eq_some_iff.1 ht).1
  obtain ⟨j, parent, child, -, -, -, hw⟩ | ⟨j, old, new, -, hj, hw, hcgid, hlive⟩ := tasks_of_step h
  · exact ⟨t, by rw [hw, List.getElem?_append_left hlt, ht], .inl rfl, .inl⟩
  · by_cases he : j = i
    · subst he
      obtain rfl : old = t := Option.some.inj (hj.symm.trans ht)
      exact ⟨new, by rw [hw, List.getElem?_set_self hlt], hcgid, fun _ => hlive⟩
    · exact ⟨t, by rw [hw, List.getElem?_set_ne he, ht], .inl rfl, .inl⟩

theorem child_of_fork {w w' : World} {i : Nat} {t : Task} (ht : w.tasks[i]? = some t) (h : w.step (.fork i) = some w') :
    ∃ t', w'.tasks[w.tasks.length]? = some t' ∧ t'.cgid = t.cgid := by
  obtain ⟨j, parent, child, he, hj, hcgid, hw⟩ | ⟨j, old, new, hne, -⟩ := tasks_of_step h
  · cases he
    obtain rfl : parent = t := Option.some.inj (hj.symm.trans ht)
    exact ⟨child, by rw [hw, List.getElem?_concat_length], hcgid⟩
  · exact absurd rfl (hne i)

namespace Spread

variable {g : UInt64} {s t : Spread}

theorem Within.reach {hook : CgroupFilter → Task → Task → Int} {i j : Nat} (hs : s.Within g)
    (hhook : ∀ current target : Task, current.cgid = g → hook s.cgroupFilter current target = 0 → target.cgid = g)
    (h : s.reach hook i j = some t) : t.Within g ∧ t.cgroupFilter = s.cgroupFilter := by
  unfold Spread.reach at h
  split at h
  · rename_i current target hi hj
    split at h
    · cases h
    split at h
    · rename_i hallowed
      cases h
      obtain ⟨t', ht', hg⟩ := hs i hallowed.2
      obtain rfl : current = t' := Option.some.inj (hi.symm.trans ht')
      refine ⟨fun k hk => ?_, rfl⟩
      rcases List.mem_cons.1 hk with rfl | hk
      · exact ⟨target, hj, hhook current target hg hallowed.1⟩
      · exact hs k hk
    · cases h
      exact ⟨hs, rfl⟩
  · cases h

theorem Within.task {a : TaskAct} {w : World} (hs : s.Within g) (ha : Guarded g s (.task a))
    (h : s.world.step a = some w) : Within { s with world := w, influenced := s.born a ++ s.influenced } g := by
  intro i hi
  rcases List.mem_append.1 hi with hborn | hi
  · cases a with
    | fork j =>
      have hchild : i ∈ if j ∈ s.influenced then [s.world.tasks.length] else [] := hborn
      split at hchild
      · rename_i hj
        obtain rfl := List.mem_singleton.1 hchild
        obtain ⟨t', ht', hg⟩ := hs j hj
        obtain ⟨c, hc, hcgid⟩ := child_of_fork ht' h
        exact ⟨c, hc, hcgid.trans hg⟩
      · cases hchild
    | _ => cases hborn
  · obtain ⟨t', ht', hg⟩ := hs i hi
    obtain ⟨u, hu, hcgid, -⟩ := task_of_step ht' h
    refine ⟨u, hu, ?_⟩
    rcases hcgid with hsame | rfl
    · exact hsame.trans hg
    · exact ha hi

/-- **A guarded act keeps influence within a tracked cgroup.** -/
theorem Within.step {a : SpreadAct} (hs : s.Within g ∧ g ∈ s.cgroupFilter.keys) (ha : Guarded g s a)
    (h : s.step a = some t) : t.Within g ∧ g ∈ t.cgroupFilter.keys := by
  obtain ⟨hin, htracked⟩ := hs
  cases a with
  | task a =>
    obtain ⟨w, hw, rfl⟩ := Option.map_eq_some_iff.1 h
    exact ⟨hin.task ha hw, htracked⟩
  | kill i j =>
    obtain ⟨ht, hf⟩ := hin.reach (fun current target hc hzero =>
      (cgid_of_allowed (by decide) (hc ▸ htracked) hzero).trans hc) h
    exact ⟨ht, hf ▸ htracked⟩
  | ptrace i j =>
    obtain ⟨ht, hf⟩ := hin.reach (fun current target hc hzero =>
      (cgid_of_allowed (by decide) (hc ▸ htracked) hzero).trans hc) h
    exact ⟨ht, hf ▸ htracked⟩
  | write w =>
    cases h
    exact ⟨hin, ha htracked⟩

end Spread

/-- **Influence that is within a cgroup stays there, in every run that neither untracks the cgroup nor moves a task
under influence out of it, if and only if the cgroup is tracked**, as long as there is a live task under influence and
a task outside. -/
theorem influence_confined_iff (g : UInt64) (s : Spread) (hin : s.Within g) (i j : Nat) (current target : Task)
    (hi : i ∈ s.influenced) (hcurrent : s.world.tasks[i]? = some current) (hlive : current.nsproxy ≠ none)
    (htarget : s.world.tasks[j]? = some target) (hout : target.cgid ≠ g) :
    (∀ acts t, Steps.Always Spread.step (Spread.Guarded g) s acts → s.run acts = some t → t.Within g) ↔
      g ∈ s.cgroupFilter.keys := by
  constructor
  · intro hall
    refine Classical.byContradiction (fun hnot => ?_)
    obtain ⟨t', ht', hg⟩ := hin i hi
    obtain rfl : current = t' := Option.some.inj (hcurrent.symm.trans ht')
    have hallowed : blockCrossContainerKill s.cgroupFilter current target = 0 :=
      allowed_of_untracked _ target (by rw [hg]; exact hnot)
    -- one signal is enough
    have hstep : s.step (.kill i j) = some { s with influenced := j :: s.influenced } := by
      show s.reach blockCrossContainerKill i j = _
      unfold Spread.reach
      rw [hcurrent, htarget]
      simp only [Option.isNone_iff_eq_none, hlive, if_false, hallowed, hi, and_self, if_true]
    have hrun : s.run [.kill i j] = some { s with influenced := j :: s.influenced } := by
      rw [Spread.run, Steps.run_cons, hstep]
      rfl
    obtain ⟨u, hu, hcgid⟩ := hall [.kill i j] _ ⟨trivial, fun _ _ => trivial⟩ hrun j List.mem_cons_self
    obtain rfl : target = u := Option.some.inj (htarget.symm.trans hu)
    exact hout hcgid
  · intro htracked acts t hacts hrun
    exact (Steps.always_induction (fun _ t => t.Within g ∧ g ∈ t.cgroupFilter.keys) ⟨hin, htracked⟩
      (fun _ _ _ _ _ hm ha h => Spread.Within.step hm ha h) acts t hacts hrun).1

def twoCgroups : Spread where
  world := ⟨[⟨7, 0, some ⟨0⟩⟩, ⟨8, 0, some ⟨0⟩⟩], 1⟩
  cgroupFilter := TaskBlock.tracking7
  influenced := [0]

theorem influence_confined_iff_twoCgroups :
    7 ∈ TaskBlock.tracking7.keys ∧ ∀ acts t, Steps.Always Spread.step (Spread.Guarded 7) twoCgroups acts →
      twoCgroups.run acts = some t → t.Within 7 := by
  have hin : twoCgroups.Within 7 := fun i hi => by
    obtain rfl := List.mem_singleton.1 hi
    exact ⟨_, rfl, rfl⟩
  exact ⟨by decide, (influence_confined_iff 7 twoCgroups hin 0 1 ⟨7, 0, some ⟨0⟩⟩ ⟨8, 0, some ⟨0⟩⟩ (by decide) rfl nofun
    rfl (by decide)).2 (by decide)⟩

end Policies
end CgroupGuard
