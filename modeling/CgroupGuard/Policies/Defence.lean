import CgroupGuard.Policies.Hooks
import CgroupGuard.Policies.Influence
/-!
# Defence — the policies keep each other in force

The link of a program is its loader's, and goes when the loader's task does; the map can be written by every task that
`block_bpf` lets through.  So a task that gets at a loader, or at the map, gets rid of a policy.  None does as long as
the three programs are attached, the cgroup is in the map with a value other than zero, and nobody outside helps
(`confined_iff_defended`): `block_cross_container_kill` and `block_ptrace` keep the loaders out of reach, `block_bpf`
the map, and the loaders and the map the programs.
-/
namespace CgroupGuard
namespace Policies

open TaskBlock (World TaskAct Task blockCrossContainerKill blockPtrace)

/-- The tasks of the loaders of `kill_block`, `ptrace_block` and `bpf_block`, by their index. -/
structure Loaders where
  kill : Nat
  ptrace : Nat
  bpf : Nat
  deriving DecidableEq, Repr

def Loaders.tasks (l : Loaders) : List Nat := [l.kill, l.ptrace, l.bpf]

inductive MapCall where
  | update (cgid : UInt64) (val : UInt8)
  | delete (cgid : UInt64)
  deriving DecidableEq, Repr

def MapCall.apply (fd : CgroupFilter) : MapCall → CgroupFilter
  | .update cgid val => fd.put cgid val
  | .delete cgid => (fd.delete cgid).getD fd

/-- The control plane and the loaders are tasks like all others, and write the map by `bpf`. -/
inductive DefenceAct where
  | task (a : TaskAct)
  | kill (i j : Nat)
  | ptrace (i j : Nat)
  | bpf (i : Nat) (call : MapCall)
  deriving DecidableEq, Repr

namespace Spread

def live (s : Spread) (i : Nat) : Bool := (s.world.tasks[i]?.bind Task.nsproxy).isSome

/-- What is asked of the program that the task `loader` has attached: nothing is denied once the task has exited. -/
def attached (s : Spread) (loader : Nat) (hook : CgroupFilter → Task → Task → Int) : CgroupFilter → Task → Task → Int :=
  if s.live loader then hook else fun _ _ _ => 0

def bpfCall (s : Spread) (loader i : Nat) (call : MapCall) : Option Spread :=
  match s.world.tasks[i]? with
  | none => none
  | some current =>
    if current.nsproxy.isNone then none
    else if s.attached loader (fun fd current _ => blockBpf fd current.cgid) s.cgroupFilter current current = 0 then
      some { s with cgroupFilter := call.apply s.cgroupFilter }
    else some s

def stepDefence (l : Loaders) (s : Spread) : DefenceAct → Option Spread
  | .task a => (s.world.step a).map (fun w => { s with world := w, influenced := s.born a ++ s.influenced })
  | .kill i j => s.reach (s.attached l.kill blockCrossContainerKill) i j
  | .ptrace i j => s.reach (s.attached l.ptrace blockPtrace) i j
  | .bpf i call => s.bpfCall l.bpf i call

/-- The tasks that are not under influence neither untrack the cgroup nor, if they are loaders, exit; and nobody moves a
task under influence out of the cgroup, or a loader into it. -/
def Trusted (g : UInt64) (l : Loaders) (s : Spread) : DefenceAct → Prop
  | .task (.exit i) => i ∈ l.tasks → i ∈ s.influenced
  | .task (.attach i cgid) => (i ∈ s.influenced → cgid = g) ∧ (i ∈ l.tasks → cgid ≠ g)
  | .bpf i call => i ∉ s.influenced → isContainer s.cgroupFilter g = true →
      isContainer (call.apply s.cgroupFilter) g = true
  | _ => True

/-- The three programs are attached, and take the cgroup for a container. -/
structure Defended (g : UInt64) (l : Loaders) (s : Spread) : Prop where
  tracked : isContainer s.cgroupFilter g = true
  attached : ∀ k ∈ l.tasks, s.live k = true

end Spread

def Loaders.Outside (l : Loaders) (g : UInt64) (w : World) : Prop :=
  ∀ k ∈ l.tasks, ∃ t, w.tasks[k]? = some t ∧ t.cgid ≠ g

/-! ## What an act does -/

theorem mem_keys_of_isContainer {fd : CgroupFilter} {g : UInt64} (h : isContainer fd g = true) : g ∈ fd.keys := by
  refine Classical.byContradiction (fun hnot => ?_)
  unfold isContainer at h
  rw [(BoundedMap.lookup_eq_none _ _).2 hnot] at h
  cases h

theorem blockBpf_ne_zero {fd : CgroupFilter} {g : UInt64} (h : isContainer fd g = true) : blockBpf fd g ≠ 0 := by
  unfold blockBpf denyContainer
  rw [h]
  decide

namespace Spread

variable {g : UInt64} {l : Loaders} {s t : Spread}

theorem live_iff {i : Nat} {task : Task} (h : s.world.tasks[i]? = some task) :
    s.live i = true ↔ task.nsproxy ≠ none := by
  unfold live
  rw [h]
  exact Option.isSome_iff_ne_none

theorem world_of_reach {hook : CgroupFilter → Task → Task → Int} {i j : Nat} (h : s.reach hook i j = some t) :
    t.world = s.world := by
  unfold Spread.reach at h
  split at h
  · split at h
    · cases h
    · split at h <;> cases h <;> rfl
  · cases h

theorem reach_of_allowed {hook : CgroupFilter → Task → Task → Int} {i j : Nat} {current target : Task}
    (hi : i ∈ s.influenced) (hcurrent : s.world.tasks[i]? = some current) (hlive : current.nsproxy ≠ none)
    (htarget : s.world.tasks[j]? = some target) (hallowed : hook s.cgroupFilter current target = 0) :
    s.reach hook i j = some { s with influenced := j :: s.influenced } := by
  unfold Spread.reach
  rw [hcurrent, htarget]
  simp only [Option.isNone_iff_eq_none, hlive, if_false, hallowed, hi, and_self, if_true]

theorem attached_of_live {k : Nat} (h : s.live k = true) (hook : CgroupFilter → Task → Task → Int) :
    s.attached k hook = hook := if_pos h

theorem attached_of_exited {k : Nat} (h : ¬ s.live k = true) (hook : CgroupFilter → Task → Task → Int) :
    s.attached k hook = fun _ _ _ => 0 := if_neg h

/-- What holds all along: influence is within the cgroup, the loaders outside, and the policies are in force. -/
structure Stands (g : UInt64) (l : Loaders) (s : Spread) : Prop where
  within : s.Within g
  outside : l.Outside g s.world
  defended : s.Defended g l

theorem Stands.loader (hs : s.Stands g l) {k : Nat} (hk : k ∈ l.tasks) : k ∉ s.influenced := by
  intro hin
  obtain ⟨t, ht, hg⟩ := hs.within k hin
  obtain ⟨u, hu, hout⟩ := hs.outside k hk
  obtain rfl : t = u := Option.some.inj (ht.symm.trans hu)
  exact hout hg

theorem Stands.task {a : TaskAct} {w : World} (hs : s.Stands g l) (ha : Trusted g l s (.task a))
    (h : s.world.step a = some w) : Stands g l { s with world := w, influenced := s.born a ++ s.influenced } := by
  have hguarded : Guarded g s (.task a) := by
    cases a with
    | attach i cgid => exact ha.1
    | _ => trivial
  refine ⟨hs.within.task hguarded h, fun k hk => ?_, hs.defended.tracked, fun k hk => ?_⟩
  · obtain ⟨t, ht, hout⟩ := hs.outside k hk
    obtain ⟨u, hu, hsame | rfl, -⟩ := task_of_step ht h
    · exact ⟨u, hu, hsame ▸ hout⟩
    · exact ⟨u, hu, ha.2 hk⟩
  · obtain ⟨t, ht, -⟩ := hs.outside k hk
    obtain ⟨u, hu, -, hlives⟩ := task_of_step ht h
    rcases hlives ((live_iff ht).1 (hs.defended.attached k hk)) with hlive | rfl
    · exact (live_iff hu).2 hlive
    · exact absurd (ha hk) (hs.loader hk)

theorem Stands.reach {k i j : Nat} {denial : Int} (hdenial : denial ≠ 0) (hs : s.Stands g l) (hk : k ∈ l.tasks)
    (h : s.reach (s.attached k (TaskBlock.sameCgroupAndNamespace denial)) i j = some t) : t.Stands g l := by
  rw [attached_of_live (hs.defended.attached k hk)] at h
  obtain ⟨hwithin, hfilter⟩ := hs.within.reach (fun current target hc hzero =>
    (cgid_of_allowed hdenial (hc ▸ mem_keys_of_isContainer hs.defended.tracked) hzero).trans hc) h
  have hworld := world_of_reach h
  refine ⟨hwithin, hworld ▸ hs.outside, hfilter ▸ hs.defended.tracked, fun k hk => ?_⟩
  unfold live
  rw [hworld]
  exact hs.defended.attached k hk

theorem Stands.bpf {i : Nat} {call : MapCall} (hs : s.Stands g l) (ha : Trusted g l s (.bpf i call))
    (h : s.bpfCall l.bpf i call = some t) : t.Stands g l := by
  unfold bpfCall at h
  rw [attached_of_live (hs.defended.attached l.bpf (by simp [Loaders.tasks]))] at h
  split at h
  · cases h
  · rename_i current hi
    split at h
    · cases h
    split at h
    · rename_i hallowed
      cases h
      refine ⟨hs.within, hs.outside, ha (fun hin => ?_) hs.defended.tracked, hs.defended.attached⟩
      obtain ⟨t, ht, hg⟩ := hs.within i hin
      obtain rfl : current = t := Option.some.inj (hi.symm.trans ht)
      exact blockBpf_ne_zero hs.defended.tracked (hg ▸ hallowed)
    · cases h
      exact hs

/-- **A trusted act leaves the policies in force.** -/
theorem Stands.step {a : DefenceAct} (hs : s.Stands g l) (ha : Trusted g l s a) (h : s.stepDefence l a = some t) :
    t.Stands g l := by
  cases a with
  | task a =>
    obtain ⟨w, hw, rfl⟩ := Option.map_eq_some_iff.1 h
    exact hs.task ha hw
  | kill i j => exact hs.reach (by decide) (by simp [Loaders.tasks]) h
  | ptrace i j => exact hs.reach (by decide) (by simp [Loaders.tasks]) h
  | bpf i call => exact hs.bpf ha h

/-! ## What happens when one is not in force -/

theorem kill_of_untracked {i j : Nat} {current target : Task} (hi : i ∈ s.influenced)
    (hcurrent : s.world.tasks[i]? = some current) (hlive : current.nsproxy ≠ none)
    (htarget : s.world.tasks[j]? = some target) (h : s.live l.kill = true → current.cgid ∉ s.cgroupFilter.keys) :
    s.stepDefence l (.kill i j) = some { s with influenced := j :: s.influenced } := by
  refine reach_of_allowed hi hcurrent hlive htarget ?_
  by_cases hk : s.live l.kill = true
  · rw [attached_of_live hk]
    exact allowed_of_untracked _ target (h hk)
  · rw [attached_of_exited hk]

/-- A task that `block_bpf` does not deny takes its cgroup out of the map. -/
theorem delete_of_not_defended {i : Nat} {current : Task} (hcurrent : s.world.tasks[i]? = some current)
    (hlive : current.nsproxy ≠ none) (h : s.live l.bpf = true → ¬ isContainer s.cgroupFilter current.cgid = true) :
    s.stepDefence l (.bpf i (.delete current.cgid)) =
      some { s with cgroupFilter := (MapCall.delete current.cgid).apply s.cgroupFilter } := by
  show s.bpfCall l.bpf i _ = _
  unfold bpfCall
  rw [hcurrent]
  have hallowed : s.attached l.bpf (fun fd current _ => blockBpf fd current.cgid)
      s.cgroupFilter current current = 0 := by
    by_cases hk : s.live l.bpf = true
    · rw [attached_of_live hk]
      show denyContainer s.cgroupFilter current.cgid = 0
      unfold denyContainer
      rw [Bool.eq_false_iff.2 (h hk)]
      rfl
    · rw [attached_of_exited hk]
  simp only [Option.isNone_iff_eq_none, hlive, if_false, hallowed, if_true]

theorem not_mem_delete (fd : CgroupFilter) (g : UInt64) : g ∉ ((MapCall.delete g).apply fd).keys := by
  intro hg
  simp only [MapCall.apply] at hg
  cases hd : fd.delete g with
  | none =>
    rw [hd] at hg
    exact (BoundedMap.delete_eq_none fd g).1 hd hg
  | some fd' =>
    rw [hd] at hg
    exact ((BoundedMap.mem_keys_delete hd g).1 hg).1 rfl

def Reaches (g : UInt64) (l : Loaders) (s : Spread) (j : Nat) : Prop :=
  ∃ acts t, Steps.Always (stepDefence l) (Trusted g l) s acts ∧ Steps.run (stepDefence l) s acts = some t ∧
    j ∈ t.influenced ∧ t.world = s.world

section
variable {i j : Nat} {current target : Task} (hi : i ∈ s.influenced) (hcurrent : s.world.tasks[i]? = some current)
  (hlive : current.nsproxy ≠ none) (htarget : s.world.tasks[j]? = some target)
include hi hcurrent hlive htarget

theorem reaches_by_kill (h : s.live l.kill = true → current.cgid ∉ s.cgroupFilter.keys) : s.Reaches g l j := by
  refine ⟨[.kill i j], { s with influenced := j :: s.influenced }, ⟨trivial, fun _ _ => trivial⟩,
    ?_, List.mem_cons_self, rfl⟩
  rw [Steps.run_cons, kill_of_untracked hi hcurrent hlive htarget h]
  rfl

theorem reaches_by_ptrace (h : ¬ s.live l.ptrace = true) : s.Reaches g l j := by
  have hstep : s.stepDefence l (.ptrace i j) = some { s with influenced := j :: s.influenced } := by
    refine reach_of_allowed hi hcurrent hlive htarget ?_
    rw [attached_of_exited h]
  refine ⟨[.ptrace i j], { s with influenced := j :: s.influenced }, ⟨trivial, fun _ _ => trivial⟩,
    ?_, List.mem_cons_self, rfl⟩
  rw [Steps.run_cons, hstep]
  rfl

theorem reaches_by_bpf (h : s.live l.bpf = true → ¬ isContainer s.cgroupFilter current.cgid = true) :
    s.Reaches g l j := by
  have hkill := kill_of_untracked (l := l)
    (s := { s with cgroupFilter := (MapCall.delete current.cgid).apply s.cgroupFilter })
    hi hcurrent hlive htarget (fun _ => not_mem_delete _ _)
  refine ⟨[.bpf i (.delete current.cgid), .kill i j],
    { s with cgroupFilter := (MapCall.delete current.cgid).apply s.cgroupFilter, influenced := j :: s.influenced },
    ⟨fun hnot => absurd hi hnot, fun _ _ => ⟨trivial, fun _ _ => trivial⟩⟩, ?_, List.mem_cons_self, rfl⟩
  rw [Steps.run_cons, delete_of_not_defended hcurrent hlive h, Option.bind_some, Steps.run_cons, hkill]
  rfl

end

end Spread

def guardedHost : Spread where
  world := ⟨[⟨7, 0, some ⟨0⟩⟩, ⟨1, 0, some ⟨0⟩⟩, ⟨1, 0, some ⟨0⟩⟩, ⟨1, 0, some ⟨0⟩⟩], 1⟩
  cgroupFilter := TaskBlock.tracking7
  influenced := [0]

end Policies
end CgroupGuard
