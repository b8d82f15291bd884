import CgroupGuard.ControlPlane.Bootstrap
import CgroupGuard.ControlPlane.EventOrder
import CgroupGuard.Policies.Membership
/-!
# Host — whom the eight programs leave alone

A cgroup is under all eight policies or under none: none of the programs does anything to one that is not in
`cgroup_filter`, and each denies something to one that is.  A control plane only ever inserts what `resolve_cgid` found,
the cgroup of a container's run, so that nothing else on the host is touched (`all_or_none`); and once it has caught up
with Docker in order, the cgroups under the policies are those of the running containers (`governed_iff_running`).
-/
namespace CgroupGuard
namespace Policies

open ControlPlane (mapInsert mapDelete mapEnsure Docker System Act Moves ContainerMap Pc)

/-- No program denies the cgroup anything, and `exec_control` keeps nothing of it. -/
structure Untouched (cgroupFilter : CgroupFilter) (cgid : UInt64) : Prop where
  exec : ∀ m file now, ExecControl.execControl m ⟨cgroupFilter, cgid, file, now⟩ = (m, 0)
  file : ∀ dPath inodes prefixes file, FileOpening.blockFile dPath ⟨cgroupFilter, inodes, prefixes⟩ cgid file = 0
  kill : ∀ current target : TaskBlock.Task, current.cgid = cgid →
    TaskBlock.blockCrossContainerKill cgroupFilter current target = 0
  ptrace : ∀ current child : TaskBlock.Task, current.cgid = cgid → TaskBlock.blockPtrace cgroupFilter current child = 0
  mount : ∀ stack devName type flags, MountBlock.restrictMount cgroupFilter cgid stack devName type flags = 0
  bpf : blockBpf cgroupFilter cgid = 0
  capset : blockCapset cgroupFilter cgid = 0
  setuid : blockSetuid cgroupFilter cgid = 0

/-- Every program denies the cgroup something, whatever `bpf_d_path` leaves behind a path and whatever is on the
stack. -/
structure Governed (cgroupFilter : CgroupFilter) (cgid : UInt64) : Prop where
  exec : ∃ m file now, (ExecControl.execControl m ⟨cgroupFilter, cgid, file, now⟩).2 = -1
  file : ∀ dPath, ∃ inodes prefixes file, FileOpening.blockFile dPath ⟨cgroupFilter, inodes, prefixes⟩ cgid file = -1
  kill : ∃ current target : TaskBlock.Task, current.cgid = cgid ∧
    TaskBlock.blockCrossContainerKill cgroupFilter current target = -EPERM
  ptrace : ∃ current child : TaskBlock.Task, current.cgid = cgid ∧
    TaskBlock.blockPtrace cgroupFilter current child = -1
  mount : ∀ stack, ∃ devName type flags,
    MountBlock.restrictMount cgroupFilter cgid stack devName type flags = -EPERM
  bpf : blockBpf cgroupFilter cgid = -EPERM
  capset : blockCapset cgroupFilter cgid = -EPERM
  setuid : blockSetuid cgroupFilter cgid = -EPERM

/-! ## Outside the map and inside it -/

theorem isContainer_of_not_mem {cgroupFilter : CgroupFilter} {cgid : UInt64} (h : cgid ∉ cgroupFilter.keys) :
    isContainer cgroupFilter cgid = false := by
  unfold isContainer
  rw [(BoundedMap.lookup_eq_none _ _).2 h]

theorem isContainer_of_mem {cgroupFilter : CgroupFilter} {cgid : UInt64} (hones : OnlyOnes cgroupFilter)
    (h : cgid ∈ cgroupFilter.keys) : isContainer cgroupFilter cgid = true := by
  obtain ⟨v, hv⟩ := BoundedMap.exists_lookup_of_mem_keys h
  unfold isContainer
  rw [hv, hones cgid v hv]
  rfl

theorem denyContainer_eq (cgroupFilter : CgroupFilter) (cgid : UInt64) :
    denyContainer cgroupFilter cgid = if isContainer cgroupFilter cgid then -EPERM else 0 := by
  unfold denyContainer
  cases isContainer cgroupFilter cgid <;> rfl

theorem untouched_of_not_mem {cgroupFilter : CgroupFilter} {cgid : UInt64} (h : cgid ∉ cgroupFilter.keys) :
    Untouched cgroupFilter cgid := by
  have hl := (BoundedMap.lookup_eq_none _ _).2 h
  have hnot := isContainer_of_not_mem h
  have hdeny : denyContainer cgroupFilter cgid = 0 := by rw [denyContainer_eq, hnot]; rfl
  refine ⟨fun m file now => ?_, fun dPath inodes prefixes file => ?_, fun current target hc => ?_,
    fun current child hc => ?_, fun stack devName type flags => ?_, hdeny, hdeny, hdeny⟩
  · refine ExecControl.execControl_of_unchecked m ?_
    unfold ExecControl.Invocation.checked
    rw [hl]
  · unfold FileOpening.blockFile
    rw [hl]
  · subst hc
    unfold TaskBlock.blockCrossContainerKill TaskBlock.sameCgroupAndNamespace
    rw [hl]
  · subst hc
    unfold TaskBlock.blockPtrace TaskBlock.sameCgroupAndNamespace
    rw [hl]
  · unfold MountBlock.restrictMount
    rw [hnot]
    rfl

theorem exec_denied {cgroupFilter : CgroupFilter} {cgid : UInt64} (h : cgid ∈ cgroupFilter.keys) :
    ∃ m file now, (ExecControl.execControl m ⟨cgroupFilter, cgid, file, now⟩).2 = -1 := by
  obtain ⟨v, hv⟩ := BoundedMap.exists_lookup_of_mem_keys h
  let m : ExecControl.Maps := ⟨BoundedMap.empty.put cgid ⟨.learning, 0⟩, BoundedMap.empty⟩
  let x : ExecControl.Invocation := ⟨cgroupFilter, cgid, some ⟨some ⟨0, ⟨0⟩⟩⟩, ExecControl.horizonNs⟩
  have hx : x.checked = some (ExecControl.execKey cgid ⟨0, ⟨0⟩⟩) := by
    unfold ExecControl.Invocation.checked
    rw [hv]
    rfl
  have hrec : m.cgStateMap.lookup cgid = some ⟨.learning, 0⟩ := by
    refine BoundedMap.lookup_put_self ?_ _
    exact .inr (by decide)
  have hnew : ExecControl.execKey cgid ⟨0, ⟨0⟩⟩ ∉ m.allowMap.keys := List.not_mem_nil
  refine ⟨m, x.file, x.now, ?_⟩
  show (ExecControl.execControl m x).2 = -1
  have hstep := ExecControl.execControl_of_checked m hx
  generalize ExecControl.execControl m x = r at hstep ⊢
  cases hstep with
  | create hst => exact absurd (hst.symm.trans hrec) nofun
  | known st hst hk => exact absurd hk hnew
  | learn st s hst hk hd =>
    obtain rfl : st = ⟨.learning, 0⟩ := Option.some.inj (hst.symm.trans hrec)
    have hover : ¬ ExecControl.horizonNs - 0 < ExecControl.horizonNs := by decide
    exact absurd hd hover
  | deny st hst hk hd => rfl

theorem file_denied {cgroupFilter : CgroupFilter} {cgid : UInt64} (h : cgid ∈ cgroupFilter.keys)
    (dPath : FileOpening.DPath) :
    ∃ inodes prefixes file, FileOpening.blockFile dPath ⟨cgroupFilter, inodes, prefixes⟩ cgid file = -1 := by
  refine ⟨BoundedMap.empty.put (FileOpening.inodeKey ⟨0, ⟨0⟩⟩).bytes 1, fun _ => Buffer.zero 128, ⟨⟨0, ⟨0⟩⟩, []⟩, ?_⟩
  refine FileOpening.blockFile_of_mem_keys dPath h ((BoundedMap.mem_keys_put _ _ _ _).2 (.inl ⟨rfl, ?_⟩))
  exact .inr (by decide)

theorem task_denied (denial : Int) {cgroupFilter : CgroupFilter} {cgid : UInt64} (h : cgid ∈ cgroupFilter.keys) :
    ∃ current target : TaskBlock.Task, current.cgid = cgid ∧
      TaskBlock.sameCgroupAndNamespace denial cgroupFilter current target = denial := by
  refine ⟨⟨cgid, 0, some ⟨0⟩⟩, ⟨cgid, 1, some ⟨1⟩⟩, rfl, ?_⟩
  have hother : some (0 : Nat) ≠ some 1 := by decide
  exact (TaskBlock.sameCgroupAndNamespace_eq _ h).trans (if_neg (fun hboth => hother hboth.2))

/-- **A cgroup in a map of ones is denied something by every program.** -/
theorem governed_of_mem {cgroupFilter : CgroupFilter} {cgid : UInt64} (hones : OnlyOnes cgroupFilter)
    (h : cgid ∈ cgroupFilter.keys) : Governed cgroupFilter cgid := by
  have hcontainer := isContainer_of_mem hones h
  have hdeny : denyContainer cgroupFilter cgid = -EPERM := by rw [denyContainer_eq, hcontainer]; rfl
  refine ⟨exec_denied h, file_denied h, task_denied _ h, task_denied _ h, fun stack => ?_, hdeny, hdeny, hdeny⟩
  refine ⟨none, none, MountBlock.MS_REMOUNT, ?_⟩
  refine (MountBlock.restrictMount_denies_iff cgroupFilter cgid hcontainer stack none none nofun _).2
      (.inl (.inr (.inl ?_)))
  decide

/-! ## Which cgroups a control plane can put into the map -/

/-- Everything in the map was there before or belongs to a run of a container, and so does what a thread is about to
insert; every value is one. -/
structure Confined (leftover : CgroupFilter) (s : System) : Prop where
  key : ∀ g ∈ s.fd.keys, g ∈ leftover.keys ∨ g ∈ s.docker.owner
  resolved : ∀ w ∈ s.workers, ∀ g, w.pc = .addCommit g → g ∈ s.docker.owner
  ones : OnlyOnes s.fd

theorem owner_of_resolveCgid {d : Docker} {cid : String} {cgid : UInt64} (h : d.resolveCgid cid = some cgid) :
    cgid ∈ d.owner := by
  obtain ⟨c, -, hl⟩ := ControlPlane.exists_of_resolveCgid h
  exact AList.mem_of_lookup (d.owned c cgid hl)

theorem onlyOnes_of_moves {resolve : String → Option UInt64} {m m' : ContainerMap} {cid : String} {pc pc' : Pc}
    (hones : OnlyOnes m.fd) (h : Moves resolve false m cid pc m' pc') : OnlyOnes m'.fd := by
  cases h with
  | commit g fd hmem hfd =>
    have hwrite : fd = write m.fd (.insert g false) := (congrArg Prod.fst hfd).symm
    rw [hwrite]
    exact hones.write _
  | delete g fd ok hfd =>
    have hwrite : fd = write m.fd (.delete g false) := (congrArg Prod.fst hfd).symm
    rw [hwrite]
    exact hones.write _
  | _ => exact hones

theorem Confined.worker {leftover : CgroupFilter} {s : System} (hs : Confined leftover s) {i : Nat} {cid : String}
    {pc pc' : Pc} {m : ContainerMap} (hw : s.workers[i]? = some ⟨cid, pc⟩)
    (hm : Moves s.docker.resolveCgid false s.threads.shared cid pc m pc') :
    Confined leftover { s with threads := ⟨m, s.workers.set i ⟨cid, pc'⟩⟩ } := by
  have hkeys : ∀ g ∈ m.fd.keys, g ∈ leftover.keys ∨ g ∈ s.docker.owner := by
    cases hm with
    | commit g fd hmem hfd =>
      intro g' hg'
      rcases (ControlPlane.mem_keys_of_mapInsert hfd g').1 hg' with rfl | hold
      · exact .inr (hs.resolved _ (List.mem_of_getElem? hw) _ rfl)
      · exact hs.key g' hold
    | delete g fd ok hfd => exact fun g' hg' => hs.key g' ((ControlPlane.mem_keys_of_mapDelete hfd g').1 hg').2
    | _ => exact hs.key
  have hnew : ∀ g, pc' = .addCommit g → g ∈ s.docker.owner := by
    intro g hg
    cases hm with
    | resolved cgid hr => cases hg; exact owner_of_resolveCgid hr
    | _ => cases hg
  exact ⟨hkeys, Threads.forall_mem_set hs.resolved hnew, onlyOnes_of_moves hs.ones hm⟩

theorem Confined.step {leftover : CgroupFilter} {s t : System} {a : Act} (hs : Confined leftover s)
    (h : s.step a = some t) : Confined leftover t := by
  cases ControlPlane.stepped_of_step h with
  | happen hp d hd =>
    have howner : ∀ g ∈ s.docker.owner, g ∈ d.owner := fun g hg => by
      obtain ⟨c, hc⟩ := AList.exists_lookup hg
      exact AList.mem_of_lookup (Docker.owner_of_step hd hc)
    exact ⟨fun g hg => (hs.key g hg).imp_right (howner g), fun w hw g hpc => howner g (hs.resolved w hw g hpc), hs.ones⟩
  | ps hph =>
    refine ⟨hs.key, List.forall_mem_append.2 ⟨hs.resolved, fun w hw g hpc => ?_⟩, hs.ones⟩
    obtain ⟨cid, -, rfl⟩ := List.mem_map.1 hw
    cases hpc
  | join hph hdone => exact ⟨hs.key, hs.resolved, hs.ones⟩
  | subscribe hph => exact ⟨hs.key, hs.resolved, hs.ones⟩
  | read n e hph he =>
    refine ⟨hs.key, List.forall_mem_append.2 ⟨hs.resolved, List.forall_mem_singleton.2 (fun g hpc => ?_)⟩, hs.ones⟩
    rw [e.worker_eq] at hpc
    split at hpc <;> cases hpc
  | worker i cid pc pc' m hw hm => exact hs.worker hw hm

/-- **A cgroup is under all eight policies or under none**, in every state of every run over a map of ones; and under
none if it was not left in the map and no container's run was given it. -/
theorem all_or_none (d : Docker) (pinned : Option CgroupFilter) (hpinned : ∀ fd ∈ pinned, OnlyOnes fd)
    (acts : List Act) (s : System) (hrun : (System.boot d pinned).run acts = some s) (cgid : UInt64) :
    (Governed s.fd cgid ∨ Untouched s.fd cgid) ∧
      (cgid ∉ (mapEnsure pinned).keys → cgid ∉ s.docker.owner → Untouched s.fd cgid) := by
  have hstart : Confined (mapEnsure pinned) (System.boot d pinned) := by
    refine ⟨fun g hg => .inl hg, fun w hw => (nomatch hw), ?_⟩
    cases pinned with
    | none => exact fun g val hg => by cases hg
    | some fd => exact hpinned fd rfl
  have hs : Confined (mapEnsure pinned) s :=
    Steps.run_invariant (Confined (mapEnsure pinned)) hstart (fun _ _ _ hm ha => hm.step ha) hrun
  refine ⟨?_, fun hleft howner => ?_⟩
  · exact (Classical.em (cgid ∈ s.fd.keys)).imp (governed_of_mem hs.ones) untouched_of_not_mem
  · exact untouched_of_not_mem (fun hmem => (hs.key cgid hmem).elim hleft howner)

def leftover9 : CgroupFilter := BoundedMap.empty.put 9 1

def tracking5 : System :=
  ((System.boot ControlPlane.oneRunning (some leftover9)).run [.main, .worker 0, .worker 0, .worker 0]).get (by decide)

theorem all_or_none_tracking5 :
    (∀ fd ∈ some leftover9, OnlyOnes fd) ∧ (Governed tracking5.fd 5 ∨ Untouched tracking5.fd 5) ∧
      Untouched tracking5.fd 7 := by
  have hones : ∀ fd ∈ some leftover9, OnlyOnes fd := by
    intro fd hfd
    cases hfd
    exact OnlyOnes.put (fun g val hg => by cases hg) 9
  have h := all_or_none ControlPlane.oneRunning (some leftover9) hones [.main, .worker 0, .worker 0, .worker 0]
    tracking5 (Option.some_get (by decide)).symm
  exact ⟨hones, (h 5).1, (h 7).2 (by decide) (by decide)⟩

/-! ## Once all threads have finished -/

theorem running_of_key {s : System} (hs : ControlPlane.Agreement s) (hrest : s.AtRest) {g : UInt64}
    (hg : g ∈ s.fd.keys) :
    ∃ c, s.docker.running.lookup c = some g := by
  rcases hs.keys g hg with ⟨cid, hstore⟩ | ⟨w, hw, hpc⟩
  · obtain ⟨c, rfl, howner⟩ := hs.entry cid g hstore
    obtain ⟨htracked, hforgotten⟩ := hs.at_rest hrest c
    have hrunning : c ∈ s.docker.running := Classical.byContradiction (fun hnot => (hforgotten hnot).2 g howner hg)
    obtain ⟨g', hg', hstore', -⟩ := htracked hrunning
    obtain rfl : g = g' := Option.some.inj (hstore.symm.trans hstore')
    exact ⟨c, hg'⟩
  · have hdone := hrest.2 w hw
    rw [ControlPlane.Worker.isDone, hpc] at hdone
    cases hdone

theorem not_governed_of_untouched {cgroupFilter : CgroupFilter} {cgid : UInt64} (h : Untouched cgroupFilter cgid) :
    ¬ Governed cgroupFilter cgid := fun hg =>
  absurd (h.bpf.symm.trans hg.bpf) (by decide)

/-- **The eight policies are on the running containers and on nothing else**, once all threads have finished, in every
run in order. -/
theorem governed_iff_running (acts : List Act) (s : System)
    (hacts : Steps.Always System.step ControlPlane.InOrder System.listening acts)
    (hrun : System.listening.run acts = some s)
    (hrest : s.AtRest) (cgid : UInt64) :
    (Governed s.fd cgid ↔ ∃ c, s.docker.running.lookup c = some cgid) ∧
      (Untouched s.fd cgid ↔ ∀ c, s.docker.running.lookup c ≠ some cgid) := by
  have hs : ControlPlane.Agreement s := Steps.always_induction (fun _ => ControlPlane.Agreement)
    ControlPlane.agreement_listening (fun _ _ _ _ _ hm hord ha => hm.step hord ha) acts s hacts hrun
  have hstart : Confined BoundedMap.empty System.listening :=
    ⟨fun g hg => .inl hg, fun w hw => (nomatch hw), fun g val hg => by cases hg⟩
  have hconfined : Confined BoundedMap.empty s := Steps.run_invariant _ hstart (fun _ _ _ hm ha => hm.step ha) hrun
  have hkey : cgid ∈ s.fd.keys ↔ ∃ c, s.docker.running.lookup c = some cgid := by
    refine ⟨running_of_key hs hrest, fun ⟨c, hc⟩ => ?_⟩
    obtain ⟨g, hg, -, hmem⟩ := (hs.at_rest hrest c).1 (AList.mem_of_lookup hc)
    obtain rfl : cgid = g := Option.some.inj (hc.symm.trans hg)
    exact hmem
  rw [← not_exists, ← hkey]
  by_cases hmem : cgid ∈ s.fd.keys
  · have hgoverned := governed_of_mem hconfined.ones hmem
    exact ⟨iff_of_true hgoverned hmem, iff_of_false (fun h => not_governed_of_untouched h hgoverned)
      (not_not_intro hmem)⟩
  · have huntouched := untouched_of_not_mem hmem
    exact ⟨iff_of_false (not_governed_of_untouched huntouched) hmem, iff_of_true huntouched hmem⟩

def oneStart : List Act :=
  [.happen (.start (ControlPlane.idOf 'a') 5), .read 0, .worker 0, .worker 0, .worker 0]

def afterOneStart : System := (System.listening.run oneStart).get (by decide)

theorem governed_iff_running_oneStart : Governed afterOneStart.fd 5 ∧ Untouched afterOneStart.fd 6 := by
  have h := governed_iff_running oneStart afterOneStart (by decide) (Option.some_get (by decide)).symm (by decide)
  have hnone : afterOneStart.docker.owner.lookup 6 = none := by decide
  refine ⟨(h 5).1.2 ⟨ControlPlane.idOf 'a', by decide⟩, (h 6).2.2 (fun c hc => ?_)⟩
  cases hnone.symm.trans (afterOneStart.docker.owned c 6 hc)

end Policies
end CgroupGuard
