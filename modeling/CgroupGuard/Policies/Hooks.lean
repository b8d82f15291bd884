import CgroupGuard.ExecControl.Hook
/-!
# Hooks — the programs that ask who the caller is, or whom it acts on

`mount_block.c`, `bpf_block.c`, `capset_block.c` and `setuid_block.c` have the same `is_container`, which looks at the
value too.  The last three deny a container whatever it asks; their arguments are logged at most, and left out.

`kill_block.c` and `ptrace_block.c` ask the same of the current task and the one it acts on: the same cgroup, and the
same `nsproxy->pid_ns_for_children`.  They differ in how they write the denial.  The signal, its sender's credentials
and the ptrace mode are only logged, and left out.
-/
namespace CgroupGuard
namespace Policies

def EPERM : Int := 1

/-- `is_container`, with the caller's cgroup id. -/
def isContainer (cgroupFilter : CgroupFilter) (cgid : UInt64) : Bool :=
  match cgroupFilter.lookup cgid with
  | none => false
  | some val => val != 0

def denyContainer (cgroupFilter : CgroupFilter) (cgid : UInt64) : Int :=
  if !isContainer cgroupFilter cgid then 0 else -EPERM

def blockBpf (cgroupFilter : CgroupFilter) (cgid : UInt64) : Int := denyContainer cgroupFilter cgid

def blockCapset (cgroupFilter : CgroupFilter) (cgid : UInt64) : Int := denyContainer cgroupFilter cgid

def blockSetuid (cgroupFilter : CgroupFilter) (cgid : UInt64) : Int := denyContainer cgroupFilter cgid

end Policies
namespace TaskBlock

/-- `struct nsproxy`; a PID namespace is the number that stands for its address. -/
structure Nsproxy where
  pidNsForChildren : Nat
  deriving DecidableEq, Repr

/-- A task: its cgroup id, the PID namespace it lives in, and its `nsproxy`, which is null once it has exited. -/
structure Task where
  cgid : UInt64
  pidNs : Nat
  nsproxy : Option Nsproxy
  deriving DecidableEq, Repr

/-- `BPF_CORE_READ(task, nsproxy, pid_ns_for_children)`: null when a pointer on the way is. -/
def Task.pidNsForChildren (t : Task) : Option Nat := t.nsproxy.map Nsproxy.pidNsForChildren

/-- What the two programs do, with `denial` for what they return to deny. -/
def sameCgroupAndNamespace (denial : Int) (cgroupFilter : CgroupFilter) (current target : Task) : Int :=
  match cgroupFilter.lookup current.cgid with
  | none => 0
  | some _ =>
    if current.cgid ≠ target.cgid then denial
    else if current.pidNsForChildren ≠ target.pidNsForChildren then denial
    else 0

def EPERM : Int := 1

def blockCrossContainerKill (cgroupFilter : CgroupFilter) (current target : Task) : Int :=
  sameCgroupAndNamespace (-EPERM) cgroupFilter current target

def blockPtrace (cgroupFilter : CgroupFilter) (current child : Task) : Int :=
  sameCgroupAndNamespace (-1) cgroupFilter current child

/-- **What a tracked task is allowed.** -/
theorem sameCgroupAndNamespace_eq {denial : Int} {cgroupFilter : CgroupFilter} {current : Task} (target : Task)
    (htracked : current.cgid ∈ cgroupFilter.keys) :
    sameCgroupAndNamespace denial cgroupFilter current target =
      if current.cgid = target.cgid ∧ current.pidNsForChildren = target.pidNsForChildren then 0 else denial := by
  obtain ⟨v, hv⟩ := BoundedMap.exists_lookup_of_mem_keys htracked
  unfold sameCgroupAndNamespace
  rw [hv]
  dsimp only
  by_cases hc : current.cgid = target.cgid
  · by_cases hn : current.pidNsForChildren = target.pidNsForChildren
    · rw [if_neg (not_not.2 hc), if_neg (not_not.2 hn), if_pos ⟨hc, hn⟩]
    · rw [if_neg (not_not.2 hc), if_pos hn, if_neg (fun h => hn h.2)]
  · rw [if_pos hc, if_neg (fun h => hc h.1)]

end TaskBlock
end CgroupGuard
