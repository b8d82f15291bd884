import CgroupGuard.ControlPlane.Shutdown
import CgroupGuard.FileOpening.Loader
import CgroupGuard.MountBlock.Hook
import CgroupGuard.Policies.Hooks
/-!
# Membership — who is tracked, to the eight programs

Four programs ask whether the cgroup id is in `cgroup_filter`, four whether its value is not zero as well.  Whatever is
written to the map is a one, by the control plane and by the loader of `file_opening`, so that the two questions have
the same answer in every map they leave (`policies_agree`).
-/
namespace CgroupGuard
namespace Policies

open ControlPlane (mapInsert mapDelete)

/-- The test of `exec_control`, `block_file`, `block_ptrace` and `block_cross_container_kill`. -/
def isPresent (cgroupFilter : CgroupFilter) (cgid : UInt64) : Bool := (cgroupFilter.lookup cgid).isSome

/-! ## The programs ask nothing else of the map -/

section
variable {f g : CgroupFilter} {cgid : UInt64} (h : isPresent f cgid = isPresent g cgid)
include h

theorem execControl_congr (m : ExecControl.Maps) (file : Option ExecControl.File) (now : UInt64) :
    ExecControl.execControl m ⟨f, cgid, file, now⟩ = ExecControl.execControl m ⟨g, cgid, file, now⟩ := by
  unfold isPresent at h
  unfold ExecControl.execControl
  dsimp only
  cases hf : f.lookup cgid <;> cases hg : g.lookup cgid <;> simp_all

theorem blockFile_congr (dPath : FileOpening.DPath) (inodes : FileOpening.InodeBlacklist)
    (prefixes : FileOpening.PrefixBlacklist) (file : FileOpening.File) :
    FileOpening.blockFile dPath ⟨f, inodes, prefixes⟩ cgid file =
      FileOpening.blockFile dPath ⟨g, inodes, prefixes⟩ cgid file := by
  unfold isPresent at h
  unfold FileOpening.blockFile
  dsimp only
  cases hf : f.lookup cgid <;> cases hg : g.lookup cgid <;> simp_all

theorem sameCgroupAndNamespace_congr (denial : Int) {current : TaskBlock.Task} (hcgid : current.cgid = cgid)
    (target : TaskBlock.Task) :
    TaskBlock.sameCgroupAndNamespace denial f current target =
      TaskBlock.sameCgroupAndNamespace denial g current target := by
  subst hcgid
  unfold isPresent at h
  unfold TaskBlock.sameCgroupAndNamespace
  cases hf : f.lookup current.cgid <;> cases hg : g.lookup current.cgid <;> simp_all

end

theorem restrictMount_congr {f g : CgroupFilter} {cgid : UInt64} (h : isContainer f cgid = isContainer g cgid)
    (stack : MountBlock.Stack) (devName type : Option (List UInt8)) (flags : UInt64) :
    MountBlock.restrictMount f cgid stack devName type flags =
      MountBlock.restrictMount g cgid stack devName type flags := by
  unfold MountBlock.restrictMount
  rw [h]

theorem denyContainer_congr {f g : CgroupFilter} {cgid : UInt64} (h : isContainer f cgid = isContainer g cgid) :
    denyContainer f cgid = denyContainer g cgid := by
  unfold denyContainer
  rw [h]

/-! ## What is written to the map -/

/-- A call of a writer: `map_insert` and `map_delete` of a control plane, either of which may fail, and one round of the
loader's loop over `CGROUP_IDS`. -/
inductive Write where
  | insert (cgid : UInt64) (fault : Bool)
  | delete (cgid : UInt64) (fault : Bool)
  | populate (cgid : UInt64)
  deriving DecidableEq, Repr

def write (fd : CgroupFilter) : Write → CgroupFilter
  | .insert cgid fault => (mapInsert fd cgid fault).1
  | .delete cgid fault => (mapDelete fd cgid fault).1
  | .populate cgid => FileOpening.populateCgroups fd [cgid]

/-- The map after the writes of all processes, in the order they reach it. -/
def writeAll (fd : CgroupFilter) (ws : List Write) : CgroupFilter := ws.foldl write fd

def OnlyOnes (fd : CgroupFilter) : Prop := ∀ cgid val, fd.lookup cgid = some val → val = 1

theorem OnlyOnes.put {fd : CgroupFilter} (h : OnlyOnes fd) (cgid : UInt64) : OnlyOnes (fd.put cgid 1) := by
  intro g val hg
  rcases BoundedMap.lookup_put_eq_some hg with ⟨-, rfl⟩ | hg
  · rfl
  · exact h g val hg

theorem OnlyOnes.write {fd : CgroupFilter} (h : OnlyOnes fd) (w : Write) : OnlyOnes (write fd w) := by
  cases w with
  | insert cgid fault =>
    show OnlyOnes (mapInsert fd cgid fault).1
    rw [ControlPlane.mapInsert_fst]
    split
    · exact h
    · exact h.put cgid
  | delete cgid fault => exact fun g val hg => h g val (ControlPlane.lookup_of_mapDelete hg)
  | populate cgid => exact h.put cgid

/-- **No history of writes leaves a value other than one.** -/
theorem onlyOnes_writeAll : ∀ (ws : List Write) {fd : CgroupFilter}, OnlyOnes fd → OnlyOnes (writeAll fd ws)
  | [], _, h => h
  | w :: ws, _, h => onlyOnes_writeAll ws (h.write w)

/-- **All eight policies agree on who is tracked.** -/
theorem policies_agree (ws : List Write) (cgid : UInt64) :
    isPresent (writeAll BoundedMap.empty ws) cgid = isContainer (writeAll BoundedMap.empty ws) cgid := by
  have hones : OnlyOnes (writeAll BoundedMap.empty ws) := onlyOnes_writeAll ws (fun g val hg => by cases hg)
  unfold isPresent isContainer
  cases hl : BoundedMap.lookup (writeAll BoundedMap.empty ws) cgid with
  | none => rfl
  | some val =>
    rw [hones cgid val hl]
    rfl

/-! ## The writers -/

theorem writes_of_call {fault : Bool} {p q : ControlPlane.Pool} {c : ControlPlane.Call} (h : p.step fault c = some q) :
    ∃ ws, q.fd = writeAll p.fd ws := by
  cases c with
  | add cid => cases h; exact ⟨[], rfl⟩
  | remove cid => cases h; exact ⟨[], rfl⟩
  | worker i resolved =>
    obtain ⟨⟨cid, pc⟩, ⟨m, ⟨cid', pc'⟩⟩, hw, hr, rfl⟩ := Threads.stepAt_eq_some h
    obtain ⟨-, hm⟩ := ControlPlane.moves_of_step hr
    cases hm with
    | commit cgid fd hmem hfd => exact ⟨[.insert cgid fault], (congrArg Prod.fst hfd).symm⟩
    | delete cgid fd ok hfd => exact ⟨[.delete cgid fault], (congrArg Prod.fst hfd).symm⟩
    | _ => exact ⟨[], rfl⟩

theorem writes_of_turn {s t : ControlPlane.Process} {a : ControlPlane.Turn} (h : s.step a = some t) :
    ∃ ws, t.fd = writeAll s.fd ws := by
  cases a with
  | call c =>
    obtain ⟨q, hq, rfl⟩ := Option.map_eq_some_iff.1 h
    exact writes_of_call hq
  | shutdown =>
    obtain ⟨p, flush⟩ := s
    cases flush with
    | idle => cases h; exact ⟨[], rfl⟩
    | deleting items =>
      cases items with
      | nil => cases h; exact ⟨[], rfl⟩
      | cons item items => cases h; exact ⟨[.delete item.2 false], rfl⟩
    | cleared => cases h; exact ⟨[], rfl⟩
    | closed => cases h

theorem writes_of_populate (m : FileOpening.Maps) (config : FileOpening.Config) :
    (FileOpening.populate m config).cgroupFilter = writeAll m.cgroupFilter (config.cgroupIds.map Write.populate) := by
  unfold writeAll
  rw [List.foldl_map]
  rfl

end Policies
end CgroupGuard
