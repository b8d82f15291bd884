import CgroupGuard.ControlPlane.Docker
import CgroupGuard.Lib.Text
import Mathlib.Data.List.Infix
/-!
# CgroupPath — where `control_plane.py` looks for the cgroup of a container

`containerCgroupPath` is `_container_cgroup_path` with what its two commands print, and `livesIn` is where Docker puts
the container.  The parent that `docker inspect` prints is parsed and then not used, so the two agree for the parents
that name the default.
-/
namespace CgroupGuard
namespace ControlPlane

def CGROUPFS_ROOT : Text := "/sys/fs/cgroup".toList

def fullPath (cgroupPath : Text) : Text := Text.joinPath CGROUPFS_ROOT (cgroupPath.dropWhile (· = '/'))

/-- `_cgid_from_path`; `stat` gives the inode of a path, or nothing when there is no file. -/
def cgidFromPath (stat : Text → Option UInt64) (cgroupPath : Text) : Option UInt64 := stat (fullPath cgroupPath)

def inspectOutput (parent fullId : Text) : Text := parent ++ '|' :: fullId ++ ['\n']

/-- The parent and the full id; another number of parts is a `ValueError`. -/
def parseInspect (raw : Text) : Option (Text × Text) :=
  match (Text.strip raw).splitOn '|' with
  | [parent, fullId] => some (parent, fullId)
  | _ => none

/-- `_is_systemd_driver`, whose result is its cache from then on; `info` is the driver `docker info` prints, or nothing
when it fails. -/
def isSystemdDriver (cache : Option Bool) (info : Option Text) : Bool :=
  match cache with
  | some systemd => systemd
  | none =>
    match info with
    | some driver => driver = "systemd".toList
    | none => false

def cgroupPath (systemd : Bool) (fullId : Text) : Text :=
  if systemd then "system.slice/docker-".toList ++ fullId ++ ".scope".toList else "docker/".toList ++ fullId

/-- `_container_cgroup_path`, and the cache after it.  A container whose `inspect` fails leaves the cache alone. -/
def containerCgroupPath (cache : Option Bool) (inspect info : Option Text) : Option Text × Option Bool :=
  match inspect.bind parseInspect with
  | none => (none, cache)
  | some (_, fullId) =>
    let systemd := isSystemdDriver cache info
    (some (cgroupPath systemd fullId), some systemd)

/-! ## Where Docker puts a container -/

inductive Driver where
  | cgroupfs
  | systemd
  deriving DecidableEq, Repr

def Driver.name : Driver → Text
  | .cgroupfs => "cgroupfs".toList
  | .systemd => "systemd".toList

def sliceName (slice : Text) : Text := slice.take (slice.length - 6)

/-- The directories of a slice: `a-b.slice` is in `a.slice`, and `-.slice` is the root. -/
def expandSlice (slice : Text) : List Text :=
  if slice = "-.slice".toList then []
  else ((sliceName slice).splitOn '-').inits.tail.map (fun parts => ['-'].intercalate parts ++ ".slice".toList)

def ValidSlice (slice : Text) : Prop :=
  slice = "-.slice".toList ∨ ∃ name : Text, slice = name ++ ".slice".toList ∧ '/' ∉ name ∧ [] ∉ name.splitOn '-'

def ValidParent : Driver → Text → Prop
  | .cgroupfs, _ => True
  | .systemd, parent => parent = [] ∨ ValidSlice parent

/-- Docker's rule: the names of the directories down to the cgroup of a container.  No path leaves the hierarchy. -/
def livesIn (parent fullId : Text) : Driver → List Text
  | .cgroupfs =>
    let parent := if parent = [] then "docker".toList else parent
    Text.resolve [] CGROUPFS_ROOT ++ Text.resolve [] (parent ++ '/' :: fullId)
  | .systemd =>
    let parent := if parent = [] then "system.slice".toList else parent
    Text.resolve [] CGROUPFS_ROOT ++ expandSlice parent ++ ["docker-".toList ++ fullId ++ ".scope".toList]

def Placed (driver : Driver) (parent fullId : Text) : Prop :=
  ∃ path, (containerCgroupPath none (some (inspectOutput parent fullId)) (some driver.name)).1 = some path ∧
    Text.resolve [] (fullPath path) = livesIn parent fullId driver

/-- The parent is the default of the driver, by its name or by none, and the output with it has two parts. -/
def IsDefaultParent : Driver → Text → Prop
  | .cgroupfs, parent => parent = [] ∨ '|' ∉ parent ∧ Text.resolve [] parent = ["docker".toList]
  | .systemd, parent => parent = [] ∨ parent = "system.slice".toList

/-! ## Ids -/

def hexDigits : Text := "0123456789abcdef".toList

/-- A container id: it names a directory, and no character of it ends a part of the output. -/
structure FullId (fullId : Text) : Prop where
  ne_nil : fullId ≠ []
  hex : ∀ c ∈ fullId, c ∈ hexDigits

namespace FullId

variable {fullId : Text} (h : FullId fullId)
include h

theorem not_mem {c : Char} (hc : c ∉ hexDigits) : c ∉ fullId := fun hmem => hc (h.hex c hmem)

theorem isSpace_eq_false (c : Char) (hc : c ∈ fullId) : Text.isSpace c = false := by
  have hdigits : hexDigits.all (fun c => !Text.isSpace c) = true := by decide
  exact Bool.not_eq_true' _ ▸ List.all_eq_true.1 hdigits c (h.hex c hc)

theorem resolve (dir : List Text) : Text.resolve dir fullId = dir ++ [fullId] := by
  have hdot : '.' ∉ fullId := h.not_mem (by decide)
  refine Text.resolve_name dir (h.not_mem (by decide)) h.ne_nil ?_ ?_ <;> rintro rfl <;> exact hdot (by decide)

omit h in
theorem replicate (n : Nat) {c : Char} (hc : c ∈ hexDigits) : FullId (List.replicate (n + 1) c) where
  ne_nil := nofun
  hex _ hmem := List.eq_of_mem_replicate hmem ▸ hc

end FullId

/-! ## What the output is parsed to -/

theorem parseInspect_eq_none {raw : Text} (h : ((Text.strip raw).splitOn '|').length ≠ 2) :
    parseInspect raw = none := by
  unfold parseInspect
  split
  · rename_i hsplit
    rw [hsplit] at h
    exact absurd rfl h
  · rfl

theorem mem_dropWhile_isSpace {c : Char} (hc : Text.isSpace c = false) {t : Text} :
    c ∈ t.dropWhile Text.isSpace ↔ c ∈ t := by
  constructor
  · exact fun h => (List.dropWhile_sublist _).subset h
  · intro h
    rw [← List.takeWhile_append_dropWhile (p := Text.isSpace) (l := t)] at h
    refine (List.mem_append.1 h).resolve_left (fun htake => ?_)
    rw [List.mem_takeWhile_imp htake] at hc
    cases hc

theorem parseInspect_inspectOutput (parent : Text) {fullId : Text} (h : FullId fullId) :
    parseInspect (inspectOutput parent fullId) =
      if '|' ∈ parent then none else some (parent.dropWhile Text.isSpace, fullId) := by
  have hstrip : Text.strip (inspectOutput parent fullId) = parent.dropWhile Text.isSpace ++ '|' :: fullId :=
    Text.strip_append_newline (by decide) fullId h.isSpace_eq_false
  have hid : fullId.splitOn '|' = [fullId] := List.splitOn_eq_singleton (h.not_mem (by decide))
  by_cases hbar : '|' ∈ parent
  · rw [if_pos hbar]
    refine parseInspect_eq_none ?_
    obtain ⟨a, b, hab⟩ := List.append_of_mem ((mem_dropWhile_isSpace (by decide)).2 hbar)
    have ha := List.length_pos_of_ne_nil (List.splitOn_ne_nil '|' a)
    have hb := List.length_pos_of_ne_nil (List.splitOn_ne_nil '|' b)
    rw [hstrip, List.splitOn_append_cons_self, hid, hab, List.splitOn_append_cons_self, List.length_append,
      List.length_append, List.length_singleton]
    omega
  · have hparent : '|' ∉ parent.dropWhile Text.isSpace := fun hmem => hbar ((mem_dropWhile_isSpace (by decide)).1 hmem)
    rw [if_neg hbar, parseInspect, hstrip, List.splitOn_append_cons_self, hid, List.splitOn_eq_singleton hparent]
    rfl

/-! ## Where the path leads -/

section
variable {fullId : Text} (h : FullId fullId)
include h

theorem resolve_fullPath (driver : Driver) :
    Text.resolve [] (fullPath (cgroupPath (driver = .systemd) fullId)) = livesIn [] fullId driver := by
  cases driver with
  | cgroupfs =>
    show Text.resolve [] (CGROUPFS_ROOT ++ '/' :: ("docker".toList ++ '/' :: fullId)) = _
    rw [Text.resolve_append_slash, Text.resolve_append_slash, h.resolve]
    show _ = Text.resolve [] CGROUPFS_ROOT ++ Text.resolve [] ("docker".toList ++ '/' :: fullId)
    rw [Text.resolve_append_slash, h.resolve]
    rfl
  | systemd =>
    show Text.resolve [] (CGROUPFS_ROOT ++ '/' :: ("system.slice".toList ++ '/' :: ("docker-".toList ++ fullId ++
      ".scope".toList))) = _
    have hslash : '/' ∉ "docker-".toList ++ fullId ++ ".scope".toList := by
      rw [List.mem_append, List.mem_append]
      exact not_or.2 ⟨not_or.2 ⟨by decide, h.not_mem (by decide)⟩, by decide⟩
    rw [Text.resolve_append_slash, Text.resolve_append_slash, Text.resolve_name _ hslash nofun nofun nofun]
    rfl

/-- **The container is found where it is put with the default parent**, unless the output has another number of parts.
-/
theorem placed_iff_livesIn (driver : Driver) (parent : Text) :
    Placed driver parent fullId ↔ '|' ∉ parent ∧ livesIn parent fullId driver = livesIn [] fullId driver := by
  have hdriver : isSystemdDriver none (some driver.name) = decide (driver = .systemd) := by cases driver <;> decide
  unfold Placed containerCgroupPath
  rw [Option.bind_some, parseInspect_inspectOutput parent h]
  by_cases hbar : '|' ∈ parent
  · rw [if_pos hbar]
    exact iff_of_false (fun ⟨_, hpath, _⟩ => nomatch hpath) (fun hnot => hnot.1 hbar)
  · rw [if_neg hbar, ← resolve_fullPath h]
    dsimp only
    rw [hdriver]
    simp only [Option.some.injEq, exists_eq_left', hbar, not_false_eq_true, true_and]
    exact eq_comm

end

theorem livesIn_cgroupfs_iff {fullId : Text} (h : FullId fullId) (parent : Text) :
    livesIn parent fullId .cgroupfs = livesIn [] fullId .cgroupfs ↔
      parent = [] ∨ Text.resolve [] parent = ["docker".toList] := by
  unfold livesIn
  by_cases hparent : parent = []
  · exact iff_of_true (by rw [hparent]) (.inl hparent)
  · have hdocker : Text.resolve [] "docker".toList = ["docker".toList] := by decide
    dsimp only
    rw [if_neg hparent, if_pos rfl, Text.resolve_append_slash, Text.resolve_append_slash, h.resolve, h.resolve, hdocker,
      List.append_cancel_left_eq, List.append_cancel_right_eq, or_iff_right hparent]

theorem expandSlice_eq_singleton {slice dir : Text} (hvalid : ValidSlice slice) (h : expandSlice slice = [dir]) :
    slice = dir := by
  unfold expandSlice at h
  rcases hvalid with rfl | ⟨name, rfl, -, -⟩
  · cases h
  split at h
  · cases h
  · have hname : sliceName (name ++ ".slice".toList) = name := by
      rw [sliceName, List.length_append, show ".slice".toList.length = 6 by decide, Nat.add_sub_cancel, List.take_left]
    rw [hname] at h
    have hlen : (name.splitOn '-').length = 1 := by
      have := congrArg List.length h
      rw [List.length_map, List.length_tail, List.length_inits, List.length_singleton] at this
      omega
    obtain ⟨part, hpart⟩ := List.length_eq_one_iff.1 hlen
    have hwhole : ['-'].intercalate [part] = name := by rw [← hpart, List.intercalate_splitOn]
    rw [hpart] at h
    rw [← hwhole]
    exact (List.singleton_injective h)

theorem livesIn_systemd_iff {parent : Text} (hvalid : ValidParent .systemd parent) (fullId : Text) :
    livesIn parent fullId .systemd = livesIn [] fullId .systemd ↔ parent = [] ∨ parent = "system.slice".toList := by
  have hsystem : expandSlice "system.slice".toList = ["system.slice".toList] := by decide
  unfold livesIn
  rcases hvalid with rfl | hvalid
  · exact iff_of_true rfl (.inl rfl)
  · have hparent : parent ≠ [] := by
      rintro rfl
      rcases hvalid with h | ⟨name, h, -⟩
      · cases h
      · exact absurd h (by simp)
    dsimp only
    rw [if_neg hparent, if_pos rfl, List.append_cancel_right_eq, List.append_cancel_left_eq, hsystem,
      or_iff_right hparent]
    constructor
    · exact expandSlice_eq_singleton hvalid
    · rintro rfl
      exact hsystem

/-- **The control plane looks where the container is exactly when its parent is the default one.** -/
theorem placed_iff {driver : Driver} {parent fullId : Text} (hvalid : ValidParent driver parent) (h : FullId fullId) :
    Placed driver parent fullId ↔ IsDefaultParent driver parent := by
  rw [placed_iff_livesIn h]
  cases driver with
  | cgroupfs =>
    rw [livesIn_cgroupfs_iff h, IsDefaultParent]
    constructor
    · rintro ⟨hbar, hparent | hparent⟩
      · exact .inl hparent
      · exact .inr ⟨hbar, hparent⟩
    · rintro (rfl | ⟨hbar, hparent⟩)
      · exact ⟨List.not_mem_nil, .inl rfl⟩
      · exact ⟨hbar, .inr hparent⟩
  | systemd =>
    rw [livesIn_systemd_iff hvalid, IsDefaultParent]
    refine and_iff_right_of_imp ?_
    rintro (rfl | rfl) <;> decide

theorem Placed.cgidFromPath {driver : Driver} {parent fullId : Text} (h : Placed driver parent fullId)
    (inode : List Text → Option UInt64) :
    (containerCgroupPath none (some (inspectOutput parent fullId)) (some driver.name)).1.bind
      (ControlPlane.cgidFromPath (fun full => inode (Text.resolve [] full))) =
        inode (livesIn parent fullId driver) := by
  obtain ⟨path, hpath, hdir⟩ := h
  rw [hpath, Option.bind_some, ControlPlane.cgidFromPath, hdir]

def someId : Text := List.replicate 64 '4'

theorem fullId_someId : FullId someId := .replicate 63 (by decide)

theorem placed_iff_systemSlice : Placed .systemd "system.slice".toList someId := by
  have hslice : ValidParent .systemd "system.slice".toList :=
    .inr (.inr ⟨"system".toList, by decide, by decide, by decide⟩)
  exact (placed_iff hslice fullId_someId).2 (.inr rfl)

/-- **A container with a parent of its own is looked for elsewhere**, under either driver. -/
theorem misplaced :
    (ValidParent .cgroupfs "/ci".toList ∧ ¬ Placed .cgroupfs "/ci".toList someId) ∧
      (ValidParent .systemd "ci-build.slice".toList ∧ ¬ Placed .systemd "ci-build.slice".toList someId) := by
  have hslice : ValidParent .systemd "ci-build.slice".toList :=
    .inr (.inr ⟨"ci-build".toList, by decide, by decide, by decide⟩)
  refine ⟨⟨trivial, fun hplaced => ?_⟩, hslice, fun hplaced => ?_⟩
  · have hlives := ((placed_iff_livesIn fullId_someId _ _).1 hplaced).2
    exact absurd ((livesIn_cgroupfs_iff fullId_someId _).1 hlives) (by decide)
  · have hlives := ((placed_iff_livesIn fullId_someId _ _).1 hplaced).2
    exact absurd ((livesIn_systemd_iff hslice _).1 hlives) (by decide)

end ControlPlane
end CgroupGuard
