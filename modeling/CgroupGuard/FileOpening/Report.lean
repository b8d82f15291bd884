import CgroupGuard.FileOpening.Race
import CgroupGuard.FileOpening.Reload
/-!
# Report — what the loader says it has done

The loader looks at the result of an update for `CGROUP_IDS` only, and prints a rule for every file and prefix, and that
all maps are populated, whatever became of the updates.  What it prints is true exactly when everything fits
(`report_true_iff`).
-/
namespace CgroupGuard
namespace FileOpening

inductive ReportLine where
  | inodeRule (st : Stat)
  | fileNotFound
  | prefixRule (path : List UInt8)
  | cgroupAdded (cgid : UInt64)
  | cgroupFailed (cgid : UInt64)
  | allPopulated
  deriving DecidableEq, Repr

def reportCgroups (m : CgroupFilter) : List UInt64 → List ReportLine
  | [] => []
  | cgid :: cgids =>
    (if (m.update cgid 1).isSome then .cgroupAdded cgid else .cgroupFailed cgid) :: reportCgroups (m.put cgid 1) cgids

def report (m : Maps) (config : Config) : List ReportLine :=
  config.protectedFiles.map (fun file => match file with
    | some st => .inodeRule st
    | none => .fileNotFound) ++
  config.prefixPaths.map .prefixRule ++ reportCgroups m.cgroupFilter config.cgroupIds ++ [.allPopulated]

/-- Every open of a path below the prefix that fits the 256-byte buffer is denied to whoever is tracked. -/
def Maps.InForce (m : Maps) (path : List UInt8) : Prop :=
  ∀ (dPath : DPath) (cgroupFilter : CgroupFilter) (cgid : UInt64) (file : File), cgid ∈ cgroupFilter.keys →
    file.fPath.length < 256 → path <+: file.fPath →
      blockFile dPath { m with cgroupFilter := cgroupFilter } cgid file = -1

def ReportLine.IsTrue (config : Config) (m : Maps) : ReportLine → Prop
  | .inodeRule st => packKey st ∈ m.inodeBlacklist.keys
  | .fileNotFound => True
  | .prefixRule path => m.InForce path
  | .cgroupAdded cgid => cgid ∈ m.cgroupFilter.keys
  | .cgroupFailed cgid => cgid ∉ m.cgroupFilter.keys
  | .allPopulated =>
    (∀ key ∈ config.keys, key ∈ m.inodeBlacklist.keys) ∧
      (∀ path ∈ config.prefixPaths, ∃ i, m.prefixBlacklist i = encodePrefix path) ∧
      ∀ cgid ∈ config.cgroupIds, cgid ∈ m.cgroupFilter.keys

/-- Everything fits: the inodes and the cgroups beside those in the maps, and the prefixes, none of which is empty, in
the slots. -/
structure Fits (m : Maps) (config : Config) : Prop where
  inodes : (m.inodeBlacklist.keys ++ config.keys).dedup.length ≤ 8
  prefixes : ∀ path ∈ config.prefixPaths, path ≠ [] ∧ path.take 127 ∈ (config.prefixPaths.take 8).map (List.take 127)
  cgroups : (m.cgroupFilter.keys ++ config.cgroupIds).dedup.length ≤ 1024

/-! ## The cgroups -/

/-- **What is printed about the cgroups is true**: the loop looks at each result, and nothing is taken out. -/
theorem isTrue_reportCgroups (config : Config) : ∀ (cgids : List UInt64) (m : CgroupFilter)
    {line : ReportLine} {t : Maps},
    t.cgroupFilter = populateCgroups m cgids → line ∈ reportCgroups m cgids → line.IsTrue config t
  | [], _, _, _, _, h => by cases h
  | cgid :: cgids, m, line, t, ht, h => by
    have hrest : t.cgroupFilter = populateCgroups (m.put cgid 1) cgids := ht
    rcases List.mem_cons.1 h with rfl | h
    · split
      · rename_i hsome
        have hacc := (BoundedMap.update_isSome m cgid 1).1 hsome
        show cgid ∈ t.cgroupFilter.keys
        rw [hrest]
        exact BoundedMap.mem_keys_putAll_of_mem 1 cgids ((BoundedMap.mem_keys_put m cgid 1 cgid).2 (.inl ⟨rfl, hacc⟩))
      · rename_i hnone
        have hrefused : ¬ m.Accepts cgid := fun hacc => hnone ((BoundedMap.update_isSome m cgid 1).2 hacc)
        show cgid ∉ t.cgroupFilter.keys
        rw [hrest, BoundedMap.put_of_not_accepts hrefused]
        exact BoundedMap.not_mem_putAll_of_full 1 cgids (fun hlt => hrefused (.inr hlt))
          (fun hmem => hrefused (.inl hmem))
    · exact isTrue_reportCgroups config cgids (m.put cgid 1) hrest h

/-! ## The prefixes -/

theorem exists_inode_not_mem (keys : InodeBlacklist) :
    ∃ inode : ExecControl.Inode, (inodeKey inode).bytes ∉ keys.keys := by
  obtain ⟨n, -, hn⟩ := keys.exists_not_mem_keys (fun n => packKey ⟨0, UInt64.ofNat n⟩) (fun i hi j hj heq => by
    have hino : i % 2 ^ 64 = j % 2 ^ 64 := congrArg (UInt64.toNat ∘ Stat.stIno) (packKey_inj heq)
    rwa [Nat.mod_eq_of_lt (by omega), Nat.mod_eq_of_lt (by omega)] at hino)
  refine ⟨⟨UInt64.ofNat n, ⟨0⟩⟩, ?_⟩
  rw [← (packKey_eq_bytes_iff ⟨0, UInt64.ofNat n⟩ (inodeKey ⟨UInt64.ofNat n, ⟨0⟩⟩)).2 ⟨rfl, rfl⟩]
  exact hn

theorem inForce_iff {m : Maps} {strs : Fin 8 → List UInt8} (hslots : ∀ i, (m.prefixBlacklist i).Holds (strs i))
    (path : List UInt8) : m.InForce path ↔ (path.length < 256 → ∃ i, Protects (strs i) path) := by
  have hdenies : ∀ (dPath : DPath) {cgroupFilter : CgroupFilter} {cgid : UInt64} (file : File),
      cgid ∈ cgroupFilter.keys →
      (blockFile dPath { m with cgroupFilter := cgroupFilter } cgid file = -1 ↔
        (inodeKey file.fInode).bytes ∈ m.inodeBlacklist.keys ∨
          (file.fPath.length < 256 ∧ ∃ i, Protects (strs i) file.fPath)) :=
    fun dPath _ _ file htracked => blockFile_eq_neg_one dPath file htracked hslots
  constructor
  · intro hforce hlen
    obtain ⟨inode, hinode⟩ := exists_inode_not_mem m.inodeBlacklist
    have htracked : (0 : UInt64) ∈ BoundedMap.keys (BoundedMap.empty.put 0 1 : CgroupFilter) := by decide
    have hdenied := hforce DPath.zeroing _ 0 ⟨inode, path⟩ htracked hlen (List.prefix_refl path)
    exact (((hdenies _ ⟨inode, path⟩ htracked).1 hdenied).resolve_left hinode).2
  · intro hprotects dPath cgroupFilter cgid file htracked hlen hpre
    refine (hdenies dPath file htracked).2 (.inr ⟨hlen, ?_⟩)
    obtain ⟨i, hne, hi⟩ := hprotects (Nat.lt_of_le_of_lt hpre.length_le hlen)
    exact ⟨i, hne, hi.trans hpre⟩

section
variable {m : PrefixBlacklist} {paths : List (List UInt8)} (hpaths : ∀ p ∈ paths, NulFree p)
include hpaths

theorem exists_slot_eq_iff {path : List UInt8} (hpath : path ∈ paths) :
    (∃ i, populatePrefixes m paths i = encodePrefix path) ↔ path.take 127 ∈ (paths.take 8).map (List.take 127) := by
  constructor
  · rintro ⟨i, hi⟩
    rw [populatePrefixes_apply] at hi
    cases hget : paths[i.val]? with
    | none =>
      have hshort : paths.length ≤ 8 := Nat.le_trans (List.getElem?_eq_none_iff.1 hget) (Nat.le_of_lt i.isLt)
      rw [List.take_of_length_le hshort]
      exact List.mem_map_of_mem hpath
    | some q =>
      rw [hget] at hi
      have hq := holds_encodePrefix (hpaths q (List.mem_of_getElem? hget))
      rw [show encodePrefix q = encodePrefix path from hi] at hq
      refine List.mem_map.2 ⟨q, List.mem_of_getElem? (i := i.val) ?_,
          hq.unique (holds_encodePrefix (hpaths path hpath))⟩
      rw [List.getElem?_take_of_lt i.isLt, hget]
  · intro h
    obtain ⟨q, hq, htake⟩ := List.mem_map.1 h
    obtain ⟨i, hi⟩ := List.mem_iff_getElem?.1 hq
    have hlt : i < 8 := Nat.lt_of_lt_of_le (List.getElem?_eq_some_iff.1 hi).1 (List.length_take_le 8 paths)
    rw [List.getElem?_take_of_lt hlt] at hi
    refine ⟨⟨i, hlt⟩, ?_⟩
    rw [populatePrefixes_apply, hi]
    show encodePrefix q = encodePrefix path
    unfold encodePrefix
    simp only [htake]

end

/-! ## All of it -/

theorem mem_report_iff {m : Maps} {config : Config} {line : ReportLine} : line ∈ report m config ↔
    (∃ st, some st ∈ config.protectedFiles ∧ line = .inodeRule st) ∨
      (none ∈ config.protectedFiles ∧ line = .fileNotFound) ∨
      (∃ path ∈ config.prefixPaths, line = .prefixRule path) ∨ line ∈ reportCgroups m.cgroupFilter config.cgroupIds ∨
      line = .allPopulated := by
  simp only [report, List.mem_append, List.mem_map, List.mem_singleton, or_assoc]
  constructor
  · rintro (⟨file, hfile, rfl⟩ | ⟨path, hpath, rfl⟩ | h)
    · cases file with
      | none => exact .inr (.inl ⟨hfile, rfl⟩)
      | some st => exact .inl ⟨st, hfile, rfl⟩
    · exact .inr (.inr (.inl ⟨path, hpath, rfl⟩))
    · exact .inr (.inr (.inr h))
  · rintro (⟨st, hst, rfl⟩ | ⟨hnone, rfl⟩ | ⟨path, hpath, rfl⟩ | h)
    · exact .inl ⟨some st, hst, rfl⟩
    · exact .inl ⟨none, hnone, rfl⟩
    · exact .inr (.inl ⟨path, hpath, rfl⟩)
    · exact .inr (.inr h)

/-- **What the loader prints is true if and only if everything fits**, whatever was in the maps. -/
theorem report_true_iff (m : Maps) (config : Config) (strs : Fin 8 → List UInt8)
    (hslots : ∀ i, (m.prefixBlacklist i).Holds (strs i)) (hpaths : ∀ p ∈ config.prefixPaths, NulFree p) :
    (∀ line ∈ report m config, line.IsTrue config (populate m config)) ↔ Fits m config := by
  have hafter := holds_stringAfter hslots hpaths
  have hinodes : (populate m config).inodeBlacklist = m.inodeBlacklist.putAll 1 config.keys :=
    populateInodes_eq config.protectedFiles m.inodeBlacklist
  constructor
  · intro h
    obtain ⟨hkeys, hslot, hcgroups⟩ := h .allPopulated (mem_report_iff.2 (by simp))
    refine ⟨(BoundedMap.forall_mem_putAll_iff _ 1 _).1 (hinodes ▸ hkeys), fun path hpath => ⟨?_, ?_⟩,
      (BoundedMap.forall_mem_putAll_iff _ 1 _).1 hcgroups⟩
    · rintro rfl
      have hforce : (populate m config).InForce [] :=
        h (.prefixRule []) (mem_report_iff.2 (.inr (.inr (.inl ⟨[], hpath, rfl⟩))))
      obtain ⟨i, hne, hi⟩ := (inForce_iff hafter []).1 hforce (by decide)
      exact hne (List.prefix_nil.1 hi)
    · exact (exists_slot_eq_iff hpaths hpath).1 (hslot path hpath)
  · intro hfits line hmem
    have hkeys : ∀ key ∈ config.keys, key ∈ (populate m config).inodeBlacklist.keys :=
      hinodes ▸ (BoundedMap.forall_mem_putAll_iff _ 1 _).2 hfits.inodes
    have hslot : ∀ path ∈ config.prefixPaths, ∃ i, (populate m config).prefixBlacklist i = encodePrefix path :=
      fun path hpath => (exists_slot_eq_iff hpaths hpath).2 (hfits.prefixes path hpath).2
    rcases mem_report_iff.1 hmem with ⟨st, hst, rfl⟩ | ⟨-, rfl⟩ | ⟨path, hpath, rfl⟩ | hcgroup | rfl
    · exact hkeys _ (List.mem_filterMap.2 ⟨some st, hst, rfl⟩)
    · trivial
    · refine (inForce_iff hafter path).2 (fun _ => ?_)
      obtain ⟨i, hi⟩ := hslot path hpath
      have hholds : ((populate m config).prefixBlacklist i).Holds (path.take 127) := by
        rw [hi]
        exact holds_encodePrefix (hpaths path hpath)
      have hstr : stringAfter strs config.prefixPaths i = path.take 127 := (hafter i).unique hholds
      refine ⟨i, ?_, hstr ▸ List.take_prefix 127 path⟩
      rw [hstr]
      exact fun hnil => (hfits.prefixes path hpath).1 (by simpa using hnil)
    · exact isTrue_reportCgroups config _ m.cgroupFilter rfl hcgroup
    · exact ⟨hkeys, hslot, (BoundedMap.forall_mem_putAll_iff _ 1 _).2 hfits.cgroups⟩

def nineFiles : Config := ⟨(List.range 9).map (fun n => some ⟨0x801, UInt64.ofNat (42 + n)⟩), [], [5]⟩

theorem report_true_iff_nineFiles :
    (∀ i, (Maps.init.prefixBlacklist i).Holds []) ∧ (∀ p ∈ nineFiles.prefixPaths, NulFree p) ∧
      ¬ ∀ line ∈ report Maps.init nineFiles, line.IsTrue nineFiles (populate Maps.init nineFiles) := by
  have hslots : ∀ i, (Maps.init.prefixBlacklist i).Holds [] := fun i => ⟨nofun, List.replicate 127 0, rfl⟩
  have hpaths : ∀ p ∈ nineFiles.prefixPaths, NulFree p := fun p hp => absurd hp List.not_mem_nil
  refine ⟨hslots, hpaths, ?_⟩
  rw [report_true_iff Maps.init nineFiles (fun _ => []) hslots hpaths]
  exact fun hfits => absurd hfits.inodes (by decide)

end FileOpening
end CgroupGuard
