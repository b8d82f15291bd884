import CgroupGuard.FileOpening.Loader
/-!
# Blacklist — the configured prefixes against whole paths

The loader keeps 127 bytes of a prefix and the hook reads 255 of a path.  A longer prefix denies whatever begins with
the 127 bytes kept of it, and a longer path is allowed whatever it begins with (`blocked_iff`).
-/
namespace CgroupGuard
namespace FileOpening

def withPrefixes (cgroupFilter : CgroupFilter) (inodeBlacklist : InodeBlacklist) (paths : List (List UInt8)) : Maps :=
  ⟨cgroupFilter, inodeBlacklist, populatePrefixes Maps.init.prefixBlacklist paths⟩

section
variable {paths : List (List UInt8)} (hcount : paths.length ≤ 8) (hpaths : ∀ p ∈ paths, p ≠ [] ∧ NulFree p)
include hcount hpaths

theorem exists_slot_iff (path : List UInt8) :
    (∃ i : Fin 8, (paths[i.val]?.map (List.take 127)).getD [] ≠ [] ∧
      (paths[i.val]?.map (List.take 127)).getD [] <+: path) ↔ ∃ p ∈ paths, p.take 127 <+: path := by
  constructor
  · rintro ⟨i, hne, hpre⟩
    cases h : paths[i.val]? with
    | none => rw [h] at hne; exact absurd rfl hne
    | some p => rw [h] at hpre; exact ⟨p, List.mem_of_getElem? h, hpre⟩
  · rintro ⟨p, hp, hpre⟩
    obtain ⟨i, hi⟩ := List.mem_iff_getElem?.1 hp
    have hlt : i < 8 := Nat.lt_of_lt_of_le (List.getElem?_eq_some_iff.1 hi).1 hcount
    refine ⟨⟨i, hlt⟩, ?_⟩
    simp only [hi, Option.map_some, Option.getD_some]
    refine ⟨fun hnil => ?_, hpre⟩
    rcases List.take_eq_nil_iff.1 hnil with h | h
    · cases h
    · exact (hpaths p hp).1 h

/-- **What the two programs deny together.** -/
theorem blocked_iff (dPath : DPath) {cgroupFilter : CgroupFilter} (inodeBlacklist : InodeBlacklist) {cgid : UInt64}
    (htracked : cgid ∈ cgroupFilter.keys) (file : File) :
    blockFile dPath (withPrefixes cgroupFilter inodeBlacklist paths) cgid file = -1 ↔
      (inodeKey file.fInode).bytes ∈ inodeBlacklist.keys ∨
        (file.fPath.length < 256 ∧ ∃ p ∈ paths, p.take 127 <+: file.fPath) := by
  rw [← exists_slot_iff hcount hpaths]
  exact blockFile_eq_neg_one dPath file htracked (holds_populatePrefixes (fun p hp => (hpaths p hp).2))

end

/-- The inode is blacklisted, or the path fits the buffer and what the loader keeps of a prefix it cuts denies no path
that no prefix begins, or the path does not fit and no prefix begins it. -/
def WithinLimits (inodeBlacklist : InodeBlacklist) (paths : List (List UInt8)) (file : File) : Prop :=
  (inodeKey file.fInode).bytes ∈ inodeBlacklist.keys ∨
    if file.fPath.length < 256 then
      ∀ p ∈ paths, 127 < p.length → p.take 127 <+: file.fPath → ∃ q ∈ paths, q <+: file.fPath
    else ∀ p ∈ paths, ¬ p <+: file.fPath

/-- **The blacklist is exact on whole paths within the limits of the two buffers, and nowhere else.** -/
theorem blocks_prefixes_iff_withinLimits (dPath : DPath) (cgroupFilter : CgroupFilter) (inodeBlacklist : InodeBlacklist)
    (paths : List (List UInt8)) (hcount : paths.length ≤ 8) (hpaths : ∀ p ∈ paths, p ≠ [] ∧ NulFree p) (cgid : UInt64)
    (htracked : cgid ∈ cgroupFilter.keys) (file : File) :
    (blockFile dPath (withPrefixes cgroupFilter inodeBlacklist paths) cgid file = -1 ↔
        (inodeKey file.fInode).bytes ∈ inodeBlacklist.keys ∨ ∃ p ∈ paths, p <+: file.fPath) ↔
      WithinLimits inodeBlacklist paths file := by
  rw [blocked_iff hcount hpaths dPath inodeBlacklist htracked file]
  unfold WithinLimits
  by_cases hkey : (inodeKey file.fInode).bytes ∈ inodeBlacklist.keys
  · simp only [hkey, true_or]
  -- a prefix that begins the path does so with what is kept of it
  have hkept : (∃ q ∈ paths, q <+: file.fPath) → ∃ p ∈ paths, p.take 127 <+: file.fPath := by
    rintro ⟨q, hq, hpre⟩
    exact ⟨q, hq, (List.take_prefix 127 q).trans hpre⟩
  by_cases hlen : file.fPath.length < 256
  · simp only [hkey, hlen, true_and, false_or, if_true]
    constructor
    · intro h p hp _ hpre
      exact h.1 ⟨p, hp, hpre⟩
    · intro h
      refine ⟨?_, hkept⟩
      rintro ⟨p, hp, hpre⟩
      by_cases hcut : 127 < p.length
      · exact h p hp hcut hpre
      · rw [List.take_of_length_le (Nat.le_of_not_lt hcut)] at hpre
        exact ⟨p, hp, hpre⟩
  · simp only [hkey, hlen, false_and, false_or, if_false, false_iff, not_exists, not_and]

def prefixPaths : List (List UInt8) := [utf8 "/root/", utf8 "/protected.txt"]

def fileAt (path : List UInt8) : File := ⟨⟨42, ⟨0x800001⟩⟩, path⟩

def noInodes : InodeBlacklist := BoundedMap.empty

def tracking5 : CgroupFilter := BoundedMap.empty.put 5 1

theorem blocks_prefixes_iff_withinLimits_ssh :
    (blockFile .zeroing (withPrefixes tracking5 noInodes prefixPaths) 5 (fileAt (utf8 "/root/.ssh/id_rsa")) = -1 ↔
        (inodeKey (fileAt (utf8 "/root/.ssh/id_rsa")).fInode).bytes ∈ noInodes.keys ∨
          ∃ p ∈ prefixPaths, p <+: (fileAt (utf8 "/root/.ssh/id_rsa")).fPath) ↔
      WithinLimits noInodes prefixPaths (fileAt (utf8 "/root/.ssh/id_rsa")) :=
  blocks_prefixes_iff_withinLimits .zeroing tracking5 noInodes prefixPaths (by decide) (by decide) 5 (by decide)
    (fileAt (utf8 "/root/.ssh/id_rsa"))

def deepFile : File := fileAt (utf8 "/root/" ++ List.replicate 250 97)

/-- A directory whose path is longer than what the loader keeps. -/
def longPrefix : List UInt8 := utf8 "/srv/" ++ List.replicate 140 97

def besideFile : File := fileAt (utf8 "/srv/" ++ List.replicate 122 97 ++ utf8 "/readme")

/-- **A protected path is opened, and a path that is not protected is denied.** -/
theorem not_blocks_prefixes :
    (prefixPaths[0] <+: deepFile.fPath ∧
        blockFile .zeroing (withPrefixes tracking5 noInodes prefixPaths) 5 deepFile = 0) ∧
      ((∀ p ∈ [longPrefix], ¬ p <+: besideFile.fPath) ∧
        blockFile .zeroing (withPrefixes tracking5 noInodes [longPrefix]) 5 besideFile = -1) := by
  decide +kernel

end FileOpening
end CgroupGuard
