import CgroupGuard.ExecControl.Hook
import CgroupGuard.Lib.CString
import CgroupGuard.Lib.Layout
/-!
# Hook — the `file_open` program of `file_opener.c`

`blockFile` is the body of `block_file`: the membership test, the file's key in `inode_blacklist`, and then, if the
path fits the buffer, the eight slots of `prefix_blacklist` one after the other.  The maps hold what user space wrote to
them, byte for byte.  The log lines are left out, and with them the copy of the prefix they print.
-/
namespace CgroupGuard
namespace FileOpening

open ExecControl (Inode)

structure InodeKey where
  dev : UInt64
  ino : UInt64
  deriving DecidableEq, Repr

def InodeKey.bytes (key : InodeKey) : Buffer 16 :=
  ⟨leBytes 8 key.dev.toNat ++ leBytes 8 key.ino.toNat, by simp⟩

abbrev InodeBlacklist := BoundedMap (Buffer 16) UInt8 8

/-- `prefix_blacklist`, an array of `MAX_ENTRIES` times `PREFIX_LEN` bytes. -/
abbrev PrefixBlacklist := Fin 8 → Buffer 128

structure Maps where
  cgroupFilter : CgroupFilter
  inodeBlacklist : InodeBlacklist
  prefixBlacklist : PrefixBlacklist

/-- The maps where none was pinned before: a new array is all zero. -/
def Maps.init : Maps := ⟨BoundedMap.empty, BoundedMap.empty, fun _ => Buffer.zero 128⟩

/-- The opened file; `fPath` is its absolute path. -/
structure File where
  fInode : Inode
  fPath : List UInt8

/-- `bpf_d_path` with the buffer of the program: what is in the buffer after it, or nothing for a negative result. -/
structure DPath where
  read : List UInt8 → Option (Buffer 256)
  fits : ∀ path, path.length < 256 → ∃ buf rest, read path = some buf ∧ buf.bytes = path ++ 0 :: rest
  tooLong : ∀ path, 256 ≤ path.length → read path = none

def DPath.zeroing : DPath where
  read path := if path.length < 256 then some ((Buffer.zero 256).copyStr path) else none
  fits path h := by
    have hbytes := (Buffer.zero 256).bytes_copyStr path
    rw [List.take_of_length_le (by omega)] at hbytes
    exact ⟨_, _, if_pos h, hbytes⟩
  tooLong path h := if_neg (by omega)

/-- `has_prefix`; `path` is longer than the 128 bytes it is compared with. -/
def hasPrefix : List UInt8 → List UInt8 → Bool
  | _, [] => false
  | path, c :: pre =>
    if c = 0 then true
    else
      match path with
      | [] => false
      | b :: path => if b ≠ c then false else hasPrefix path pre

def inodeKey (inode : Inode) : InodeKey := { ino := inode.iIno, dev := inode.iSb.sDev.toUInt64 }

def blockFile (dPath : DPath) (m : Maps) (cgid : UInt64) (file : File) : Int :=
  match m.cgroupFilter.lookup cgid with
  | none => 0
  | some _ =>
    match m.inodeBlacklist.lookup (inodeKey file.fInode).bytes with
    | some _ => -1
    | none =>
      match dPath.read file.fPath with
      | none => 0
      | some path =>
        if (List.finRange 8).any (fun i =>
          let p := m.prefixBlacklist i
          -- an empty slot is passed over
          if p.bytes.headD 0 = 0 then false else hasPrefix path.bytes p.bytes) then -1
        else 0

/-! ## What the scan compares -/

theorem hasPrefix_nul : ∀ (path : List UInt8) {pre : List UInt8} (pad : List UInt8), NulFree pre →
    (hasPrefix path (pre ++ 0 :: pad) = true ↔ pre <+: path)
  | path, [], pad, _ => by cases path <;> simp [hasPrefix]
  | [], c :: pre, pad, h => by
    have hc : c ≠ 0 := h.head_ne
    simp [hasPrefix, hc]
  | b :: path, c :: pre, pad, h => by
    have hc : c ≠ 0 := h.head_ne
    have ih := hasPrefix_nul path pad h.tail
    by_cases hbc : b = c
    · simp [hasPrefix, hc, hbc, List.cons_prefix_cons, ih]
    · simp [hasPrefix, hc, hbc, List.cons_prefix_cons, Ne.symm hbc]

/-- **What is denied**, the slots holding any strings: the keys written to the map, and the paths that fit the buffer
and begin with the string of a slot that is not empty. -/
theorem blockFile_eq_neg_one (dPath : DPath) {m : Maps} {cgid : UInt64} (file : File) {strs : Fin 8 → List UInt8}
    (htracked : cgid ∈ m.cgroupFilter.keys) (hslots : ∀ i, (m.prefixBlacklist i).Holds (strs i)) :
    blockFile dPath m cgid file = -1 ↔
      (inodeKey file.fInode).bytes ∈ m.inodeBlacklist.keys ∨
        (file.fPath.length < 256 ∧ ∃ i, strs i ≠ [] ∧ strs i <+: file.fPath) := by
  obtain ⟨v, hv⟩ := BoundedMap.exists_lookup_of_mem_keys htracked
  unfold blockFile
  rw [hv]
  dsimp only
  cases hkey : m.inodeBlacklist.lookup (inodeKey file.fInode).bytes with
  | some w => simp [BoundedMap.mem_keys_of_lookup hkey]
  | none =>
    have hnot := (BoundedMap.lookup_eq_none _ _).1 hkey
    by_cases hlen : file.fPath.length < 256
    · obtain ⟨buf, rest, hread, hbuf⟩ := dPath.fits file.fPath hlen
      -- what the loop asks of a slot is asked of its string
      have hslot : ∀ i, (if (m.prefixBlacklist i).bytes.headD 0 = 0 then false
          else hasPrefix buf.bytes (m.prefixBlacklist i).bytes) = true ↔ strs i ≠ [] ∧ strs i <+: file.fPath := by
        intro i
        obtain ⟨hnul, pad, hbytes⟩ := hslots i
        rw [hbytes, hbuf]
        cases hstr : strs i with
        | nil => simp
        | cons c s =>
          rw [hstr] at hnul
          rw [List.cons_append, List.headD_cons, if_neg hnul.head_ne, ← List.cons_append, hasPrefix_nul _ _ hnul,
            hnul.prefix_append_nul]
          simp
      rw [hread]
      simp only [hnot, hlen, true_and, false_or]
      rw [← exists_congr hslot]
      simp only [List.any_eq_true, List.mem_finRange, true_and]
      split
      · rename_i h; exact iff_of_true rfl h
      · rename_i h; exact iff_of_false (by decide) h
    · rw [dPath.tooLong file.fPath (Nat.le_of_not_lt hlen)]
      simp [hnot, hlen]

theorem blockFile_of_mem_keys (dPath : DPath) {m : Maps} {cgid : UInt64} {file : File}
    (htracked : cgid ∈ m.cgroupFilter.keys) (hkey : (inodeKey file.fInode).bytes ∈ m.inodeBlacklist.keys) :
    blockFile dPath m cgid file = -1 := by
  obtain ⟨v, hv⟩ := BoundedMap.exists_lookup_of_mem_keys htracked
  obtain ⟨w, hw⟩ := BoundedMap.exists_lookup_of_mem_keys hkey
  unfold blockFile
  rw [hv]
  dsimp only
  rw [hw]

end FileOpening
end CgroupGuard
