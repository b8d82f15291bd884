import Mathlib.Data.UInt
import CgroupGuard.FileOpening.Loader
/-!
# Identity — the device number of the hook and of `stat`

The loader packs the `st_dev` it is told, the hook the `s_dev` of the superblock.  The kernel keeps twelve bits of major
number above twenty of minor number; `stat` puts the major number between the low byte of the minor number and the rest
of it.  The two are the same number on the devices whose major number is the minor number's upper part, and no others.
-/
namespace CgroupGuard
namespace FileOpening

open ExecControl (Inode)

/-- `super_block.s_dev` of a device. -/
def sDev (major minor : UInt32) : UInt32 := (major <<< 20) ||| minor

/-- `st_dev` of a file on the device. -/
def stDev (major minor : UInt32) : UInt64 :=
  ((minor &&& (0xff : UInt32)) ||| (major <<< 8) ||| ((minor &&& ~~~(0xff : UInt32)) <<< 12)).toUInt64

def inodeOn (major minor : UInt32) (ino : UInt64) : Inode := ⟨ino, ⟨sDev major minor⟩⟩

def statOn (major minor : UInt32) (ino : UInt64) : Stat := ⟨stDev major minor, ino⟩

/-! ## The two numbers -/

theorem and_not_low_byte {m : Nat} (h : m < 2 ^ 32) : m &&& 0xffffff00 = m / 256 * 256 := by
  apply Nat.eq_of_testBit_eq
  intro i
  rw [show (0xffffff00 : Nat) = (2 ^ 24 - 1) * 2 ^ 8 by decide, show (256 : Nat) = 2 ^ 8 by decide, Nat.testBit_and,
    Nat.testBit_mul_two_pow, Nat.testBit_mul_two_pow, Nat.testBit_div_two_pow, Nat.testBit_two_pow_sub_one]
  by_cases hi : 8 ≤ i
  · rw [show i - 8 + 8 = i by omega]
    by_cases h24 : i - 8 < 24
    · simp [hi, h24]
    · have hlt : m < 2 ^ i := Nat.lt_of_lt_of_le h (Nat.pow_le_pow_right (by decide) (by omega))
      simp [Nat.testBit_lt_two_pow hlt]
  · simp [hi]

section
variable {major minor : UInt32} (hmajor : major < 2 ^ 12) (hminor : minor < 2 ^ 20)
include hmajor hminor

theorem toNat_sDev : (sDev major minor).toNat = major.toNat * 2 ^ 20 + minor.toNat := by
  have h1 : major.toNat < 2 ^ 12 := UInt32.lt_iff_toNat_lt.1 hmajor
  have h2 : minor.toNat < 2 ^ 20 := UInt32.lt_iff_toNat_lt.1 hminor
  unfold sDev
  rw [UInt32.toNat_or, UInt32.toNat_shiftLeft]
  show (major.toNat <<< 20) % 2 ^ 32 ||| minor.toNat = _
  have hfits : major.toNat <<< 20 < 2 ^ 32 := by rw [Nat.shiftLeft_eq]; omega
  rw [Nat.mod_eq_of_lt hfits, ← Nat.shiftLeft_add_eq_or_of_lt h2, Nat.shiftLeft_eq]

theorem toNat_stDev :
    (stDev major minor).toNat = minor.toNat / 256 * 2 ^ 20 + (major.toNat * 256 + minor.toNat % 256) := by
  have h1 : major.toNat < 2 ^ 12 := UInt32.lt_iff_toNat_lt.1 hmajor
  have h2 : minor.toNat < 2 ^ 20 := UInt32.lt_iff_toNat_lt.1 hminor
  unfold stDev
  rw [UInt32.toNat_toUInt64, UInt32.toNat_or, UInt32.toNat_or, UInt32.toNat_and, UInt32.toNat_shiftLeft,
    UInt32.toNat_shiftLeft, UInt32.toNat_and]
  show minor.toNat &&& 255 ||| (major.toNat <<< 8) % 2 ^ 32 ||| ((minor.toNat &&& 0xffffff00) <<< 12) % 2 ^ 32 = _
  rw [and_not_low_byte (by omega), Nat.and_two_pow_sub_one_eq_mod minor.toNat 8]
  -- each of the three parts is below the next
  have hlow : minor.toNat % 2 ^ 8 < 2 ^ 8 := Nat.mod_lt _ (by decide)
  have hmid : (major.toNat <<< 8) % 2 ^ 32 = major.toNat <<< 8 :=
    Nat.mod_eq_of_lt (by rw [Nat.shiftLeft_eq]; omega)
  have hhigh : ((minor.toNat / 256 * 256) <<< 12) % 2 ^ 32 = (minor.toNat / 256) <<< 20 := by
    rw [Nat.shiftLeft_eq, Nat.shiftLeft_eq]
    omega
  have hlt : major.toNat * 2 ^ 8 + minor.toNat % 2 ^ 8 < 2 ^ 20 := by omega
  have hsum : minor.toNat % 2 ^ 8 ||| major.toNat <<< 8 ||| (minor.toNat / 256) <<< 20 =
      minor.toNat / 256 * 2 ^ 20 + (major.toNat * 2 ^ 8 + minor.toNat % 2 ^ 8) := by
    rw [Nat.or_comm (minor.toNat % 2 ^ 8), ← Nat.shiftLeft_add_eq_or_of_lt hlow, Nat.or_comm,
      Nat.shiftLeft_eq major.toNat, ← Nat.shiftLeft_add_eq_or_of_lt hlt, Nat.shiftLeft_eq]
  rw [hmid, hhigh]
  omega

theorem stDev_eq_sDev_iff : stDev major minor = (sDev major minor).toUInt64 ↔ minor.toNat / 256 = major.toNat := by
  rw [← UInt64.toNat_inj, UInt32.toNat_toUInt64, toNat_stDev hmajor hminor, toNat_sDev hmajor hminor]
  omega

end

theorem sDev_inj {major minor major' minor' : UInt32} (hmajor : major < 2 ^ 12) (hminor : minor < 2 ^ 20)
    (hmajor' : major' < 2 ^ 12) (hminor' : minor' < 2 ^ 20) (h : sDev major minor = sDev major' minor') :
    major = major' ∧ minor = minor' := by
  rw [← UInt32.toNat_inj, toNat_sDev hmajor hminor, toNat_sDev hmajor' hminor'] at h
  have h2 : minor.toNat < 2 ^ 20 := UInt32.lt_iff_toNat_lt.1 hminor
  have h2' : minor'.toNat < 2 ^ 20 := UInt32.lt_iff_toNat_lt.1 hminor'
  rw [← UInt32.toNat_inj, ← UInt32.toNat_inj]
  omega

theorem stDev_inj {major minor major' minor' : UInt32} (hmajor : major < 2 ^ 12) (hminor : minor < 2 ^ 20)
    (hmajor' : major' < 2 ^ 12) (hminor' : minor' < 2 ^ 20) (h : stDev major minor = stDev major' minor') :
    major = major' ∧ minor = minor' := by
  rw [← UInt64.toNat_inj, toNat_stDev hmajor hminor, toNat_stDev hmajor' hminor'] at h
  have h1 : major.toNat < 2 ^ 12 := UInt32.lt_iff_toNat_lt.1 hmajor
  have h1' : major'.toNat < 2 ^ 12 := UInt32.lt_iff_toNat_lt.1 hmajor'
  rw [← UInt32.toNat_inj, ← UInt32.toNat_inj]
  omega

/-! ## The file the loader protects -/

/-- The loader's key of a file is the hook's, so that a tracked cgroup is denied the file once its update has found an
entry; and no other file has that key. -/
structure Identified (major minor : UInt32) (ino : UInt64) : Prop where
  same : packKey (statOn major minor ino) = (inodeKey (inodeOn major minor ino)).bytes
  denied : ∀ (dPath : DPath) (m : Maps) (before after : List (Option Stat)) (cgid : UInt64) (path : List UInt8),
    cgid ∈ m.cgroupFilter.keys → (populateInodes m.inodeBlacklist before).Accepts (packKey (statOn major minor ino)) →
      blockFile dPath
        { m with inodeBlacklist := populateInodes m.inodeBlacklist (before ++ some (statOn major minor ino) :: after) }
        cgid ⟨inodeOn major minor ino, path⟩ = -1
  apart : ∀ (major' minor' : UInt32) (ino' : UInt64), major' < 2 ^ 12 → minor' < 2 ^ 20 →
    packKey (statOn major minor ino) = packKey (statOn major' minor' ino') ∨
        (inodeKey (inodeOn major minor ino)).bytes = (inodeKey (inodeOn major' minor' ino')).bytes ∨
        packKey (statOn major minor ino) = (inodeKey (inodeOn major' minor' ino')).bytes →
      (major, minor, ino) = (major', minor', ino')

/-- **Loader and hook agree on a file exactly when the major number of its device is the upper part of the minor
number.** -/
theorem identified_iff (major minor : UInt32) (hmajor : major < 2 ^ 12) (hminor : minor < 2 ^ 20) (ino : UInt64) :
    Identified major minor ino ↔ minor.toNat / 256 = major.toNat := by
  have hsame : packKey (statOn major minor ino) = (inodeKey (inodeOn major minor ino)).bytes ↔
      minor.toNat / 256 = major.toNat := by
    rw [packKey_eq_bytes_iff, ← stDev_eq_sDev_iff hmajor hminor]
    exact and_iff_left rfl
  constructor
  · intro h
    exact hsame.1 h.same
  · intro h
    have hkey := hsame.2 h
    refine ⟨hkey, fun dPath m before after cgid path htracked hacc => ?_,
      fun major' minor' ino' hmajor' hminor' hor => ?_⟩
    · have hmem := mem_populateInodes m.inodeBlacklist before after hacc
      rw [hkey] at hmem
      exact blockFile_of_mem_keys dPath htracked hmem
    · have hloader : packKey (statOn major minor ino) = packKey (statOn major' minor' ino') →
          (major, minor, ino) = (major', minor', ino') := by
        intro heq
        obtain ⟨hdev, rfl⟩ := Stat.mk.inj (packKey_inj heq)
        obtain ⟨rfl, rfl⟩ := stDev_inj hmajor hminor hmajor' hminor' hdev
        rfl
      have hhook : packKey (statOn major minor ino) = (inodeKey (inodeOn major' minor' ino')).bytes →
          (major, minor, ino) = (major', minor', ino') := by
        intro heq
        obtain ⟨hdev, rfl⟩ := (packKey_eq_bytes_iff _ _).1 heq
        have hdev : stDev major minor = (sDev major' minor').toUInt64 := hdev
        rw [(stDev_eq_sDev_iff hmajor hminor).2 h] at hdev
        obtain ⟨rfl, rfl⟩ := sDev_inj hmajor hminor hmajor' hminor' (UInt32.toUInt64_inj.1 hdev)
        rfl
      rcases hor with heq | heq | heq
      · exact hloader heq
      · exact hhook (hkey.trans heq)
      · exact hhook heq

theorem identified_overlay : (35 : UInt32).toNat / 256 = (0 : UInt32).toNat ∧ Identified 0 35 42 :=
  ⟨by decide, (identified_iff 0 35 (by decide) (by decide) 42).2 (by decide)⟩

def shadowProtected : Maps := populate Maps.init ⟨[some (statOn 8 1 42)], [], [5]⟩

/-- **A protected file on a disk is opened.** -/
theorem protected_file_opened :
    packKey (statOn 8 1 42) ∈ shadowProtected.inodeBlacklist.keys ∧ 5 ∈ shadowProtected.cgroupFilter.keys ∧
      packKey (statOn 8 1 42) ≠ (inodeKey (inodeOn 8 1 42)).bytes ∧
      blockFile .zeroing shadowProtected 5 ⟨inodeOn 8 1 42, utf8 "/etc/shadow"⟩ = 0 := by
  decide

end FileOpening
end CgroupGuard
