import Mathlib.Logic.Function.Basic
import CgroupGuard.FileOpening.Hook
/-!
# Loader — the population of the maps by `loader.py`

What the loader packs for each line of its three lists, and the maps after it: no update's result stops it, so an
update that is refused leaves the maps as they were.  A prefix goes to the slot of its index in `PREFIX_PATHS`.
-/
namespace CgroupGuard
namespace FileOpening

/-- What `os.stat` gives of a file. -/
structure Stat where
  stDev : UInt64
  stIno : UInt64
  deriving DecidableEq, Repr

/-- `PROTECTED_FILES`, a file that is not found having no `Stat`, `PREFIX_PATHS` encoded, and `CGROUP_IDS`. -/
structure Config where
  protectedFiles : List (Option Stat)
  prefixPaths : List (List UInt8)
  cgroupIds : List UInt64

/-- `struct.pack("<QQ", st.st_dev, st.st_ino)`. -/
def packKey (st : Stat) : Buffer 16 := ⟨leBytes 8 st.stDev.toNat ++ leBytes 8 st.stIno.toNat, by simp⟩

/-- `path.encode()[:PREFIX_LEN - 1].ljust(PREFIX_LEN, b"\x00")`. -/
def encodePrefix (path : List UInt8) : Buffer 128 :=
  (Buffer.zero 128).write (path.take 127) (Nat.le_trans (List.length_take_le 127 path) (by decide))

def populateInodes (m : InodeBlacklist) (files : List (Option Stat)) : InodeBlacklist :=
  files.foldl (fun m file =>
    match file with
    | none => m
    | some st => m.put (packKey st) 1) m

/-- The update of an array map: refused past its end. -/
def putSlot (m : PrefixBlacklist) (i : Nat) (buf : Buffer 128) : PrefixBlacklist :=
  if h : i < 8 then Function.update m ⟨i, h⟩ buf else m

def populatePrefixesFrom (m : PrefixBlacklist) : Nat → List (List UInt8) → PrefixBlacklist
  | _, [] => m
  | i, path :: paths => populatePrefixesFrom (putSlot m i (encodePrefix path)) (i + 1) paths

def populatePrefixes (m : PrefixBlacklist) (paths : List (List UInt8)) : PrefixBlacklist :=
  populatePrefixesFrom m 0 paths

def populateCgroups (m : CgroupFilter) (cgids : List UInt64) : CgroupFilter :=
  cgids.foldl (fun m cgid => m.put cgid 1) m

def populate (m : Maps) (config : Config) : Maps :=
  { inodeBlacklist := populateInodes m.inodeBlacklist config.protectedFiles
    prefixBlacklist := populatePrefixes m.prefixBlacklist config.prefixPaths
    cgroupFilter := populateCgroups m.cgroupFilter config.cgroupIds }

/-! ## The keys -/

theorem packKey_eq_bytes_iff (st : Stat) (key : InodeKey) :
    packKey st = key.bytes ↔ st.stDev = key.dev ∧ st.stIno = key.ino := by
  constructor
  · intro h
    have hbytes : leBytes 8 st.stDev.toNat ++ leBytes 8 st.stIno.toNat =
        leBytes 8 key.dev.toNat ++ leBytes 8 key.ino.toNat := congrArg Buffer.bytes h
    obtain ⟨hdev, hino⟩ := List.append_inj hbytes (by simp)
    exact ⟨UInt64.toNat_inj.1 (leBytes_inj 8 st.stDev.toNat_lt key.dev.toNat_lt hdev),
      UInt64.toNat_inj.1 (leBytes_inj 8 st.stIno.toNat_lt key.ino.toNat_lt hino)⟩
  · rintro ⟨hdev, hino⟩
    unfold packKey InodeKey.bytes
    simp only [hdev, hino]

theorem packKey_inj {st st' : Stat} (h : packKey st = packKey st') : st = st' := by
  obtain ⟨hdev, hino⟩ := (packKey_eq_bytes_iff st ⟨st'.stDev, st'.stIno⟩).1 h
  obtain ⟨dev, ino⟩ := st
  cases hdev
  cases hino
  rfl

theorem populateInodes_eq : ∀ (files : List (Option Stat)) (m : InodeBlacklist),
    populateInodes m files = m.putAll 1 (files.filterMap (Option.map packKey))
  | [], _ => rfl
  | none :: files, m => populateInodes_eq files m
  | some st :: files, m => populateInodes_eq files (m.put (packKey st) 1)

theorem mem_populateInodes (m : InodeBlacklist) (before after : List (Option Stat)) {st : Stat}
    (hacc : (populateInodes m before).Accepts (packKey st)) :
    packKey st ∈ (populateInodes m (before ++ some st :: after)).keys := by
  have hput : packKey st ∈ ((populateInodes m before).put (packKey st) 1).keys :=
    (BoundedMap.mem_keys_put _ _ _ _).2 (.inl ⟨rfl, hacc⟩)
  have hsplit : populateInodes m (before ++ some st :: after) =
      ((populateInodes m before).put (packKey st) 1).putAll 1 (after.filterMap (Option.map packKey)) := by
    rw [populateInodes_eq, populateInodes_eq before, List.filterMap_append, BoundedMap.putAll_append]
    rfl
  rw [hsplit]
  exact BoundedMap.mem_keys_putAll_of_mem 1 _ hput

/-! ## The slots -/

theorem putSlot_apply (m : PrefixBlacklist) (i : Nat) (buf : Buffer 128) (j : Fin 8) :
    putSlot m i buf j = if j.val = i then buf else m j := by
  unfold putSlot
  split
  · rename_i h
    rw [Function.update_apply]
    simp only [Fin.ext_iff]
  · rename_i h
    have hne : j.val ≠ i := by have := j.isLt; omega
    rw [if_neg hne]

theorem populatePrefixesFrom_of_lt : ∀ (paths : List (List UInt8)) (m : PrefixBlacklist) (i : Nat) {j : Fin 8},
    j.val < i → populatePrefixesFrom m i paths j = m j
  | [], _, _, _, _ => rfl
  | path :: paths, m, i, j, hj => by
    rw [populatePrefixesFrom, populatePrefixesFrom_of_lt paths _ (i + 1) (Nat.lt_succ_of_lt hj), putSlot_apply,
      if_neg (Nat.ne_of_lt hj)]

theorem populatePrefixesFrom_add : ∀ (paths : List (List UInt8)) (m : PrefixBlacklist) (i k : Nat) {j : Fin 8},
    j.val = i + k → populatePrefixesFrom m i paths j = (paths[k]?.map encodePrefix).getD (m j)
  | [], _, _, _, _, _ => rfl
  | path :: paths, m, i, 0, j, hj => by
    rw [populatePrefixesFrom, populatePrefixesFrom_of_lt paths _ (i + 1) (by omega), putSlot_apply, if_pos (by omega)]
    rfl
  | path :: paths, m, i, k + 1, j, hj => by
    rw [populatePrefixesFrom, populatePrefixesFrom_add paths _ (i + 1) k (by omega), putSlot_apply,
      if_neg (by omega)]
    rfl

theorem populatePrefixes_apply (m : PrefixBlacklist) (paths : List (List UInt8)) (j : Fin 8) :
    populatePrefixes m paths j = (paths[j.val]?.map encodePrefix).getD (m j) :=
  populatePrefixesFrom_add paths m 0 j.val (Nat.zero_add _).symm

theorem holds_encodePrefix {path : List UInt8} (hpath : NulFree path) : (encodePrefix path).Holds (path.take 127) := by
  refine ⟨hpath.take 127, List.replicate (127 - (path.take 127).length) 0, ?_⟩
  have hlen := List.length_take_le 127 path
  show path.take 127 ++ (List.replicate 128 0).drop (path.take 127).length = _
  rw [List.drop_replicate, show 128 - (path.take 127).length = 127 - (path.take 127).length + 1 by omega,
    List.replicate_succ]

theorem holds_populatePrefixes {paths : List (List UInt8)} (hpaths : ∀ p ∈ paths, NulFree p) (i : Fin 8) :
    (populatePrefixes Maps.init.prefixBlacklist paths i).Holds ((paths[i.val]?.map (List.take 127)).getD []) := by
  rw [populatePrefixes_apply]
  cases h : paths[i.val]? with
  | none => exact Buffer.holds_zero 127
  | some p => exact holds_encodePrefix (hpaths p (List.mem_of_getElem? h))

end FileOpening
end CgroupGuard
