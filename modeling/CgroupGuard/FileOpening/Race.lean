import CgroupGuard.FileOpening.Loader
import CgroupGuard.Lib.Steps
/-!
# Race — a file opened while a loader writes its lists

A loader writes one entry after the other, and `block_file` looks at one map, and then one slot, after the other.  Both
go through the slots from the first on, and what the scan finds in one is the old prefix or the new.  So a file that the
old list and the new list protect may be opened in between, unless one slot protects it before and after
(`denied_throughout_iff`).
-/
namespace CgroupGuard
namespace FileOpening

/-- Where the loader is in its three loops: what each has still to write. -/
inductive LoaderPc where
  | inodes (files : List (Option Stat))
  | prefixes (i : Nat) (paths : List (List UInt8))
  | cgroups (cgids : List UInt64)
  | populated
  deriving DecidableEq, Repr

/-- The next step of the loader; the end of a loop is a step of its own. -/
def loaderStep (config : Config) (m : Maps) : LoaderPc → Option (Maps × LoaderPc)
  | .inodes (file :: files) => some ({ m with inodeBlacklist := populateInodes m.inodeBlacklist [file] }, .inodes files)
  | .inodes [] => some (m, .prefixes 0 config.prefixPaths)
  | .prefixes i (path :: paths) =>
    some ({ m with prefixBlacklist := putSlot m.prefixBlacklist i (encodePrefix path) }, .prefixes (i + 1) paths)
  | .prefixes _ [] => some (m, .cgroups config.cgroupIds)
  | .cgroups (cgid :: cgids) => some ({ m with cgroupFilter := populateCgroups m.cgroupFilter [cgid] }, .cgroups cgids)
  | .cgroups [] => some (m, .populated)
  | .populated => none

/-- Where `block_file` is: before each of its lookups, and before `bpf_d_path`. -/
inductive HookPc where
  | member
  | inode
  | path
  | scan (path : Buffer 256) (i : Nat)
  | done (ret : Int)
  deriving DecidableEq

def slotHit (path : Buffer 256) (p : Buffer 128) : Bool :=
  if p.bytes.headD 0 = 0 then false else hasPrefix path.bytes p.bytes

def hookStep (dPath : DPath) (cgid : UInt64) (file : File) (m : Maps) : HookPc → Option HookPc
  | .member =>
    match m.cgroupFilter.lookup cgid with
    | none => some (.done 0)
    | some _ => some .inode
  | .inode =>
    match m.inodeBlacklist.lookup (inodeKey file.fInode).bytes with
    | some _ => some (.done (-1))
    | none => some .path
  | .path =>
    match dPath.read file.fPath with
    | none => some (.done 0)
    | some path => some (.scan path 0)
  | .scan path i =>
    if h : i < 8 then
      if slotHit path (m.prefixBlacklist ⟨i, h⟩) then some (.done (-1)) else some (.scan path (i + 1))
    else some (.done 0)
  | .done _ => none

structure Opening where
  dPath : DPath
  cgid : UInt64
  file : File
  config : Config

structure Race where
  maps : Maps
  loader : LoaderPc
  hook : HookPc

inductive RaceAct where
  | loader
  | hook
  deriving DecidableEq, Repr

namespace Race

def start (o : Opening) (m : Maps) : Race := ⟨m, .inodes o.config.protectedFiles, .member⟩

def step (o : Opening) (s : Race) : RaceAct → Option Race
  | .loader => (loaderStep o.config s.maps s.loader).map (fun r => { s with maps := r.1, loader := r.2 })
  | .hook => (hookStep o.dPath o.cgid o.file s.maps s.hook).map (fun pc => { s with hook := pc })

abbrev run (o : Opening) (s : Race) (acts : List RaceAct) : Option Race := Steps.run (step o) s acts

def DeniedThroughout (o : Opening) (m : Maps) : Prop :=
  ∀ acts s ret, run o (start o m) acts = some s → s.hook = .done ret → ret = -1

end Race

def Protects (str path : List UInt8) : Prop := str ≠ [] ∧ str <+: path

instance (str path : List UInt8) : Decidable (Protects str path) := inferInstanceAs (Decidable (_ ∧ _))

/-- The string of slot `i` after the loader: of the new list, where that is long enough, or what it was. -/
def stringAfter (strs : Fin 8 → List UInt8) (paths : List (List UInt8)) (i : Fin 8) : List UInt8 :=
  (paths[i.val]?.map (List.take 127)).getD (strs i)

/-! ## By itself -/

theorem slotHit_iff {path : List UInt8} {buf : Buffer 256} {rest : List UInt8} (hbuf : buf.bytes = path ++ 0 :: rest)
    {p : Buffer 128} {str : List UInt8} (hp : p.Holds str) : slotHit buf p = true ↔ Protects str path := by
  obtain ⟨hnul, pad, hbytes⟩ := hp
  unfold slotHit Protects
  rw [hbytes, hbuf]
  cases str with
  | nil => simp
  | cons c s =>
    rw [List.cons_append, List.headD_cons, if_neg hnul.head_ne, ← List.cons_append, hasPrefix_nul _ _ hnul,
      hnul.prefix_append_nul]
    simp

theorem holds_stringAfter {m : PrefixBlacklist} {strs : Fin 8 → List UInt8} (hslots : ∀ i, (m i).Holds (strs i))
    {paths : List (List UInt8)} (hpaths : ∀ p ∈ paths, NulFree p) (i : Fin 8) :
    (populatePrefixes m paths i).Holds (stringAfter strs paths i) := by
  rw [populatePrefixes_apply]
  unfold stringAfter
  cases h : paths[i.val]? with
  | none => exact hslots i
  | some p => exact holds_encodePrefix (hpaths p (List.mem_of_getElem? h))

namespace Race

variable {o : Opening}

theorem run_scan (m : Maps) (pc : LoaderPc) (path : Buffer 256) : ∀ k i, i + k = 8 → ∃ n,
    run o ⟨m, pc, .scan path i⟩ (List.replicate n .hook) =
      some ⟨m, pc, .done (if ((List.finRange 8).drop i).any (fun j => slotHit path (m.prefixBlacklist j))
          then -1 else 0)⟩
  | 0, i, hi => by
    obtain rfl : i = 8 := by omega
    exact ⟨1, rfl⟩
  | k + 1, i, hi => by
    have hlt : i < 8 := by omega
    have hdrop : (List.finRange 8).drop i = ⟨i, hlt⟩ :: (List.finRange 8).drop (i + 1) := by
      rw [List.drop_eq_getElem_cons (by simpa using hlt), List.getElem_finRange]
      rfl
    rw [hdrop, List.any_cons]
    cases hhit : slotHit path (m.prefixBlacklist ⟨i, hlt⟩) with
    | true => exact ⟨1, by simp [step, hookStep, hlt, hhit]⟩
    | false =>
      obtain ⟨n, hn⟩ := run_scan m pc path k (i + 1) (by omega)
      refine ⟨n + 1, ?_⟩
      rw [List.replicate_succ, run, Steps.run_cons]
      simpa [step, hookStep, hlt, hhit] using hn

/-- **A scan that no write comes between is `blockFile`.** -/
theorem run_hook (o : Opening) (m : Maps) (pc : LoaderPc) : ∃ n,
    run o ⟨m, pc, .member⟩ (List.replicate n .hook) = some ⟨m, pc, .done (blockFile o.dPath m o.cgid o.file)⟩ := by
  unfold blockFile
  cases hc : m.cgroupFilter.lookup o.cgid with
  | none => exact ⟨1, by simp [step, hookStep, hc]⟩
  | some _ =>
    cases hk : m.inodeBlacklist.lookup (inodeKey o.file.fInode).bytes with
    | some _ => exact ⟨2, by simp [step, hookStep, hc, hk, List.replicate]⟩
    | none =>
      cases hp : o.dPath.read o.file.fPath with
      | none => exact ⟨3, by simp [step, hookStep, hc, hk, hp, List.replicate]⟩
      | some path =>
        obtain ⟨n, hn⟩ := run_scan (o := o) m pc path 8 0 rfl
        refine ⟨n + 3, ?_⟩
        simp only [List.replicate_succ, run, Steps.run_cons, step, hookStep, hc, hk, hp, Option.map_some,
          Option.bind_some]
        exact hn

theorem run_inodes (pc : HookPc) : ∀ (files : List (Option Stat)) (m : Maps),
    run o ⟨m, .inodes files, pc⟩ (List.replicate (files.length + 1) .loader) =
      some ⟨{ m with inodeBlacklist := populateInodes m.inodeBlacklist files }, .prefixes 0 o.config.prefixPaths, pc⟩
  | [], _ => rfl
  | file :: files, m => by
    have ih := run_inodes pc files { m with inodeBlacklist := populateInodes m.inodeBlacklist [file] }
    rw [List.length_cons, List.replicate_succ, run, Steps.run_cons]
    exact ih

theorem run_prefixes (pc : HookPc) : ∀ (paths : List (List UInt8)) (i : Nat) (m : Maps),
    run o ⟨m, .prefixes i paths, pc⟩ (List.replicate (paths.length + 1) .loader) =
      some ⟨{ m with prefixBlacklist := populatePrefixesFrom m.prefixBlacklist i paths },
          .cgroups o.config.cgroupIds, pc⟩
  | [], _, _ => rfl
  | path :: paths, i, m => by
    have ih := run_prefixes pc paths (i + 1)
      { m with prefixBlacklist := putSlot m.prefixBlacklist i (encodePrefix path) }
    rw [List.length_cons, List.replicate_succ, run, Steps.run_cons]
    exact ih

theorem run_cgroups (pc : HookPc) : ∀ (cgids : List UInt64) (m : Maps),
    run o ⟨m, .cgroups cgids, pc⟩ (List.replicate (cgids.length + 1) .loader) =
      some ⟨{ m with cgroupFilter := populateCgroups m.cgroupFilter cgids }, .populated, pc⟩
  | [], _ => rfl
  | cgid :: cgids, m => by
    have ih := run_cgroups pc cgids { m with cgroupFilter := populateCgroups m.cgroupFilter [cgid] }
    rw [List.length_cons, List.replicate_succ, run, Steps.run_cons]
    exact ih

/-- **The loader's steps without a scan between are `populate`.** -/
theorem run_loader (o : Opening) (m : Maps) (pc : HookPc) : ∃ n,
    run o ⟨m, .inodes o.config.protectedFiles, pc⟩ (List.replicate n .loader) =
      some ⟨populate m o.config, .populated, pc⟩ := by
  refine ⟨o.config.protectedFiles.length + 1 + (o.config.prefixPaths.length + 1) + (o.config.cgroupIds.length + 1), ?_⟩
  rw [List.replicate_add, List.replicate_add]
  refine Steps.run_append_of_run (Steps.run_append_of_run (run_inodes pc _ m) (run_prefixes pc _ 0 _)) ?_
  exact run_cgroups pc _ _

/-! ## What the scan may miss -/

def midway (o : Opening) (m : Maps) (w k : Nat) (path : Buffer 256) : Race :=
  { maps := { m with prefixBlacklist := populatePrefixes m.prefixBlacklist (o.config.prefixPaths.take w) }
    loader := .prefixes w (o.config.prefixPaths.drop w)
    hook := .scan path k }

theorem putSlot_take (m : PrefixBlacklist) {paths : List (List UInt8)} {w : Nat} (hw : w < paths.length) :
    putSlot (populatePrefixes m (paths.take w)) w (encodePrefix paths[w]) =
      populatePrefixes m (paths.take (w + 1)) := by
  funext j
  rw [putSlot_apply, populatePrefixes_apply, populatePrefixes_apply]
  rcases Nat.lt_trichotomy j.val w with hlt | heq | hgt
  · rw [if_neg (Nat.ne_of_lt hlt), List.getElem?_take_of_lt hlt, List.getElem?_take_of_lt (Nat.lt_succ_of_lt hlt)]
  · rw [if_pos heq, heq, List.getElem?_take_of_lt (Nat.lt_succ_self w), List.getElem?_eq_getElem hw]
    rfl
  · rw [if_neg (Nat.ne_of_gt hgt), List.getElem?_take_eq_none (Nat.le_of_lt hgt), List.getElem?_take_eq_none hgt]

theorem run_writes (m : Maps) (k : Nat) (path : Buffer 256) : ∀ j w, w + j ≤ o.config.prefixPaths.length →
    run o (midway o m w k path) (List.replicate j .loader) = some (midway o m (w + j) k path)
  | 0, w, _ => rfl
  | j + 1, w, hw => by
    have hlt : w < o.config.prefixPaths.length := by omega
    have hstep : step o (midway o m w k path) .loader = some (midway o m (w + 1) k path) := by
      unfold midway
      rw [← putSlot_take m.prefixBlacklist hlt, List.drop_eq_getElem_cons hlt]
      rfl
    rw [List.replicate_succ, run, Steps.run_cons, hstep, Option.bind_some,
      show w + (j + 1) = w + 1 + j by omega]
    exact run_writes m k path j (w + 1) (by omega)

section
variable {m : Maps} {strs : Fin 8 → List UInt8} (hslots : ∀ i, (m.prefixBlacklist i).Holds (strs i))
  (hpaths : ∀ p ∈ o.config.prefixPaths, NulFree p)
include hslots hpaths

theorem exists_pass {path : Buffer 256} {rest : List UInt8} (hpath : path.bytes = o.file.fPath ++ 0 :: rest) :
    ∀ k ≤ 8, (∀ i : Fin 8, i.val < k → ¬ (Protects (strs i) o.file.fPath ∧
        Protects (stringAfter strs o.config.prefixPaths i) o.file.fPath)) →
      ∃ acts w, run o (midway o m 0 0 path) acts = some (midway o m w k path) ∧ w ≤ k
  | 0, _, _ => ⟨[], 0, rfl, Nat.le_refl 0⟩
  | k + 1, hk, hnot => by
    obtain ⟨acts, w, hrun, hw⟩ := exists_pass hpath k (by omega) (fun i hi => hnot i (by omega))
    have hlt : k < 8 := hk
    -- a read of slot `k` that is no hit
    have hread : ∀ v str, ((midway o m v k path).maps.prefixBlacklist ⟨k, hlt⟩).Holds str →
        ¬ Protects str o.file.fPath → run o (midway o m v k path) [.hook] = some (midway o m v (k + 1) path) := by
      intro v str hstr hmiss
      have hhit : slotHit path ((midway o m v k path).maps.prefixBlacklist ⟨k, hlt⟩) = false :=
        Bool.eq_false_iff.2 (fun h => hmiss ((slotHit_iff hpath hstr).1 h))
      have hstep : step o (midway o m v k path) .hook = some (midway o m v (k + 1) path) := by
        unfold midway at hhit ⊢
        simp only [step, hookStep, dif_pos hlt, hhit]
        rfl
      rw [run, Steps.run_cons, hstep]
      rfl
    by_cases hold : Protects (strs ⟨k, hlt⟩) o.file.fPath
    · -- the old string would be a hit, so the new one is not, and the loader comes first
      have hnew := fun h => hnot ⟨k, hlt⟩ (Nat.lt_succ_self k) ⟨hold, h⟩
      have hlen : k < o.config.prefixPaths.length := by
        refine Nat.lt_of_not_le (fun hle => hnew ?_)
        unfold stringAfter
        rwa [List.getElem?_eq_none hle]
      have hwrites := run_writes (o := o) m k path (k + 1 - w) w (by omega)
      rw [show w + (k + 1 - w) = k + 1 by omega] at hwrites
      have hslot : ((midway o m (k + 1) k path).maps.prefixBlacklist ⟨k, hlt⟩).Holds
          (stringAfter strs o.config.prefixPaths ⟨k, hlt⟩) := by
        have hafter := holds_stringAfter hslots hpaths ⟨k, hlt⟩
        rw [populatePrefixes_apply] at hafter
        show (populatePrefixes _ _ _).Holds _
        rwa [populatePrefixes_apply, List.getElem?_take_of_lt (Nat.lt_succ_self k)]
      have hall := Steps.run_append_of_run (Steps.run_append_of_run hrun hwrites) (hread (k + 1) _ hslot hnew)
      exact ⟨_, k + 1, hall, Nat.le_refl _⟩
    · have hslot : ((midway o m w k path).maps.prefixBlacklist ⟨k, hlt⟩).Holds (strs ⟨k, hlt⟩) := by
        show (populatePrefixes _ _ _).Holds _
        rw [populatePrefixes_apply, List.getElem?_take_eq_none hw]
        exact hslots ⟨k, hlt⟩
      exact ⟨_, w, Steps.run_append_of_run hrun (hread w _ hslot hold), Nat.le_succ_of_le hw⟩

/-- **A file that no slot protects both before and after may be opened**, if its key was not in the map. -/
theorem exists_opened (hkey : (inodeKey o.file.fInode).bytes ∉ m.inodeBlacklist.keys)
    (hnot : o.file.fPath.length < 256 → ∀ i, ¬ (Protects (strs i) o.file.fPath ∧
      Protects (stringAfter strs o.config.prefixPaths i) o.file.fPath)) :
    ∃ acts s, run o (start o m) acts = some s ∧ s.hook = .done 0 := by
  cases hc : m.cgroupFilter.lookup o.cgid with
  | none => exact ⟨[.hook], _, by simp [start, step, hookStep, hc]; rfl, rfl⟩
  | some _ =>
    have hk := (BoundedMap.lookup_eq_none _ _).2 hkey
    by_cases hlen : o.file.fPath.length < 256
    · obtain ⟨path, rest, hread, hpath⟩ := o.dPath.fits o.file.fPath hlen
      have hopen : run o (start o m) [.hook, .hook, .hook] =
          some ⟨m, .inodes o.config.protectedFiles, .scan path 0⟩ := by
        simp [start, step, hookStep, hc, hk, hread]
      let m' : Maps := { m with inodeBlacklist := populateInodes m.inodeBlacklist o.config.protectedFiles }
      have hmid : run o ⟨m, .inodes o.config.protectedFiles, .scan path 0⟩ _ = some (midway o m' 0 0 path) :=
        run_inodes (.scan path 0) o.config.protectedFiles m
      obtain ⟨acts, w, hpass, -⟩ := exists_pass (m := m') hslots hpaths hpath 8 (Nat.le_refl 8) (fun i _ => hnot hlen i)
      have hlast : run o (midway o m' w 8 path) [.hook] = some { midway o m' w 8 path with hook := .done 0 } := rfl
      have hall := Steps.run_append_of_run (Steps.run_append_of_run (Steps.run_append_of_run hopen hmid) hpass) hlast
      exact ⟨_, _, hall, rfl⟩
    · have hread := o.dPath.tooLong o.file.fPath (Nat.le_of_not_lt hlen)
      exact ⟨[.hook, .hook, .hook], _, by simp [start, step, hookStep, hc, hk, hread]; rfl, rfl⟩

end

/-! ## What it finds -/

/-- What the hook has seen so far, of a file whose denial is sure: its key was not in the map, and no slot that protects
it before and after is behind the scan. -/
def HookGuarded (o : Opening) (m : Maps) (strs : Fin 8 → List UInt8) : HookPc → Prop
  | .member => True
  | .inode => True
  | .path => (inodeKey o.file.fInode).bytes ∉ m.inodeBlacklist.keys
  | .scan path k =>
    (inodeKey o.file.fInode).bytes ∉ m.inodeBlacklist.keys ∧ (∃ rest, path.bytes = o.file.fPath ++ 0 :: rest) ∧
      ∀ i : Fin 8, i.val < k → ¬ (Protects (strs i) o.file.fPath ∧
        Protects (stringAfter strs o.config.prefixPaths i) o.file.fPath)
  | .done ret => ret = -1

structure Guarded (o : Opening) (m : Maps) (strs : Fin 8 → List UInt8) (s : Race) : Prop where
  member : o.cgid ∈ s.maps.cgroupFilter.keys
  inodes : ∀ key ∈ m.inodeBlacklist.keys, key ∈ s.maps.inodeBlacklist.keys
  slots : ∀ i, (s.maps.prefixBlacklist i).Holds (strs i) ∨
    (s.maps.prefixBlacklist i).Holds (stringAfter strs o.config.prefixPaths i)
  prefixes : ∀ i paths, s.loader = .prefixes i paths → paths = o.config.prefixPaths.drop i
  hook : HookGuarded o m strs s.hook

/-- What protects the file for sure: its key in the map, or one slot both before and after. -/
def SurelyDenied (o : Opening) (m : Maps) (strs : Fin 8 → List UInt8) : Prop :=
  (inodeKey o.file.fInode).bytes ∈ m.inodeBlacklist.keys ∨
    (o.file.fPath.length < 256 ∧ ∃ i, Protects (strs i) o.file.fPath ∧
      Protects (stringAfter strs o.config.prefixPaths i) o.file.fPath)

instance (o : Opening) (m : Maps) (strs : Fin 8 → List UInt8) : Decidable (SurelyDenied o m strs) :=
  inferInstanceAs (Decidable (_ ∨ _))

section
variable {m : Maps} {strs : Fin 8 → List UInt8} {s t : Race}

theorem Guarded.loader (hpaths : ∀ p ∈ o.config.prefixPaths, NulFree p) (hs : Guarded o m strs s)
    (h : step o s .loader = some t) : Guarded o m strs t := by
  obtain ⟨⟨maps, pc⟩, hstep, rfl⟩ := Option.map_eq_some_iff.1 h
  obtain ⟨maps₀, loader, hook⟩ := s
  cases loader with
  | inodes files =>
    cases files with
    | nil =>
      cases hstep
      exact ⟨hs.member, hs.inodes, hs.slots, fun i paths hpc => by cases hpc; rfl, hs.hook⟩
    | cons file files =>
      cases hstep
      refine ⟨hs.member, fun key hkey => ?_, hs.slots, (fun _ _ h => by cases h), hs.hook⟩
      show key ∈ (populateInodes maps₀.inodeBlacklist [file]).keys
      rw [populateInodes_eq]
      exact BoundedMap.mem_keys_putAll_of_mem 1 _ (hs.inodes key hkey)
  | prefixes i paths =>
    cases paths with
    | nil =>
      cases hstep
      exact ⟨hs.member, hs.inodes, hs.slots, (fun _ _ h => by cases h), hs.hook⟩
    | cons path paths =>
      cases hstep
      have hdrop : path :: paths = o.config.prefixPaths.drop i := hs.prefixes i _ rfl
      have hget : o.config.prefixPaths[i]? = some path := by
        have h0 : (o.config.prefixPaths.drop i)[0]? = some path := by rw [← hdrop]; rfl
        simpa using h0
      refine ⟨hs.member, hs.inodes, fun j => ?_, fun k more hpc => ?_, hs.hook⟩
      · dsimp only
        rw [putSlot_apply]
        split
        · rename_i hj
          refine .inr ?_
          rw [stringAfter, hj, hget]
          exact holds_encodePrefix (hpaths path (List.mem_of_getElem? hget))
        · exact hs.slots j
      · cases hpc
        rw [← List.drop_drop, ← hdrop]
        rfl
  | cgroups cgids =>
    cases cgids with
    | nil =>
      cases hstep
      exact ⟨hs.member, hs.inodes, hs.slots, (fun _ _ h => by cases h), hs.hook⟩
    | cons cgid cgids =>
      cases hstep
      exact ⟨BoundedMap.mem_keys_put_of_mem 1 hs.member, hs.inodes, hs.slots, (fun _ _ h => by cases h), hs.hook⟩
  | populated => cases hstep

theorem Guarded.step_hook (hsure : SurelyDenied o m strs) (hs : Guarded o m strs s) (h : step o s .hook = some t) :
    Guarded o m strs t := by
  obtain ⟨pc, hstep, rfl⟩ := Option.map_eq_some_iff.1 h
  refine ⟨hs.member, hs.inodes, hs.slots, hs.prefixes, ?_⟩
  obtain ⟨maps, loader, hook⟩ := s
  have hseen : HookGuarded o m strs hook := hs.hook
  show HookGuarded o m strs pc
  cases hook with
  | member =>
    obtain ⟨v, hv⟩ := BoundedMap.exists_lookup_of_mem_keys hs.member
    simp only [hookStep, hv] at hstep
    cases hstep
    trivial
  | inode =>
    cases hk : maps.inodeBlacklist.lookup (inodeKey o.file.fInode).bytes with
    | some _ => simp only [hookStep, hk] at hstep; cases hstep; rfl
    | none =>
      simp only [hookStep, hk] at hstep
      cases hstep
      exact fun hkey => (BoundedMap.lookup_eq_none _ _).1 hk (hs.inodes _ hkey)
  | path =>
    obtain ⟨hlen, -⟩ := hsure.resolve_left hseen
    obtain ⟨buf, rest, hread, hbuf⟩ := o.dPath.fits o.file.fPath hlen
    simp only [hookStep, hread] at hstep
    cases hstep
    exact ⟨hseen, ⟨rest, hbuf⟩, fun i hi => absurd hi (Nat.not_lt_zero _)⟩
  | scan path k =>
    obtain ⟨hkey, ⟨rest, hpath⟩, hbehind⟩ := hseen
    obtain ⟨-, j, hj⟩ := hsure.resolve_left hkey
    have hjk : k ≤ j.val := Nat.le_of_not_lt (fun hlt => hbehind j hlt hj)
    have hk : k < 8 := Nat.lt_of_le_of_lt hjk j.isLt
    cases hhit : slotHit path (maps.prefixBlacklist ⟨k, hk⟩) with
    | true => simp only [hookStep, dif_pos hk, hhit] at hstep; cases hstep; rfl
    | false =>
      simp only [hookStep, dif_pos hk, hhit] at hstep
      cases hstep
      refine ⟨hkey, ⟨rest, hpath⟩, fun i hi hboth => ?_⟩
      rcases Nat.lt_succ_iff_lt_or_eq.1 hi with hlt | heq
      · exact hbehind i hlt hboth
      · obtain rfl : i = ⟨k, hk⟩ := Fin.ext heq
        have hmiss := Bool.eq_false_iff.1 hhit
        rcases hs.slots ⟨k, hk⟩ with hold | hnew
        · exact hmiss ((slotHit_iff hpath hold).2 hboth.1)
        · exact hmiss ((slotHit_iff hpath hnew).2 hboth.2)
  | done ret => cases hstep

/-- **A file is denied whenever it is opened while the loader writes its lists, if and only if** its process is tracked,
and its key was in the map, or its path fits the buffer and one slot protects it before and after. -/
theorem denied_throughout_iff (o : Opening) (m : Maps) (strs : Fin 8 → List UInt8)
    (hslots : ∀ i, (m.prefixBlacklist i).Holds (strs i)) (hpaths : ∀ p ∈ o.config.prefixPaths, NulFree p) :
    DeniedThroughout o m ↔ o.cgid ∈ m.cgroupFilter.keys ∧ SurelyDenied o m strs := by
  constructor
  · intro hdenied
    refine ⟨Classical.byContradiction (fun hc => ?_), Classical.byContradiction (fun hnot => ?_)⟩
    · have hl := (BoundedMap.lookup_eq_none _ _).2 hc
      have hrun : run o (start o m) [.hook] = some { start o m with hook := .done 0 } := by
        simp [start, step, hookStep, hl]
      exact absurd (hdenied _ _ 0 hrun rfl) (by decide)
    · obtain ⟨hkey, hslot⟩ := not_or.1 hnot
      obtain ⟨acts, s, hrun, hdone⟩ :=
        exists_opened hslots hpaths hkey (fun hlen i hi => hslot ⟨hlen, i, hi⟩)
      exact absurd (hdenied acts s 0 hrun hdone) (by decide)
  · rintro ⟨hc, hsure⟩ acts s ret hrun hdone
    have hstart : Guarded o m strs (start o m) := ⟨hc, fun _ => id, fun i => .inl (hslots i), (fun _ _ h => by cases h),
      trivial⟩
    have hs : Guarded o m strs s := by
      refine Steps.run_invariant (Guarded o m strs) hstart (fun s a t hs ha => ?_) hrun
      cases a with
      | loader => exact hs.loader hpaths ha
      | hook => exact hs.step_hook hsure ha
    have hhook := hs.hook
    rw [hdone] at hhook
    exact hhook

end

def swapping : Opening where
  dPath := DPath.zeroing
  cgid := 7
  file := ⟨⟨42, ⟨0⟩⟩, utf8 "/root/key"⟩
  config := ⟨[], [utf8 "/protected.txt", utf8 "/root/"], []⟩

def beforeSwap : Maps := populate Maps.init ⟨[], [utf8 "/root/", utf8 "/protected.txt"], [7]⟩

/-- **Both lists have the prefix, and the file may be opened while one replaces the other.** -/
theorem denied_throughout_iff_swapping :
    blockFile swapping.dPath beforeSwap swapping.cgid swapping.file = -1 ∧
      blockFile swapping.dPath (populate beforeSwap swapping.config) swapping.cgid swapping.file = -1 ∧
      ¬ DeniedThroughout swapping beforeSwap := by
  have hslots : ∀ i, (beforeSwap.prefixBlacklist i).Holds
      (stringAfter (fun _ => []) [utf8 "/root/", utf8 "/protected.txt"] i) :=
    holds_stringAfter (fun _ => Buffer.holds_zero 127) (by decide)
  refine ⟨by decide, by decide, fun h => ?_⟩
  exact absurd ((denied_throughout_iff swapping beforeSwap _ hslots (by decide)).1 h).2 (by decide)

end Race

end FileOpening
end CgroupGuard
