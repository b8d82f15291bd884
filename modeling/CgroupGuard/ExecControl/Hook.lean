import CgroupGuard.Lib.BoundedMap
/-!
# Hook — the `bprm_check_security` program of `binary_checker.c`

`execControl` is the body of `exec_control`, one call at a time: a container's first checked exec creates its record,
an executable that is new to it is written to `allow_map` while the last such one is less than the two windows ago,
and is denied after that.  The writes to `cg_state_map` and `allow_map` are unchecked (`BoundedMap.put`), as in the
source.  The log lines and the file name, which only they read, are left out.
-/
namespace CgroupGuard

/-- `cgroup_filter`: the tracked cgroup ids, shared by every program through its pin. -/
abbrev CgroupFilter := BoundedMap UInt64 UInt8 1024

namespace ExecControl

/-- `STATE_LEARNING`, `STATE_STABLE` and `STATE_ENFORCING`. -/
inductive State where
  | learning
  | stable
  | enforcing
  deriving DecidableEq, Repr

/-- `LEARN_WINDOW_NS`: three seconds (the source's comment says thirty). -/
def learnWindowNs : UInt64 := 3 * 1000000000

def graceWindowNs : UInt64 := 3 * 1000000000

structure CgState where
  state : State
  lastNewExecNs : UInt64
  deriving DecidableEq, Repr

structure FileId where
  dev : UInt64
  ino : UInt64
  deriving DecidableEq, Repr

structure ExecKey where
  cgid : UInt64
  fid : FileId
  deriving DecidableEq, Repr

structure Maps where
  cgStateMap : BoundedMap UInt64 CgState 1024
  allowMap : BoundedMap ExecKey UInt8 8192

/-- The maps as the loader leaves them: neither is pinned, so both start empty. -/
def Maps.init : Maps := ⟨BoundedMap.empty, BoundedMap.empty⟩

structure SuperBlock where
  sDev : UInt32

structure Inode where
  iIno : UInt64
  iSb : SuperBlock

structure File where
  fInode : Option Inode

/-- One call of the hook: `cgroup_filter` as it stands then, the caller's cgroup id, `bprm->file` and the clock. -/
structure Invocation where
  cgroupFilter : CgroupFilter
  cgid : UInt64
  file : Option File
  now : UInt64

def execKey (cgid : UInt64) (inode : Inode) : ExecKey :=
  { cgid := cgid, fid := { dev := inode.iSb.sDev.toUInt64, ino := inode.iIno } }

def execControl (m : Maps) (x : Invocation) : Maps × Int :=
  match x.cgroupFilter.lookup x.cgid with
  | none => (m, 0)
  | some _ =>
    match x.file with
    | none => (m, 0)
    | some file =>
      match file.fInode with
      | none => (m, 0)
      | some inode =>
        let key := execKey x.cgid inode
        match m.cgStateMap.lookup x.cgid with
        | none => ({ m with cgStateMap := m.cgStateMap.put x.cgid ⟨.learning, x.now⟩ }, 0)
        | some st =>
          match m.allowMap.lookup key with
          | some _ => (m, 0)
          | none =>
            let delta := x.now - st.lastNewExecNs
            if delta < learnWindowNs then
              ({ cgStateMap := m.cgStateMap.put x.cgid ⟨.learning, x.now⟩, allowMap := m.allowMap.put key 1 }, 0)
            else if delta < learnWindowNs + graceWindowNs then
              ({ cgStateMap := m.cgStateMap.put x.cgid ⟨.stable, x.now⟩, allowMap := m.allowMap.put key 1 }, 0)
            else
              ({ m with cgStateMap := m.cgStateMap.put x.cgid { st with state := .enforcing } }, -1)

/-! ## What one call can do -/

/-- The key a call is checked under: none when its cgroup is not tracked or it has no file or inode. -/
def Invocation.checked (x : Invocation) : Option ExecKey :=
  match x.cgroupFilter.lookup x.cgid with
  | none => none
  | some _ => (x.file.bind File.fInode).map (execKey x.cgid)

theorem Invocation.checked_eq_some {x : Invocation} {key : ExecKey} (h : x.checked = some key) :
    ∃ v file inode, x.cgroupFilter.lookup x.cgid = some v ∧ x.file = some file ∧ file.fInode = some inode ∧
      execKey x.cgid inode = key := by
  unfold Invocation.checked at h
  cases hf : x.cgroupFilter.lookup x.cgid with
  | none => simp [hf] at h
  | some v =>
    simp only [hf] at h
    obtain ⟨inode, hi, hk⟩ := Option.map_eq_some_iff.1 h
    obtain ⟨file, hfile, hinode⟩ := Option.bind_eq_some_iff.1 hi
    exact ⟨v, file, inode, rfl, hfile, hinode, hk⟩

theorem Invocation.cgid_of_checked {x : Invocation} {key : ExecKey} (h : x.checked = some key) :
    key.cgid = x.cgid := by
  obtain ⟨_, _, inode, _, _, _, rfl⟩ := Invocation.checked_eq_some h
  rfl

def horizonNs : UInt64 := learnWindowNs + graceWindowNs

/-- What a call checked under `key` does, the two windows taken together. -/
inductive Checked (m : Maps) (now : UInt64) (key : ExecKey) : Maps × Int → Prop
  | create (hst : m.cgStateMap.lookup key.cgid = none) :
    Checked m now key ({ m with cgStateMap := m.cgStateMap.put key.cgid ⟨.learning, now⟩ }, 0)
  | known (st : CgState) (hst : m.cgStateMap.lookup key.cgid = some st) (hk : key ∈ m.allowMap.keys) :
    Checked m now key (m, 0)
  | learn (st : CgState) (s : State) (hst : m.cgStateMap.lookup key.cgid = some st) (hk : key ∉ m.allowMap.keys)
    (hd : now - st.lastNewExecNs < horizonNs) :
    Checked m now key ({ cgStateMap := m.cgStateMap.put key.cgid ⟨s, now⟩, allowMap := m.allowMap.put key 1 }, 0)
  | deny (st : CgState) (hst : m.cgStateMap.lookup key.cgid = some st) (hk : key ∉ m.allowMap.keys)
    (hd : horizonNs ≤ now - st.lastNewExecNs) :
    Checked m now key ({ m with cgStateMap := m.cgStateMap.put key.cgid { st with state := .enforcing } }, -1)

theorem lt_horizonNs_of_lt_learnWindowNs {d : UInt64} (h : d < learnWindowNs) : d < horizonNs := by
  rw [UInt64.lt_iff_toNat_lt] at h ⊢
  exact Nat.lt_trans h (by decide)

theorem execControl_of_unchecked (m : Maps) {x : Invocation} (h : x.checked = none) : execControl m x = (m, 0) := by
  unfold Invocation.checked at h
  unfold execControl
  cases hf : x.cgroupFilter.lookup x.cgid with
  | none => rfl
  | some v =>
    cases hfile : x.file with
    | none => rfl
    | some file =>
      cases hinode : file.fInode with
      | none => simp [hinode]
      | some inode => simp [hf, hfile, hinode] at h

/-- **A checked call does one of four things.** -/
theorem execControl_of_checked (m : Maps) {x : Invocation} {key : ExecKey} (h : x.checked = some key) :
    Checked m x.now key (execControl m x) := by
  obtain ⟨v, file, inode, hf, hfile, hinode, rfl⟩ := Invocation.checked_eq_some h
  unfold execControl
  simp only [hf, hfile, hinode]
  cases hst : m.cgStateMap.lookup x.cgid with
  | none => exact .create hst
  | some st =>
    cases hk : m.allowMap.lookup (execKey x.cgid inode) with
    | some _ => exact .known st hst (BoundedMap.mem_keys_of_lookup hk)
    | none =>
      have hk' := (BoundedMap.lookup_eq_none _ _).1 hk
      dsimp only
      split
      · rename_i hl; exact .learn st _ hst hk' (lt_horizonNs_of_lt_learnWindowNs hl)
      split
      · rename_i hg; exact .learn st _ hst hk' hg
      · rename_i hg; exact .deny st hst hk' (UInt64.not_lt.1 hg)

theorem execControl_zero_or (m : Maps) (x : Invocation) : (execControl m x).2 = 0 ∨ (execControl m x).2 = -1 := by
  cases h : x.checked with
  | none => rw [execControl_of_unchecked m h]; exact .inl rfl
  | some key =>
    have hc := execControl_of_checked m h
    generalize execControl m x = r at hc ⊢
    cases hc <;> simp

end ExecControl
end CgroupGuard
