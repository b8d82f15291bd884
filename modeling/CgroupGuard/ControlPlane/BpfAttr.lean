import Mathlib.Data.List.TakeWhile
import CgroupGuard.Lib.Layout
import CgroupGuard.Lib.UserMemory
/-!
# BpfAttr — the argument of `bpf(2)`

`_BpfAttrCreate` and `_BpfAttrObjPin` are the beginnings of two structures of `union bpf_attr`, which goes on behind
them.  The kernel takes as many bytes as it is told to, over a union of zeros, and reads it by the structure of the
command.
-/
namespace CgroupGuard
namespace ControlPlane
namespace Bpf

def u32 : Member := ⟨4, 4, by decide⟩

def u64 : Member := ⟨8, 8, by decide⟩

def char (n : Nat) : Member := ⟨n, 1, Nat.zero_lt_one⟩

def BPF_MAP_CREATE : UInt32 := 0

def BPF_OBJ_PIN : UInt32 := 6

def PATH_MAX : Nat := 4096

/-! ## The structures of the control plane -/

/-- What is not given is zero. -/
structure BpfAttrCreate where
  mapType : UInt32
  keySize : UInt32
  valueSize : UInt32
  maxEntries : UInt32
  mapFlags : UInt32 := 0
  innerMapFd : UInt32 := 0
  numaNode : UInt32 := 0
  mapName : Buffer 16

structure BpfAttrObjPin where
  pathname : UInt64
  bpfFd : UInt32
  fileFlags : UInt32 := 0

namespace BpfAttrCreate

def members : List Member := [u32, u32, u32, u32, u32, u32, u32, char 16]

def values (a : BpfAttrCreate) : List (List UInt8) :=
  [leBytes 4 a.mapType.toNat, leBytes 4 a.keySize.toNat, leBytes 4 a.valueSize.toNat, leBytes 4 a.maxEntries.toNat,
    leBytes 4 a.mapFlags.toNat, leBytes 4 a.innerMapFd.toNat, leBytes 4 a.numaNode.toNat, a.mapName.bytes]

def bytes (a : BpfAttrCreate) : List UInt8 := Layout.encode members a.values

theorem fits (a : BpfAttrCreate) : Layout.Fits members a.values := by
  have hname := a.mapName.length_eq
  simp [members, values, u32, char, hname]

end BpfAttrCreate

namespace BpfAttrObjPin

def members : List Member := [u64, u32, u32]

def values (a : BpfAttrObjPin) : List (List UInt8) :=
  [leBytes 8 a.pathname.toNat, leBytes 4 a.bpfFd.toNat, leBytes 4 a.fileFlags.toNat]

def bytes (a : BpfAttrObjPin) : List UInt8 := Layout.encode members a.values

theorem fits (a : BpfAttrObjPin) : Layout.Fits members a.values := by simp [members, values, u32, u64]

end BpfAttrObjPin

/-! ## The structures of `union bpf_attr` -/

structure MapCreate where
  mapType : UInt32
  keySize : UInt32
  valueSize : UInt32
  maxEntries : UInt32
  mapFlags : UInt32
  innerMapFd : UInt32
  numaNode : UInt32
  mapName : List UInt8
  mapIfindex : UInt32
  btfFd : UInt32
  btfKeyTypeId : UInt32
  btfValueTypeId : UInt32
  btfVmlinuxValueTypeId : UInt32
  mapExtra : UInt64
  deriving DecidableEq, Repr

structure ObjPin where
  pathname : UInt64
  bpfFd : UInt32
  fileFlags : UInt32
  pathFd : UInt32
  deriving DecidableEq, Repr

def asUInt32 (vs : List (List UInt8)) (i : Nat) : UInt32 := UInt32.ofNat (leNat (vs.getD i []))

def asUInt64 (vs : List (List UInt8)) (i : Nat) : UInt64 := UInt64.ofNat (leNat (vs.getD i []))

def MapCreate.members : List Member :=
  [u32, u32, u32, u32, u32, u32, u32, char 16, u32, u32, u32, u32, u32, u64]

def MapCreate.ofBytes (bytes : List UInt8) : MapCreate :=
  let vs := Layout.decode members bytes
  { mapType := asUInt32 vs 0
    keySize := asUInt32 vs 1
    valueSize := asUInt32 vs 2
    maxEntries := asUInt32 vs 3
    mapFlags := asUInt32 vs 4
    innerMapFd := asUInt32 vs 5
    numaNode := asUInt32 vs 6
    mapName := vs.getD 7 []
    mapIfindex := asUInt32 vs 8
    btfFd := asUInt32 vs 9
    btfKeyTypeId := asUInt32 vs 10
    btfValueTypeId := asUInt32 vs 11
    btfVmlinuxValueTypeId := asUInt32 vs 12
    mapExtra := asUInt64 vs 13 }

/-- `path_fd` is an `__s32`, of which the bytes are kept. -/
def ObjPin.members : List Member := [u64, u32, u32, u32]

def ObjPin.ofBytes (bytes : List UInt8) : ObjPin :=
  let vs := Layout.decode members bytes
  { pathname := asUInt64 vs 0
    bpfFd := asUInt32 vs 1
    fileFlags := asUInt32 vs 2
    pathFd := asUInt32 vs 3 }

theorem ofNat_leBytes_four (x : UInt32) : UInt32.ofNat (leNat (leBytes 4 x.toNat)) = x := by
  rw [leNat_leBytes x.toNat_lt, UInt32.ofNat_toNat]

theorem ofNat_leBytes_eight (x : UInt64) : UInt64.ofNat (leNat (leBytes 8 x.toNat)) = x := by
  rw [leNat_leBytes x.toNat_lt, UInt64.ofNat_toNat]

def BpfAttrCreate.meant (a : BpfAttrCreate) : MapCreate :=
  { mapType := a.mapType
    keySize := a.keySize
    valueSize := a.valueSize
    maxEntries := a.maxEntries
    mapFlags := a.mapFlags
    innerMapFd := a.innerMapFd
    numaNode := a.numaNode
    mapName := a.mapName.bytes
    mapIfindex := 0
    btfFd := 0
    btfKeyTypeId := 0
    btfValueTypeId := 0
    btfVmlinuxValueTypeId := 0
    mapExtra := 0 }

theorem mapCreate_ofBytes (a : BpfAttrCreate) : MapCreate.ofBytes a.bytes = a.meant := by
  have hread : Layout.decode MapCreate.members a.bytes = a.values ++ Layout.zeros [u32, u32, u32, u32, u32, u64] :=
    Layout.decode_append_encode a.fits [u32, u32, u32, u32, u32, u64]
  unfold MapCreate.ofBytes
  rw [hread]
  simp [asUInt32, asUInt64, BpfAttrCreate.values, BpfAttrCreate.meant, Layout.zeros, ofNat_leBytes_four]

theorem objPin_ofBytes (a : BpfAttrObjPin) : ObjPin.ofBytes a.bytes = ⟨a.pathname, a.bpfFd, a.fileFlags, 0⟩ := by
  have hread : Layout.decode ObjPin.members a.bytes = a.values ++ Layout.zeros [u32] :=
    Layout.decode_append_encode a.fits [u32]
  unfold ObjPin.ofBytes
  rw [hread]
  simp [asUInt32, asUInt64, BpfAttrObjPin.values, Layout.zeros, ofNat_leBytes_four, ofNat_leBytes_eight]

/-! ## The system call -/

/-- `bpf(2)` as `_bpf_syscall` makes it: the command, where its argument is, and how long. -/
structure Syscall where
  cmd : UInt32
  attr : UInt64
  size : Nat
  deriving DecidableEq, Repr

inductive Request where
  | mapCreate (args : MapCreate)
  | objPin (pathname : List UInt8) (args : ObjPin)
  deriving DecidableEq, Repr

/-- What the kernel takes the call for; none if it cannot read the argument, or is asked for something else. -/
def request (mem : UserMemory) (call : Syscall) : Option Request :=
  (mem.probeRead call.attr call.size).bind (fun bytes =>
    if call.cmd = BPF_MAP_CREATE then some (.mapCreate (MapCreate.ofBytes bytes))
    else if call.cmd = BPF_OBJ_PIN then
      (mem.readStr (ObjPin.ofBytes bytes).pathname PATH_MAX).map (.objPin · (ObjPin.ofBytes bytes))
    else none)

def bpfMapCreate (attr : UInt64) : Syscall := ⟨BPF_MAP_CREATE, attr, Layout.sizeof BpfAttrCreate.members⟩

def bpfObjPin (attr : UInt64) : Syscall := ⟨BPF_OBJ_PIN, attr, Layout.sizeof BpfAttrObjPin.members⟩

/-- `path_buf`: the path, the terminator that `_bpf_obj_pin` adds, and the one that `create_string_buffer` adds. -/
def pathBuf (path : List UInt8) : List UInt8 := path ++ [0, 0]

/-- The path up to its first zero: what `bpf_obj_get` looks for, too. -/
def cString (path : List UInt8) : List UInt8 := path.takeWhile (· != 0)

theorem nulFree_cString (path : List UInt8) : NulFree (cString path) := fun h =>
  absurd (List.mem_takeWhile_imp h) (by decide)

theorem pathBuf_eq (path : List UInt8) : ∃ rest, pathBuf path = cString path ++ 0 :: rest := by
  induction path with
  | nil => exact ⟨[0], rfl⟩
  | cons c path ih =>
    unfold pathBuf cString at ih ⊢
    rw [List.takeWhile_cons, List.cons_append]
    by_cases hc : c = 0
    · subst hc
      exact ⟨path ++ [0, 0], rfl⟩
    · obtain ⟨rest, hrest⟩ := ih
      rw [if_pos (bne_iff_ne.2 hc), hrest]
      exact ⟨rest, rfl⟩

structure MapDef where
  mapType : UInt32
  keySize : UInt32
  valueSize : UInt32
  maxEntries : UInt32
  mapFlags : UInt32
  deriving DecidableEq, Repr

def MapCreate.mapDef (args : MapCreate) : MapDef :=
  ⟨args.mapType, args.keySize, args.valueSize, args.maxEntries, args.mapFlags⟩

/-- `cgroup_filter` in each of the eight programs: `BPF_MAP_TYPE_HASH`, a `__u64`, a `__u8`, 1024 entries. -/
def cgroupFilterDef : MapDef := ⟨1, 8, 1, 1024, 0⟩

def mapCreateAttr : BpfAttrCreate where
  mapType := 1
  keySize := 8
  valueSize := 1
  maxEntries := 1024
  mapName := (Buffer.zero 16).write (utf8 "cgroup_filter") (by decide)

def objPinAttr (fd : UInt32) (pathname : UInt64) : BpfAttrObjPin := { pathname := pathname, bpfFd := fd }

/-- **The kernel does what it is asked to**: whatever structure is passed, it takes each member for what was put there
and each other member it has for zero, and pins at the path up to its first zero, where `bpf_obj_get` looks for it. -/
theorem read_as_meant (mem : UserMemory) (a : BpfAttrCreate) (path : List UInt8) (fd : UInt32)
    (create pathname pin : UInt64) (hcreate : mem.Stores create a.bytes) (hpath : mem.Stores pathname (pathBuf path))
    (hpin : mem.Stores pin (objPinAttr fd pathname).bytes) :
    request mem (bpfMapCreate create) = some (.mapCreate a.meant) ∧
      request mem (bpfObjPin pin) =
        if (cString path).length < PATH_MAX then some (.objPin (cString path) ⟨pathname, fd, 0, 0⟩) else none := by
  constructor
  · have hread : mem.probeRead create (Layout.sizeof BpfAttrCreate.members) = some a.bytes := by
      rw [← Layout.length_encode a.fits]
      exact UserMemory.probeRead_of_stores hcreate
    rw [request, bpfMapCreate, hread, Option.bind_some, if_pos rfl, mapCreate_ofBytes]
  · have hread : mem.probeRead pin (Layout.sizeof BpfAttrObjPin.members) = some (objPinAttr fd pathname).bytes := by
      rw [← Layout.length_encode (objPinAttr fd pathname).fits]
      exact UserMemory.probeRead_of_stores hpin
    obtain ⟨rest, hrest⟩ := pathBuf_eq path
    have hstr := UserMemory.readStr_of_stores PATH_MAX (nulFree_cString path) (hrest ▸ hpath)
    rw [request, bpfObjPin, hread, Option.bind_some, if_neg (by decide : ¬ BPF_OBJ_PIN = BPF_MAP_CREATE), if_pos rfl,
      objPin_ofBytes]
    show (mem.readStr pathname PATH_MAX).map _ = _
    rw [hstr]
    split <;> rfl

def mapEnsureMemory : UserMemory := fun addr =>
  (mapCreateAttr.bytes ++ pathBuf (utf8 "/sys/fs/bpf/cgroup_filter") ++ (objPinAttr 3 4140).bytes)[addr.toNat - 4096]?

/-- **`map_ensure` asks for the map that the eight programs have**, and pins it at `MAP_PATH`. -/
theorem read_as_meant_mapEnsure :
    (∃ args, request mapEnsureMemory (bpfMapCreate 4096) = some (.mapCreate args) ∧ args.mapDef = cgroupFilterDef) ∧
      request mapEnsureMemory (bpfObjPin 4167) =
        some (.objPin (utf8 "/sys/fs/bpf/cgroup_filter") ⟨4140, 3, 0, 0⟩) := by
  have h := read_as_meant mapEnsureMemory mapCreateAttr (utf8 "/sys/fs/bpf/cgroup_filter") 3 4096 4140 4167 (by decide)
    (by decide) (by decide)
  exact ⟨⟨mapCreateAttr.meant, h.1, rfl⟩, h.2⟩

end Bpf
end ControlPlane
end CgroupGuard
