import CgroupGuard.Lib.CString
import CgroupGuard.Policies.Hooks
/-!
# Hook — the `sb_mount` program of `mount_block.c`

`restrictMount` is the body of `restrict_mount`: four rules in turn, over a type and a device name that may be null.
`str_eq` copies its first argument to sixteen bytes of its own stack and compares these with a literal; the device name
goes to thirty-two.  Neither buffer is initialised, and `Stack` says what each holds before its copy.
-/
namespace CgroupGuard
namespace MountBlock

open Policies (isContainer EPERM)

def MS_REMOUNT : UInt64 := 32

def MS_NOSUID : UInt64 := 2

def MS_NODEV : UInt64 := 4

def MS_NOEXEC : UInt64 := 8

/-- What is on the stack: the buffer of each call of `str_eq` in the order of the source, and `dev`. -/
structure Stack where
  buf : Fin 8 → Buffer 16
  dev : Buffer 32

/-- The loop of `str_eq`, over the bytes of `buf` and of the literal with its terminator. -/
def strEqFrom : List UInt8 → List UInt8 → Bool
  | [], _ => true
  | _ :: _, [] => false
  | c :: buf, d :: b => if c ≠ d then false else if c = 0 then true else strEqFrom buf b

def strEq (buf : Buffer 16) (a : List UInt8) (b : String) : Bool := strEqFrom (buf.copyStr a).bytes (utf8 b ++ [0])

def isForbiddenType (stack : Stack) (type : List UInt8) : Bool :=
  strEq (stack.buf 0) type "proc" || strEq (stack.buf 1) type "sysfs" || strEq (stack.buf 2) type "debugfs" ||
    strEq (stack.buf 3) type "tracefs" || strEq (stack.buf 4) type "securityfs" ||
    strEq (stack.buf 5) type "cgroup" || strEq (stack.buf 6) type "cgroup2"

def isDevice (stack : Stack) (devName : List UInt8) : Bool :=
  let dev := stack.dev.copyStr devName
  dev.get 0 == '/'.toUInt8 && dev.get 1 == 'd'.toUInt8 && dev.get 2 == 'e'.toUInt8 && dev.get 3 == 'v'.toUInt8

def restrictMount (cgroupFilter : CgroupFilter) (cgid : UInt64) (stack : Stack) (devName type : Option (List UInt8))
    (flags : UInt64) : Int :=
  if !isContainer cgroupFilter cgid then 0
  else if type.any (isForbiddenType stack) then -EPERM
  else if devName.any (isDevice stack) then -EPERM
  else if flags &&& MS_REMOUNT ≠ 0 then -EPERM
  else if type.any (fun type => strEq (stack.buf 7) type "tmpfs") then
    if flags &&& MS_NOEXEC = 0 ∨ flags &&& MS_NOSUID = 0 ∨ flags &&& MS_NODEV = 0 then -EPERM else 0
  else 0

/-! ## The comparisons -/

theorem strEqFrom_nul : ∀ {s b : List UInt8} (rest : List UInt8), NulFree s → NulFree b →
    (strEqFrom (s ++ 0 :: rest) (b ++ [0]) = true ↔ s = b)
  | [], [], _, _, _ => by simp [strEqFrom]
  | [], d :: b, _, _, hb => by
    simp [strEqFrom, hb.head_ne.symm]
  | c :: s, [], _, hs, _ => by
    simp [strEqFrom, hs.head_ne]
  | c :: s, d :: b, rest, hs, hb => by
    have hc : c ≠ 0 := hs.head_ne
    have ih := strEqFrom_nul (s := s) (b := b) rest hs.tail hb.tail
    by_cases hcd : c = d
    · simp [strEqFrom, hcd ▸ hc, hcd, ih]
    · simp [strEqFrom, hcd]

theorem strEqFrom_copyStr (buf : Buffer 16) {a b : List UInt8} (ha : NulFree a) (hb : NulFree b)
    (hlen : b.length < 15) : strEqFrom (buf.copyStr a).bytes (b ++ [0]) = true ↔ a = b := by
  rw [Buffer.bytes_copyStr, strEqFrom_nul _ (ha.take 15) hb]
  constructor
  · intro h
    have hcut : (a.take 15).length < 15 := h ▸ hlen
    rw [List.length_take] at hcut
    rwa [List.take_of_length_le (by omega)] at h
  · rintro rfl
    exact List.take_of_length_le (Nat.le_of_lt hlen)

/-- **`str_eq` compares whole strings**, as long as the literal fits the buffer with room to spare. -/
theorem strEq_iff (buf : Buffer 16) {a : List UInt8} {b : String} (ha : NulFree a) (hb : NulFree (utf8 b))
    (hlen : (utf8 b).length < 15) : strEq buf a b = true ↔ a = utf8 b := strEqFrom_copyStr buf ha hb hlen

/-- **The device rule reads the first four bytes.** -/
theorem isDevice_iff (stack : Stack) {devName : List UInt8} :
    isDevice stack devName = true ↔ utf8 "/dev" <+: devName := by
  have hdev : utf8 "/dev" = [47, 100, 101, 118] := by decide
  have hnul : NulFree (utf8 "/dev") := by decide
  have hcopy : utf8 "/dev" <+: (stack.dev.copyStr devName).bytes ↔ utf8 "/dev" <+: devName := by
    rw [Buffer.bytes_copyStr, hnul.prefix_append_nul, List.prefix_take_iff]
    exact and_iff_left (by decide)
  rw [← hcopy, hdev]
  unfold isDevice
  obtain ⟨bytes, hlen⟩ := stack.dev.copyStr devName
  match bytes, hlen with
  | a :: b :: c :: d :: rest, hlen =>
    simp only [Bool.and_eq_true, beq_iff_eq, List.cons_prefix_cons, List.nil_prefix, and_true, eq_comm (b := a),
      eq_comm (b := b), eq_comm (b := c), eq_comm (b := d)]
    show ((a = 47 ∧ b = 100) ∧ c = 101) ∧ d = 118 ↔ _
    tauto

def forbiddenTypes : List (List UInt8) :=
  [utf8 "proc", utf8 "sysfs", utf8 "debugfs", utf8 "tracefs", utf8 "securityfs", utf8 "cgroup", utf8 "cgroup2"]

theorem isForbiddenType_iff (stack : Stack) {type : List UInt8} (htype : NulFree type) :
    isForbiddenType stack type = true ↔ type ∈ forbiddenTypes := by
  unfold isForbiddenType forbiddenTypes
  simp only [Bool.or_eq_true, List.mem_cons, List.not_mem_nil, or_false]
  rw [strEq_iff _ htype (by decide) (by decide), strEq_iff _ htype (by decide) (by decide),
    strEq_iff _ htype (by decide) (by decide), strEq_iff _ htype (by decide) (by decide),
    strEq_iff _ htype (by decide) (by decide), strEq_iff _ htype (by decide) (by decide),
    strEq_iff _ htype (by decide) (by decide)]
  tauto

/-! ## The four rules -/

/-- A rule of the source other than the one about devices is met. -/
def OtherRule (type : Option (List UInt8)) (flags : UInt64) : Prop :=
  (∃ t ∈ forbiddenTypes, type = some t) ∨ flags &&& MS_REMOUNT ≠ 0 ∨
    (type = some (utf8 "tmpfs") ∧ (flags &&& MS_NOSUID = 0 ∨ flags &&& MS_NODEV = 0 ∨ flags &&& MS_NOEXEC = 0))

def NamesDevice (devName : Option (List UInt8)) : Prop := ∃ d, devName = some d ∧ utf8 "/dev" <+: d

theorem restrictMount_zero_or (cgroupFilter : CgroupFilter) (cgid : UInt64) (stack : Stack)
    (devName type : Option (List UInt8)) (flags : UInt64) :
    restrictMount cgroupFilter cgid stack devName type flags = 0 ∨
      restrictMount cgroupFilter cgid stack devName type flags = -EPERM := by
  unfold restrictMount
  repeat' split
  all_goals simp

section
variable (stack : Stack) {type : Option (List UInt8)} (htype : ∀ t, type = some t → NulFree t)
include htype

theorem any_isForbiddenType : type.any (isForbiddenType stack) = true ↔ ∃ t ∈ forbiddenTypes, type = some t := by
  rw [Option.any_eq_true]
  constructor
  · rintro ⟨t, rfl, h⟩
    exact ⟨t, (isForbiddenType_iff stack (htype t rfl)).1 h, rfl⟩
  · rintro ⟨t, h, rfl⟩
    exact ⟨t, rfl, (isForbiddenType_iff stack (htype t rfl)).2 h⟩

theorem any_strEq_tmpfs :
    type.any (fun type => strEq (stack.buf 7) type "tmpfs") = true ↔ type = some (utf8 "tmpfs") := by
  rw [Option.any_eq_true]
  constructor
  · rintro ⟨t, rfl, h⟩
    exact congrArg some ((strEq_iff _ (htype t rfl) (by decide) (by decide)).1 h)
  · rintro rfl
    exact ⟨_, rfl, (strEq_iff _ (htype _ rfl) (by decide) (by decide)).2 rfl⟩

end

theorem any_isDevice (stack : Stack) (devName : Option (List UInt8)) :
    devName.any (isDevice stack) = true ↔ NamesDevice devName := by
  rw [Option.any_eq_true]
  exact exists_congr (fun d => and_congr_right (fun _ => isDevice_iff stack))

theorem restrictMount_denies_iff (cgroupFilter : CgroupFilter) (cgid : UInt64)
    (hcontainer : isContainer cgroupFilter cgid = true) (stack : Stack) (devName type : Option (List UInt8))
    (htype : ∀ t, type = some t → NulFree t) (flags : UInt64) :
    restrictMount cgroupFilter cgid stack devName type flags = -EPERM ↔
      OtherRule type flags ∨ NamesDevice devName := by
  have h1 := any_isForbiddenType stack htype
  have h2 := any_isDevice stack devName
  have h4 := any_strEq_tmpfs stack htype
  have hne : (0 : Int) ≠ -EPERM := by decide
  unfold restrictMount OtherRule
  rw [hcontainer, if_neg (by decide)]
  split
  · rename_i h
    exact iff_of_true rfl (.inl (.inl (h1.1 h)))
  rename_i hno1
  rw [h1] at hno1
  split
  · rename_i h
    exact iff_of_true rfl (.inr (h2.1 h))
  rename_i hno2
  rw [h2] at hno2
  split
  · rename_i h
    exact iff_of_true rfl (.inl (.inr (.inl h)))
  rename_i hno3
  split
  · rename_i h
    rw [h4] at h
    split
    · rename_i hflags
      exact iff_of_true rfl (.inl (.inr (.inr ⟨h, by tauto⟩)))
    · rename_i hflags
      refine iff_of_false hne ?_
      rintro ((hf | hf | ⟨-, hf⟩) | hf)
      · exact hno1 hf
      · exact hno3 hf
      · exact hflags (by tauto)
      · exact hno2 hf
  · rename_i h
    rw [h4] at h
    refine iff_of_false hne ?_
    rintro ((hf | hf | ⟨ht, -⟩) | hf)
    · exact hno1 hf
    · exact hno3 hf
    · exact h ht
    · exact hno2 hf

/-- **`restrict_mount` decides on whole strings**, whatever is on the stack. -/
theorem restrictMount_whole_strings (cgroupFilter : CgroupFilter) (cgid : UInt64)
    (hcontainer : isContainer cgroupFilter cgid = true) (stack : Stack) (devName type : Option (List UInt8))
    (htype : ∀ t, type = some t → NulFree t) (flags : UInt64) :
    (restrictMount cgroupFilter cgid stack devName type flags = -EPERM ↔
        (∃ t ∈ forbiddenTypes, type = some t) ∨ (∃ d, devName = some d ∧ utf8 "/dev" <+: d) ∨
          flags &&& MS_REMOUNT ≠ 0 ∨
          (type = some (utf8 "tmpfs") ∧
            (flags &&& MS_NOSUID = 0 ∨ flags &&& MS_NODEV = 0 ∨ flags &&& MS_NOEXEC = 0))) ∧
      (restrictMount cgroupFilter cgid stack devName type flags ≠ -EPERM →
        restrictMount cgroupFilter cgid stack devName type flags = 0) := by
  refine ⟨?_, (restrictMount_zero_or cgroupFilter cgid stack devName type flags).resolve_right⟩
  rw [restrictMount_denies_iff cgroupFilter cgid hcontainer stack devName type htype flags]
  exact or_assoc.trans (or_congr_right or_comm)

/-- A stack full of what a mount of `proc` left there. -/
def dirtyStack : Stack := ⟨fun _ => (Buffer.zero 16).copyStr (utf8 "procprocprocpro"), Buffer.zero 32⟩

def container5 : CgroupFilter := BoundedMap.empty.put 5 1

theorem restrictMount_whole_strings_cgroup2 :
    isContainer container5 5 = true ∧ (∀ t, some (utf8 "cgroup2") = some t → NulFree t) ∧
      restrictMount container5 5 dirtyStack none (some (utf8 "cgroup2")) 0 = -EPERM := by
  have htype : ∀ t, some (utf8 "cgroup2") = some t → NulFree t := by
    rintro t h
    cases h
    decide
  exact ⟨by decide, htype, (restrictMount_whole_strings container5 5 (by decide) dirtyStack none (some (utf8 "cgroup2"))
    htype 0).1.2 (.inl ⟨_, by decide, rfl⟩)⟩

end MountBlock
end CgroupGuard
