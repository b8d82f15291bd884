import CgroupGuard.Lib.CString
/-!
# UserMemory — what the kernel reads of a process

Memory is a byte at every address that can be read.  A read takes what it can get from an address on; `probeRead` takes
all or nothing, and `readStr` takes a string up to its terminator, if that comes in time.
-/

/-- The memory of a process: a byte at every address that can be read. -/
abbrev UserMemory := UInt64 → Option UInt8

namespace UserMemory

/-- The bytes from `addr` on, up to `n` and to the first that cannot be read. -/
def readUpTo (mem : UserMemory) (addr : UInt64) : Nat → List UInt8
  | 0 => []
  | n + 1 =>
    match mem addr with
    | none => []
    | some b => b :: readUpTo mem (addr + 1) n

/-- `bpf_probe_read_user` and `copy_from_user`: all the bytes or none. -/
def probeRead (mem : UserMemory) (addr : UInt64) (n : Nat) : Option (List UInt8) :=
  if (mem.readUpTo addr n).length = n then some (mem.readUpTo addr n) else none

/-- `strncpy_from_user`: the string at `addr`, if its terminator is one of the next `n` bytes. -/
def readStr (mem : UserMemory) (addr : UInt64) : Nat → Option (List UInt8)
  | 0 => none
  | n + 1 =>
    match mem addr with
    | none => none
    | some b => if b = 0 then some [] else (readStr mem (addr + 1) n).map (b :: ·)

def Stores (mem : UserMemory) : UInt64 → List UInt8 → Prop
  | _, [] => True
  | addr, b :: bs => mem addr = some b ∧ Stores mem (addr + 1) bs

instance (mem : UserMemory) : ∀ (addr : UInt64) (bytes : List UInt8), Decidable (mem.Stores addr bytes)
  | _, [] => .isTrue trivial
  | addr, b :: bs => @instDecidableAnd _ _ (inferInstanceAs (Decidable (mem addr = some b)))
      (instDecidableStores mem (addr + 1) bs)

theorem length_readUpTo_le (mem : UserMemory) : ∀ (n : Nat) (addr : UInt64), (mem.readUpTo addr n).length ≤ n
  | 0, _ => Nat.le_refl 0
  | n + 1, addr => by
    unfold readUpTo
    cases mem addr with
    | none => exact Nat.zero_le _
    | some b => exact Nat.succ_le_succ (length_readUpTo_le mem n (addr + 1))

theorem readUpTo_min (mem : UserMemory) : ∀ (n k : Nat) (addr : UInt64),
    mem.readUpTo addr (min n k) = (mem.readUpTo addr n).take k
  | 0, k, addr => by simp [readUpTo]
  | n + 1, 0, addr => by simp [readUpTo]
  | n + 1, k + 1, addr => by
    rw [Nat.add_min_add_right]
    unfold readUpTo
    cases mem addr with
    | none => rfl
    | some b => rw [List.take_succ_cons, readUpTo_min mem n k (addr + 1)]

theorem length_of_probeRead {mem : UserMemory} {addr : UInt64} {n : Nat} {bytes : List UInt8}
    (h : mem.probeRead addr n = some bytes) : bytes.length = n := by
  obtain ⟨hlen, hbytes⟩ := Option.ite_none_right_eq_some.1 h
  cases hbytes
  exact hlen

theorem readUpTo_of_stores {mem : UserMemory} : ∀ {bytes : List UInt8} {addr : UInt64}, mem.Stores addr bytes →
    mem.readUpTo addr bytes.length = bytes
  | [], _, _ => rfl
  | b :: bs, addr, ⟨hb, hbs⟩ => by
    rw [List.length_cons, readUpTo, hb, readUpTo_of_stores hbs]

theorem probeRead_of_stores {mem : UserMemory} {bytes : List UInt8} {addr : UInt64} (h : mem.Stores addr bytes) :
    mem.probeRead addr bytes.length = some bytes := by
  rw [probeRead, readUpTo_of_stores h, if_pos rfl]

theorem readStr_of_stores {mem : UserMemory} : ∀ {s rest : List UInt8} {addr : UInt64} (n : Nat), NulFree s →
    mem.Stores addr (s ++ 0 :: rest) → mem.readStr addr n = if s.length < n then some s else none
  | s, rest, addr, 0, _, _ => (if_neg (Nat.not_lt_zero _)).symm
  | [], rest, addr, n + 1, _, h => by
    rw [readStr, h.1]
    exact (if_pos (Nat.succ_pos n)).symm
  | c :: s, rest, addr, n + 1, hs, h => by
    rw [readStr, h.1]
    dsimp only
    rw [if_neg hs.head_ne, readStr_of_stores n hs.tail h.2, List.length_cons]
    by_cases hlt : s.length < n
    · rw [if_pos hlt, if_pos (Nat.succ_lt_succ hlt)]
      rfl
    · rw [if_neg hlt, if_neg (by omega)]
      rfl

end UserMemory
