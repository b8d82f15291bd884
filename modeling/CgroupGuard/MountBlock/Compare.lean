import CgroupGuard.MountBlock.Hook
import CgroupGuard.Lib.Reads
/-!
# Compare — what `str_eq` reads

The loop of `str_eq`, byte after byte: a byte of the copy and the byte of the literal at the same index.  It stops at
the first terminator of either, so that no literal is left, whatever its length, and of the copy nothing is read that
was not copied.
-/
namespace CgroupGuard
namespace MountBlock

inductive Cell where
  | buf (i : Nat)
  | lit (i : Nat)
  deriving DecidableEq, Repr

def memory (buf : Buffer 16) (b : List UInt8) : Cell → Option UInt8
  | .buf i => buf.bytes[i]?
  | .lit i => (b ++ [0])[i]?

/-- The loop of `str_eq` at index `i`, with `n` rounds to go. -/
def strEqReadsFrom : Nat → Nat → Reads Cell UInt8 Bool
  | 0, _ => .ret true
  | n + 1, i =>
    .read (.buf i) (fun c =>
      .read (.lit i) (fun d => if c ≠ d then .ret false else if c = 0 then .ret true else strEqReadsFrom n (i + 1)))

def strEqReads : Reads Cell UInt8 Bool := strEqReadsFrom 16 0

def Within (m n : Nat) : Cell → Prop
  | .buf i => i ≤ m
  | .lit i => i ≤ n

theorem lt_length_of_ne_zero {b : List UInt8} {i : Nat} (hi : i < (b ++ [0]).length) (hne : (b ++ [0])[i] ≠ 0) :
    i < b.length := by
  by_contra hlast
  have heq : i = b.length := by
    rw [List.length_append, List.length_singleton] at hi
    omega
  subst heq
  exact hne (List.getElem_concat_length rfl hi)

theorem run_strEqReadsFrom (buf : Buffer 16) (b : List UInt8) : ∀ k i : Nat, i + k = 16 → i ≤ b.length →
    (strEqReadsFrom k i).run (memory buf b) = some (strEqFrom (buf.bytes.drop i) ((b ++ [0]).drop i))
  | 0, i, hi, _ => by
    have hend : buf.bytes.drop i = [] := List.drop_eq_nil_of_le (by rw [buf.length_eq]; omega)
    rw [hend, strEqReadsFrom, Reads.run_ret, strEqFrom]
  | k + 1, i, hi, hib => by
    have hbuf : i < buf.bytes.length := by rw [buf.length_eq]; omega
    have hlit : i < (b ++ [0]).length := by rw [List.length_append, List.length_singleton]; omega
    have hc : memory buf b (.buf i) = some buf.bytes[i] := List.getElem?_eq_getElem hbuf
    have hd : memory buf b (.lit i) = some (b ++ [0])[i] := List.getElem?_eq_getElem hlit
    rw [List.drop_eq_getElem_cons hbuf, List.drop_eq_getElem_cons hlit, strEqFrom, strEqReadsFrom, Reads.run_read hc,
      Reads.run_read hd]
    split
    · rfl
    · rename_i heq
      split
      · rfl
      · rename_i hne
        have hnext : i < b.length := lt_length_of_ne_zero hlit (not_not.1 heq ▸ hne)
        exact run_strEqReadsFrom buf b k (i + 1) (by omega) hnext

theorem run_strEqReads (buf : Buffer 16) (b : List UInt8) :
    strEqReads.run (memory buf b) = some (strEqFrom buf.bytes (b ++ [0])) :=
  run_strEqReadsFrom buf b 16 0 rfl (Nat.zero_le _)

/-- **What `restrict_mount` computes is what the reads find.** -/
theorem run_strEqReads_strEq (buf : Buffer 16) (a : List UInt8) (b : String) :
    strEqReads.run (memory (buf.copyStr a) (utf8 b)) = some (strEq buf a b) := run_strEqReads _ _

theorem cells_strEqReadsFrom {buf : Buffer 16} (b : List UInt8) {m : Nat} (hm : buf.FirstNul m) : ∀ k i : Nat,
    i + k = 16 → i ≤ m → i ≤ b.length → ∀ c ∈ (strEqReadsFrom k i).cells (memory buf b), Within m b.length c
  | 0, _, _, _, _, _, hc => by cases hc
  | k + 1, i, hi, him, hib, c, hc => by
    have hbuf : i < buf.bytes.length := by rw [buf.length_eq]; omega
    have hlit : i < (b ++ [0]).length := by rw [List.length_append, List.length_singleton]; omega
    have hbufRead : memory buf b (.buf i) = some buf.bytes[i] := List.getElem?_eq_getElem hbuf
    have hlitRead : memory buf b (.lit i) = some (b ++ [0])[i] := List.getElem?_eq_getElem hlit
    rw [strEqReadsFrom, Reads.cells_read hbufRead, Reads.cells_read hlitRead] at hc
    rcases List.mem_cons.1 hc with rfl | hc
    · exact him
    rcases List.mem_cons.1 hc with rfl | hc
    · exact hib
    split at hc
    · cases hc
    · rename_i heq
      split at hc
      · cases hc
      · rename_i hne
        have hnext : i < b.length := lt_length_of_ne_zero hlit (not_not.1 heq ▸ hne)
        have hlt : i ≠ m := by
          rintro rfl
          exact hne (Option.some.inj (hbufRead.symm.trans hm.1))
        exact cells_strEqReadsFrom b hm k (i + 1) (by omega) (by omega) hnext c hc

/-- **`str_eq` is equality of strings**: with a literal of at most fourteen bytes it finds whether the two are the same,
reads nothing behind the terminators, and gives the same whatever is behind that of the copy. -/
theorem strEq_exact (buf : Buffer 16) {a b : List UInt8} (ha : NulFree a) (hb : NulFree b) (hlen : b.length ≤ 14) :
    (∃ equal, strEqReads.run (memory (buf.copyStr a) b) = some equal ∧ (equal = true ↔ a = b)) ∧
    (∀ c ∈ strEqReads.cells (memory (buf.copyStr a) b),
      Within (min a.length 15) b.length c ∧ (memory (buf.copyStr a) b c).isSome = true) ∧
    (∀ buf' : Buffer 16, buf'.bytes.take (min a.length 15 + 1) = (buf.copyStr a).bytes.take (min a.length 15 + 1) →
      strEqReads.run (memory buf' b) = strEqReads.run (memory (buf.copyStr a) b)) := by
  have hnul : (buf.copyStr a).FirstNul (min a.length 15) :=
    Buffer.firstNul_iff.2 ⟨_, buf.holds_copyStr ha, by rw [List.length_take, Nat.min_comm]⟩
  have hrun := run_strEqReads (buf.copyStr a) b
  have hwithin : ∀ c ∈ strEqReads.cells (memory (buf.copyStr a) b), Within (min a.length 15) b.length c :=
    cells_strEqReadsFrom b hnul 16 0 rfl (Nat.zero_le _) (Nat.zero_le _)
  have hthere := (Reads.isSome_run_iff strEqReads).1 (by rw [hrun]; rfl)
  refine ⟨⟨_, hrun, strEqFrom_copyStr buf ha hb (Nat.lt_succ_of_le hlen)⟩, fun c hc => ⟨hwithin c hc, hthere c hc⟩,
    fun buf' hagree => ?_⟩
  refine (Reads.run_congr strEqReads (fun c hc => ?_)).symm
  cases c with
  | lit i => rfl
  | buf i => exact Buffer.getElem?_eq_of_take (Nat.lt_succ_of_le (hwithin _ hc)) hagree

theorem strEq_exact_cgroup2 :
    strEqReads.run (memory ((Buffer.zero 16).copyStr (utf8 "cgroup2")) (utf8 "cgroup")) = some false := by
  obtain ⟨⟨equal, hrun, hequal⟩, -, -⟩ := strEq_exact (Buffer.zero 16) (show NulFree (utf8 "cgroup2") by decide)
    (show NulFree (utf8 "cgroup") by decide) (by decide)
  have hne : ¬ equal = true := fun h => absurd (hequal.1 h) (by decide)
  rw [hrun, Bool.eq_false_iff.2 hne]

end MountBlock
end CgroupGuard
