import CgroupGuard.FileOpening.Hook
import CgroupGuard.Lib.Reads
/-!
# Scan — what `has_prefix` reads

The loop of `has_prefix`, byte after byte: a byte of the slot and then, unless it is the terminator, the byte of the
path at the same index.  A path that ends stops it, since no byte of the slot that gets so far equals its terminator.
-/
namespace CgroupGuard
namespace FileOpening

inductive Cell where
  | path (i : Nat)
  | pre (i : Nat)
  deriving DecidableEq, Repr

def memory (path : Buffer 256) (pre : Buffer 128) : Cell → Option UInt8
  | .path i => path.bytes[i]?
  | .pre i => pre.bytes[i]?

/-- The loop of `has_prefix` at index `i`, with `n` rounds to go. -/
def hasPrefixReadsFrom : Nat → Nat → Reads Cell UInt8 Bool
  | 0, _ => .ret false
  | n + 1, i =>
    .read (.pre i) (fun c =>
      if c = 0 then .ret true
      else .read (.path i) (fun b => if b ≠ c then .ret false else hasPrefixReadsFrom n (i + 1)))

def hasPrefixReads : Reads Cell UInt8 Bool := hasPrefixReadsFrom 128 0

def Within (n : Nat) : Cell → Prop
  | .path i => i ≤ n
  | .pre _ => True

theorem run_hasPrefixReadsFrom (path : Buffer 256) (pre : Buffer 128) : ∀ k i : Nat, i + k = 128 →
    (hasPrefixReadsFrom k i).run (memory path pre) = some (hasPrefix (path.bytes.drop i) (pre.bytes.drop i))
  | 0, i, hi => by
    have hend : pre.bytes.drop i = [] := List.drop_eq_nil_of_le (by rw [pre.length_eq]; omega)
    rw [hend, hasPrefixReadsFrom]
    cases path.bytes.drop i <;> rfl
  | k + 1, i, hi => by
    have hpre : i < pre.bytes.length := by rw [pre.length_eq]; omega
    have hpath : i < path.bytes.length := by rw [path.length_eq]; omega
    have hc : memory path pre (.pre i) = some pre.bytes[i] := List.getElem?_eq_getElem hpre
    have hb : memory path pre (.path i) = some path.bytes[i] := List.getElem?_eq_getElem hpath
    have ih := run_hasPrefixReadsFrom path pre k (i + 1) (by omega)
    rw [List.drop_eq_getElem_cons hpre, List.drop_eq_getElem_cons hpath, hasPrefix, hasPrefixReadsFrom,
      Reads.run_read hc]
    split
    · rfl
    · rw [Reads.run_read hb]
      split
      · rfl
      · exact ih

/-- **What `block_file` computes is what the reads find.** -/
theorem run_hasPrefixReads (path : Buffer 256) (pre : Buffer 128) :
    hasPrefixReads.run (memory path pre) = some (hasPrefix path.bytes pre.bytes) :=
  run_hasPrefixReadsFrom path pre 128 0 rfl

theorem cells_hasPrefixReadsFrom {path : Buffer 256} (pre : Buffer 128) {n : Nat} (hn : path.FirstNul n) : ∀ k i : Nat,
    i + k = 128 → i ≤ n → ∀ c ∈ (hasPrefixReadsFrom k i).cells (memory path pre), Within n c
  | 0, _, _, _, _, hc => by cases hc
  | k + 1, i, hi, hin, c, hc => by
    have hpre : i < pre.bytes.length := by rw [pre.length_eq]; omega
    have hpath : i < path.bytes.length := by rw [path.length_eq]; omega
    have hpreRead : memory path pre (.pre i) = some pre.bytes[i] := List.getElem?_eq_getElem hpre
    have hpathRead : memory path pre (.path i) = some path.bytes[i] := List.getElem?_eq_getElem hpath
    rw [hasPrefixReadsFrom, Reads.cells_read hpreRead] at hc
    rcases List.mem_cons.1 hc with rfl | hc
    · trivial
    split at hc
    · cases hc
    · rename_i hne
      rw [Reads.cells_read hpathRead] at hc
      rcases List.mem_cons.1 hc with rfl | hc
      · exact hin
      split at hc
      · cases hc
      · rename_i heq
        have hlt : i ≠ n := by
          rintro rfl
          have hzero : path.bytes[i] = 0 := Option.some.inj ((List.getElem?_eq_getElem hpath).symm.trans hn.1)
          exact hne ((not_not.1 heq).symm.trans hzero)
        exact cells_hasPrefixReadsFrom pre hn k (i + 1) (by omega) (by omega) c hc

/-! ## What it finds -/

theorem hasPrefix_of_nulFree : ∀ {path pre : List UInt8}, NulFree pre → hasPrefix path pre = false
  | [], [], _ => rfl
  | _ :: _, [], _ => rfl
  | [], c :: pre, h => by simp [hasPrefix, h.head_ne]
  | b :: path, c :: pre, h => by
    rw [hasPrefix, if_neg h.head_ne]
    rw [hasPrefix_of_nulFree h.tail, ite_self]

theorem length_le_of_prefix {path : Buffer 256} {s : List UInt8} {n : Nat} (hn : path.FirstNul n) (hs : NulFree s)
    (h : s <+: path.bytes) : s.length ≤ n := by
  by_contra hlt
  obtain ⟨rest, hrest⟩ := h
  have hget : s[n]? = some 0 := by
    rw [← hn.1, ← hrest, List.getElem?_append_left (by omega)]
  exact hs (List.mem_of_getElem? hget)

theorem hasPrefix_iff_firstNul {path : Buffer 256} (pre : Buffer 128) {n : Nat} (hn : path.FirstNul n) :
    hasPrefix path.bytes pre.bytes = true ↔
      ∃ m, pre.FirstNul m ∧ m ≤ n ∧ path.bytes.take m = pre.bytes.take m := by
  constructor
  · intro h
    by_cases hnul : NulFree pre.bytes
    · rw [hasPrefix_of_nulFree hnul] at h
      cases h
    · obtain ⟨s, pad, hs, hpre⟩ := exists_string_of_not_nulFree hnul
      rw [hpre, hasPrefix_nul _ _ hs] at h
      refine ⟨s.length, Buffer.firstNul_iff.2 ⟨s, ⟨hs, pad, hpre⟩, rfl⟩, length_le_of_prefix hn hs h, ?_⟩
      rw [hpre, List.take_left]
      exact (List.prefix_iff_eq_take.1 h).symm
  · rintro ⟨m, hm, -, htake⟩
    obtain ⟨s, ⟨hs, pad, hpre⟩, rfl⟩ := Buffer.firstNul_iff.1 hm
    rw [hpre, List.take_left] at htake
    rw [hpre, hasPrefix_nul _ _ hs, ← htake]
    exact List.take_prefix _ _

/-- **`has_prefix` is exact and blind to stale bytes**: it finds the string of the slot at the start of the path, reads
nothing outside the buffers or behind the path, and gives the same for every buffer that holds the same path. -/
theorem hasPrefix_exact (path : Buffer 256) (pre : Buffer 128) {n : Nat} (hn : path.FirstNul n) :
    (∃ found, hasPrefixReads.run (memory path pre) = some found ∧
      (found = true ↔ ∃ m, pre.FirstNul m ∧ m ≤ n ∧ path.bytes.take m = pre.bytes.take m)) ∧
    (∀ c ∈ hasPrefixReads.cells (memory path pre), Within n c ∧ (memory path pre c).isSome = true) ∧
    (∀ path' : Buffer 256, path'.bytes.take (n + 1) = path.bytes.take (n + 1) →
      hasPrefixReads.run (memory path' pre) = hasPrefixReads.run (memory path pre)) := by
  have hrun := run_hasPrefixReads path pre
  have hwithin : ∀ c ∈ hasPrefixReads.cells (memory path pre), Within n c :=
    cells_hasPrefixReadsFrom pre hn 128 0 rfl (Nat.zero_le n)
  have hthere := (Reads.isSome_run_iff hasPrefixReads).1 (by rw [hrun]; rfl)
  refine ⟨⟨_, hrun, hasPrefix_iff_firstNul pre hn⟩, fun c hc => ⟨hwithin c hc, hthere c hc⟩, fun path' hagree => ?_⟩
  refine (Reads.run_congr hasPrefixReads (fun c hc => ?_)).symm
  cases c with
  | pre i => rfl
  | path i => exact Buffer.getElem?_eq_of_take (Nat.lt_succ_of_le (hwithin _ hc)) hagree

def etcShadow : Buffer 256 := (Buffer.zero 256).copyStr (utf8 "/etc/shadow")

def etc : Buffer 128 := (Buffer.zero 128).copyStr (utf8 "/etc/")

theorem hasPrefix_exact_etc : hasPrefixReads.run (memory etcShadow etc) = some true ∧
    ∀ path : Buffer 256, path.bytes.take 12 = etcShadow.bytes.take 12 →
      hasPrefixReads.run (memory path etc) = some true := by
  have hpath : etcShadow.FirstNul 11 := Buffer.firstNul_iff.2 ⟨_, Buffer.holds_copyStr _ (by decide), by decide⟩
  have hpre : etc.FirstNul 5 := Buffer.firstNul_iff.2 ⟨_, Buffer.holds_copyStr _ (by decide), by decide⟩
  obtain ⟨⟨found, hrun, hfound⟩, -, hblind⟩ := hasPrefix_exact etcShadow etc hpath
  rw [hfound.2 ⟨5, hpre, by decide, by decide⟩] at hrun
  exact ⟨hrun, fun path hagree => (hblind path hagree).trans hrun⟩

end FileOpening
end CgroupGuard
