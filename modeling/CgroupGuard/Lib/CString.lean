import Mathlib.Data.List.Basic
/-!
# CString — byte strings in buffers of a fixed size

A buffer is a list of bytes whose length its type gives.  A string is copied to it with its terminator, over the first
bytes and no others, and cut where the buffer ends.  What stands behind the terminator is whatever was there.
-/

def utf8 (s : String) : List UInt8 := s.toUTF8.data.toList

abbrev NulFree (s : List UInt8) : Prop := 0 ∉ s

namespace NulFree

theorem head_ne {c : UInt8} {s : List UInt8} (hs : NulFree (c :: s)) : c ≠ 0 := (List.ne_of_not_mem_cons hs).symm

theorem tail {c : UInt8} {s : List UInt8} (hs : NulFree (c :: s)) : NulFree s := List.not_mem_of_not_mem_cons hs

theorem take {s : List UInt8} (hs : NulFree s) (n : Nat) : NulFree (s.take n) := fun h => hs (List.mem_of_mem_take h)

theorem prefix_append_nul : ∀ {s t : List UInt8} (rest : List UInt8), NulFree s → (s <+: t ++ 0 :: rest ↔ s <+: t)
  | [], _, _, _ => by simp
  | c :: s, [], rest, hs => by
    have hc : c ≠ 0 := hs.head_ne
    simp [List.cons_prefix_cons, hc]
  | c :: s, d :: t, rest, hs => by
    have ih := prefix_append_nul (s := s) (t := t) rest hs.tail
    simp only [List.cons_append, List.cons_prefix_cons, ih]

end NulFree

theorem exists_string_of_not_nulFree : ∀ {l : List UInt8}, ¬ NulFree l → ∃ s rest, NulFree s ∧ l = s ++ 0 :: rest
  | [], h => absurd List.not_mem_nil h
  | c :: l, h => by
    by_cases hc : c = 0
    · exact ⟨[], l, List.not_mem_nil, by rw [hc]; rfl⟩
    · have hl : ¬ NulFree l := fun hl => h (List.not_mem_cons_of_ne_of_not_mem (Ne.symm hc) hl)
      obtain ⟨s, rest, hs, rfl⟩ := exists_string_of_not_nulFree hl
      exact ⟨c :: s, rest, List.not_mem_cons_of_ne_of_not_mem (Ne.symm hc) hs, rfl⟩

structure Buffer (n : Nat) where
  bytes : List UInt8
  length_eq : bytes.length = n
  deriving DecidableEq

namespace Buffer

variable {n : Nat}

def zero (n : Nat) : Buffer n := ⟨List.replicate n 0, List.length_replicate⟩

def get (b : Buffer n) (i : Fin n) : UInt8 := b.bytes.get (i.cast b.length_eq.symm)

def write (b : Buffer n) (s : List UInt8) (h : s.length ≤ n) : Buffer n :=
  ⟨s ++ b.bytes.drop s.length, by rw [List.length_append, List.length_drop, b.length_eq]; omega⟩

/-- The copy of a string that takes what fits before the terminator. -/
def copyStr (b : Buffer (n + 1)) (s : List UInt8) : Buffer (n + 1) :=
  b.write (s.take n ++ [0]) (by rw [List.length_append, List.length_take, List.length_singleton]; omega)

theorem bytes_copyStr (b : Buffer (n + 1)) (s : List UInt8) :
    (b.copyStr s).bytes = s.take n ++ 0 :: b.bytes.drop ((s.take n).length + 1) := by
  show s.take n ++ [0] ++ b.bytes.drop (s.take n ++ [0]).length = _
  rw [List.append_assoc, List.length_append]
  rfl

/-- The buffer holds the string: its terminator ends it, and anything may follow. -/
def Holds (b : Buffer n) (s : List UInt8) : Prop := NulFree s ∧ ∃ rest, b.bytes = s ++ 0 :: rest

theorem holds_copyStr (b : Buffer (n + 1)) {s : List UInt8} (hs : NulFree s) : (b.copyStr s).Holds (s.take n) :=
  ⟨hs.take n, _, bytes_copyStr b s⟩

theorem Holds.unique {b : Buffer n} {s t : List UInt8} (hs : b.Holds s) (ht : b.Holds t) : s = t := by
  obtain ⟨hnul, rest, h⟩ := hs
  obtain ⟨hnul', rest', h'⟩ := ht
  have heq : s ++ 0 :: rest = t ++ 0 :: rest' := h.symm.trans h'
  have hst : s <+: t := (hnul.prefix_append_nul rest').1 (heq ▸ List.prefix_append s _)
  have hts : t <+: s := (hnul'.prefix_append_nul rest).1 (heq ▸ List.prefix_append t _)
  exact hst.eq_of_length_le hts.length_le

def FirstNul (b : Buffer n) (k : Nat) : Prop := b.bytes[k]? = some 0 ∧ ∀ i < k, b.bytes[i]? ≠ some 0

/-- **Up to its first zero a buffer holds a string**, and behind none. -/
theorem firstNul_iff {b : Buffer n} {k : Nat} : b.FirstNul k ↔ ∃ s, b.Holds s ∧ s.length = k := by
  constructor
  · rintro ⟨hk, hfirst⟩
    obtain ⟨hlt, hget⟩ := List.getElem?_eq_some_iff.1 hk
    refine ⟨b.bytes.take k, ⟨fun hmem => ?_, b.bytes.drop (k + 1), ?_⟩, ?_⟩
    · obtain ⟨i, hi⟩ := List.mem_iff_getElem?.1 hmem
      rw [List.getElem?_take] at hi
      split at hi
      · rename_i hik; exact hfirst i hik hi
      · cases hi
    · rw [← hget, ← List.drop_eq_getElem_cons hlt, List.take_append_drop]
    · exact List.length_take_of_le (Nat.le_of_lt hlt)
  · rintro ⟨s, ⟨hnul, rest, hbytes⟩, rfl⟩
    refine ⟨?_, fun i hi hget => ?_⟩
    · rw [hbytes, List.getElem?_append_right (Nat.le_refl _), Nat.sub_self]
      rfl
    · rw [hbytes, List.getElem?_append_left hi] at hget
      exact hnul (List.mem_of_getElem? hget)

theorem getElem?_eq_of_take {b b' : Buffer n} {i k : Nat} (hi : i < k) (h : b'.bytes.take k = b.bytes.take k) :
    b.bytes[i]? = b'.bytes[i]? := by
  calc b.bytes[i]?
      = (b.bytes.take k)[i]? := (List.getElem?_take_of_lt hi).symm
    _ = (b'.bytes.take k)[i]? := by rw [h]
    _ = b'.bytes[i]? := List.getElem?_take_of_lt hi

theorem holds_zero (n : Nat) : (zero (n + 1)).Holds [] := ⟨List.not_mem_nil, List.replicate n 0, List.replicate_succ⟩

end Buffer
