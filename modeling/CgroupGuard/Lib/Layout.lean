import Mathlib.Algebra.Group.Nat.Defs
import Mathlib.Data.List.Basic
/-!
# Layout — a C structure in memory

Each member stands at the next multiple of its alignment behind the one before, and the size is rounded up to the
largest alignment.  The padding is zero.  Who reads a structure by a longer list of members, from memory that is zero
behind it, finds the members of the shorter one as they are and zeros in the others (`decode_append_encode`): the rule
by which the argument of a system call may grow.  A number is as many bytes as are asked for, the lowest first
(`leNat_leBytes`).
-/

structure Member where
  size : Nat
  align : Nat
  align_pos : 0 < align := by decide
  deriving DecidableEq, Repr

namespace Member

/-- Where a member can start that comes behind `offset` bytes. -/
def start (m : Member) (offset : Nat) : Nat := (offset + m.align - 1) / m.align * m.align

theorem le_start (m : Member) (offset : Nat) : offset ≤ m.start offset := by
  have hpos := m.align_pos
  have hmod := Nat.mod_lt (offset + m.align - 1) hpos
  have hdiv := Nat.div_add_mod (offset + m.align - 1) m.align
  rw [Nat.mul_comm] at hdiv
  unfold start
  omega

end Member

namespace Layout

def stop : Nat → List Member → Nat
  | offset, [] => offset
  | offset, m :: ms => stop (m.start offset + m.size) ms

/-- The member of the largest alignment, as one that takes no room. -/
def strictest (ms : List Member) : Member :=
  ms.foldr (fun m n => if n.align < m.align then ⟨0, m.align, m.align_pos⟩ else n) ⟨0, 1, by decide⟩

def sizeof (ms : List Member) : Nat := (strictest ms).start (stop 0 ms)

def encodeFrom : Nat → List Member → List (List UInt8) → List UInt8
  | offset, m :: ms, v :: vs =>
    List.replicate (m.start offset - offset) 0 ++ (v ++ encodeFrom (m.start offset + m.size) ms vs)
  | _, _, _ => []

def encode (ms : List Member) (vs : List (List UInt8)) : List UInt8 :=
  encodeFrom 0 ms vs ++ List.replicate (sizeof ms - stop 0 ms) 0

/-- `size` bytes of memory that holds the bytes at its beginning, and zeros behind them. -/
def readAt (bytes : List UInt8) (offset size : Nat) : List UInt8 :=
  ((bytes ++ List.replicate (offset + size) 0).drop offset).take size

def decodeFrom (bytes : List UInt8) : Nat → List Member → List (List UInt8)
  | _, [] => []
  | offset, m :: ms => readAt bytes (m.start offset) m.size :: decodeFrom bytes (m.start offset + m.size) ms

def decode (ms : List Member) (bytes : List UInt8) : List (List UInt8) := decodeFrom bytes 0 ms

abbrev Fits (ms : List Member) (vs : List (List UInt8)) : Prop := List.Forall₂ (fun m v => v.length = m.size) ms vs

def zeros (ms : List Member) : List (List UInt8) := ms.map (fun m => List.replicate m.size 0)

theorem readAt_append {pre v rest : List UInt8} {offset size : Nat} (hpre : pre.length = offset)
    (hv : v.length = size) :
    readAt (pre ++ (v ++ rest)) offset size = v := by
  subst hpre hv
  rw [readAt, List.append_assoc, List.append_assoc, List.drop_left, List.take_left]

theorem readAt_zeros {pre : List UInt8} {offset : Nat} (hpre : pre.length ≤ offset) (n size : Nat) :
    readAt (pre ++ List.replicate n 0) offset size = List.replicate size 0 := by
  have hdrop : pre.drop offset = [] := List.drop_eq_nil_of_le hpre
  rw [readAt, List.append_assoc, List.replicate_append_replicate, List.drop_append, hdrop, List.nil_append,
    List.drop_replicate, List.take_replicate]
  congr 1
  omega

theorem decodeFrom_zeros {pre : List UInt8} (n : Nat) {ms : List Member} {offset : Nat} (hpre : pre.length ≤ offset) :
    decodeFrom (pre ++ List.replicate n 0) offset ms = zeros ms := by
  induction ms generalizing offset with
  | nil => rfl
  | cons m ms ih =>
    have hstart := Nat.le_trans hpre (m.le_start offset)
    rw [decodeFrom, readAt_zeros hstart, ih (by omega)]
    rfl

theorem decodeFrom_append (more : List Member) (n : Nat) {ms : List Member} {vs : List (List UInt8)}
    (hfits : Fits ms vs)
    {pre : List UInt8} {offset : Nat} (hpre : pre.length = offset) :
    decodeFrom (pre ++ (encodeFrom offset ms vs ++ List.replicate n 0)) offset (ms ++ more) = vs ++ zeros more := by
  induction hfits generalizing pre offset with
  | nil =>
    show decodeFrom (pre ++ List.replicate n 0) offset more = zeros more
    exact decodeFrom_zeros n (Nat.le_of_eq hpre)
  | @cons m v ms vs hv hfits ih =>
    have hstart : (pre ++ List.replicate (m.start offset - offset) 0).length = m.start offset := by
      have := m.le_start offset
      rw [List.length_append, List.length_replicate]
      omega
    have hbytes : pre ++ (encodeFrom offset (m :: ms) (v :: vs) ++ List.replicate n 0) =
        pre ++ List.replicate (m.start offset - offset) 0 ++
          (v ++ (encodeFrom (m.start offset + m.size) ms vs ++ List.replicate n 0)) := by
      rw [encodeFrom]
      simp only [List.append_assoc]
    have hnext := @ih (pre ++ List.replicate (m.start offset - offset) 0 ++ v) (m.start offset + m.size)
      (by rw [List.length_append, hstart, hv])
    rw [hbytes, List.cons_append, decodeFrom, readAt_append hstart hv, List.cons_append]
    rw [List.append_assoc _ v] at hnext
    rw [hnext]

/-- **A structure read by a longer list of members** has the values it was given, and zeros in the members it lacks. -/
theorem decode_append_encode {ms : List Member} {vs : List (List UInt8)} (hfits : Fits ms vs) (more : List Member) :
    decode (ms ++ more) (encode ms vs) = vs ++ zeros more :=
  decodeFrom_append more (sizeof ms - stop 0 ms) hfits (List.length_nil : ([] : List UInt8).length = 0)

theorem length_encodeFrom {ms : List Member} {vs : List (List UInt8)} (hfits : Fits ms vs) (offset : Nat) :
    offset + (encodeFrom offset ms vs).length = stop offset ms := by
  induction hfits generalizing offset with
  | nil => rfl
  | @cons m v ms vs hv hfits ih =>
    have hstart := m.le_start offset
    rw [stop, ← ih, encodeFrom, List.length_append, List.length_append, List.length_replicate, hv]
    omega

theorem length_encode {ms : List Member} {vs : List (List UInt8)} (hfits : Fits ms vs) :
    (encode ms vs).length = sizeof ms := by
  have hlen := length_encodeFrom hfits 0
  have hsize : stop 0 ms ≤ sizeof ms := (strictest ms).le_start _
  rw [encode, List.length_append, List.length_replicate]
  omega

end Layout

/-! ## Numbers -/

def leBytes : Nat → Nat → List UInt8
  | 0, _ => []
  | n + 1, x => UInt8.ofNat x :: leBytes n (x / 256)

@[simp] theorem length_leBytes : ∀ n x : Nat, (leBytes n x).length = n
  | 0, _ => rfl
  | n + 1, x => by rw [leBytes, List.length_cons, length_leBytes n]

theorem leBytes_inj : ∀ (n : Nat) {x y : Nat}, x < 256 ^ n → y < 256 ^ n → leBytes n x = leBytes n y → x = y
  | 0, x, y, hx, hy, _ => by
    rw [Nat.pow_zero] at hx hy
    omega
  | n + 1, x, y, hx, hy, h => by
    obtain ⟨hlow, hhigh⟩ := List.cons.inj h
    have hx' : x / 256 < 256 ^ n := by rw [Nat.pow_succ] at hx; exact Nat.div_lt_of_lt_mul (by omega)
    have hy' : y / 256 < 256 ^ n := by rw [Nat.pow_succ] at hy; exact Nat.div_lt_of_lt_mul (by omega)
    have hdiv := leBytes_inj n hx' hy' hhigh
    have hmod : x % 256 = y % 256 := by
      have := congrArg UInt8.toNat hlow
      rwa [UInt8.toNat_ofNat', UInt8.toNat_ofNat'] at this
    omega

def leNat : List UInt8 → Nat
  | [] => 0
  | b :: bs => b.toNat + 256 * leNat bs

theorem leNat_leBytes : ∀ {n x : Nat}, x < 256 ^ n → leNat (leBytes n x) = x
  | 0, x, hx => by
    rw [Nat.pow_zero] at hx
    rw [leBytes, leNat]
    omega
  | n + 1, x, hx => by
    have hdiv : x / 256 < 256 ^ n := by rw [Nat.pow_succ] at hx; exact Nat.div_lt_of_lt_mul (by omega)
    rw [leBytes, leNat, leNat_leBytes hdiv, UInt8.toNat_ofNat']
    omega

@[simp] theorem leNat_zeros : ∀ n : Nat, leNat (List.replicate n 0) = 0
  | 0 => rfl
  | n + 1 => by
    rw [List.replicate_succ, leNat, leNat_zeros n]
    rfl
