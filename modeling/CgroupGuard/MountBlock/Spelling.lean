import CgroupGuard.Lib.PathName
import CgroupGuard.MountBlock.Hook
/-!
# Spelling — the device rule against the normal form of the source

The rule reads the first four bytes of the device name as it is spelled.  It misses `/dev` behind an empty or a dot
component, and takes any name that begins with `dev` for it (`deviceRule_spelling`).
-/
namespace CgroupGuard
namespace MountBlock

open Policies (isContainer EPERM)
open PathName

/-- The rule reads the path as its normal form has it: its first component is dropped there and the one that is then
the first is not `dev`, or it is kept and does not merely begin with `dev`. -/
def SpelledPlainly (s : List UInt8) : Prop :=
  if SkipsFirst s.tail then firstComponent (normalize s).tail ≠ utf8 "dev"
  else utf8 "dev" <+: s.tail → firstComponent s.tail = utf8 "dev"

instance (s : List UInt8) : Decidable (SpelledPlainly s) := inferInstanceAs (Decidable (ite _ _ _))

theorem eq_cons_of_head? {s : List UInt8} (h : s.head? = some slash) : s = slash :: s.tail := by
  cases s with
  | nil => cases h
  | cons c l => cases h; rfl

theorem namesDevice_iff {s : List UInt8} (hs : s.head? = some slash) :
    NamesDevice (some s) ↔ utf8 "dev" <+: s.tail := by
  have hdev : utf8 "/dev" = slash :: utf8 "dev" := by decide
  unfold NamesDevice
  rw [hdev]
  constructor
  · rintro ⟨d, hd, hpre⟩
    cases hd
    rw [eq_cons_of_head? hs] at hpre
    exact (List.cons_prefix_cons.1 hpre).2
  · intro h
    refine ⟨s, rfl, ?_⟩
    rw [eq_cons_of_head? hs]
    exact List.cons_prefix_cons.2 ⟨rfl, h⟩

theorem normalize_dev_iff {s : List UInt8} (hs : s.head? = some slash) :
    (normalize s = utf8 "/dev" ∨ utf8 "/dev/" <+: normalize s) ↔ firstComponent (normalize s).tail = utf8 "dev" := by
  have hdev : utf8 "/dev" = slash :: utf8 "dev" := by decide
  have hbelow : utf8 "/dev/" = slash :: (utf8 "dev" ++ [slash]) := by decide
  have hcons : normalize s = slash :: (normalize s).tail := by
    rw [eq_cons_of_head? hs]
    rfl
  rw [firstComponent_eq_iff (by decide), hdev, hbelow]
  generalize (normalize s).tail = n at hcons
  rw [hcons, List.cons_prefix_cons]
  simp

theorem prefix_normalize_iff {s : List UInt8} (hs : s.head? = some slash) (hskip : ¬ SkipsFirst s.tail) :
    utf8 "dev" <+: (normalize s).tail ↔ utf8 "dev" <+: s.tail := by
  have hnorm : (normalize s).tail = normalizeFrom true s.tail := by
    rw [eq_cons_of_head? hs]
    rfl
  rw [hnorm, ← prefix_firstComponent (l := normalizeFrom true s.tail) (by decide), firstComponent_normalizeFrom hskip,
    prefix_firstComponent (by decide)]

theorem not_prefix_of_skipsFirst {l : List UInt8} (h : SkipsFirst l) : ¬ utf8 "dev" <+: l := by
  rw [← prefix_firstComponent (by decide)]
  rcases h with h | h
  · rw [h]
    decide
  · rw [h]
    decide

theorem restrictMount_eq_iff (cgroupFilter : CgroupFilter) (cgid : UInt64) (stack stack' : Stack)
    (devName devName' type : Option (List UInt8)) (flags : UInt64) :
    restrictMount cgroupFilter cgid stack devName type flags =
        restrictMount cgroupFilter cgid stack' devName' type flags ↔
      (restrictMount cgroupFilter cgid stack devName type flags = -EPERM ↔
        restrictMount cgroupFilter cgid stack' devName' type flags = -EPERM) := by
  rcases restrictMount_zero_or cgroupFilter cgid stack devName type flags with h | h <;>
    rcases restrictMount_zero_or cgroupFilter cgid stack' devName' type flags with h' | h' <;>
    rw [h, h'] <;> decide

section
variable (cgroupFilter : CgroupFilter) (cgid : UInt64) (hcontainer : isContainer cgroupFilter cgid = true)
  (type : Option (List UInt8)) (htype : ∀ t, type = some t → NulFree t) (flags : UInt64)
include hcontainer htype

theorem deny_iff (stack : Stack) {s : List UInt8} (hs : s.head? = some slash) :
    restrictMount cgroupFilter cgid stack (some s) type flags = -EPERM ↔
      OtherRule type flags ∨ utf8 "dev" <+: s.tail := by
  rw [restrictMount_denies_iff cgroupFilter cgid hcontainer stack (some s) type htype flags, namesDevice_iff hs]

theorem same_result_iff (stack stack' : Stack) {s t : List UInt8} (hs : s.head? = some slash)
    (ht : t.head? = some slash) (hnorm : normalize s = normalize t) :
    restrictMount cgroupFilter cgid stack (some s) type flags =
        restrictMount cgroupFilter cgid stack' (some t) type flags ↔
      OtherRule type flags ∨ ¬ utf8 "dev" <+: (normalize s).tail ∨ (SkipsFirst s.tail ↔ SkipsFirst t.tail) := by
  rw [restrictMount_eq_iff, deny_iff cgroupFilter cgid hcontainer type htype flags stack hs,
    deny_iff cgroupFilter cgid hcontainer type htype flags stack' ht]
  by_cases hother : OtherRule type flags
  · simp only [hother, true_or]
  simp only [hother, false_or]
  have hkept := prefix_normalize_iff ht
  rw [← hnorm] at hkept
  by_cases hskip : SkipsFirst s.tail
  · by_cases hskip' : SkipsFirst t.tail
    · simp only [not_prefix_of_skipsFirst hskip, not_prefix_of_skipsFirst hskip', hskip, hskip', or_true]
    · simp only [not_prefix_of_skipsFirst hskip, hkept hskip', hskip, hskip', false_iff, iff_false, not_true, or_false]
  · have hfirst := prefix_normalize_iff hs hskip
    by_cases hskip' : SkipsFirst t.tail
    · simp only [not_prefix_of_skipsFirst hskip', hfirst, hskip, hskip', iff_false, iff_true, or_false]
    · simp only [← hfirst, hkept hskip', hskip, hskip', or_true]

theorem denied_iff_spelledPlainly (stack : Stack) (hother : ¬ OtherRule type flags) {s : List UInt8}
    (hs : s.head? = some slash) :
    (restrictMount cgroupFilter cgid stack (some s) type flags = -EPERM ↔
        normalize s = utf8 "/dev" ∨ utf8 "/dev/" <+: normalize s) ↔ SpelledPlainly s := by
  rw [deny_iff cgroupFilter cgid hcontainer type htype flags stack hs, normalize_dev_iff hs]
  unfold SpelledPlainly
  by_cases hskip : SkipsFirst s.tail
  · have hnot := not_prefix_of_skipsFirst hskip
    rw [if_pos hskip]
    tauto
  · have hfirst : firstComponent (normalize s).tail = firstComponent s.tail := by
      rw [eq_cons_of_head? hs]
      exact firstComponent_normalizeFrom hskip
    have hdev : firstComponent s.tail = utf8 "dev" → utf8 "dev" <+: s.tail := by
      intro h
      rw [← h]
      exact List.takeWhile_prefix _
    rw [if_neg hskip, hfirst]
    tauto

/-- **The device rule depends on the spelling.**  Two spellings of a path whose normal form begins with `dev` have the
same result only if both have a first component that is dropped, or neither; and a path is denied as its normal form
asks exactly when it is spelled plainly. -/
theorem deviceRule_spelling (stack stack' : Stack) :
    (∀ s t : List UInt8, s.head? = some slash → t.head? = some slash → normalize s = normalize t →
      (restrictMount cgroupFilter cgid stack (some s) type flags =
          restrictMount cgroupFilter cgid stack' (some t) type flags ↔
        OtherRule type flags ∨ ¬ utf8 "dev" <+: (normalize s).tail ∨ (SkipsFirst s.tail ↔ SkipsFirst t.tail))) ∧
      (¬ OtherRule type flags → ∀ s : List UInt8, s.head? = some slash →
        ((restrictMount cgroupFilter cgid stack (some s) type flags = -EPERM ↔
            normalize s = utf8 "/dev" ∨ utf8 "/dev/" <+: normalize s) ↔
          SpelledPlainly s)) :=
  ⟨fun _ _ hs ht hnorm => same_result_iff cgroupFilter cgid hcontainer type htype flags stack stack' hs ht hnorm,
    fun hother _ hs => denied_iff_spelledPlainly cgroupFilter cgid hcontainer type htype flags stack hother hs⟩

end

theorem deviceRule_spelling_sda :
    SpelledPlainly (utf8 "/dev/sda") ∧
      (restrictMount container5 5 dirtyStack (some (utf8 "/dev/sda")) none 0 = -EPERM ↔
        normalize (utf8 "/dev/sda") = utf8 "/dev" ∨ utf8 "/dev/" <+: normalize (utf8 "/dev/sda")) := by
  have hother : ¬ OtherRule none 0 := by
    rintro (⟨t, -, ht⟩ | h | ⟨h, -⟩)
    · cases ht
    · exact h (by decide)
    · cases h
  have hplain : SpelledPlainly (utf8 "/dev/sda") := by decide
  exact ⟨hplain, ((deviceRule_spelling container5 5 (by decide) none (fun t ht => by cases ht) 0 dirtyStack
    dirtyStack).2 hother (utf8 "/dev/sda") (by decide)).2 hplain⟩

/-- **Another spelling of a device is let through, and a directory that is none is refused.** -/
theorem device_by_spelling :
    normalize (utf8 "//dev/sda") = normalize (utf8 "/dev/sda") ∧
      normalize (utf8 "/./dev/sda") = normalize (utf8 "/dev/sda") ∧
      restrictMount container5 5 dirtyStack (some (utf8 "/dev/sda")) none 0 = -EPERM ∧
      restrictMount container5 5 dirtyStack (some (utf8 "//dev/sda")) none 0 = 0 ∧
      restrictMount container5 5 dirtyStack (some (utf8 "/./dev/sda")) none 0 = 0 ∧
      ¬ (normalize (utf8 "/devices") = utf8 "/dev" ∨ utf8 "/dev/" <+: normalize (utf8 "/devices")) ∧
      restrictMount container5 5 dirtyStack (some (utf8 "/devices")) none 0 = -EPERM := by
  decide

end MountBlock
end CgroupGuard
