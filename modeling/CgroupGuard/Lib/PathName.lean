import Mathlib.Data.List.Basic
/-!
# PathName — spellings of an absolute path

Repeated slashes are one slash, and a `.` component names the directory it stands in.  `normalize` writes a path without
either; a slash at the end stays.  What a path normalizes to begins with its own first component, unless that is empty
or a dot (`firstComponent_normalizeFrom`).
-/
namespace PathName

def slash : UInt8 := '/'.toUInt8

def dot : UInt8 := '.'.toUInt8

def firstComponent (l : List UInt8) : List UInt8 := l.takeWhile (· ≠ slash)

/-- The rest of a normal form; the flag is set right behind a slash. -/
def normalizeFrom : Bool → List UInt8 → List UInt8
  | _, [] => []
  | true, c :: l =>
    if c = slash then normalizeFrom true l
    -- the slash behind a dot is then a repeated one
    else if c = dot ∧ l.headD slash = slash then normalizeFrom true l
    else c :: normalizeFrom false l
  | false, c :: l => c :: normalizeFrom (c = slash) l

def normalize : List UInt8 → List UInt8
  | [] => []
  | c :: l => c :: normalizeFrom true l

/-- The first component is empty or a dot, and normalization drops it. -/
def SkipsFirst (l : List UInt8) : Prop := firstComponent l = [] ∨ firstComponent l = [dot]

instance (l : List UInt8) : Decidable (SkipsFirst l) := inferInstanceAs (Decidable (_ ∨ _))

theorem firstComponent_cons_of_ne {c : UInt8} {l : List UInt8} (h : c ≠ slash) :
    firstComponent (c :: l) = c :: firstComponent l := List.takeWhile_cons_of_pos (decide_eq_true h)

theorem firstComponent_cons_slash (l : List UInt8) : firstComponent (slash :: l) = [] :=
  List.takeWhile_cons_of_neg (by simp)

theorem firstComponent_normalizeFrom_false : ∀ l : List UInt8,
    firstComponent (normalizeFrom false l) = firstComponent l
  | [] => rfl
  | c :: l => by
    by_cases hc : c = slash
    · subst hc
      rw [normalizeFrom, firstComponent_cons_slash, firstComponent_cons_slash]
    · rw [normalizeFrom, firstComponent_cons_of_ne hc, firstComponent_cons_of_ne hc]
      simp only [hc, decide_false, firstComponent_normalizeFrom_false l]

/-- **A first component that is neither empty nor a dot stays the first.** -/
theorem firstComponent_normalizeFrom {l : List UInt8} (h : ¬ SkipsFirst l) :
    firstComponent (normalizeFrom true l) = firstComponent l := by
  cases l with
  | nil => rfl
  | cons c l =>
    have hc : c ≠ slash := by
      rintro rfl
      exact h (.inl (firstComponent_cons_slash l))
    have hdot : ¬ (c = dot ∧ l.headD slash = slash) := by
      rintro ⟨rfl, hl⟩
      refine h (.inr ?_)
      rw [firstComponent_cons_of_ne hc]
      cases l with
      | nil => rfl
      | cons d l =>
        obtain rfl : d = slash := hl
        rw [firstComponent_cons_slash]
    rw [normalizeFrom, if_neg hc, if_neg hdot, firstComponent_cons_of_ne hc, firstComponent_cons_of_ne hc,
      firstComponent_normalizeFrom_false]

theorem prefix_firstComponent : ∀ {p l : List UInt8}, slash ∉ p → (p <+: firstComponent l ↔ p <+: l)
  | [], _, _ => by simp
  | c :: p, [], _ => by simp [firstComponent]
  | c :: p, d :: l, h => by
    have hc : c ≠ slash := (List.ne_of_not_mem_cons h).symm
    have ih := prefix_firstComponent (p := p) (l := l) (List.not_mem_of_not_mem_cons h)
    by_cases hd : d = slash
    · subst hd
      rw [firstComponent_cons_slash]
      simp [List.cons_prefix_cons, hc]
    · rw [firstComponent_cons_of_ne hd, List.cons_prefix_cons, List.cons_prefix_cons, ih]

theorem firstComponent_eq_iff : ∀ {p l : List UInt8}, slash ∉ p → (firstComponent l = p ↔ l = p ∨ p ++ [slash] <+: l)
  | [], [], _ => by simp [firstComponent]
  | [], d :: l, _ => by
    by_cases hd : d = slash
    · subst hd
      simp [firstComponent_cons_slash, List.cons_prefix_cons]
    · simp [firstComponent_cons_of_ne hd, List.cons_prefix_cons, Ne.symm hd]
  | c :: p, [], _ => by simp [firstComponent]
  | c :: p, d :: l, h => by
    have hc : c ≠ slash := (List.ne_of_not_mem_cons h).symm
    have ih := firstComponent_eq_iff (p := p) (l := l) (List.not_mem_of_not_mem_cons h)
    by_cases hd : d = slash
    · subst hd
      simp [firstComponent_cons_slash, List.cons_prefix_cons, hc, Ne.symm hc]
    · rw [firstComponent_cons_of_ne hd, List.cons_append, List.cons_prefix_cons, List.cons.injEq, List.cons.injEq, ih]
      constructor
      · rintro ⟨rfl, hrest⟩
        exact hrest.imp (fun he => ⟨rfl, he⟩) (fun hp => ⟨rfl, hp⟩)
      · rintro (⟨rfl, hrest⟩ | ⟨rfl, hrest⟩)
        · exact ⟨rfl, .inl hrest⟩
        · exact ⟨rfl, .inr hrest⟩

end PathName
