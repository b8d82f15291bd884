import CgroupGuard.Lib.Text
/-!
# Mounts — what `_ensure_bpffs` reads in `/proc/mounts`

The kernel writes a line for each mount, with blanks, tabs, newlines and backslashes in the names as three octal digits.
`_ensure_bpffs` splits each line at what Python takes for space.  As long as the names have no other space in them, it
finds a bpf file system exactly where one is mounted (`isMounted_procMounts`).
-/
namespace CgroupGuard
namespace ControlPlane

def MAP_PATH : Text := "/sys/fs/bpf/cgroup_filter".toList

/-- A mount as the kernel keeps it; `options` is all that it writes behind the type. -/
structure MountEntry where
  source : Text
  mountPoint : Text
  fsType : Text
  options : Text
  deriving DecidableEq, Repr

namespace MountEntry

def octalDigit (n : Nat) : Char := Char.ofNat (48 + n % 8)

/-- `seq_escape`. -/
def escape (stops : Text) (t : Text) : Text :=
  t.flatMap (fun c => if c ∈ stops then ['\\', octalDigit (c.toNat / 64), octalDigit (c.toNat / 8), octalDigit c.toNat]
    else [c])

/-- The characters that stand for themselves nowhere in the line. -/
def stops : Text := [' ', '\t', '\n', '\\']

def line (e : MountEntry) : Text :=
  escape ('#' :: stops) e.source ++ ' ' :: (escape stops e.mountPoint ++ ' ' ::
    (escape ('#' :: stops) e.fsType ++ ' ' :: e.options))

def SpaceEscaped (t : Text) : Prop := ∀ c ∈ t, Text.isSpace c = true → c ∈ stops

instance (t : Text) : Decidable (SpaceEscaped t) := List.decidableBAll _ t

def Verbatim (st t : Text) : Prop := ∀ c ∈ t, c ∉ st

instance (st t : Text) : Decidable (Verbatim st t) := List.decidableBAll _ t

/-- No field is empty, no name has space in it that the kernel does not write in octal, and the options have no end of
line. -/
structure Plain (e : MountEntry) : Prop where
  nonempty : e.source ≠ [] ∧ e.mountPoint ≠ [] ∧ e.fsType ≠ []
  source : SpaceEscaped e.source
  mountPoint : SpaceEscaped e.mountPoint
  fsType : SpaceEscaped e.fsType
  options : '\n' ∉ e.options ∧ '\r' ∉ e.options

end MountEntry

/-- `/proc/mounts`. -/
def procMounts (entries : List MountEntry) : Text := (entries.map MountEntry.line).flatMap (· ++ ['\n'])

/-- The loop of `_ensure_bpffs` over the lines. -/
def isMounted (parent : Text) (mounts : Text) : Bool :=
  (Text.lines mounts).any (fun line =>
    match Text.words line with
    | _ :: mountPoint :: fsType :: _ => mountPoint = parent && fsType = "bpf".toList
    | _ => false)

/-! ## The names in a line -/

namespace MountEntry

theorem isSpace_octalDigit (n : Nat) : Text.isSpace (octalDigit n) = false := by
  have hdigit : ∀ d < 8, Text.isSpace (Char.ofNat (48 + d)) = false := by decide
  exact hdigit (n % 8) (Nat.mod_lt n (by decide))

theorem isSpace_escape {st t : Text} (h : ∀ c ∈ t, Text.isSpace c = true → c ∈ st) :
    ∀ c ∈ escape st t, Text.isSpace c = false := by
  intro c hc
  obtain ⟨d, hd, hc⟩ := List.mem_flatMap.1 hc
  split at hc
  · simp only [List.mem_cons, List.not_mem_nil, or_false] at hc
    rcases hc with rfl | rfl | rfl | rfl
    · decide
    · exact isSpace_octalDigit _
    · exact isSpace_octalDigit _
    · exact isSpace_octalDigit _
  · rename_i hstop
    obtain rfl := List.mem_singleton.1 hc
    exact Bool.eq_false_iff.2 (fun hspace => hstop (h c hd hspace))

theorem escape_eq_self {st : Text} : ∀ {t : Text}, Verbatim st t → escape st t = t
  | [], _ => rfl
  | c :: t, h => by
    obtain ⟨hc, ht⟩ := List.forall_mem_cons.1 h
    rw [escape, List.flatMap_cons, if_neg hc]
    exact congrArg (c :: ·) (escape_eq_self ht)

theorem escape_ne_nil {st t : Text} (h : t ≠ []) : escape st t ≠ [] := by
  obtain ⟨c, t, rfl⟩ := List.exists_cons_of_ne_nil h
  rw [escape, List.flatMap_cons]
  split <;> exact fun he => by cases he

/-- **A name with nothing to escape is read for itself only.** -/
theorem escape_eq_iff {st t u : Text} (hback : '\\' ∈ st) (hu : Verbatim st u) : escape st t = u ↔ t = u := by
  constructor
  · intro h
    have ht : Verbatim st t := fun c hc hstop => by
      have hmem : '\\' ∈ escape st t := List.mem_flatMap.2 ⟨c, hc, by rw [if_pos hstop]; exact List.mem_cons_self⟩
      exact hu _ (h ▸ hmem) hback
    rw [← h, escape_eq_self ht]
  · rintro rfl
    exact escape_eq_self hu

variable {e : MountEntry}

theorem Plain.isSpace_names (h : e.Plain) : (∀ c ∈ escape ('#' :: stops) e.source, Text.isSpace c = false) ∧
    (∀ c ∈ escape stops e.mountPoint, Text.isSpace c = false) ∧
    (∀ c ∈ escape ('#' :: stops) e.fsType, Text.isSpace c = false) :=
  ⟨isSpace_escape (fun c hc hs => List.mem_cons_of_mem _ (h.source c hc hs)), isSpace_escape h.mountPoint,
    isSpace_escape (fun c hc hs => List.mem_cons_of_mem _ (h.fsType c hc hs))⟩

theorem Plain.words_line (h : e.Plain) : ∃ rest, Text.words (e.line ++ ['\n']) =
    escape ('#' :: stops) e.source :: escape stops e.mountPoint :: escape ('#' :: stops) e.fsType :: rest := by
  obtain ⟨hsource, hpoint, htype⟩ := h.isSpace_names
  refine ⟨Text.words (e.options ++ ['\n']), ?_⟩
  rw [line, List.append_assoc, List.cons_append, List.append_assoc, List.cons_append, List.append_assoc,
    List.cons_append, Text.words_append_space (escape_ne_nil h.nonempty.1) hsource (by decide),
    Text.words_append_space (escape_ne_nil h.nonempty.2.1) hpoint (by decide),
    Text.words_append_space (escape_ne_nil h.nonempty.2.2) htype (by decide)]

theorem Plain.no_newline (h : e.Plain) : '\n' ∉ e.line ∧ '\r' ∉ e.line := by
  obtain ⟨hsource, hpoint, htype⟩ := h.isSpace_names
  have hends : ∀ {c : Char}, Text.isSpace c = true → c ≠ ' ' → c ∉ e.options → c ∉ e.line := by
    intro c hspace hblank hoptions hc
    have hname : ∀ {t : Text}, (∀ d ∈ t, Text.isSpace d = false) → c ∉ t := fun ht hmem => by
      rw [ht c hmem] at hspace
      cases hspace
    simp only [line, List.mem_append, List.mem_cons, hblank, false_or] at hc
    rcases hc with hc | hc | hc | hc
    · exact hname hsource hc
    · exact hname hpoint hc
    · exact hname htype hc
    · exact hoptions hc
  exact ⟨hends (by decide) (by decide) h.options.1, hends (by decide) (by decide) h.options.2⟩

end MountEntry

open MountEntry (stops Verbatim) in
/-- **A bpf file system is found where one is mounted, and nowhere else.** -/
theorem isMounted_procMounts {entries : List MountEntry} (hplain : ∀ e ∈ entries, e.Plain) {parent : Text}
    (hparent : Verbatim stops parent) :
    isMounted parent (procMounts entries) = true ↔ ∃ e ∈ entries, e.mountPoint = parent ∧ e.fsType = "bpf".toList := by
  have hbpf : Verbatim ('#' :: stops) "bpf".toList := by decide
  have hlines : ∀ l ∈ entries.map MountEntry.line, '\n' ∉ l ∧ '\r' ∉ l := fun l hl => by
    obtain ⟨e, he, rfl⟩ := List.mem_map.1 hl
    exact (hplain e he).no_newline
  rw [isMounted, procMounts, Text.lines_flatMap_newline hlines, List.any_eq_true, List.map_map]
  simp only [List.mem_map, Function.comp_apply, exists_exists_and_eq_and]
  refine exists_congr (fun e => and_congr_right (fun he => ?_))
  obtain ⟨rest, hwords⟩ := (hplain e he).words_line
  rw [hwords]
  simp only [Bool.and_eq_true, decide_eq_true_eq]
  rw [MountEntry.escape_eq_iff (by decide) hparent, MountEntry.escape_eq_iff (by decide) hbpf]

end ControlPlane
end CgroupGuard
