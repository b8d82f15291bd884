import Mathlib.Data.List.Basic
import Mathlib.Data.List.DropRight
/-!
# Text — stripping, splitting and following a path

A text is a list of characters.  `strip`, `words`, `lines`, `joinPath` and `dirname` are Python's; `resolve` follows a
path from a directory, which is the list of the names above it, and the root is its own parent.
-/

abbrev Text := List Char

namespace Text

/-- The characters `str.isspace` holds of. -/
def isSpace (c : Char) : Bool :=
  c.val ∈ [0x09, 0x0a, 0x0b, 0x0c, 0x0d, 0x1c, 0x1d, 0x1e, 0x1f, 0x20, 0x85, 0xa0, 0x1680, 0x2028, 0x2029, 0x202f,
    0x205f, 0x3000] || (0x2000 ≤ c.val && c.val ≤ 0x200a)

/-- `str.strip`. -/
def strip (t : Text) : Text := (t.dropWhile isSpace).rdropWhile isSpace

/-- `str.split` without a separator. -/
def words (t : Text) : List Text := (t.splitOnP isSpace).filter (· ≠ [])

/-- What is read of a file opened as text: each of the three ends of line is a newline. -/
def universalNewlines : Text → Text
  | [] => []
  | '\r' :: '\n' :: t => '\n' :: universalNewlines t
  | c :: t => (if c = '\r' then '\n' else c) :: universalNewlines t

/-- The lines of a file opened as text, each with its newline; the last may lack it. -/
def lines (t : Text) : List Text :=
  let pieces := (universalNewlines t).splitOn '\n'
  pieces.dropLast.map (· ++ ['\n']) ++ pieces.getLast?.toList.filter (· ≠ [])

/-- `os.path.join`. -/
def joinPath (a b : Text) : Text :=
  if b.head? = some '/' then b
  else if a = [] ∨ a.getLast? = some '/' then a ++ b
  else a ++ '/' :: b

/-- `os.path.dirname`. -/
def dirname (p : Text) : Text :=
  let head := p.rdropWhile (· ≠ '/')
  if head.all (· = '/') then head else head.rdropWhile (· = '/')

def enter (dir : List Text) (component : Text) : List Text :=
  if component = [] ∨ component = ['.'] then dir
  else if component = ['.', '.'] then dir.dropLast
  else dir ++ [component]

def resolve (dir : List Text) (path : Text) : List Text := (path.splitOn '/').foldl enter dir

theorem strip_append_newline {t : Text} {c : Char} (hc : isSpace c = false) (s : Text)
    (hs : ∀ c ∈ s, isSpace c = false) : strip (t ++ c :: s ++ ['\n']) = t.dropWhile isSpace ++ c :: s := by
  have hkeep : (t.dropWhile isSpace ++ c :: s).rdropWhile isSpace = t.dropWhile isSpace ++ c :: s := by
    rw [List.rdropWhile_eq_self_iff]
    intro hne
    rw [List.getLast_append_of_ne_nil _ (List.cons_ne_nil c s)]
    have hlast := List.getLast_mem (List.cons_ne_nil c s)
    rcases List.mem_cons.1 hlast with heq | hmem
    · rw [heq, hc]; decide
    · rw [hs _ hmem]; decide
  have hdrop : (t ++ c :: s ++ ['\n']).dropWhile isSpace = t.dropWhile isSpace ++ c :: s ++ ['\n'] := by
    rw [List.append_assoc, List.dropWhile_append, List.append_assoc]
    split
    · rename_i hempty
      rw [List.isEmpty_iff.1 hempty, List.cons_append, List.dropWhile_cons_of_neg (by rw [hc]; decide), List.nil_append]
    · rfl
  rw [strip, hdrop, List.rdropWhile_concat_pos _ _ _ (by decide), hkeep]

theorem words_append_space {w : Text} {c : Char} (hne : w ≠ []) (hw : ∀ c ∈ w, isSpace c = false)
    (hc : isSpace c = true)
    (t : Text) : words (w ++ c :: t) = w :: words t := by
  rw [words, List.splitOnP_append_cons_of_forall_mem hw c hc]
  exact List.filter_cons_of_pos (decide_eq_true hne)

theorem universalNewlines_eq_self : ∀ {t : Text}, '\r' ∉ t → universalNewlines t = t
  | [], _ => rfl
  | c :: t, h => by
    have hc : c ≠ '\r' := fun he => h (he ▸ List.mem_cons_self)
    have ih := universalNewlines_eq_self (t := t) (fun hmem => h (List.mem_cons_of_mem c hmem))
    unfold universalNewlines
    split
    · rename_i heq
      cases heq
    · rename_i heq
      cases heq
      exact absurd rfl hc
    · rename_i heq
      cases heq
      rw [if_neg hc, ih]

theorem splitOn_flatMap_newline : ∀ {ls : List Text}, (∀ l ∈ ls, '\n' ∉ l) →
    (ls.flatMap (· ++ ['\n'])).splitOn '\n' = ls ++ [[]]
  | [], _ => rfl
  | l :: ls, h => by
    obtain ⟨hl, hls⟩ := List.forall_mem_cons.1 h
    rw [List.flatMap_cons, List.append_assoc, List.singleton_append, List.splitOn_append_cons_self,
      List.splitOn_eq_singleton hl, splitOn_flatMap_newline hls]
    rfl

/-- **The lines of a text are those it was put together from.** -/
theorem lines_flatMap_newline {ls : List Text} (h : ∀ l ∈ ls, '\n' ∉ l ∧ '\r' ∉ l) :
    lines (ls.flatMap (· ++ ['\n'])) = ls.map (· ++ ['\n']) := by
  have hcr : '\r' ∉ ls.flatMap (· ++ ['\n']) := by
    intro hmem
    obtain ⟨l, hl, hc⟩ := List.mem_flatMap.1 hmem
    rcases List.mem_append.1 hc with hc | hc
    · exact (h l hl).2 hc
    · exact absurd (List.mem_singleton.1 hc) (by decide)
  rw [lines, universalNewlines_eq_self hcr, splitOn_flatMap_newline (fun l hl => (h l hl).1)]
  simp

theorem enter_name (dir : List Text) {name : Text} (hne : name ≠ []) (hdot : name ≠ ['.']) (hdots : name ≠ ['.', '.']) :
    enter dir name = dir ++ [name] := by
  rw [enter, if_neg (not_or.2 ⟨hne, hdot⟩), if_neg hdots]

theorem resolve_append_slash (dir : List Text) (path path' : Text) :
    resolve dir (path ++ '/' :: path') = resolve (resolve dir path) path' := by
  rw [resolve, List.splitOn_append_cons_self, List.foldl_append, resolve, resolve]

theorem resolve_name (dir : List Text) {name : Text} (hslash : '/' ∉ name) (hne : name ≠ []) (hdot : name ≠ ['.'])
    (hdots : name ≠ ['.', '.']) : resolve dir name = dir ++ [name] := by
  rw [resolve, List.splitOn_eq_singleton hslash, List.foldl_cons, List.foldl_nil, enter_name dir hne hdot hdots]

end Text

/-! ## Lists put together from pieces -/

theorem length_flatMap_le {α β : Type} {f g : α → List β} : ∀ {l : List α}, (∀ x ∈ l, (g x).length ≤ (f x).length) →
    (l.flatMap g).length ≤ (l.flatMap f).length
  | [], _ => Nat.le_refl 0
  | x :: l, h => by
    obtain ⟨hx, hl⟩ := List.forall_mem_cons.1 h
    rw [List.flatMap_cons, List.flatMap_cons, List.length_append, List.length_append]
    exact Nat.add_le_add hx (length_flatMap_le hl)

theorem flatMap_eq_iff {α β : Type} {f g : α → List β} : ∀ {l : List α}, (∀ x ∈ l, (g x).length ≤ (f x).length) →
    (l.flatMap f = l.flatMap g ↔ ∀ x ∈ l, f x = g x)
  | [], _ => iff_of_true rfl nofun
  | x :: l, h => by
    obtain ⟨hx, hl⟩ := List.forall_mem_cons.1 h
    rw [List.forall_mem_cons, List.flatMap_cons, List.flatMap_cons, ← flatMap_eq_iff hl]
    constructor
    · intro heq
      have hlen := congrArg List.length heq
      have hrest := length_flatMap_le hl
      rw [List.length_append, List.length_append] at hlen
      exact List.append_inj heq (by omega)
    · rintro ⟨hx, hl⟩
      rw [hx, hl]
