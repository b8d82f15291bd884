import CgroupGuard.FileOpening.Loader
/-!
# Reload — the maps after one run of the loader after another

The maps are pinned and nothing in the loader takes anything out of them.  The inode keys of all runs add up; a slot
keeps its prefix until a list is long enough to write over it (`reload_policy`).
-/
namespace CgroupGuard
namespace FileOpening

/-- The maps after the runs, the first of which finds none pinned. -/
def reload (runs : List Config) : Maps := runs.foldl populate Maps.init

def Config.keys (c : Config) : List (Buffer 16) := c.protectedFiles.filterMap (Option.map packKey)

def InPrefixes (m : PrefixBlacklist) (p : List UInt8) : Prop := p ≠ [] ∧ ∃ i, (m i).Holds p

/-- The entry of index `i` in the last list that has one. -/
def latest (runs : List Config) (i : Nat) : Option (List UInt8) :=
  (runs.filterMap (fun c => c.prefixPaths[i]?)).getLast?

/-! ## The inode keys -/

theorem foldl_populate_inodes : ∀ (runs : List Config) (m : Maps),
    (runs.foldl populate m).inodeBlacklist = m.inodeBlacklist.putAll 1 (runs.flatMap Config.keys)
  | [], _ => rfl
  | c :: runs, m => by
    rw [List.foldl_cons, foldl_populate_inodes runs, List.flatMap_cons, BoundedMap.putAll_append]
    show (populateInodes m.inodeBlacklist c.protectedFiles).putAll 1 _ = _
    rw [populateInodes_eq]
    rfl

theorem mem_keys_of_reload {runs : List Config} {key : Buffer 16} (h : key ∈ (reload runs).inodeBlacklist.keys) :
    key ∈ runs.flatMap Config.keys := by
  unfold reload at h
  rw [foldl_populate_inodes] at h
  rcases BoundedMap.mem_of_mem_keys_putAll 1 _ h with h | h
  · cases h
  · exact h

theorem mem_keys_reload {runs : List Config} (hfit : (runs.flatMap Config.keys).dedup.length ≤ 8) (key : Buffer 16) :
    key ∈ (reload runs).inodeBlacklist.keys ↔ key ∈ runs.flatMap Config.keys := by
  unfold reload
  rw [foldl_populate_inodes, BoundedMap.mem_keys_putAll 1 hfit _ (fun x hx => by cases hx) (fun x hx => hx)]
  exact or_iff_right (fun h => by cases h)

/-! ## The slots -/

theorem foldl_populate_slot (i : Fin 8) : ∀ (runs : List Config) (m : Maps),
    (runs.foldl populate m).prefixBlacklist i = ((latest runs i).map encodePrefix).getD (m.prefixBlacklist i)
  | [], _ => rfl
  | c :: runs, m => by
    rw [List.foldl_cons, foldl_populate_slot i runs]
    show ((latest runs i).map encodePrefix).getD (populatePrefixes m.prefixBlacklist c.prefixPaths i) = _
    rw [populatePrefixes_apply]
    unfold latest
    cases hc : c.prefixPaths[i.val]? with
    | none =>
      rw [List.filterMap_cons, hc]
      rfl
    | some p =>
      rw [List.filterMap_cons, hc]
      dsimp only
      rw [List.getLast?_cons]
      cases (runs.filterMap (fun c => c.prefixPaths[i.val]?)).getLast? <;> rfl

theorem mem_of_latest {runs : List Config} {i : Nat} {p : List UInt8} (h : latest runs i = some p) :
    ∃ c ∈ runs, p ∈ c.prefixPaths := by
  obtain ⟨c, hc, hp⟩ := List.mem_filterMap.1 (List.mem_of_getLast? h)
  exact ⟨c, hc, List.mem_of_getElem? hp⟩

theorem inPrefixes_reload {runs : List Config}
    (hpaths : ∀ c ∈ runs, ∀ p ∈ c.prefixPaths, p ≠ [] ∧ NulFree p ∧ p.length < 128) (p : List UInt8) :
    InPrefixes (reload runs).prefixBlacklist p ↔ ∃ i : Fin 8, latest runs i = some p := by
  have hslot : ∀ i : Fin 8, ((reload runs).prefixBlacklist i).Holds ((latest runs i).getD []) := by
    intro i
    unfold reload
    rw [foldl_populate_slot]
    cases h : latest runs i with
    | none => exact Buffer.holds_zero 127
    | some q =>
      obtain ⟨c, hc, hq⟩ := mem_of_latest h
      obtain ⟨-, hnul, hlen⟩ := hpaths c hc q hq
      have hholds := holds_encodePrefix hnul
      rwa [List.take_of_length_le (by omega)] at hholds
  constructor
  · rintro ⟨hne, i, hi⟩
    refine ⟨i, ?_⟩
    have heq := (hslot i).unique hi
    cases h : latest runs i with
    | none => rw [h] at heq; exact absurd heq.symm hne
    | some q => rw [h] at heq; exact congrArg some heq
  · rintro ⟨i, hi⟩
    obtain ⟨c, hc, hp⟩ := mem_of_latest hi
    refine ⟨(hpaths c hc p hp).1, i, ?_⟩
    have hholds := hslot i
    rwa [hi] at hholds

/-- **A reload adds to the policy**: the inode keys are of some run and, while all runs together name no more than the
map has room for, of every run; the prefixes are, index by index, those of the last list that has one. -/
theorem reload_policy (runs : List Config)
    (hpaths : ∀ c ∈ runs, ∀ p ∈ c.prefixPaths, p ≠ [] ∧ NulFree p ∧ p.length < 128) :
    (∀ key ∈ (reload runs).inodeBlacklist.keys, key ∈ runs.flatMap Config.keys) ∧
      ((runs.flatMap Config.keys).dedup.length ≤ 8 →
        ∀ key, key ∈ (reload runs).inodeBlacklist.keys ↔ key ∈ runs.flatMap Config.keys) ∧
      ∀ p, InPrefixes (reload runs).prefixBlacklist p ↔ ∃ i : Fin 8, latest runs i = some p :=
  ⟨fun _ => mem_keys_of_reload, mem_keys_reload, inPrefixes_reload hpaths⟩

def shrinking : List Config :=
  [⟨[some ⟨35, 42⟩, some ⟨35, 43⟩], [utf8 "/root/", utf8 "/protected.txt"], []⟩, ⟨[some ⟨35, 42⟩], [utf8 "/root/"], []⟩]

theorem reload_policy_shrinking :
    (∀ c ∈ shrinking, ∀ p ∈ c.prefixPaths, p ≠ [] ∧ NulFree p ∧ p.length < 128) ∧
      (∀ key, key ∈ (reload shrinking).inodeBlacklist.keys ↔ key ∈ shrinking.flatMap Config.keys) ∧
      ∀ p, InPrefixes (reload shrinking).prefixBlacklist p ↔ ∃ i : Fin 8, latest shrinking i = some p := by
  have hpaths : ∀ c ∈ shrinking, ∀ p ∈ c.prefixPaths, p ≠ [] ∧ NulFree p ∧ p.length < 128 := by decide
  exact ⟨hpaths, (reload_policy shrinking hpaths).2.1 (by decide), (reload_policy shrinking hpaths).2.2⟩

/-- **The first run's second file and second prefix outlast the second run**, whose lists have neither. -/
theorem reload_keeps_old_policy :
    (∃ key ∈ (reload shrinking).inodeBlacklist.keys, key ∉ shrinking[1].keys) ∧
      ∃ p, InPrefixes (reload shrinking).prefixBlacklist p ∧ p ∉ shrinking[1].prefixPaths := by
  refine ⟨⟨packKey ⟨35, 43⟩, by decide, by decide⟩, utf8 "/protected.txt", ⟨by decide, 1, by decide, ?_⟩, by decide⟩
  exact ⟨List.replicate 113 0, by decide⟩

end FileOpening
end CgroupGuard
