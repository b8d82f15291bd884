import Mathlib.Data.List.AList
import Mathlib.Data.List.Dedup
/-!
# BoundedMap — a finite map with room for `cap` keys

An association list whose length is bounded by its type.  Writing a key that is present replaces its value; writing a
new key needs a free entry and is refused (`none`) without one, leaving the map as it was.  `put` is the unchecked
write, which drops the refusal.  `Accepts` is the one fact about a write the rules below ask for.  Before it stand the
lemmas on what a lookup in an association list finds.
-/

namespace AList

variable {κ ν : Type} [DecidableEq κ] {s : AList (fun _ : κ => ν)} {k k' : κ} {v v' : ν}

theorem mem_of_lookup (h : s.lookup k = some v) : k ∈ s := lookup_isSome.1 (by rw [h]; rfl)

theorem exists_lookup (h : k ∈ s) : ∃ v, s.lookup k = some v := Option.isSome_iff_exists.1 (lookup_isSome.2 h)

theorem lookup_insert_eq_some (h : (s.insert k v).lookup k' = some v') :
    (k' = k ∧ v' = v) ∨ s.lookup k' = some v' := by
  by_cases hk : k' = k
  · subst hk
    rw [lookup_insert] at h
    exact .inl ⟨rfl, (Option.some.inj h).symm⟩
  · rw [lookup_insert_ne hk] at h
    exact .inr h

theorem lookup_insert_of_notMem (hk : k ∉ s) (h : s.lookup k' = some v') : (s.insert k v).lookup k' = some v' := by
  have hne : k' ≠ k := fun he => hk (he ▸ mem_of_lookup h)
  rw [lookup_insert_ne hne]
  exact h

theorem lookup_erase_eq_some (h : (s.erase k).lookup k' = some v) : k' ≠ k ∧ s.lookup k' = some v := by
  by_cases hk : k' = k
  · subst hk
    rw [lookup_erase] at h
    cases h
  · rw [lookup_erase_ne hk] at h
    exact ⟨hk, h⟩

end AList

structure BoundedMap (κ ν : Type) (cap : Nat) where
  entries : AList (fun _ : κ => ν)
  bounded : entries.keys.length ≤ cap

namespace BoundedMap

variable {κ ν : Type} {cap : Nat}

def empty : BoundedMap κ ν cap := ⟨∅, Nat.zero_le cap⟩

def keys (m : BoundedMap κ ν cap) : List κ := m.entries.keys

def size (m : BoundedMap κ ν cap) : Nat := m.keys.length

theorem nodup_keys (m : BoundedMap κ ν cap) : m.keys.Nodup := m.entries.keys_nodup

theorem size_le (m : BoundedMap κ ν cap) : m.size ≤ cap := m.bounded

/-- A write to `k` finds an entry for it: `k` is present, or an entry is free. -/
def Accepts (m : BoundedMap κ ν cap) (k : κ) : Prop := k ∈ m.keys ∨ m.size < cap

theorem accepts_congr {ν' : Type} {m : BoundedMap κ ν cap} {m' : BoundedMap κ ν' cap}
    (h : ∀ k, k ∈ m.keys ↔ k ∈ m'.keys) (k : κ) : m.Accepts k ↔ m'.Accepts k := by
  have hperm : m.keys.Perm m'.keys := (List.perm_ext_iff_of_nodup m.nodup_keys m'.nodup_keys).2 h
  have hsize : m.size = m'.size := hperm.length_eq
  unfold Accepts
  rw [h k, hsize]

variable [DecidableEq κ]

def lookup (m : BoundedMap κ ν cap) (k : κ) : Option ν := m.entries.lookup k

instance (m : BoundedMap κ ν cap) (k : κ) : Decidable (m.Accepts k) := inferInstanceAs (Decidable (_ ∨ _))

theorem length_keys_insert (m : BoundedMap κ ν cap) (k : κ) (v : ν) :
    (m.entries.insert k v).keys.length = if k ∈ m.keys then m.size else m.size + 1 := by
  rw [AList.keys_insert, List.length_cons, List.length_erase]
  show (if k ∈ m.keys then m.size - 1 else m.size) + 1 = _
  split
  · rename_i h
    have : 0 < m.size := List.length_pos_of_mem h
    omega
  · rfl

/-- The write of `k`, refused when `k` is new and no entry is free. -/
def update (m : BoundedMap κ ν cap) (k : κ) (v : ν) : Option (BoundedMap κ ν cap) :=
  if h : m.Accepts k then
    some ⟨m.entries.insert k v, by
      rw [length_keys_insert]
      have := m.size_le
      rcases h with h | h
      · rwa [if_pos h]
      · split <;> omega⟩
  else none

/-- The write of `k` by a caller that does not look at the result. -/
def put (m : BoundedMap κ ν cap) (k : κ) (v : ν) : BoundedMap κ ν cap := (m.update k v).getD m

/-- The removal of `k`, refused when `k` is absent. -/
def delete (m : BoundedMap κ ν cap) (k : κ) : Option (BoundedMap κ ν cap) :=
  if k ∈ m.keys then
    some ⟨m.entries.erase k, by
      rw [AList.keys_erase]
      exact Nat.le_trans List.length_erase_le m.bounded⟩
  else none

/-! ## Looking up -/

theorem isSome_lookup (m : BoundedMap κ ν cap) (k : κ) : (m.lookup k).isSome = true ↔ k ∈ m.keys :=
  AList.lookup_isSome

theorem lookup_eq_none (m : BoundedMap κ ν cap) (k : κ) : m.lookup k = none ↔ k ∉ m.keys := AList.lookup_eq_none

theorem mem_keys_of_lookup {m : BoundedMap κ ν cap} {k : κ} {v : ν} (h : m.lookup k = some v) : k ∈ m.keys :=
  (isSome_lookup m k).1 (by rw [h]; rfl)

theorem exists_lookup_of_mem_keys {m : BoundedMap κ ν cap} {k : κ} (h : k ∈ m.keys) : ∃ v, m.lookup k = some v :=
  AList.exists_lookup h

/-! ## The checked write -/

theorem update_isSome (m : BoundedMap κ ν cap) (k : κ) (v : ν) : (m.update k v).isSome = true ↔ m.Accepts k := by
  unfold update
  split <;> simp_all

theorem update_eq_none (m : BoundedMap κ ν cap) (k : κ) (v : ν) : m.update k v = none ↔ ¬ m.Accepts k := by
  rw [← update_isSome m k v]
  cases m.update k v <;> simp

theorem entries_of_update {m m' : BoundedMap κ ν cap} {k : κ} {v : ν} (h : m.update k v = some m') :
    m'.entries = m.entries.insert k v := by
  unfold update at h
  split at h
  · cases h; rfl
  · cases h

theorem mem_keys_update {m m' : BoundedMap κ ν cap} {k : κ} {v : ν} (h : m.update k v = some m') (k' : κ) :
    k' ∈ m'.keys ↔ k' = k ∨ k' ∈ m.keys := by
  show k' ∈ m'.entries.keys ↔ _
  rw [entries_of_update h]
  exact AList.mem_insert m.entries

theorem lookup_update_self {m m' : BoundedMap κ ν cap} {k : κ} {v : ν} (h : m.update k v = some m') :
    m'.lookup k = some v := by
  unfold lookup
  rw [entries_of_update h, AList.lookup_insert]

theorem lookup_update_ne {m m' : BoundedMap κ ν cap} {k k' : κ} {v : ν} (h : m.update k v = some m') (hne : k' ≠ k) :
    m'.lookup k' = m.lookup k' := by
  unfold lookup
  rw [entries_of_update h, AList.lookup_insert_ne hne]

theorem size_update {m m' : BoundedMap κ ν cap} {k : κ} {v : ν} (h : m.update k v = some m') :
    m'.size = if k ∈ m.keys then m.size else m.size + 1 := by
  rw [← length_keys_insert m k v, ← entries_of_update h]
  rfl

/-! ## The unchecked write -/

theorem put_of_not_accepts {m : BoundedMap κ ν cap} {k : κ} (h : ¬ m.Accepts k) (v : ν) : m.put k v = m := by
  unfold put
  rw [(update_eq_none m k v).2 h]
  rfl

theorem update_eq_put {m : BoundedMap κ ν cap} {k : κ} (h : m.Accepts k) (v : ν) :
    m.update k v = some (m.put k v) := by
  obtain ⟨m', hm'⟩ := Option.isSome_iff_exists.1 ((update_isSome m k v).2 h)
  unfold put
  rw [hm']
  rfl

theorem lookup_put_ne (m : BoundedMap κ ν cap) {k k' : κ} (v : ν) (hne : k' ≠ k) :
    (m.put k v).lookup k' = m.lookup k' := by
  by_cases h : m.Accepts k
  · exact lookup_update_ne (update_eq_put h v) hne
  · rw [put_of_not_accepts h]

theorem lookup_put_self {m : BoundedMap κ ν cap} {k : κ} (h : m.Accepts k) (v : ν) :
    (m.put k v).lookup k = some v :=
  lookup_update_self (update_eq_put h v)

theorem lookup_put_self_eq (m : BoundedMap κ ν cap) (k : κ) (v : ν) :
    (m.put k v).lookup k = if m.Accepts k then some v else none := by
  split
  · rename_i h; exact lookup_put_self h v
  · rename_i h
    rw [put_of_not_accepts h, lookup_eq_none]
    exact fun hk => h (Or.inl hk)

theorem lookup_put_eq_some {m : BoundedMap κ ν cap} {k k' : κ} {v w : ν} (h : (m.put k v).lookup k' = some w) :
    (k' = k ∧ w = v) ∨ m.lookup k' = some w := by
  by_cases hk : k' = k
  · subst hk
    rw [lookup_put_self_eq] at h
    split at h <;> cases h
    exact .inl ⟨rfl, rfl⟩
  · rw [lookup_put_ne _ _ hk] at h
    exact .inr h

theorem mem_keys_put (m : BoundedMap κ ν cap) (k : κ) (v : ν) (k' : κ) :
    k' ∈ (m.put k v).keys ↔ (k' = k ∧ m.Accepts k) ∨ k' ∈ m.keys := by
  by_cases h : m.Accepts k
  · rw [mem_keys_update (update_eq_put h v)]
    simp [h]
  · rw [put_of_not_accepts h]
    simp [h]

theorem mem_keys_put_of_mem {m : BoundedMap κ ν cap} {k k' : κ} (v : ν) (h : k' ∈ m.keys) :
    k' ∈ (m.put k v).keys :=
  (mem_keys_put m k v k').2 (Or.inr h)

theorem size_le_size_put (m : BoundedMap κ ν cap) (k : κ) (v : ν) : m.size ≤ (m.put k v).size :=
  (List.subperm_of_subset m.nodup_keys (fun _ h => mem_keys_put_of_mem v h)).length_le

theorem not_mem_put_of_full {m : BoundedMap κ ν cap} {k : κ} (hfull : ¬ m.size < cap) (hk : k ∉ m.keys) (k' : κ)
    (v : ν) : ¬ (m.put k' v).size < cap ∧ k ∉ (m.put k' v).keys := by
  refine ⟨fun h => hfull (Nat.lt_of_le_of_lt (size_le_size_put m k' v) h), fun h => ?_⟩
  rcases (mem_keys_put m k' v k).1 h with ⟨rfl, hacc⟩ | h
  · exact hacc.elim hk hfull
  · exact hk h

theorem size_put_le (m : BoundedMap κ ν cap) (k : κ) (v : ν) : (m.put k v).size ≤ m.size + 1 := by
  by_cases h : m.Accepts k
  · rw [size_update (update_eq_put h v)]
    split <;> omega
  · rw [put_of_not_accepts h]
    omega

/-- **A map with room for all the keys there are refuses none.** -/
theorem accepts_of_subset {m : BoundedMap κ ν cap} {ks : List κ} {k : κ} (hsub : m.keys ⊆ ks) (hk : k ∈ ks)
    (hfit : ks.dedup.length ≤ cap) : m.Accepts k := by
  by_cases hmem : k ∈ m.keys
  · exact .inl hmem
  · have hle := (List.subperm_of_subset (List.nodup_cons.2 ⟨hmem, m.nodup_keys⟩)
      (List.cons_subset.2 ⟨List.mem_dedup.2 hk, fun k' hk' => List.mem_dedup.2 (hsub hk')⟩)).length_le
    exact .inr (Nat.lt_of_lt_of_le hle hfit)

theorem size_lt_iff_dedup_length_lt {m : BoundedMap κ ν cap} {ks : List κ} (hsub : m.keys ⊆ ks)
    (hcov : m.size < cap → ks ⊆ m.keys) : m.size < cap ↔ ks.dedup.length < cap := by
  constructor
  · intro h
    have hle := (List.subperm_of_subset ks.nodup_dedup (fun k hk => hcov h (List.mem_dedup.1 hk))).length_le
    exact Nat.lt_of_le_of_lt hle h
  · intro h
    have hle := (List.subperm_of_subset m.nodup_keys (fun k hk => List.mem_dedup.2 (hsub hk))).length_le
    exact Nat.lt_of_le_of_lt hle h

def putAll (m : BoundedMap κ ν cap) (v : ν) (ks : List κ) : BoundedMap κ ν cap := ks.foldl (fun m k => m.put k v) m

theorem putAll_append (m : BoundedMap κ ν cap) (v : ν) (ks ks' : List κ) :
    m.putAll v (ks ++ ks') = (m.putAll v ks).putAll v ks' := List.foldl_append

theorem mem_keys_putAll_of_mem {k : κ} (v : ν) : ∀ (ks : List κ) {m : BoundedMap κ ν cap}, k ∈ m.keys →
    k ∈ (m.putAll v ks).keys
  | [], _, h => h
  | _ :: ks, _, h => mem_keys_putAll_of_mem v ks (mem_keys_put_of_mem v h)

theorem mem_of_mem_keys_putAll {k : κ} (v : ν) : ∀ (ks : List κ) {m : BoundedMap κ ν cap}, k ∈ (m.putAll v ks).keys →
    k ∈ m.keys ∨ k ∈ ks
  | [], _, h => .inl h
  | k' :: ks, m, h => by
    rcases mem_of_mem_keys_putAll v ks h with h | h
    · rcases (mem_keys_put m k' v k).1 h with ⟨rfl, -⟩ | h
      · exact .inr List.mem_cons_self
      · exact .inl h
    · exact .inr (List.mem_cons_of_mem _ h)

/-- **Writes that fit together are all made**: with the keys there were they are no more than the entries. -/
theorem mem_keys_putAll (v : ν) {all : List κ} (hfit : all.dedup.length ≤ cap) : ∀ (ks : List κ)
    {m : BoundedMap κ ν cap}, m.keys ⊆ all → ks ⊆ all → ∀ k, k ∈ (m.putAll v ks).keys ↔ k ∈ m.keys ∨ k ∈ ks
  | [], m, _, _, k => by simp [putAll]
  | k' :: ks, m, hm, hks, k => by
    have hk' : k' ∈ all := hks List.mem_cons_self
    have hacc : m.Accepts k' := accepts_of_subset hm hk' hfit
    have hput : ∀ x, x ∈ (m.put k' v).keys ↔ x = k' ∨ x ∈ m.keys := mem_keys_update (update_eq_put hacc v)
    have ih := mem_keys_putAll v hfit ks (m := m.put k' v)
      (fun x hx => ((hput x).1 hx).elim (fun he => he ▸ hk') (fun h => hm h))
      (fun x hx => hks (List.mem_cons_of_mem _ hx)) k
    show k ∈ ((m.put k' v).putAll v ks).keys ↔ _
    rw [ih, hput, List.mem_cons]
    tauto

omit [DecidableEq κ] in
theorem exists_not_mem_keys (m : BoundedMap κ ν cap) (f : Nat → κ) (hinj : ∀ i ≤ cap, ∀ j ≤ cap, f i = f j → i = j) :
    ∃ i ≤ cap, f i ∉ m.keys := by
  refine Classical.byContradiction (fun hall => ?_)
  have hsub : (List.range (cap + 1)).map f ⊆ m.keys := fun k hk => by
    obtain ⟨i, hi, rfl⟩ := List.mem_map.1 hk
    exact Classical.byContradiction (fun hnot => hall ⟨i, Nat.le_of_lt_succ (List.mem_range.1 hi), hnot⟩)
  have hnodup : ((List.range (cap + 1)).map f).Nodup :=
    (List.nodup_map_iff_inj_on List.nodup_range).2 (fun i hi j hj =>
      hinj i (Nat.le_of_lt_succ (List.mem_range.1 hi)) j (Nat.le_of_lt_succ (List.mem_range.1 hj)))
  have hle := Nat.le_trans (List.subperm_of_subset hnodup hsub).length_le m.size_le
  rw [List.length_map, List.length_range] at hle
  exact Nat.not_succ_le_self cap hle

theorem not_mem_putAll_of_full {k : κ} (v : ν) : ∀ (ks : List κ) {m : BoundedMap κ ν cap}, ¬ m.size < cap → k ∉ m.keys →
    k ∉ (m.putAll v ks).keys
  | [], _, _, hk => hk
  | k' :: ks, _, hfull, hk =>
    have hput := not_mem_put_of_full hfull hk k' v
    not_mem_putAll_of_full v ks hput.1 hput.2

/-- **All writes are made exactly when they fit**, beside the keys there are. -/
theorem forall_mem_putAll_iff (m : BoundedMap κ ν cap) (v : ν) (ks : List κ) :
    (∀ k ∈ ks, k ∈ (m.putAll v ks).keys) ↔ (m.keys ++ ks).dedup.length ≤ cap := by
  constructor
  · intro h
    have hsub : (m.keys ++ ks).dedup ⊆ (m.putAll v ks).keys := fun k hk =>
      (List.mem_append.1 (List.mem_dedup.1 hk)).elim (mem_keys_putAll_of_mem v ks) (h k)
    exact Nat.le_trans (List.subperm_of_subset (List.nodup_dedup _) hsub).length_le (m.putAll v ks).size_le
  · intro hfit k hk
    exact (mem_keys_putAll v hfit ks (List.subset_append_left _ _) (List.subset_append_right _ _) k).2 (.inr hk)

/-! ## The removal -/

theorem entries_of_delete {m m' : BoundedMap κ ν cap} {k : κ} (h : m.delete k = some m') :
    m'.entries = m.entries.erase k := by
  unfold delete at h
  split at h
  · cases h; rfl
  · cases h

theorem delete_eq_none (m : BoundedMap κ ν cap) (k : κ) : m.delete k = none ↔ k ∉ m.keys := by
  unfold delete
  split <;> simp_all

theorem mem_keys_delete {m m' : BoundedMap κ ν cap} {k : κ} (h : m.delete k = some m') (k' : κ) :
    k' ∈ m'.keys ↔ k' ≠ k ∧ k' ∈ m.keys := by
  show k' ∈ m'.entries.keys ↔ _
  rw [entries_of_delete h]
  exact AList.mem_erase

end BoundedMap
