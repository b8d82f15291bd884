import CgroupGuard.ControlPlane.Shutdown
/-!
# Failures — one operation by itself, any of whose bpf calls may fail

`add` stores what the kernel has taken.  `remove` pops first and deletes after, and `flush` clears `_store` whatever
became of its deletions: an entry whose key they leave behind is forgotten, unless another entry is of the same cgroup
id (`forgetsNothing_iff`).
-/
namespace CgroupGuard
namespace ControlPlane

def ContainerMap.Stores (m : ContainerMap) (g : UInt64) : Prop := ∃ cid, m.store.lookup cid = some g

/-- A call, with what `resolve_cgid` returns to it and which of its bpf calls fail. -/
inductive Op where
  | add (cid : String) (resolved : Option UInt64) (fault : Bool)
  | remove (cid : String) (fault : Bool)
  | flush (fault : Nat → Bool)

def ContainerMap.perform (m : ContainerMap) : Op → ContainerMap × Option Bool
  | .add cid resolved fault => ((m.add cid resolved fault).1, some (m.add cid resolved fault).2)
  | .remove cid fault => ((m.remove cid fault).1, some (m.remove cid fault).2)
  | .flush fault => (m.flush fault, none)

/-- The key of an entry that is still a key is still of an entry; and an `add` that returns false changes nothing. -/
structure ForgetsNothing (m : ContainerMap) (op : Op) : Prop where
  remembers : ∀ g, m.Stores g → g ∈ m.fd.keys → g ∈ (m.perform op).1.fd.keys → (m.perform op).1.Stores g
  refused : ∀ cid resolved fault, op = .add cid resolved fault → (m.perform op).2 = some false → (m.perform op).1 = m

/-- A `remove` whose deletion fails is of a cgroup id that another entry has, and `flush` deletes every cgroup id in
`_store` at least once. -/
def Deletes (m : ContainerMap) : Op → Prop
  | .add _ _ _ => True
  | .remove cid fault =>
    fault = true → ∀ g, m.store.lookup cid = some g → ∃ cid', cid' ≠ cid ∧ m.store.lookup cid' = some g
  | .flush fault => ∀ g, m.Stores g → ∃ n item, m.items[n]? = some item ∧ item.2 = g ∧ fault n = false

/-! ## The three operations -/

theorem add_cases (m : ContainerMap) (cid : String) (resolved : Option UInt64) (fault : Bool) :
    m.add cid resolved fault = (m, false) ∨
      ∃ fd cgid, cid ∉ m.store ∧ m.add cid resolved fault = (⟨fd, m.store.insert cid cgid⟩, true) := by
  unfold ContainerMap.add
  by_cases hmem : cid ∈ m.store
  · exact .inl (if_pos hmem)
  · cases resolved with
    | none => exact .inl (if_neg hmem)
    | some cgid =>
      simp only [hmem, if_false]
      cases hins : mapInsert m.fd cgid fault with
      | mk fd ok =>
        cases ok with
        | true => exact .inr ⟨fd, cgid, not_false, rfl⟩
        | false =>
          obtain rfl := mapInsert_refused hins
          exact .inl rfl

theorem forgetsNothing_add (m : ContainerMap) (cid : String) (resolved : Option UInt64) (fault : Bool) :
    ForgetsNothing m (.add cid resolved fault) := by
  rcases add_cases m cid resolved fault with h | ⟨fd, cgid, hmem, h⟩
  · have hsame : (m.perform (.add cid resolved fault)).1 = m := congrArg Prod.fst h
    exact ⟨fun g hg _ _ => hsame.symm ▸ hg, fun _ _ _ _ _ => hsame⟩
  · have hnew : (m.perform (.add cid resolved fault)).1 = ⟨fd, m.store.insert cid cgid⟩ := congrArg Prod.fst h
    refine ⟨fun g hg _ _ => ?_, fun _ _ _ _ hret => ?_⟩
    · obtain ⟨cid', hl⟩ := hg
      rw [hnew]
      exact ⟨cid', AList.lookup_insert_of_notMem hmem hl⟩
    · have htrue : (m.perform (.add cid resolved fault)).2 = some true := congrArg (some ∘ Prod.snd) h
      rw [htrue] at hret
      cases hret

theorem remembers_remove_iff {m : ContainerMap} (hkeys : ∀ g, m.Stores g → g ∈ m.fd.keys) (cid : String)
    (fault : Bool) :
    (∀ g, m.Stores g → g ∈ m.fd.keys → g ∈ (m.remove cid fault).1.fd.keys → (m.remove cid fault).1.Stores g) ↔
      Deletes m (.remove cid fault) := by
  unfold ContainerMap.remove Deletes
  cases hl : m.store.lookup cid with
  | none => exact iff_of_true (fun g hg _ _ => hg) (fun _ g hg => by rw [hl] at hg; cases hg)
  | some cgid =>
    show (∀ g, m.Stores g → g ∈ m.fd.keys → g ∈ (mapDelete m.fd cgid fault).1.keys →
      ∃ cid', (m.store.erase cid).lookup cid' = some g) ↔ _
    have herase : ∀ {g}, (∃ cid', (m.store.erase cid).lookup cid' = some g) ↔
        ∃ cid', cid' ≠ cid ∧ m.store.lookup cid' = some g := by
      intro g
      refine exists_congr (fun cid' => ⟨AList.lookup_erase_eq_some, fun h => ?_⟩)
      exact (AList.lookup_erase_ne h.1).trans h.2
    constructor
    · intro h hfault g hg
      obtain rfl := Option.some.inj (hl.symm.trans hg)
      have hkey := hkeys cgid ⟨cid, hl⟩
      exact herase.1 (h cgid ⟨cid, hl⟩ hkey ((mem_keys_mapDelete_fst _ _ _ _).2 ⟨hkey, fun _ => hfault⟩))
    · rintro h g ⟨cid', hg⟩ - hleft
      refine herase.2 ?_
      by_cases hcid : cid' = cid
      · -- the popped entry itself: its key is left by a failed deletion only
        subst hcid
        obtain rfl := Option.some.inj (hl.symm.trans hg)
        exact h (((mem_keys_mapDelete_fst _ _ _ _).1 hleft).2 rfl) cgid hl
      · exact ⟨cid', hcid, hg⟩

theorem remembers_flush_iff {m : ContainerMap} (hkeys : ∀ g, m.Stores g → g ∈ m.fd.keys) (fault : Nat → Bool) :
    (∀ g, m.Stores g → g ∈ m.fd.keys → g ∈ (m.flush fault).fd.keys → (m.flush fault).Stores g) ↔
      Deletes m (.flush fault) := by
  have hempty : ∀ g, ¬ (m.flush fault).Stores g := by
    rintro g ⟨cid, hl⟩
    cases hl
  constructor
  · intro h g hg
    by_contra hnone
    refine hempty g (h g hg (hkeys g hg) ((mem_keys_deleteAll _ _ _ _).2 ⟨hkeys g hg, fun n item hn hitem => ?_⟩))
    by_contra hok
    exact hnone ⟨n, item, hn, hitem, eq_false_of_ne_true hok⟩
  · intro h g hg _ hleft
    obtain ⟨n, item, hn, hitem, hok⟩ := h g hg
    have hfault := ((mem_keys_deleteAll _ _ _ _).1 hleft).2 n item hn hitem
    rw [hok] at hfault
    cases hfault

/-- **A failed kernel update forgets nothing exactly when every key that is to go is deleted, or another entry has
it.** -/
theorem forgetsNothing_iff (m : ContainerMap) (hkeys : ∀ g, m.Stores g → g ∈ m.fd.keys) (op : Op) :
    ForgetsNothing m op ↔ Deletes m op := by
  cases op with
  | add cid resolved fault => exact iff_of_true (forgetsNothing_add m cid resolved fault) trivial
  | remove cid fault =>
    rw [← remembers_remove_iff hkeys]
    exact ⟨fun h => h.remembers, fun h => ⟨h, nofun⟩⟩
  | flush fault =>
    rw [← remembers_flush_iff hkeys]
    exact ⟨fun h => h.remembers, fun h => ⟨h, nofun⟩⟩

def oneAdded : ContainerMap := ((ContainerMap.init BoundedMap.empty).add "4f0c9d2e7a1b" (some 5) false).1

theorem keys_oneAdded : ∀ g, oneAdded.Stores g → g ∈ oneAdded.fd.keys := by
  rintro g ⟨cid, hg⟩
  rcases AList.lookup_insert_eq_some hg with ⟨-, rfl⟩ | hg
  · decide
  · cases hg

theorem forgetsNothing_iff_oneAdded :
    (∀ g, oneAdded.Stores g → g ∈ oneAdded.fd.keys) ∧
      (ForgetsNothing oneAdded (.remove "4f0c9d2e7a1b" false) ↔ Deletes oneAdded (.remove "4f0c9d2e7a1b" false)) :=
  ⟨keys_oneAdded, forgetsNothing_iff oneAdded keys_oneAdded _⟩

/-- **A deletion that fails leaves a key that no entry is of**, after a `remove` and after `flush`. -/
theorem key_forgotten :
    (∀ g, oneAdded.Stores g → g ∈ oneAdded.fd.keys) ∧
      ¬ ForgetsNothing oneAdded (.remove "4f0c9d2e7a1b" true) ∧ ¬ ForgetsNothing oneAdded (.flush (fun _ => true)) := by
  have hstored : oneAdded.Stores 5 := ⟨"4f0c9d2e7a1b", by decide⟩
  refine ⟨keys_oneAdded, fun h => ?_, fun h => ?_⟩
  · obtain ⟨cid, hl⟩ := h.remembers 5 hstored (by decide) (by decide)
    cases hl
  · obtain ⟨cid, hl⟩ := h.remembers 5 hstored (by decide) (by decide)
    cases hl

/-! ## `flush` by itself is the turns of `_shutdown` -/

theorem Process.run_deletions (p : Pool) : ∀ (items : List (Σ _ : String, UInt64)) (fd : CgroupFilter),
    Process.run ⟨⟨⟨fd, p.store⟩, p.locals⟩, .deleting items⟩ (List.replicate (items.length + 1) .shutdown) =
      some ⟨⟨⟨deleteAll fd (fun _ => false) items, ∅⟩, p.locals⟩, .cleared⟩
  | [], _ => rfl
  | item :: items, fd => run_deletions p items (mapDelete fd item.2 false).1

theorem Process.run_flush (p : Pool) :
    Process.run ⟨p, .idle⟩ (List.replicate (p.shared.items.length + 2) .shutdown) =
      some ⟨⟨p.shared.flush (fun _ => false), p.locals⟩, .cleared⟩ :=
  Process.run_deletions p p.shared.items p.fd

end ControlPlane
end CgroupGuard
