import CgroupGuard.Lib.Steps
import CgroupGuard.ExecControl.Hook
/-!
# Registry — `ContainerMap` of `control_plane.py`

`add` and `remove` as one call each, and as the steps between which other threads come: the two locked checks of
`add` with the resolution between them, the locked pop of `remove` and its deletion.  A thread that nobody interrupts
is the call (`alone_add`, `alone_remove`).  `fault` is a bpf call failing for another reason than the map's own.
-/
namespace CgroupGuard
namespace ControlPlane

/-- `map_insert`: the map after it, and what it returns. -/
def mapInsert (fd : CgroupFilter) (cgid : UInt64) (fault : Bool) : CgroupFilter × Bool :=
  if fault then (fd, false)
  else
    match fd.update cgid 1 with
    | none => (fd, false)
    | some fd' => (fd', true)

/-- `map_delete`: the map after it, and what it returns. -/
def mapDelete (fd : CgroupFilter) (cgid : UInt64) (fault : Bool) : CgroupFilter × Bool :=
  if fault then (fd, false)
  else
    match fd.delete cgid with
    | none => (fd, false)
    | some fd' => (fd', true)

/-- `map_ensure`: the map pinned at the path, or a new one when there is none. -/
def mapEnsure (pinned : Option CgroupFilter) : CgroupFilter := pinned.getD BoundedMap.empty

/-- `fd` is the kernel map behind `_fd`, `store` is `_store`. -/
structure ContainerMap where
  fd : CgroupFilter
  store : AList (fun _ : String => UInt64)

def ContainerMap.init (fd : CgroupFilter) : ContainerMap := ⟨fd, ∅⟩

/-- `add`: `resolved` is what `resolve_cgid` returns to it. -/
def ContainerMap.add (m : ContainerMap) (cid : String) (resolved : Option UInt64) (fault : Bool) :
    ContainerMap × Bool :=
  if cid ∈ m.store then (m, false)
  else
    match resolved with
    | none => (m, false)
    | some cgid =>
      -- the double check after the I/O
      if cid ∈ m.store then (m, false)
      else
        match mapInsert m.fd cgid fault with
        | (fd, true) => ({ fd := fd, store := m.store.insert cid cgid }, true)
        | (fd, false) => ({ m with fd := fd }, false)

def ContainerMap.remove (m : ContainerMap) (cid : String) (fault : Bool) : ContainerMap × Bool :=
  match m.store.lookup cid with
  | none => (m, false)
  | some cgid =>
    match mapDelete m.fd cgid fault with
    | (fd, ok) => ({ fd := fd, store := m.store.erase cid }, ok)

/-- `list(self._store.items())`: a dict lists its items in the order of insertion, an `AList` the other way round. -/
def ContainerMap.items (m : ContainerMap) : List (Σ _ : String, UInt64) := m.store.entries.reverse

/-- The loop of `flush`; `fault n` is that its `n`th deletion fails. -/
def deleteAll (fd : CgroupFilter) (fault : Nat → Bool) : List (Σ _ : String, UInt64) → CgroupFilter
  | [] => fd
  | item :: items => deleteAll (mapDelete fd item.2 (fault 0)).1 (fun n => fault (n + 1)) items

def ContainerMap.flush (m : ContainerMap) (fault : Nat → Bool) : ContainerMap :=
  { fd := deleteAll m.fd fault m.items, store := ∅ }

/-! ## Threads -/

inductive Pc where
  | addCheck
  | addResolve
  | addCommit (cgid : UInt64)
  | removePop
  | removeDelete (cgid : UInt64)
  | done (ok : Bool)
  deriving DecidableEq, Repr

structure Worker where
  cid : String
  pc : Pc
  deriving DecidableEq, Repr

def Worker.adding (cid : String) : Worker := ⟨cid, .addCheck⟩

def Worker.removing (cid : String) : Worker := ⟨cid, .removePop⟩

def Worker.isDone (w : Worker) : Bool :=
  match w.pc with
  | .done _ => true
  | _ => false

/-- The next step of a thread; `resolve` is what `resolve_cgid` would return now. -/
def Worker.step (resolve : String → Option UInt64) (fault : Bool) (m : ContainerMap) (w : Worker) :
    Option (ContainerMap × Worker) :=
  match w.pc with
  | .addCheck => if w.cid ∈ m.store then some (m, { w with pc := .done false })
      else some (m, { w with pc := .addResolve })
  | .addResolve =>
    match resolve w.cid with
    | none => some (m, { w with pc := .done false })
    | some cgid => some (m, { w with pc := .addCommit cgid })
  | .addCommit cgid =>
    if w.cid ∈ m.store then some (m, { w with pc := .done false })
    else
      match mapInsert m.fd cgid fault with
      | (fd, true) => some ({ fd := fd, store := m.store.insert w.cid cgid }, { w with pc := .done true })
      | (fd, false) => some ({ m with fd := fd }, { w with pc := .done false })
  | .removePop =>
    match m.store.lookup w.cid with
    | none => some (m, { w with pc := .done false })
    | some cgid => some ({ m with store := m.store.erase w.cid }, { w with pc := .removeDelete cgid })
  | .removeDelete cgid =>
    match mapDelete m.fd cgid fault with
    | (fd, ok) => some ({ m with fd := fd }, { w with pc := .done ok })
  | .done _ => none

theorem alone_add (resolve : String → Option UInt64) (fault : Bool) (m : ContainerMap) (cid : String) :
    Threads.alone (Worker.step resolve fault) 3 m (.adding cid) =
      ((m.add cid (resolve cid) fault).1, ⟨cid, .done (m.add cid (resolve cid) fault).2⟩) := by
  unfold ContainerMap.add
  by_cases hmem : cid ∈ m.store
  · simp [Threads.alone, Worker.adding, Worker.step, hmem]
  · cases hr : resolve cid with
    | none => simp [Threads.alone, Worker.adding, Worker.step, hmem, hr]
    | some cgid =>
      cases hins : mapInsert m.fd cgid fault with
      | mk fd ok => cases ok <;> simp [Threads.alone, Worker.adding, Worker.step, hmem, hr, hins]

theorem alone_remove (resolve : String → Option UInt64) (fault : Bool) (m : ContainerMap) (cid : String) :
    Threads.alone (Worker.step resolve fault) 3 m (.removing cid) =
      ((m.remove cid fault).1, ⟨cid, .done (m.remove cid fault).2⟩) := by
  unfold ContainerMap.remove
  cases hl : m.store.lookup cid with
  | none => simp [Threads.alone, Worker.removing, Worker.step, hl]
  | some cgid => simp [Threads.alone, Worker.removing, Worker.step, hl]

/-! ## What a step can do -/

inductive Moves (resolve : String → Option UInt64) (fault : Bool) (m : ContainerMap) (cid : String) :
    Pc → ContainerMap → Pc → Prop
  | present (pc : Pc) (hadd : pc = .addCheck ∨ ∃ cgid, pc = .addCommit cgid) (hmem : cid ∈ m.store) :
    Moves resolve fault m cid pc m (.done false)
  | absent (hmem : cid ∉ m.store) : Moves resolve fault m cid .addCheck m .addResolve
  | unresolved (hr : resolve cid = none) : Moves resolve fault m cid .addResolve m (.done false)
  | resolved (cgid : UInt64) (hr : resolve cid = some cgid) : Moves resolve fault m cid .addResolve m (.addCommit cgid)
  | commit (cgid : UInt64) (fd : CgroupFilter) (hmem : cid ∉ m.store) (hins : mapInsert m.fd cgid fault = (fd, true)) :
    Moves resolve fault m cid (.addCommit cgid) ⟨fd, m.store.insert cid cgid⟩ (.done true)
  | refused (cgid : UInt64) (hmem : cid ∉ m.store) (hins : mapInsert m.fd cgid fault = (m.fd, false)) :
    Moves resolve fault m cid (.addCommit cgid) m (.done false)
  | unknown (hl : m.store.lookup cid = none) : Moves resolve fault m cid .removePop m (.done false)
  | pop (cgid : UInt64) (hl : m.store.lookup cid = some cgid) :
    Moves resolve fault m cid .removePop { m with store := m.store.erase cid } (.removeDelete cgid)
  | delete (cgid : UInt64) (fd : CgroupFilter) (ok : Bool) (hdel : mapDelete m.fd cgid fault = (fd, ok)) :
    Moves resolve fault m cid (.removeDelete cgid) { m with fd := fd } (.done ok)

theorem mapInsert_refused {fd fd' : CgroupFilter} {cgid : UInt64} {fault : Bool}
    (h : mapInsert fd cgid fault = (fd', false)) : fd' = fd := by
  unfold mapInsert at h
  split at h
  · cases h; rfl
  · split at h <;> cases h
    rfl

/-- **A step of a thread is one of the nine.** -/
theorem moves_of_step {resolve : String → Option UInt64} {fault : Bool} {m : ContainerMap} {w : Worker}
    {r : ContainerMap × Worker} (h : w.step resolve fault m = some r) :
    r.2.cid = w.cid ∧ Moves resolve fault m w.cid w.pc r.1 r.2.pc := by
  obtain ⟨cid, pc⟩ := w
  cases pc with
  | addCheck =>
    by_cases hmem : cid ∈ m.store
    · simp only [Worker.step, if_pos hmem] at h
      cases h
      exact ⟨rfl, .present _ (.inl rfl) hmem⟩
    · simp only [Worker.step, if_neg hmem] at h
      cases h
      exact ⟨rfl, .absent hmem⟩
  | addResolve =>
    cases hr : resolve cid with
    | none => simp only [Worker.step, hr] at h; cases h; exact ⟨rfl, .unresolved hr⟩
    | some cgid => simp only [Worker.step, hr] at h; cases h; exact ⟨rfl, .resolved cgid hr⟩
  | addCommit cgid =>
    by_cases hmem : cid ∈ m.store
    · simp only [Worker.step, if_pos hmem] at h
      cases h
      exact ⟨rfl, .present _ (.inr ⟨cgid, rfl⟩) hmem⟩
    · cases hins : mapInsert m.fd cgid fault with
      | mk fd ok =>
        simp only [Worker.step, if_neg hmem, hins] at h
        cases ok with
        | true => cases h; exact ⟨rfl, .commit cgid fd hmem hins⟩
        | false =>
          cases h
          obtain rfl := mapInsert_refused hins
          exact ⟨rfl, .refused cgid hmem hins⟩
  | removePop =>
    cases hl : m.store.lookup cid with
    | none => simp only [Worker.step, hl] at h; cases h; exact ⟨rfl, .unknown hl⟩
    | some cgid => simp only [Worker.step, hl] at h; cases h; exact ⟨rfl, .pop cgid hl⟩
  | removeDelete cgid =>
    cases hdel : mapDelete m.fd cgid fault with
    | mk fd ok =>
      simp only [Worker.step, hdel] at h
      cases h
      exact ⟨rfl, .delete cgid fd ok hdel⟩
  | done ok => cases h

/-! ## The calls on the kernel map -/

theorem mapInsert_of_accepts {fd : CgroupFilter} {cgid : UInt64} (h : fd.Accepts cgid) :
    mapInsert fd cgid false = (fd.put cgid 1, true) := by
  unfold mapInsert
  rw [BoundedMap.update_eq_put h]
  rfl

theorem mapInsert_fst (fd : CgroupFilter) (cgid : UInt64) (fault : Bool) :
    (mapInsert fd cgid fault).1 = if fault then fd else fd.put cgid 1 := by
  unfold mapInsert BoundedMap.put
  split
  · rfl
  · cases fd.update cgid 1 <;> rfl

theorem lookup_of_mapDelete {fd : CgroupFilter} {cgid g : UInt64} {fault : Bool} {val : UInt8}
    (h : (mapDelete fd cgid fault).1.lookup g = some val) : fd.lookup g = some val := by
  unfold mapDelete at h
  split at h
  · exact h
  · split at h
    · exact h
    · rename_i fd' hd
      unfold BoundedMap.lookup at h
      rw [BoundedMap.entries_of_delete hd] at h
      exact (AList.lookup_erase_eq_some h).2

theorem mem_keys_of_mapInsert {fd fd' : CgroupFilter} {cgid : UInt64} {fault : Bool}
    (h : mapInsert fd cgid fault = (fd', true)) (g : UInt64) : g ∈ fd'.keys ↔ g = cgid ∨ g ∈ fd.keys := by
  unfold mapInsert at h
  split at h
  · cases h
  · split at h
    · cases h
    · rename_i hu
      cases h
      exact BoundedMap.mem_keys_update hu g

theorem mem_keys_of_mapDelete {fd fd' : CgroupFilter} {cgid : UInt64} {ok : Bool}
    (h : mapDelete fd cgid false = (fd', ok)) (g : UInt64) : g ∈ fd'.keys ↔ g ≠ cgid ∧ g ∈ fd.keys := by
  simp only [mapDelete, Bool.false_eq_true, if_false] at h
  split at h
  · rename_i hd
    cases h
    have hnot := (BoundedMap.delete_eq_none _ _).1 hd
    exact ⟨fun hg => ⟨fun he => hnot (he ▸ hg), hg⟩, And.right⟩
  · rename_i hd
    cases h
    exact BoundedMap.mem_keys_delete hd g

theorem mem_keys_mapDelete_fst (fd : CgroupFilter) (cgid : UInt64) (fault : Bool) (g : UInt64) :
    g ∈ (mapDelete fd cgid fault).1.keys ↔ g ∈ fd.keys ∧ (g = cgid → fault = true) := by
  cases fault with
  | true => exact (and_iff_left (fun _ => rfl)).symm
  | false =>
    have hdel : mapDelete fd cgid false = ((mapDelete fd cgid false).1, (mapDelete fd cgid false).2) := rfl
    rw [mem_keys_of_mapDelete hdel]
    simp [and_comm]

/-- **The loop of `flush` leaves a key all of whose deletions fail.** -/
theorem mem_keys_deleteAll (g : UInt64) : ∀ (items : List (Σ _ : String, UInt64)) (fault : Nat → Bool)
    (fd : CgroupFilter), g ∈ (deleteAll fd fault items).keys ↔
      g ∈ fd.keys ∧ ∀ n item, items[n]? = some item → item.2 = g → fault n = true
  | [], _, _ => by simp [deleteAll]
  | item :: items, fault, fd => by
    rw [deleteAll, mem_keys_deleteAll g items, mem_keys_mapDelete_fst, and_assoc]
    refine and_congr_right (fun _ => ?_)
    constructor
    · rintro ⟨hfirst, hrest⟩ n item' hn hg
      cases n with
      | zero =>
        obtain rfl : item = item' := Option.some.inj hn
        exact hfirst hg.symm
      | succ n => exact hrest n item' hn hg
    · intro h
      exact ⟨fun hg => h 0 item rfl hg.symm, fun n item' hn hg => h (n + 1) item' hn hg⟩

end ControlPlane
end CgroupGuard
