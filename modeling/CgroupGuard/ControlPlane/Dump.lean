import CgroupGuard.ControlPlane.Registry
import CgroupGuard.Lib.Cursor
/-!
# Dump — the loop of `dump_map`

The loop asks for the next key and looks it up, over and over, and other threads insert and delete between any two of
its calls.  A deleted cursor sends it back to the start.  What it can still do without a change is its `work`: every
call of the loop takes from it, and a change puts it back to at most two calls for every entry of the map.
-/
namespace CgroupGuard
namespace ControlPlane

/-- The order the kernel goes through the keys of a map in. -/
structure IterationOrder where
  rank : UInt64 → Nat
  rank_injective : ∀ k k', rank k = rank k' → k = k'

/-- `bpf_map_get_next_key`, which fails at the end: behind `key`, or from the start for `NULL` and for a key that is not
in the map. -/
def getNextKey (order : IterationOrder) (fd : CgroupFilter) (key : Option UInt64) : Option UInt64 :=
  Cursor.next order.rank fd.keys key

namespace Dump

inductive Place where
  | getNextKey (key : Option UInt64)
  | lookup (nextKey : UInt64)
  | ended
  deriving DecidableEq, Repr

structure State where
  fd : CgroupFilter
  place : Place

def start (fd : CgroupFilter) : State := ⟨fd, .getNextKey none⟩

inductive Act where
  | loop
  | insert (cgid : UInt64) (fault : Bool)
  | delete (cgid : UInt64) (fault : Bool)
  deriving DecidableEq, Repr

def step (order : IterationOrder) (s : State) : Act → Option State
  | .loop =>
    match s.place with
    | .getNextKey key =>
      match getNextKey order s.fd key with
      | some nextKey => some { s with place := .lookup nextKey }
      | none => some { s with place := .ended }
    | .lookup nextKey => some { s with place := .getNextKey (some nextKey) }
    | .ended => none
  | .insert cgid fault => some { s with fd := (mapInsert s.fd cgid fault).1 }
  | .delete cgid fault => some { s with fd := (mapDelete s.fd cgid fault).1 }

/-- The line `key=…, value=…`; a lookup that fails prints none. -/
def printed (s : State) : Act → List (UInt64 × UInt8)
  | .loop =>
    match s.place with
    | .lookup nextKey => (s.fd.lookup nextKey).toList.map (fun v => (nextKey, v))
    | _ => []
  | _ => []

/-! ## The loop ends -/

def work (order : IterationOrder) (s : State) : Nat :=
  match s.place with
  | .getNextKey key => 2 * (Cursor.ahead order.rank s.fd.keys key).length + 1
  | .lookup nextKey => 2 * (Cursor.ahead order.rank s.fd.keys (some nextKey)).length + 2
  | .ended => 0

/-- **There is never more to do than two calls for each entry the map can have.** -/
theorem work_le (order : IterationOrder) (s : State) : work order s ≤ 2050 := by
  have hsize : s.fd.keys.length ≤ 1024 := s.fd.size_le
  have hahead : ∀ key, (Cursor.ahead order.rank s.fd.keys key).length ≤ s.fd.keys.length := Cursor.length_ahead_le
  unfold work
  split
  · rename_i key hplace
    have := hahead key
    omega
  · rename_i nextKey hplace
    have := hahead (some nextKey)
    omega
  · omega

variable {order : IterationOrder} {s t : State} {a : Act}

theorem step_loop_isSome (hs : s.place ≠ .ended) : (step order s .loop).isSome = true := by
  rw [step]
  cases hplace : s.place with
  | getNextKey key => cases hkey : getNextKey order s.fd key <;> simp only [hkey, Option.isSome_some]
  | lookup nextKey => rfl
  | ended => exact absurd hplace hs

theorem step_loop_cases (h : step order s .loop = some t) :
    (∃ key nextKey, s.place = .getNextKey key ∧ getNextKey order s.fd key = some nextKey ∧
      t = { s with place := .lookup nextKey }) ∨
    (∃ key, s.place = .getNextKey key ∧ getNextKey order s.fd key = none ∧ t = { s with place := .ended }) ∨
    (∃ nextKey, s.place = .lookup nextKey ∧ t = { s with place := .getNextKey (some nextKey) }) := by
  rw [step] at h
  cases hplace : s.place with
  | getNextKey key =>
    cases hkey : getNextKey order s.fd key with
    | some nextKey =>
      simp only [hplace, hkey, Option.some.injEq] at h
      exact .inl ⟨key, nextKey, rfl, hkey, h.symm⟩
    | none =>
      simp only [hplace, hkey, Option.some.injEq] at h
      exact .inr (.inl ⟨key, rfl, hkey, h.symm⟩)
  | lookup nextKey =>
    simp only [hplace, Option.some.injEq] at h
    exact .inr (.inr ⟨nextKey, rfl, h.symm⟩)
  | ended => simp only [hplace, reduceCtorEq] at h

theorem place_of_step (h : step order s a = some t) (ha : a ≠ .loop) : t.place = s.place := by
  cases a with
  | loop => exact absurd rfl ha
  | insert cgid fault => cases h; rfl
  | delete cgid fault => cases h; rfl

theorem work_step_loop (h : step order s .loop = some t) : work order t < work order s := by
  obtain ⟨key, nextKey, hplace, hkey, rfl⟩ | ⟨key, hplace, -, rfl⟩ | ⟨nextKey, hplace, rfl⟩ := step_loop_cases h
  · have hless := Cursor.length_ahead_next hkey
    simp only [work, hplace]
    omega
  · simp only [work, hplace]
    omega
  · simp only [work, hplace]
    omega

theorem fd_of_step_loop (h : step order s .loop = some t) : t.fd = s.fd := by
  obtain ⟨key, nextKey, hplace, hkey, rfl⟩ | ⟨key, hplace, -, rfl⟩ | ⟨nextKey, hplace, rfl⟩ := step_loop_cases h <;> rfl

/-- **The dump by itself ends and leaves the map alone**: `map_insert` and `map_delete` with it are what they are
without. -/
theorem run_alone (order : IterationOrder) (s : State) : ∃ n t,
    Steps.run (step order) s (List.replicate n .loop) = some t ∧ t.place = .ended ∧ t.fd = s.fd := by
  by_cases hs : s.place = .ended
  · exact ⟨0, s, rfl, hs, rfl⟩
  · obtain ⟨m, hm⟩ := Option.isSome_iff_exists.1 (show (step order s .loop).isSome = true from step_loop_isSome hs)
    obtain ⟨n, t, hrun, hended, hfd⟩ := run_alone order m
    refine ⟨n + 1, t, ?_, hended, hfd.trans (fd_of_step_loop hm)⟩
    rw [List.replicate_succ, Steps.run_cons, hm]
    exact hrun
termination_by work order s
decreasing_by exact work_step_loop hm

def changes (acts : List Act) : Nat := acts.countP (· ≠ .loop)

theorem count_loop_add_work : ∀ {acts : List Act} {s t : State}, Steps.run (step order) s acts = some t →
    acts.count .loop + work order t ≤ work order s + 2050 * changes acts
  | [], s, t, h => by cases h; simp [changes]
  | a :: acts, s, t, h => by
    obtain ⟨m, ha, hm⟩ := Option.bind_eq_some_iff.1 h
    have ih := count_loop_add_work hm
    by_cases hloop : a = .loop
    · subst hloop
      have hwork := work_step_loop ha
      rw [List.count_cons_self]
      simp only [changes, List.countP_cons, ne_eq, not_true_eq_false, decide_false, Bool.false_eq_true,
        if_false] at ih ⊢
      omega
    · have hwork := work_le order m
      rw [List.count_cons_of_ne hloop]
      simp only [changes, List.countP_cons, ne_eq, hloop, not_false_eq_true, decide_true, if_true] at ih ⊢
      omega

/-! ## The loop skips nothing -/

def Ahead (order : IterationOrder) (s : State) (k : UInt64) : Prop :=
  match s.place with
  | .getNextKey key => ∀ c ∈ key, order.rank c < order.rank k
  | .lookup nextKey => order.rank nextKey ≤ order.rank k
  | .ended => False

theorem Ahead.step_loop {k : UInt64} (hs : Ahead order s k) (hk : k ∈ s.fd.keys) (h : step order s .loop = some t) :
    Ahead order t k ∨ ∃ v, (k, v) ∈ printed s .loop := by
  obtain ⟨key, nextKey, hplace, hkey, rfl⟩ | ⟨key, hplace, hkey, rfl⟩ | ⟨nextKey, hplace, rfl⟩ := step_loop_cases h
  · simp only [Ahead, hplace] at hs ⊢
    exact .inl (Cursor.rank_next_le hkey (Cursor.mem_ahead hk hs))
  · simp only [Ahead, hplace] at hs
    have hmem := Cursor.mem_ahead hk hs
    rw [Cursor.next_eq_none hkey] at hmem
    cases hmem
  · simp only [Ahead, hplace] at hs ⊢
    by_cases heq : nextKey = k
    · subst heq
      obtain ⟨v, hv⟩ := BoundedMap.exists_lookup_of_mem_keys hk
      refine .inr ⟨v, ?_⟩
      simp only [printed, hplace, hv, Option.toList_some, List.map_cons, List.map_nil, List.mem_singleton]
    · refine .inl (fun c hc => ?_)
      cases hc
      exact Nat.lt_of_le_of_ne hs (fun hrank => heq (order.rank_injective _ _ hrank))

/-- **Through a whole run**, a key that was there whenever the loop or another thread did something is still to come or
has been printed. -/
theorem ahead_or_printed (fd : CgroupFilter) {k : UInt64} : ∀ (acts : List Act) (t : State),
    Steps.Always (step order) (fun s _ => k ∈ s.fd.keys) (start fd) acts →
      Steps.run (step order) (start fd) acts = some t →
        Ahead order t k ∨ ∃ v, (k, v) ∈ Steps.outputs (step order) printed (start fd) acts := by
  refine Steps.always_induction _ (.inl (fun c hc => nomatch hc)) (fun acts m a t hm ih hk ha => ?_)
  rw [Steps.outputs_concat printed acts a hm]
  rcases ih with ih | ⟨v, hv⟩
  · by_cases hloop : a = .loop
    · subst hloop
      rcases ih.step_loop hk ha with h | ⟨v, hv⟩
      · exact .inl h
      · exact .inr ⟨v, List.mem_append_right _ hv⟩
    · refine .inl ?_
      have hplace := place_of_step ha hloop
      unfold Ahead at ih ⊢
      rwa [hplace]
  · exact .inr ⟨v, List.mem_append_left _ hv⟩

/-- **`dump_map` ends and skips nothing**: the loop makes at most as many calls as the map has room for after each
change and before the first, has a next one until it has ended, and has then printed every key that was there all the
time. -/
theorem ends_and_skips_nothing (order : IterationOrder) (fd : CgroupFilter) {acts : List Act} {t : State}
    (hrun : Steps.run (step order) (start fd) acts = some t) :
    acts.count .loop ≤ 2050 * (changes acts + 1) ∧
    (t.place ≠ .ended → (step order t .loop).isSome = true) ∧
    (t.place = .ended → ∀ k, Steps.Always (step order) (fun s _ => k ∈ s.fd.keys) (start fd) acts →
      ∃ v, (k, v) ∈ Steps.outputs (step order) printed (start fd) acts) := by
  refine ⟨?_, step_loop_isSome, fun hended k hk => ?_⟩
  · have hcount := count_loop_add_work hrun
    have hwork := work_le order (start fd)
    omega
  · refine (ahead_or_printed fd acts t hk hrun).resolve_left (fun hahead => ?_)
    unfold Ahead at hahead
    rw [hended] at hahead
    exact hahead

def byValue : IterationOrder := ⟨UInt64.toNat, fun _ _ => UInt64.toNat_inj.1⟩

def twoKeys : CgroupFilter := (BoundedMap.empty.put 5 1).put 7 1

def restarted : List Act :=
  [.loop, .loop, .delete 5 false, .loop, .insert 5 false, .loop, .loop]

theorem ends_and_skips_nothing_restarted :
    ∃ t, Steps.run (step byValue) (start twoKeys) restarted = some t ∧ t.place = .ended ∧
      ∃ v, (7, v) ∈ Steps.outputs (step byValue) printed (start twoKeys) restarted := by
  have hplace : (Steps.run (step byValue) (start twoKeys) restarted).map State.place = some .ended := by decide
  obtain ⟨t, hrun, hended⟩ := Option.map_eq_some_iff.1 hplace
  exact ⟨t, hrun, hended, (ends_and_skips_nothing byValue twoKeys hrun).2.2 hended 7 (by decide)⟩

end Dump

end ControlPlane
end CgroupGuard
