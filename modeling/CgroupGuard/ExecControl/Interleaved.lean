import CgroupGuard.Lib.Steps
import CgroupGuard.ExecControl.Run
/-!
# Interleaved — calls of the hook on several CPUs

A call past its first checks is cut where other CPUs can come between: it reads the clock, looks up its record, looks
up its key, and then reads `last_new_exec_ns` and decides.  A lookup hands out a pointer: `cgStateMap` holds the index
of a record in `records`, and a write to the map takes a new record, so that a pointer read before keeps to the old.
Run without interruption, the steps are `execControl` (`alone_eq_execControl`), so that its sequential runs are among
the interleavings (`exists_acts_of_run`).
-/
namespace CgroupGuard
namespace ExecControl

structure Kernel where
  clock : UInt64
  records : List CgState
  cgStateMap : BoundedMap UInt64 Nat 1024
  allowMap : BoundedMap ExecKey UInt8 8192

inductive Pc where
  | readClock
  | lookupState (now : UInt64)
  | createState (now : UInt64)
  | lookupAllow (now : UInt64) (st : Nat)
  | decide (now : UInt64) (st : Nat)
  | done (ret : Int)
  deriving DecidableEq, Repr

structure Call where
  key : ExecKey
  pc : Pc
  deriving DecidableEq, Repr

def stepCall (k : Kernel) (c : Call) : Option (Kernel × Call) :=
  match c.pc with
  | .readClock => some (k, { c with pc := .lookupState k.clock })
  | .lookupState now =>
    match k.cgStateMap.lookup c.key.cgid with
    | none => some (k, { c with pc := .createState now })
    | some st => some (k, { c with pc := .lookupAllow now st })
  | .createState now =>
    some ({ k with records := k.records ++ [⟨.learning, now⟩]
                   cgStateMap := k.cgStateMap.put c.key.cgid k.records.length }, { c with pc := .done 0 })
  | .lookupAllow now st =>
    match k.allowMap.lookup c.key with
    | some _ => some (k, { c with pc := .done 0 })
    | none => some (k, { c with pc := .decide now st })
  | .decide now st =>
    match k.records[st]? with
    | none => none
    | some r =>
      let delta := now - r.lastNewExecNs
      if delta < learnWindowNs then
        some ({ k with records := k.records.set st ⟨.learning, now⟩, allowMap := k.allowMap.put c.key 1 },
          { c with pc := .done 0 })
      else if delta < learnWindowNs + graceWindowNs then
        some ({ k with records := k.records.set st ⟨.stable, now⟩, allowMap := k.allowMap.put c.key 1 },
          { c with pc := .done 0 })
      else
        some ({ k with records := k.records.set st { r with state := .enforcing } }, { c with pc := .done (-1) })
  | .done _ => none

inductive Act where
  | tick (now : UInt64)
  | call (i : Nat)
  deriving DecidableEq, Repr

def act (s : Threads Kernel Call) : Act → Option (Threads Kernel Call)
  | .tick now => if s.shared.clock ≤ now then some { s with shared := { s.shared with clock := now } } else none
  | .call i => Threads.stepAt stepCall s i

/-- One call for each of `keys`, none of them begun, and empty maps. -/
def start (keys : List ExecKey) : Threads Kernel Call :=
  { shared := ⟨0, [], BoundedMap.empty, BoundedMap.empty⟩
    locals := keys.map (⟨·, .readClock⟩) }

/-! ## Without interruption -/

/-- A kernel holds the maps `m`: the pointer of every cgroup with a record is to one of its own. -/
structure Represents (k : Kernel) (m : Maps) : Prop where
  record : ∀ c, (k.cgStateMap.lookup c).bind (k.records[·]?) = m.cgStateMap.lookup c
  keys : ∀ c, c ∈ k.cgStateMap.keys ↔ c ∈ m.cgStateMap.keys
  own : ∀ c c' p, k.cgStateMap.lookup c = some p → k.cgStateMap.lookup c' = some p → c = c'
  allow : k.allowMap = m.allowMap

theorem represents_init (clock : UInt64) : Represents ⟨clock, [], BoundedMap.empty, BoundedMap.empty⟩ Maps.init where
  record := fun _ => rfl
  keys := fun _ => Iff.rfl
  own := fun _ _ _ h => by cases h
  allow := rfl

theorem Represents.get {k : Kernel} {m : Maps} (h : Represents k m) {c : UInt64} {p : Nat}
    (hp : k.cgStateMap.lookup c = some p) :
    ∃ hlt : p < k.records.length, m.cgStateMap.lookup c = some k.records[p] := by
  have hmem := (h.keys c).1 (BoundedMap.mem_keys_of_lookup hp)
  obtain ⟨r, hr⟩ := Option.isSome_iff_exists.1 ((BoundedMap.isSome_lookup _ _).2 hmem)
  have hrec := h.record c
  rw [hp, hr, Option.bind_some] at hrec
  obtain ⟨hlt, rfl⟩ := List.getElem?_eq_some_iff.1 hrec
  exact ⟨hlt, hr⟩

theorem Represents.lookup_eq_none {k : Kernel} {m : Maps} (h : Represents k m) {c : UInt64}
    (hp : k.cgStateMap.lookup c = none) : m.cgStateMap.lookup c = none := by
  rw [← h.record c, hp]
  rfl

theorem Represents.create {k : Kernel} {m : Maps} (h : Represents k m) {c : UInt64}
    (hc : k.cgStateMap.lookup c = none) (r : CgState) :
    Represents { k with records := k.records ++ [r], cgStateMap := k.cgStateMap.put c k.records.length }
      { m with cgStateMap := m.cgStateMap.put c r } := by
  have hacc : k.cgStateMap.Accepts c ↔ m.cgStateMap.Accepts c := BoundedMap.accepts_congr h.keys c
  refine ⟨fun c' => ?_, fun c' => ?_, fun c₁ c₂ p h₁ h₂ => ?_, h.allow⟩
  · by_cases hne : c' = c
    · subst hne
      simp only [BoundedMap.lookup_put_self_eq, hacc]
      split
      · simp
      · rfl
    · simp only [BoundedMap.lookup_put_ne _ _ hne, ← h.record c']
      cases hp : k.cgStateMap.lookup c' with
      | none => rfl
      | some p => exact List.getElem?_append_left (h.get hp).1
  · rw [BoundedMap.mem_keys_put, BoundedMap.mem_keys_put, hacc, h.keys]
  · rcases BoundedMap.lookup_put_eq_some h₁ with ⟨hc₁, hp⟩ | hold₁ <;>
      rcases BoundedMap.lookup_put_eq_some h₂ with ⟨hc₂, hp'⟩ | hold₂
    · rw [hc₁, hc₂]
    · exact absurd (h.get hold₂).1 (by omega)
    · exact absurd (h.get hold₁).1 (by omega)
    · exact h.own c₁ c₂ p hold₁ hold₂

theorem Represents.set {k : Kernel} {m : Maps} (h : Represents k m) {c : UInt64} {st : Nat}
    (hst : k.cgStateMap.lookup c = some st) (r : CgState) :
    Represents { k with records := k.records.set st r } { m with cgStateMap := m.cgStateMap.put c r } := by
  have hmem : c ∈ m.cgStateMap.keys := (h.keys c).1 (BoundedMap.mem_keys_of_lookup hst)
  refine ⟨fun c' => ?_, fun c' => ?_, h.own, h.allow⟩
  · by_cases hne : c' = c
    · subst hne
      simp only [hst, Option.bind_some, BoundedMap.lookup_put_self (.inl hmem)]
      exact List.getElem?_set_self (h.get hst).1
    · simp only [BoundedMap.lookup_put_ne _ _ hne, ← h.record c']
      cases hp : k.cgStateMap.lookup c' with
      | none => rfl
      | some p =>
        have hpst : st ≠ p := fun he => hne (h.own c' c p hp (he ▸ hst))
        exact List.getElem?_set_ne hpst
  · rw [BoundedMap.mem_keys_put, h.keys]
    exact ⟨.inr, fun hor => hor.elim (fun hl => hl.1 ▸ hmem) id⟩

theorem Represents.allowing {k : Kernel} {m : Maps} (h : Represents k m) (allow : BoundedMap ExecKey UInt8 8192) :
    Represents { k with allowMap := allow } { m with allowMap := allow } :=
  ⟨h.record, h.keys, h.own, rfl⟩

/-- **A call whose steps no other comes between is one `execControl`.** -/
theorem alone_eq_execControl {k : Kernel} {m : Maps} (hrep : Represents k m) {x : Invocation} {key : ExecKey}
    (hx : x.checked = some key) (hnow : x.now = k.clock) :
    ∃ k', Threads.alone stepCall 4 k ⟨key, .readClock⟩ = (k', ⟨key, .done (execControl m x).2⟩) ∧
      Represents k' (execControl m x).1 ∧ k'.clock = k.clock := by
  obtain ⟨v, file, inode, hf, hfile, hinode, rfl⟩ := Invocation.checked_eq_some hx
  unfold execControl
  simp only [hf, hfile, hinode, hnow]
  cases hst : k.cgStateMap.lookup x.cgid with
  | none =>
    rw [hrep.lookup_eq_none hst]
    have hcg : k.cgStateMap.lookup (execKey x.cgid inode).cgid = none := hst
    refine ⟨_, ?_, hrep.create hst ⟨.learning, k.clock⟩, rfl⟩
    simp only [Threads.alone, stepCall, hcg]
    rfl
  | some st =>
    obtain ⟨hlt, hrec⟩ := hrep.get hst
    have hcg : k.cgStateMap.lookup (execKey x.cgid inode).cgid = some st := hst
    have hget : k.records[st]? = some k.records[st] := List.getElem?_eq_getElem hlt
    rw [hrec]
    cases hk : m.allowMap.lookup (execKey x.cgid inode) with
    | some _ =>
      refine ⟨k, ?_, hrep, rfl⟩
      simp only [Threads.alone, stepCall, hcg, hrep.allow, hk]
    | none =>
      simp only [Threads.alone, stepCall, hcg, hrep.allow, hk, hget]
      by_cases hl : k.clock - k.records[st].lastNewExecNs < learnWindowNs
      · simp only [if_pos hl]
        exact ⟨_, rfl, (hrep.set hst ⟨_, k.clock⟩).allowing _, rfl⟩
      by_cases hg : k.clock - k.records[st].lastNewExecNs < learnWindowNs + graceWindowNs
      · simp only [if_neg hl, if_pos hg]
        exact ⟨_, rfl, (hrep.set hst ⟨_, k.clock⟩).allowing _, rfl⟩
      · simp only [if_neg hl, if_neg hg]
        exact ⟨_, rfl, (hrep.set hst ⟨.enforcing, _⟩).allowing _, rfl⟩

theorem run_calls {s t : Threads Kernel Call} {i k : Nat}
    (h : Steps.run (Threads.stepAt stepCall) s (List.replicate k i) = some t) :
    Steps.run act s (List.replicate k (.call i)) = some t := by
  have hstep : ∀ (t u : Threads Kernel Call) (j : Nat) t', t = u → Threads.stepAt stepCall t j = some t' →
      ∃ u', act u (.call j) = some u' ∧ t' = u' := by
    rintro t _ j t' rfl hj
    exact ⟨t', hj, rfl⟩
  obtain ⟨u, hu, rfl⟩ := Steps.run_simulation Eq Act.call hstep _ rfl h
  rwa [List.map_replicate] at hu

/-- After the calls `pre`, one at a time, the others have not begun. -/
structure InTurn (keys : List ExecKey) (pre : List Invocation) (s : Threads Kernel Call) : Prop where
  maps : Represents s.shared (run pre)
  rest : ∀ i, pre.length ≤ i → s.locals[i]? = (start keys).locals[i]?
  answered : ∀ p x q, pre = p ++ x :: q → ∃ key, s.locals[p.length]? = some ⟨key, .done (result p x)⟩

theorem InTurn.call {keys : List ExecKey} {pre : List Invocation} {s : Threads Kernel Call} (hs : InTurn keys pre s)
    {x : Invocation} {key : ExecKey} (hx : x.checked = some key) (hkey : keys[pre.length]? = some key)
    (hclock : s.shared.clock ≤ x.now) :
    ∃ acts t, Steps.run act s acts = some t ∧ InTurn keys (pre ++ [x]) t ∧ t.shared.clock = x.now := by
  let s₁ : Threads Kernel Call := { s with shared := { s.shared with clock := x.now } }
  have htick : act s (.tick x.now) = some s₁ := if_pos hclock
  have hrep : Represents s₁.shared (run pre) := ⟨hs.maps.record, hs.maps.keys, hs.maps.own, hs.maps.allow⟩
  have hget : s₁.locals[pre.length]? = some ⟨key, .readClock⟩ := by
    rw [show s₁.locals = s.locals from rfl, hs.rest _ (Nat.le_refl _)]
    simp only [start, List.getElem?_map, hkey, Option.map_some]
  have hlt := (List.getElem?_eq_some_iff.1 hget).1
  obtain ⟨k', halone, hrep', hclock'⟩ := alone_eq_execControl hrep hx rfl
  obtain ⟨n, hn⟩ := Threads.run_alone 4 s₁ pre.length _ hget
  rw [halone] at hn
  refine ⟨.tick x.now :: List.replicate n (.call pre.length),
      ⟨k', s₁.locals.set pre.length ⟨key, .done (result pre x)⟩⟩,
    ?_, ⟨?_, fun i hi => ?_, ?_⟩, hclock'⟩
  · rw [Steps.run_cons, htick]
    exact run_calls hn
  · rw [run_concat]
    exact hrep'
  · rw [List.length_append, List.length_singleton] at hi
    rw [List.getElem?_set_ne (by omega)]
    exact hs.rest i (by omega)
  · intro p y q hpre
    rcases List.eq_nil_or_concat q with rfl | ⟨q, z, rfl⟩
    · obtain ⟨rfl, hy⟩ := List.append_inj' hpre rfl
      cases hy
      exact ⟨key, List.getElem?_set_self hlt⟩
    · have hpre' : pre ++ [x] = (p ++ y :: q) ++ [z] := by rw [hpre]; simp
      obtain ⟨rfl, -⟩ := List.append_inj' hpre' rfl
      obtain ⟨key', hy⟩ := hs.answered p y q rfl
      refine ⟨key', ?_⟩
      rw [List.getElem?_set_ne (by simp)]
      exact hy

/-- **Every run of `execControl` is one of the interleavings**, with the same maps and the same answers. -/
theorem exists_acts_of_run (keys : List ExecKey) (xs : List Invocation)
    (hkeys : xs.map Invocation.checked = keys.map some) (hclock : Nondecreasing xs) :
    ∃ acts s, Steps.run act (start keys) acts = some s ∧ InTurn keys xs s := by
  have hpre : ∀ pre post, xs = pre ++ post → ∃ acts s, Steps.run act (start keys) acts = some s ∧
      InTurn keys pre s ∧ ∀ y ∈ post, s.shared.clock ≤ y.now := by
    intro pre
    induction pre using List.reverseRecOn with
    | nil =>
      refine fun post _ => ⟨[], start keys, rfl, ⟨represents_init 0, fun _ _ => rfl, fun p x q hp => ?_⟩, fun y _ => ?_⟩
      · cases p <;> cases hp
      · exact UInt64.le_iff_toNat_le.2 (Nat.zero_le _)
    | append_singleton pre x ih =>
      intro post hxs
      rw [List.append_assoc] at hxs
      obtain ⟨acts, s, hrun, hs, hlate⟩ := ih _ hxs
      have hkx : (xs.map Invocation.checked)[pre.length]? = some x.checked := by
        rw [hxs, List.getElem?_map, List.getElem?_append_right (Nat.le_refl _), Nat.sub_self]
        rfl
      rw [hkeys, List.getElem?_map] at hkx
      obtain ⟨key, hkey, hx⟩ := Option.map_eq_some_iff.1 hkx
      obtain ⟨acts', t, hrun', ht, hnow⟩ := hs.call hx.symm hkey (hlate x (by simp))
      refine ⟨acts ++ acts', t, Steps.run_append_of_run hrun hrun', ht, fun y hy => ?_⟩
      rw [hnow]
      rw [hxs] at hclock
      exact (List.pairwise_cons.1 (List.pairwise_append.1 hclock).2.1).1 y hy
  obtain ⟨acts, s, hrun, hs, -⟩ := hpre xs [] (List.append_nil xs).symm
  exact ⟨acts, s, hrun, hs⟩

/-! ## Pointers -/

def Pc.pointer : Pc → Option Nat
  | .lookupAllow _ st => some st
  | .decide _ st => some st
  | _ => none

/-- No pointer is to a record that is not there. -/
structure Pointed (s : Threads Kernel Call) : Prop where
  stored : ∀ c p, s.shared.cgStateMap.lookup c = some p → p < s.shared.records.length
  held : ∀ (i : Nat) (c : Call) p, s.locals[i]? = some c → c.pc.pointer = some p → p < s.shared.records.length

theorem pointed_stepCall {k : Kernel} {c : Call} {r : Kernel × Call} (h : stepCall k c = some r)
    (hstored : ∀ c p, k.cgStateMap.lookup c = some p → p < k.records.length)
    (hheld : ∀ p, c.pc.pointer = some p → p < k.records.length) :
    k.records.length ≤ r.1.records.length ∧
      (∀ c p, r.1.cgStateMap.lookup c = some p → p < r.1.records.length) ∧
      (∀ p, r.2.pc.pointer = some p → p < r.1.records.length) := by
  have hnone : ∀ p, (none : Option Nat) = some p → p < k.records.length := fun p hp => by cases hp
  unfold stepCall at h
  split at h
  · cases h
    exact ⟨Nat.le_refl _, hstored, hnone⟩
  · split at h <;> cases h
    · exact ⟨Nat.le_refl _, hstored, hnone⟩
    · rename_i hst
      exact ⟨Nat.le_refl _, hstored, fun p hp => by cases hp; exact hstored _ _ hst⟩
  · cases h
    rename_i now _
    have hlen : (k.records ++ [(⟨.learning, now⟩ : CgState)]).length = k.records.length + 1 := List.length_append
    refine ⟨Nat.le.intro hlen.symm, fun c' p hp => ?_, fun p hp => by cases hp⟩
    rw [hlen]
    rcases BoundedMap.lookup_put_eq_some hp with ⟨-, rfl⟩ | hp
    · exact Nat.lt_succ_self _
    · exact Nat.lt_succ_of_lt (hstored c' p hp)
  · rename_i hpc
    split at h <;> cases h
    · exact ⟨Nat.le_refl _, hstored, hnone⟩
    · exact ⟨Nat.le_refl _, hstored, fun p hp => hheld p (by rw [hpc]; exact hp)⟩
  · split at h
    · cases h
    · dsimp only at h
      split at h
      · cases h; simp only [List.length_set]; exact ⟨Nat.le_refl _, hstored, hnone⟩
      split at h
      · cases h; simp only [List.length_set]; exact ⟨Nat.le_refl _, hstored, hnone⟩
      · cases h; simp only [List.length_set]; exact ⟨Nat.le_refl _, hstored, hnone⟩
  · cases h

theorem pointed_act {s t : Threads Kernel Call} {a : Act} (hs : Pointed s) (h : act s a = some t) : Pointed t := by
  cases a with
  | tick now =>
    obtain ⟨_, ht⟩ := Option.ite_none_right_eq_some.1 h
    cases ht
    exact ⟨hs.stored, hs.held⟩
  | call i =>
    obtain ⟨c, r, hc, hr, rfl⟩ := Threads.stepAt_eq_some h
    obtain ⟨hgrow, hstored, hheld⟩ := pointed_stepCall hr hs.stored (fun p => hs.held i c p hc)
    refine ⟨hstored, fun j c' p hj hp => ?_⟩
    rcases Threads.getElem?_set hj with ⟨-, rfl⟩ | ⟨-, hj⟩
    · exact hheld p hp
    · exact Nat.lt_of_lt_of_le (hs.held j c' p hj hp) hgrow

/-- **A call that has not answered always has a next step.** -/
theorem act_isSome_of_run {keys : List ExecKey} {as : List Act} {s : Threads Kernel Call}
    (h : Steps.run act (start keys) as = some s) {i : Nat} {c : Call} (hc : s.locals[i]? = some c)
    (hdone : ∀ ret, c.pc ≠ .done ret) : (act s (.call i)).isSome = true := by
  have hstart : Pointed (start keys) := by
    refine ⟨fun c p hp => (nomatch hp), fun i c p hi hp => ?_⟩
    obtain ⟨key, -, rfl⟩ := List.mem_map.1 (List.mem_of_getElem? hi)
    cases hp
  have hs : Pointed s := Steps.run_invariant Pointed hstart (fun _ _ _ hm ha => pointed_act hm ha) h
  suffices hstep : (stepCall s.shared c).isSome = true by
    simp only [act, Threads.stepAt, hc, Option.bind_some, Option.isSome_map, hstep]
  unfold stepCall
  split
  · rfl
  · split <;> rfl
  · rfl
  · split <;> rfl
  · rename_i now st hpc
    have hlt := hs.held i c st hc (by rw [hpc]; rfl)
    rw [List.getElem?_eq_getElem hlt]
    dsimp only
    split
    · rfl
    split <;> rfl
  · rename_i ret hpc
    exact absurd hpc (hdone ret)

end ExecControl
end CgroupGuard
