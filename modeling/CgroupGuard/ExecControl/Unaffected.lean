import CgroupGuard.ExecControl.Settled
/-!
# Unaffected — interleaved calls of other cgroups

What `c` gets out of a run is what it would get if no call of another cgroup had begun, in every interleaving, as long
as none of its writes is refused for the entries of others (`unaffected_iff`).  The run without the others has the
records of `c` under other numbers: `ps` lists, for each of its records, which one of the whole run it is.
-/
namespace CgroupGuard
namespace ExecControl

/-! ## The two kernels -/

structure KernelErases (c : UInt64) (ps : List Nat) (k k' : Kernel) : Prop where
  clock : k'.clock = k.clock
  length : k'.records.length = ps.length
  nodup : ps.Nodup
  record : ∀ p' p : Nat, ps[p']? = some p → ∃ r, k.records[p]? = some r ∧ k'.records[p']? = some r
  lookup : k.cgStateMap.lookup c = (k'.cgStateMap.lookup c).bind (ps[·]?)
  stored : ∀ p', k'.cgStateMap.lookup c = some p' → p' < ps.length
  own : ∀ c' ∈ k'.cgStateMap.keys, c' = c
  allow : ∀ key, key ∈ k'.allowMap.keys ↔ key.cgid = c ∧ key ∈ k.allowMap.keys

inductive SamePc (ps : List Nat) : Pc → Pc → Prop
  | readClock : SamePc ps .readClock .readClock
  | lookupState (now : UInt64) : SamePc ps (.lookupState now) (.lookupState now)
  | createState (now : UInt64) : SamePc ps (.createState now) (.createState now)
  | lookupAllow (now : UInt64) (p p' : Nat) (hp : ps[p']? = some p) :
      SamePc ps (.lookupAllow now p) (.lookupAllow now p')
  | decide (now : UInt64) (p p' : Nat) (hp : ps[p']? = some p) : SamePc ps (.decide now p) (.decide now p')
  | done (ret : Int) : SamePc ps (.done ret) (.done ret)

theorem SamePc.append {ps : List Nat} {pc pc' : Pc} (h : SamePc ps pc pc') (qs : List Nat) :
    SamePc (ps ++ qs) pc pc' := by
  have hget : ∀ {p' p : Nat}, ps[p']? = some p → (ps ++ qs)[p']? = some p := fun hp => by
    rw [List.getElem?_append_left (List.getElem?_eq_some_iff.1 hp).1]
    exact hp
  cases h with
  | readClock => exact .readClock
  | lookupState now => exact .lookupState now
  | createState now => exact .createState now
  | lookupAllow now p p' hp => exact .lookupAllow now p p' (hget hp)
  | decide now p p' hp => exact .decide now p p' (hget hp)
  | done ret => exact .done ret

def Kernel.allowedOf (k : Kernel) (c : UInt64) : Nat := (k.allowMap.keys.filter (·.cgid = c)).length

/-- The call is about to write to a full map, where there would be room but for other cgroups. -/
def Crowded (k : Kernel) (call : Call) : Prop :=
  match call.pc with
  | .createState _ => ¬ k.cgStateMap.Accepts call.key.cgid
  | .decide now st =>
    (∃ r, k.records[st]? = some r ∧ now - r.lastNewExecNs < horizonNs) ∧ ¬ k.allowMap.Accepts call.key ∧
      k.allowedOf call.key.cgid < 8192
  | _ => False

namespace KernelErases

variable {c : UInt64} {ps : List Nat} {k k' : Kernel} (hk : KernelErases c ps k k')
include hk

theorem lt_length {p : Nat} (hp : p ∈ ps) : p < k.records.length := by
  obtain ⟨p', hp'⟩ := List.mem_iff_getElem?.1 hp
  obtain ⟨r, hr, -⟩ := hk.record p' p hp'
  exact (List.getElem?_eq_some_iff.1 hr).1

theorem size_eq : k'.allowMap.size = k.allowedOf c := by
  refine ((List.perm_ext_iff_of_nodup k'.allowMap.nodup_keys (k.allowMap.nodup_keys.filter _)).2
      (fun key => ?_)).length_eq
  rw [hk.allow key, List.mem_filter, decide_eq_true_eq]
  exact and_comm

theorem accepts_own {key : ExecKey} (hkey : key.cgid = c) :
    k'.allowMap.Accepts key ↔ key ∈ k.allowMap.keys ∨ k.allowedOf c < 8192 := by
  unfold BoundedMap.Accepts
  rw [hk.size_eq, hk.allow key]
  exact or_congr (and_iff_right hkey) Iff.rfl

theorem accepts_record : k'.cgStateMap.Accepts c := by
  have hsize : k'.cgStateMap.size ≤ [c].length :=
    (List.subperm_of_subset k'.cgStateMap.nodup_keys (fun c' hc => List.mem_singleton.2 (hk.own c' hc))).length_le
  exact .inr (Nat.lt_of_le_of_lt hsize (by rw [List.length_singleton]; decide))

theorem accepts_iff {key : ExecKey} (hkey : key.cgid = c) (hroom : ¬ k.allowMap.Accepts key → ¬ k.allowedOf c < 8192) :
    k.allowMap.Accepts key ↔ k'.allowMap.Accepts key := by
  rw [hk.accepts_own hkey]
  constructor
  · rintro (hmem | hlt)
    · exact .inl hmem
    · exact .inr (Nat.lt_of_le_of_lt (List.length_filter_le _ _) hlt)
  · rintro (hmem | hlt)
    · exact .inl hmem
    · exact Classical.byContradiction (fun hnot => hroom hnot hlt)

theorem set {p p' : Nat} (hp : ps[p']? = some p) (r : CgState) :
    KernelErases c ps { k with records := k.records.set p r } { k' with records := k'.records.set p' r } := by
  have hlt := (List.getElem?_eq_some_iff.1 hp).1
  refine { hk with length := by rw [List.length_set, hk.length], record := fun q' q hq => ?_ }
  by_cases hqp : q' = p'
  · subst hqp
    obtain rfl : p = q := Option.some.inj (hp.symm.trans hq)
    exact ⟨r, List.getElem?_set_self (hk.lt_length (List.mem_of_getElem? hp)),
      List.getElem?_set_self (hk.length ▸ hlt)⟩
  · have hne : p ≠ q := fun he => hqp
      ((List.getElem?_inj (List.getElem?_eq_some_iff.1 hq).1 hk.nodup).1 (hq.trans (he ▸ hp.symm)))
    obtain ⟨r', hr, hr'⟩ := hk.record q' q hq
    exact ⟨r', (List.getElem?_set_ne hne).trans hr, (List.getElem?_set_ne (Ne.symm hqp)).trans hr'⟩

theorem put {key : ExecKey} (hkey : key.cgid = c) (hacc : k.allowMap.Accepts key ↔ k'.allowMap.Accepts key) :
    KernelErases c ps { k with allowMap := k.allowMap.put key 1 } { k' with allowMap := k'.allowMap.put key 1 } := by
  refine { hk with allow := fun x => ?_ }
  simp only [BoundedMap.mem_keys_put, hk.allow x, hacc]
  constructor
  · rintro (⟨rfl, ha⟩ | ⟨hx, hmem⟩)
    · exact ⟨hkey, .inl ⟨rfl, ha⟩⟩
    · exact ⟨hx, .inr hmem⟩
  · rintro ⟨hx, ⟨rfl, ha⟩ | hmem⟩
    · exact .inl ⟨rfl, ha⟩
    · exact .inr ⟨hx, hmem⟩

theorem create (hacc : k.cgStateMap.Accepts c) (r : CgState) :
    KernelErases c (ps ++ [k.records.length])
      { k with records := k.records ++ [r], cgStateMap := k.cgStateMap.put c k.records.length }
      { k' with records := k'.records ++ [r], cgStateMap := k'.cgStateMap.put c k'.records.length } := by
  have hnew : k.records.length ∉ ps := fun hmem => Nat.lt_irrefl _ (hk.lt_length hmem)
  refine ⟨hk.clock, ?_, ?_, fun p' p hp => ?_, ?_, fun p' hp' => ?_, fun c' hc' => ?_, hk.allow⟩
  · simp [hk.length]
  · exact List.nodup_append.2 ⟨hk.nodup, List.nodup_singleton _, fun p hp q hq he => by
      rw [List.mem_singleton] at hq
      exact hnew (hq ▸ he ▸ hp)⟩
  · rcases Nat.lt_or_ge p' ps.length with hlt | hge
    · rw [List.getElem?_append_left hlt] at hp
      obtain ⟨r', hr, hr'⟩ := hk.record p' p hp
      exact ⟨r', by rw [List.getElem?_append_left (hk.lt_length (List.mem_of_getElem? hp))]; exact hr,
        by rw [List.getElem?_append_left (hk.length ▸ hlt)]; exact hr'⟩
    · rw [List.getElem?_append_right hge, List.getElem?_singleton] at hp
      obtain ⟨hz, he⟩ := Option.ite_none_right_eq_some.1 hp
      obtain rfl := Option.some.inj he
      obtain rfl : p' = ps.length := by omega
      exact ⟨r, List.getElem?_concat_length, by rw [← hk.length]; exact List.getElem?_concat_length⟩
  · simp only [BoundedMap.lookup_put_self hacc, BoundedMap.lookup_put_self hk.accepts_record, Option.bind_some,
      hk.length]
    exact List.getElem?_concat_length.symm
  · simp only [BoundedMap.lookup_put_self hk.accepts_record, Option.some.injEq] at hp'
    rw [← hp', hk.length, List.length_append]
    exact Nat.lt_succ_self _
  · rcases (BoundedMap.mem_keys_put _ _ _ _).1 hc' with ⟨rfl, -⟩ | hold
    · rfl
    · exact hk.own c' hold

theorem stranger {key : ExecKey} {pc pc' : Pc} {m : Kernel} (hkey : key.cgid ≠ c)
    (hpointer : ∀ p, pc.pointer = some p → p ∉ ps) (h : CallMoves k key pc m pc') : KernelErases c ps m k' := by
  have hrecord : ∀ st r, st ∉ ps → ∀ p' p : Nat, ps[p']? = some p →
      ∃ r', (k.records.set st r)[p]? = some r' ∧ k'.records[p']? = some r' := by
    intro st r hst p' p hp
    obtain ⟨r', hr, hr'⟩ := hk.record p' p hp
    have hne : st ≠ p := fun he => hst (he ▸ List.mem_of_getElem? hp)
    exact ⟨r', (List.getElem?_set_ne hne).trans hr, hr'⟩
  cases h with
  | create now =>
    refine { hk with record := fun p' p hp => ?_, lookup := ?_ }
    · obtain ⟨r, hr, hr'⟩ := hk.record p' p hp
      exact ⟨r, (List.getElem?_append_left (hk.lt_length (List.mem_of_getElem? hp))).trans hr, hr'⟩
    · rw [← hk.lookup]
      exact BoundedMap.lookup_put_ne _ _ (Ne.symm hkey)
  | learn now st r s hr hd =>
    refine { hk with record := hrecord st _ (hpointer st rfl), allow := fun x => (hk.allow x).trans ?_ }
    refine and_congr_right (fun hx => ?_)
    rw [BoundedMap.mem_keys_put]
    exact ⟨.inr, fun hor => hor.resolve_left (fun hl => hkey (hl.1 ▸ hx))⟩
  | deny now st r hr hd => exact { hk with record := hrecord st _ (hpointer st rfl) }
  | _ => exact hk

/-- **A call of `c` takes the same step in both**, unless others are in its way. -/
theorem step {key : ExecKey} {pc pc' : Pc} {r : Kernel × Call} (hkey : key.cgid = c) (hpc : SamePc ps pc pc')
    (hnot : ¬ Crowded k ⟨key, pc⟩) (h : stepCall k ⟨key, pc⟩ = some r) :
    ∃ qs r', stepCall k' ⟨key, pc'⟩ = some r' ∧ (∀ q ∈ qs, q = k.records.length) ∧ KernelErases c (ps ++ qs) r.1 r'.1 ∧
      r'.2.key = key ∧ SamePc (ps ++ qs) r.2.pc r'.2.pc := by
  have hsame : KernelErases c (ps ++ []) k k' := by rw [List.append_nil]; exact hk
  have hnone : ∀ q ∈ ([] : List Nat), q = k.records.length := fun q hq => by cases hq
  cases hpc with
  | readClock =>
    cases h
    refine ⟨[], _, rfl, hnone, hsame, rfl, ?_⟩
    show SamePc _ (.lookupState k.clock) (.lookupState k'.clock)
    rw [hk.clock]
    exact .lookupState _
  | lookupState now =>
    subst hkey
    have hlookup := hk.lookup
    cases hst' : k'.cgStateMap.lookup key.cgid with
    | none =>
      rw [hst', Option.bind_none] at hlookup
      simp only [stepCall, hlookup] at h
      cases h
      exact ⟨[], (k', ⟨key, .createState now⟩), by simp only [stepCall, hst'], hnone, hsame, rfl, .createState now⟩
    | some p' =>
      have hlt := hk.stored p' hst'
      have hp : ps[p']? = some ps[p'] := List.getElem?_eq_getElem hlt
      rw [hst', Option.bind_some, hp] at hlookup
      simp only [stepCall, hlookup] at h
      cases h
      refine ⟨[], (k', ⟨key, .lookupAllow now p'⟩), by simp only [stepCall, hst'], hnone, hsame, rfl, ?_⟩
      rw [List.append_nil]
      exact .lookupAllow now _ p' hp
  | createState now =>
    subst hkey
    cases h
    have hacc : k.cgStateMap.Accepts key.cgid := Classical.not_not.1 hnot
    exact ⟨[k.records.length], _, rfl, fun q hq => List.mem_singleton.1 hq, hk.create hacc _, rfl, .done 0⟩
  | lookupAllow now p p' hp =>
    have hallow := (hk.allow key).trans (and_iff_right hkey)
    cases hl : k.allowMap.lookup key with
    | none =>
      have hl' : k'.allowMap.lookup key = none :=
        (BoundedMap.lookup_eq_none _ _).2 (fun hmem => (BoundedMap.lookup_eq_none _ _).1 hl (hallow.1 hmem))
      simp only [stepCall, hl] at h
      cases h
      refine ⟨[], (k', ⟨key, .decide now p'⟩), by simp only [stepCall, hl'], hnone, hsame, rfl, ?_⟩
      rw [List.append_nil]
      exact .decide now p p' hp
    | some v =>
      obtain ⟨v', hl'⟩ := BoundedMap.exists_lookup_of_mem_keys (hallow.2 (BoundedMap.mem_keys_of_lookup hl))
      simp only [stepCall, hl] at h
      cases h
      exact ⟨[], (k', ⟨key, .done 0⟩), by simp only [stepCall, hl'], hnone, hsame, rfl, .done 0⟩
  | decide now p p' hp =>
    obtain ⟨r₀, hr, hr'⟩ := hk.record p' p hp
    have hacc : now - r₀.lastNewExecNs < horizonNs → (k.allowMap.Accepts key ↔ k'.allowMap.Accepts key) :=
      fun hd => hk.accepts_iff hkey (fun hfull hroom => hnot ⟨⟨r₀, hr, hd⟩, hfull, hkey ▸ hroom⟩)
    have hwrite : ∀ s : State, now - r₀.lastNewExecNs < horizonNs →
        KernelErases c (ps ++ []) { k with records := k.records.set p ⟨s, now⟩, allowMap := k.allowMap.put key 1 }
          { k' with records := k'.records.set p' ⟨s, now⟩, allowMap := k'.allowMap.put key 1 } := fun s hd => by
      rw [List.append_nil]
      exact (hk.set hp ⟨s, now⟩).put hkey (hacc hd)
    simp only [stepCall, hr] at h
    simp only [stepCall, hr']
    split at h
    · rename_i hl
      cases h
      rw [if_pos hl]
      exact ⟨[], _, rfl, hnone, hwrite _ (lt_horizonNs_of_lt_learnWindowNs hl), rfl, .done 0⟩
    rename_i hl
    rw [if_neg hl]
    split at h
    · rename_i hg
      cases h
      rw [if_pos hg]
      exact ⟨[], _, rfl, hnone, hwrite _ hg, rfl, .done 0⟩
    · rename_i hg
      cases h
      rw [if_neg hg]
      refine ⟨[], _, rfl, hnone, ?_, rfl, .done (-1)⟩
      rw [List.append_nil]
      exact hk.set hp _
  | done ret => cases h

end KernelErases

/-! ## The two runs -/

/-- What is left of a run without the calls of the other cgroups. -/
def Act.isOf (keys : List ExecKey) (c : UInt64) : Act → Bool
  | .tick _ => true
  | .call i => decide (keys[i]?.map (·.cgid) = some c)

/-- What `c` sees of a run: the answers to its calls, its allowed keys and its record. -/
structure SameView (c : UInt64) (s s' : Threads Kernel Call) : Prop where
  answers : ∀ (i : Nat) (key : ExecKey) (ret : Int), key.cgid = c →
    (s.locals[i]? = some ⟨key, .done ret⟩ ↔ s'.locals[i]? = some ⟨key, .done ret⟩)
  allowed : ∀ key : ExecKey, key.cgid = c → (key ∈ s.shared.allowMap.keys ↔ key ∈ s'.shared.allowMap.keys)
  record : (s.shared.cgStateMap.lookup c).bind (s.shared.records[·]?) =
    (s'.shared.cgStateMap.lookup c).bind (s'.shared.records[·]?)

/-- The act is a call of `c` that a full map is about to refuse for the entries of others. -/
def Disturbed (c : UInt64) (s : Threads Kernel Call) : Act → Prop
  | .tick _ => False
  | .call i => ∃ call, s.locals[i]? = some call ∧ call.key.cgid = c ∧ Crowded s.shared call

structure Erases (keys : List ExecKey) (c : UInt64) (ps : List Nat) (s s' : Threads Kernel Call) : Prop where
  shared : KernelErases c ps s.shared s'.shared
  sound : Sound s
  owned : ∀ p ∈ ps, ∀ c', Refers s c' p → c' = c
  listed : s.locals.map Call.key = keys
  listed' : s'.locals.map Call.key = keys
  calls : ∀ (i : Nat) (key : ExecKey) (pc : Pc), s.locals[i]? = some ⟨key, pc⟩ → key.cgid = c →
    ∃ pc', s'.locals[i]? = some ⟨key, pc'⟩ ∧ SamePc ps pc pc'

theorem key_of_locals {keys : List ExecKey} {s : Threads Kernel Call} (hs : s.locals.map Call.key = keys) {i : Nat}
    {key : ExecKey} {pc : Pc} (hi : s.locals[i]? = some ⟨key, pc⟩) : keys[i]? = some key := by
  rw [← hs, List.getElem?_map, hi]
  rfl

theorem map_key_set {keys : List ExecKey} {s : Threads Kernel Call} (hs : s.locals.map Call.key = keys) {i : Nat}
    {call call' : Call} (hi : s.locals[i]? = some call) (hkey : call'.key = call.key) :
    (s.locals.set i call').map Call.key = keys := by
  obtain ⟨hlt, rfl⟩ := List.getElem?_eq_some_iff.1 hi
  have hself : (s.locals.map Call.key).set i s.locals[i].key = s.locals.map Call.key := by
    rw [← List.map_set, List.set_getElem_self]
  rw [List.map_set, hkey, hself, hs]

theorem mem_allowMap_of_learns {k m : Kernel} {key : ExecKey} {now : UInt64} {st : Nat} {pc : Pc} {r : CgState}
    (hr : k.records[st]? = some r) (hd : now - r.lastNewExecNs < horizonNs)
    (h : CallMoves k key (.decide now st) m pc) :
    key ∈ m.allowMap.keys ↔ k.allowMap.Accepts key := by
  cases h with
  | learn _ _ r' s hr' hd' =>
    rw [BoundedMap.mem_keys_put]
    exact ⟨fun hor => hor.elim And.right .inl, fun hacc => .inl ⟨rfl, hacc⟩⟩
  | deny _ _ r' hr' hd' =>
    obtain rfl : r = r' := Option.some.inj (hr.symm.trans hr')
    exact absurd hd (UInt64.not_lt.2 hd')

namespace Erases

variable {keys : List ExecKey} {c : UInt64} {ps : List Nat} {s s' t : Threads Kernel Call}

theorem view (hs : Erases keys c ps s s') : SameView c s s' := by
  refine ⟨fun i key ret hkey => ⟨fun hi => ?_, fun hi => ?_⟩, fun key hkey => ?_, ?_⟩
  · obtain ⟨pc', hi', hpc⟩ := hs.calls i key _ hi hkey
    cases hpc
    exact hi'
  · have hget := key_of_locals hs.listed' hi
    rw [← hs.listed, List.getElem?_map] at hget
    obtain ⟨⟨key', pc⟩, hi₀, rfl⟩ := Option.map_eq_some_iff.1 hget
    obtain ⟨pc', hi', hpc⟩ := hs.calls i key' pc hi₀ hkey
    obtain rfl : pc' = .done ret := congrArg Call.pc (Option.some.inj (hi'.symm.trans hi))
    cases hpc
    exact hi₀
  · exact ((hs.shared.allow key).trans (and_iff_right hkey)).symm
  · rw [hs.shared.lookup]
    cases hl : s'.shared.cgStateMap.lookup c with
    | none => rfl
    | some p' =>
      have hlt := hs.shared.stored p' hl
      obtain ⟨r, hr, hr'⟩ := hs.shared.record p' _ (List.getElem?_eq_getElem hlt)
      rw [Option.bind_some, List.getElem?_eq_getElem hlt, Option.bind_some, Option.bind_some, hr, hr']

theorem follow (hs : Erases keys c ps s s') {i : Nat} {key : ExecKey} {pc : Pc} (hi : s.locals[i]? = some ⟨key, pc⟩)
    (hkey : key.cgid = c) (hnot : ¬ Crowded s.shared ⟨key, pc⟩) (h : act s (.call i) = some t) :
    ∃ t' qs, act s' (.call i) = some t' ∧ Erases keys c (ps ++ qs) t t' := by
  obtain ⟨call, ⟨k, ⟨key₁, pc₁⟩⟩, hcall, hr, rfl⟩ := Threads.stepAt_eq_some h
  obtain rfl : (⟨key, pc⟩ : Call) = call := Option.some.inj (hi.symm.trans hcall)
  obtain ⟨hkey₁, hmoves⟩ := callMoves_of_step hr
  obtain rfl : key₁ = key := hkey₁
  obtain ⟨pc', hi', hpc⟩ := hs.calls i key₁ pc hi hkey
  obtain ⟨qs, ⟨k', ⟨key₂, pc₂⟩⟩, hr', hqs, hshared, hkey₂, hsame⟩ := hs.shared.step hkey hpc hnot hr
  obtain rfl : key₂ = key₁ := hkey₂
  refine ⟨⟨k', s'.locals.set i ⟨key₂, pc₂⟩⟩, qs, Threads.stepAt_of_step hi' hr', hshared, hs.sound.act h,
    fun p hp c' href => ?_, map_key_set hs.listed hi rfl, map_key_set hs.listed' hi' rfl, fun j x q hj hx => ?_⟩
  · rcases refers_of_step hi hmoves href with hold | ⟨rfl, -⟩
    · rcases List.mem_append.1 hp with hp | hp
      · exact hs.owned p hp c' hold
      · exact absurd (hs.sound.pointed.lt_length hold) (by rw [hqs p hp]; exact Nat.lt_irrefl _)
    · exact hkey
  · rcases Threads.getElem?_set hj with ⟨rfl, he⟩ | ⟨hne, hj⟩
    · cases he
      exact ⟨pc₂, List.getElem?_set_self (List.getElem?_eq_some_iff.1 hi').1, hsame⟩
    · obtain ⟨q', hj', hq⟩ := hs.calls j x q hj hx
      exact ⟨q', (List.getElem?_set_ne (Ne.symm hne)).trans hj', hq.append qs⟩

theorem skip (hs : Erases keys c ps s s') {i : Nat} {key : ExecKey} {pc : Pc} (hi : s.locals[i]? = some ⟨key, pc⟩)
    (hkey : key.cgid ≠ c) (h : act s (.call i) = some t) : Erases keys c ps t s' := by
  obtain ⟨call, ⟨k, ⟨key₁, pc₁⟩⟩, hcall, hr, rfl⟩ := Threads.stepAt_eq_some h
  obtain rfl : (⟨key, pc⟩ : Call) = call := Option.some.inj (hi.symm.trans hcall)
  obtain ⟨hkey₁, hmoves⟩ := callMoves_of_step hr
  obtain rfl : key₁ = key := hkey₁
  have hpointer : ∀ p, pc.pointer = some p → p ∉ ps := fun p hp hmem =>
    hkey (hs.owned p hmem key₁.cgid (.inr ⟨i, _, hi, rfl, hp⟩))
  refine ⟨hs.shared.stranger hkey hpointer hmoves, hs.sound.act h, fun p hp c' href => ?_, map_key_set hs.listed hi rfl,
    hs.listed', fun j x q hj hx => ?_⟩
  · rcases refers_of_step hi hmoves href with hold | ⟨-, rfl⟩
    · exact hs.owned p hp c' hold
    · exact absurd (hs.shared.lt_length hp) (Nat.lt_irrefl _)
  · rcases Threads.getElem?_set hj with ⟨-, he⟩ | ⟨-, hj⟩
    · cases he
      exact absurd hx hkey
    · exact hs.calls j x q hj hx

theorem tick (hs : Erases keys c ps s s') {now : UInt64} (h : act s (.tick now) = some t) :
    ∃ t', act s' (.tick now) = some t' ∧ Erases keys c ps t t' := by
  have hsound := hs.sound.act h
  obtain ⟨hle, ht⟩ := Option.ite_none_right_eq_some.1 h
  cases ht
  have hle' : s'.shared.clock ≤ now := by rw [hs.shared.clock]; exact hle
  exact ⟨_, if_pos hle', { hs with shared := { hs.shared with clock := rfl }, sound := hsound }⟩

/-- **What is refused for the others is seen at once.** -/
theorem seen (hs : Erases keys c ps s s') {i : Nat} {call : Call} (hi : s.locals[i]? = some call)
    (hkey : call.key.cgid = c) (hcrowded : Crowded s.shared call) (h : act s (.call i) = some t) :
    ∃ t', act s' (.call i) = some t' ∧ ¬ SameView c t t' := by
  obtain ⟨call₀, r, hcall, hr, rfl⟩ := Threads.stepAt_eq_some h
  obtain rfl : call = call₀ := Option.some.inj (hi.symm.trans hcall)
  obtain ⟨key, pc⟩ := call
  obtain ⟨pc', hi', hpc⟩ := hs.calls i key pc hi hkey
  subst hkey
  cases hpc with
  | createState now =>
    have hfull : ¬ s.shared.cgStateMap.Accepts key.cgid := hcrowded
    cases hr
    refine ⟨_, Threads.stepAt_of_step hi' rfl, fun hview => ?_⟩
    have hrecord := hview.record
    simp only [BoundedMap.lookup_put_self_eq, if_neg hfull, if_pos hs.shared.accepts_record, Option.bind_none,
      Option.bind_some] at hrecord
    rw [List.getElem?_concat_length] at hrecord
    cases hrecord
  | decide now p p' hp =>
    obtain ⟨⟨r₀, hr₀, hd⟩, hfull, hroom⟩ := hcrowded
    obtain ⟨r₁, hr₁, hr'⟩ := hs.shared.record p' p hp
    obtain rfl : r₀ = r₁ := Option.some.inj (hr₀.symm.trans hr₁)
    have hacc : s'.shared.allowMap.Accepts key := (hs.shared.accepts_own rfl).2 (.inr hroom)
    obtain ⟨r', hstep⟩ : ∃ r', stepCall s'.shared ⟨key, .decide now p'⟩ = some r' := by
      simp only [stepCall, hr']
      split
      · exact ⟨_, rfl⟩
      · split <;> exact ⟨_, rfl⟩
    have hlearned := mem_allowMap_of_learns hr₀ hd (callMoves_of_step hr).2
    have hlearned' := mem_allowMap_of_learns hr' hd (callMoves_of_step hstep).2
    exact ⟨_, Threads.stepAt_of_step hi' hstep,
      fun hview => hfull (hlearned.1 ((hview.allowed key rfl).2 (hlearned'.2 hacc)))⟩
  | _ => exact hcrowded.elim

end Erases

theorem erases_start (keys : List ExecKey) (c : UInt64) : Erases keys c [] (start keys) (start keys) := by
  have hsound : Sound (start keys) := sound_of_run (Steps.run_nil act (start keys))
  have hlisted : (start keys).locals.map Call.key = keys := by
    simp [start, Function.comp_def]
  have hshared : KernelErases c [] (start keys).shared (start keys).shared :=
    { clock := rfl
      length := rfl
      nodup := List.nodup_nil
      record := fun p' p hp => by cases hp
      lookup := rfl
      stored := fun p' hp' => by cases hp'
      own := fun c' hc' => absurd hc' List.not_mem_nil
      allow := fun key => iff_of_false List.not_mem_nil (fun h => absurd h.2 List.not_mem_nil) }
  refine ⟨hshared, hsound, fun p hp => absurd hp List.not_mem_nil, hlisted, hlisted, fun i key pc hi _ => ⟨pc, hi, ?_⟩⟩
  obtain ⟨x, -, hx⟩ := List.mem_map.1 (List.mem_of_getElem? hi)
  cases hx
  exact .readClock

theorem Erases.isOf_iff {keys : List ExecKey} {c : UInt64} {ps : List Nat} {s s' : Threads Kernel Call}
    (hs : Erases keys c ps s s') {i : Nat} {call : Call} (hi : s.locals[i]? = some call) :
    Act.isOf keys c (.call i) = true ↔ call.key.cgid = c := by
  obtain ⟨key, pc⟩ := call
  rw [Act.isOf, key_of_locals hs.listed hi, decide_eq_true_eq, Option.map_some, Option.some.injEq]

theorem exists_erased {keys : List ExecKey} {c : UInt64} {acts : List Act} {s : Threads Kernel Call}
    (hrun : Steps.run act (start keys) acts = some s)
    (hacts : Steps.Always act (fun m a => ¬ Disturbed c m a) (start keys) acts) :
    ∃ s' ps, Steps.run act (start keys) (acts.filter (Act.isOf keys c)) = some s' ∧ Erases keys c ps s s' := by
  have hkeep : ∀ (s s' : Threads Kernel Call) a t, (∃ ps, Erases keys c ps s s') → ¬ Disturbed c s a →
      Act.isOf keys c a = true → act s a = some t → ∃ t', act s' a = some t' ∧ ∃ ps, Erases keys c ps t t' := by
    rintro s s' a t ⟨ps, hs⟩ hnot ha h
    cases a with
    | tick now =>
      obtain ⟨t', ht', hend⟩ := hs.tick h
      exact ⟨t', ht', ps, hend⟩
    | call i =>
      obtain ⟨⟨key, pc⟩, -, hi, -, -⟩ := Threads.stepAt_eq_some h
      have hkey := (hs.isOf_iff hi).1 ha
      obtain ⟨t', qs, ht', hend⟩ := hs.follow hi hkey (fun hcrowded => hnot ⟨_, hi, hkey, hcrowded⟩) h
      exact ⟨t', ht', ps ++ qs, hend⟩
  have hdrop : ∀ (s s' : Threads Kernel Call) a t, (∃ ps, Erases keys c ps s s') → ¬ Disturbed c s a →
      Act.isOf keys c a = false → act s a = some t → ∃ ps, Erases keys c ps t s' := by
    rintro s s' a t ⟨ps, hs⟩ - ha h
    cases a with
    | tick now => cases ha
    | call i =>
      obtain ⟨⟨key, pc⟩, -, hi, -, -⟩ := Threads.stepAt_eq_some h
      exact ⟨ps, hs.skip hi (fun he => Bool.false_ne_true (ha.symm.trans ((hs.isOf_iff hi).2 he))) h⟩
  obtain ⟨s', hs', ps, hend⟩ := Steps.run_erasing (Act.isOf keys c) (fun s s' => ∃ ps, Erases keys c ps s s')
    hkeep hdrop ⟨[], erases_start keys c⟩ hacts hrun
  exact ⟨s', ps, hs', hend⟩

structure Listed (keys : List ExecKey) (s : Threads Kernel Call) : Prop where
  states : s.shared.cgStateMap.keys ⊆ keys.map (·.cgid)
  allowed : s.shared.allowMap.keys ⊆ keys
  calls : s.locals.map Call.key = keys

theorem Listed.act {keys : List ExecKey} {s t : Threads Kernel Call} {a : Act} (hs : Listed keys s)
    (h : act s a = some t) : Listed keys t := by
  cases a with
  | tick now =>
    obtain ⟨-, ht⟩ := Option.ite_none_right_eq_some.1 h
    cases ht
    exact ⟨hs.states, hs.allowed, hs.calls⟩
  | call i =>
    obtain ⟨⟨key, pc⟩, ⟨k, ⟨key', pc'⟩⟩, hi, hr, rfl⟩ := Threads.stepAt_eq_some h
    obtain ⟨hkey, hmoves⟩ := callMoves_of_step hr
    obtain rfl : key' = key := hkey
    have hmem : key' ∈ keys := List.mem_of_getElem? (key_of_locals hs.calls hi)
    refine ⟨fun c hc => ?_, fun x hx => ?_, map_key_set hs.calls hi rfl⟩
    · cases hmoves with
      | create now =>
        rcases (BoundedMap.mem_keys_put _ _ _ _).1 hc with ⟨rfl, -⟩ | hold
        · exact List.mem_map_of_mem hmem
        · exact hs.states hold
      | _ => exact hs.states hc
    · cases hmoves with
      | learn =>
        rcases (BoundedMap.mem_keys_put _ _ _ _).1 hx with ⟨rfl, -⟩ | hold
        · exact hmem
        · exact hs.allowed hold
      | _ => exact hs.allowed hx

/-- **Where both maps have room for all that ever calls, nobody is in anybody's way.** -/
theorem undisturbed_of_room {keys : List ExecKey} (hstates : (keys.map (·.cgid)).dedup.length ≤ 1024)
    (hallowed : keys.dedup.length ≤ 8192) {acts : List Act} (c : UInt64) :
    Steps.Always act (fun m a => ¬ Disturbed c m a) (start keys) acts := by
  refine Steps.always_of_forall (fun pre a post m _ hm hdist => ?_)
  have hstart : Listed keys (start keys) := by
    refine ⟨List.nil_subset _, List.nil_subset _, ?_⟩
    simp [start, Function.comp_def]
  have hs : Listed keys m := Steps.run_invariant (Listed keys) hstart (fun _ _ _ h ha => h.act ha) hm
  cases a with
  | tick now => exact hdist
  | call i =>
    obtain ⟨⟨key, pc⟩, hi, -, hcrowded⟩ := hdist
    have hmem : key ∈ keys := List.mem_of_getElem? (key_of_locals hs.calls hi)
    cases pc with
    | createState now => exact hcrowded (BoundedMap.accepts_of_subset hs.states (List.mem_map_of_mem hmem) hstates)
    | decide now st => exact hcrowded.2.1 (BoundedMap.accepts_of_subset hs.allowed hmem hallowed)
    | _ => exact hcrowded

def twoTenants : List ExecKey := [⟨7, ⟨1, 1⟩⟩, ⟨8, ⟨1, 1⟩⟩, ⟨7, ⟨1, 2⟩⟩, ⟨8, ⟨1, 2⟩⟩]

def mingled : List Act :=
  [.call 0, .call 1, .call 0, .call 1, .call 0, .call 1, .tick 1000000000, .call 3, .call 2, .call 2, .call 3, .call 2,
    .call 3, .call 2, .call 3]

end ExecControl
end CgroupGuard
