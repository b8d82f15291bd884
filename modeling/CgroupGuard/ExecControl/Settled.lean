import CgroupGuard.ExecControl.Underflow
/-!
# Settled — what concurrent execs can no longer change

An executable in `allow_map` stays there, and a call that has not got past the lookup is not denied for it
(`known_never_denied`).  Enforcement is another matter: a call that read the clock before a denial may still learn after
it, and set back the record.  Where none is under way the denial is final, in every interleaving of the calls to come
(`enforcing_absorbing_concurrently`).
-/
namespace CgroupGuard
namespace ExecControl

/-! ## What a step of a call can do -/

inductive CallMoves (k : Kernel) (key : ExecKey) : Pc → Kernel → Pc → Prop
  | clock : CallMoves k key .readClock k (.lookupState k.clock)
  | missing (now : UInt64) (hst : k.cgStateMap.lookup key.cgid = none) :
    CallMoves k key (.lookupState now) k (.createState now)
  | found (now : UInt64) (st : Nat) (hst : k.cgStateMap.lookup key.cgid = some st) :
    CallMoves k key (.lookupState now) k (.lookupAllow now st)
  | create (now : UInt64) :
    CallMoves k key (.createState now)
      { k with records := k.records ++ [⟨.learning, now⟩]
               cgStateMap := k.cgStateMap.put key.cgid k.records.length } (.done 0)
  | known (now : UInt64) (st : Nat) (hk : key ∈ k.allowMap.keys) : CallMoves k key (.lookupAllow now st) k (.done 0)
  | unknown (now : UInt64) (st : Nat) (hk : key ∉ k.allowMap.keys) :
    CallMoves k key (.lookupAllow now st) k (.decide now st)
  | learn (now : UInt64) (st : Nat) (r : CgState) (s : State) (hr : k.records[st]? = some r)
    (hd : now - r.lastNewExecNs < horizonNs) :
    CallMoves k key (.decide now st)
      { k with records := k.records.set st ⟨s, now⟩, allowMap := k.allowMap.put key 1 } (.done 0)
  | deny (now : UInt64) (st : Nat) (r : CgState) (hr : k.records[st]? = some r)
    (hd : horizonNs ≤ now - r.lastNewExecNs) :
    CallMoves k key (.decide now st)
      { k with records := k.records.set st { r with state := .enforcing } } (.done (-1))

/-- **A step of a call is one of the eight.** -/
theorem callMoves_of_step {k : Kernel} {c : Call} {r : Kernel × Call} (h : stepCall k c = some r) :
    r.2.key = c.key ∧ CallMoves k c.key c.pc r.1 r.2.pc := by
  obtain ⟨key, pc⟩ := c
  cases pc with
  | readClock => cases h; exact ⟨rfl, .clock⟩
  | lookupState now =>
    cases hst : k.cgStateMap.lookup key.cgid with
    | none => simp only [stepCall, hst] at h; cases h; exact ⟨rfl, .missing now hst⟩
    | some st => simp only [stepCall, hst] at h; cases h; exact ⟨rfl, .found now st hst⟩
  | createState now => cases h; exact ⟨rfl, .create now⟩
  | lookupAllow now st =>
    cases hk : k.allowMap.lookup key with
    | none =>
      simp only [stepCall, hk] at h
      cases h
      exact ⟨rfl, .unknown now st ((BoundedMap.lookup_eq_none _ _).1 hk)⟩
    | some _ =>
      simp only [stepCall, hk] at h
      cases h
      exact ⟨rfl, .known now st (BoundedMap.mem_keys_of_lookup hk)⟩
  | decide now st =>
    cases hr : k.records[st]? with
    | none => simp only [stepCall, hr] at h; cases h
    | some rec =>
      simp only [stepCall, hr] at h
      split at h
      · rename_i hl
        cases h
        exact ⟨rfl, .learn now st rec _ hr (lt_horizonNs_of_lt_learnWindowNs hl)⟩
      split at h
      · rename_i hg
        cases h
        exact ⟨rfl, .learn now st rec _ hr hg⟩
      · rename_i hg
        cases h
        exact ⟨rfl, .deny now st rec hr (UInt64.not_lt.1 hg)⟩
  | done ret => cases h

section
variable {k k' : Kernel} {key : ExecKey} {pc pc' : Pc}

theorem CallMoves.mem_allowMap (h : CallMoves k key pc k' pc') {x : ExecKey} (hx : x ∈ k.allowMap.keys) :
    x ∈ k'.allowMap.keys := by
  cases h with
  | learn => exact BoundedMap.mem_keys_put_of_mem 1 hx
  | _ => exact hx

theorem CallMoves.clock_eq (h : CallMoves k key pc k' pc') : k'.clock = k.clock := by
  cases h <;> rfl

end

/-! ## What is known -/

def Pc.Undecided : Pc → Prop
  | .decide _ _ => False
  | .done ret => ret = 0
  | _ => True

theorem undecided_of_moves {k k' : Kernel} {key : ExecKey} {pc pc' : Pc} (h : CallMoves k key pc k' pc')
    (hk : key ∈ k.allowMap.keys) (hpc : pc.Undecided) : pc'.Undecided := by
  cases h with
  | unknown now st hnot => exact absurd hk hnot
  | deny now st r hr hd => exact absurd hpc id
  | create => rfl
  | known => rfl
  | learn => rfl
  | _ => trivial

/-- **A known executable is never denied**: whatever the other calls do, one that has not got past the lookup when its
key is in `allow_map` returns 0. -/
theorem known_never_denied (s : Threads Kernel Call) {i : Nat} {key : ExecKey} {pc : Pc}
    (hi : s.locals[i]? = some ⟨key, pc⟩) (hpc : pc.Undecided) (hknown : key ∈ s.shared.allowMap.keys) (acts : List Act)
    (t : Threads Kernel Call) (hrun : Steps.run act s acts = some t) :
    key ∈ t.shared.allowMap.keys ∧ ∀ ret, t.locals[i]? = some ⟨key, .done ret⟩ → ret = 0 := by
  have ht : key ∈ t.shared.allowMap.keys ∧ ∃ pc, t.locals[i]? = some ⟨key, pc⟩ ∧ pc.Undecided := by
    refine Steps.run_invariant
      (fun s : Threads Kernel Call => key ∈ s.shared.allowMap.keys ∧ ∃ pc, s.locals[i]? = some ⟨key, pc⟩ ∧ pc.Undecided)
      ⟨hknown, pc, hi, hpc⟩ (fun m a t hm ha => ?_) hrun
    obtain ⟨hk, pc, hpc, hund⟩ := hm
    cases a with
    | tick now =>
      obtain ⟨_, ht⟩ := Option.ite_none_right_eq_some.1 ha
      cases ht
      exact ⟨hk, pc, hpc, hund⟩
    | call j =>
      obtain ⟨c, ⟨k', ⟨key', pc'⟩⟩, hc, hr, rfl⟩ := Threads.stepAt_eq_some ha
      obtain ⟨hkey, hmoves⟩ := callMoves_of_step hr
      refine ⟨hmoves.mem_allowMap hk, ?_⟩
      by_cases hij : j = i
      · subst hij
        obtain rfl : c = ⟨key, pc⟩ := Option.some.inj (hc.symm.trans hpc)
        obtain rfl : key' = key := hkey
        exact ⟨pc', List.getElem?_set_self (List.getElem?_eq_some_iff.1 hc).1, undecided_of_moves hmoves hk hund⟩
      · exact ⟨pc, (List.getElem?_set_ne hij).trans hpc, hund⟩
  obtain ⟨hk, pc, hpc, hund⟩ := ht
  refine ⟨hk, fun ret hret => ?_⟩
  obtain rfl : pc = .done ret := congrArg Call.pc (Option.some.inj (hpc.symm.trans hret))
  exact hund

def knownExec : Threads Kernel Call :=
  { shared := ⟨9000000000, [⟨.stable, 0⟩], BoundedMap.empty.put 7 0, BoundedMap.empty.put ⟨7, ⟨1, 2⟩⟩ 1⟩
    locals := [⟨⟨7, ⟨1, 2⟩⟩, .lookupState 8000000000⟩, ⟨⟨7, ⟨1, 3⟩⟩, .readClock⟩] }

theorem known_never_denied_late :
    ∃ t, Steps.run act knownExec [.call 0, .call 1, .call 0] = some t ∧
      ∀ ret, t.locals[0]? = some ⟨⟨7, ⟨1, 2⟩⟩, .done ret⟩ → ret = 0 := by
  have hrun : Steps.run act knownExec [.call 0, .call 1, .call 0] =
      some ((Steps.run act knownExec [.call 0, .call 1, .call 0]).get (by decide)) := (Option.some_get _).symm
  exact ⟨_, hrun, (known_never_denied knownExec (i := 0) rfl trivial (by decide) _ _ hrun).2⟩

/-! ## Whose record a pointer is to -/

def Pc.time : Pc → Option UInt64
  | .lookupState now => some now
  | .createState now => some now
  | .lookupAllow now _ => some now
  | .decide now _ => some now
  | _ => none

/-- A pointer to the record `p` under the cgroup `c`: the map's, or one that a call of `c` has read. -/
def Refers (s : Threads Kernel Call) (c : UInt64) (p : Nat) : Prop :=
  s.shared.cgStateMap.lookup c = some p ∨
    ∃ (i : Nat) (call : Call), s.locals[i]? = some call ∧ call.key.cgid = c ∧ call.pc.pointer = some p

/-- No record is of two cgroups, every pointer is to a record there is, and no call read a clock that is to come. -/
structure Sound (s : Threads Kernel Call) : Prop where
  pointed : Pointed s
  own : ∀ c c' p, Refers s c p → Refers s c' p → c = c'
  past : ∀ (i : Nat) (call : Call) now, s.locals[i]? = some call → call.pc.time = some now → now ≤ s.shared.clock

theorem Pointed.lt_length {s : Threads Kernel Call} (hs : Pointed s) {c : UInt64} {p : Nat} (h : Refers s c p) :
    p < s.shared.records.length := by
  rcases h with h | ⟨i, call, hi, -, hp⟩
  · exact hs.stored c p h
  · exact hs.held i call p hi hp

theorem refers_of_step {s : Threads Kernel Call} {i : Nat} {key : ExecKey} {pc pc' : Pc} {k' : Kernel}
    (hi : s.locals[i]? = some ⟨key, pc⟩) (h : CallMoves s.shared key pc k' pc') {c : UInt64} {p : Nat}
    (hp : Refers ⟨k', s.locals.set i ⟨key, pc'⟩⟩ c p) :
    Refers s c p ∨ (c = key.cgid ∧ p = s.shared.records.length) := by
  -- the pointers of the calls: the old ones, and that of the call itself
  have hcalls : ∀ {j : Nat} {call : Call}, (s.locals.set i ⟨key, pc'⟩)[j]? = some call → call.key.cgid = c →
      call.pc.pointer = some p → (pc'.pointer = some p → Refers s key.cgid p) → Refers s c p := by
    intro j call hj hcall hpoint hself
    rcases Threads.getElem?_set hj with ⟨-, rfl⟩ | ⟨-, hj⟩
    · exact hcall ▸ hself hpoint
    · exact .inr ⟨j, call, hj, hcall, hpoint⟩
  have hread : ∀ {q}, pc.pointer = some q → Refers s key.cgid q := fun hq => .inr ⟨i, ⟨key, pc⟩, hi, rfl, hq⟩
  cases h with
  | create now =>
    rcases hp with hp | ⟨j, call, hj, hcall, hpoint⟩
    · rcases BoundedMap.lookup_put_eq_some hp with ⟨rfl, rfl⟩ | hp
      · exact .inr ⟨rfl, rfl⟩
      · exact .inl (.inl hp)
    · exact .inl (hcalls hj hcall hpoint nofun)
  | found now st hst =>
    rcases hp with hp | ⟨j, call, hj, hcall, hpoint⟩
    · exact .inl (.inl hp)
    · refine .inl (hcalls hj hcall hpoint (fun hq => ?_))
      cases hq
      exact .inl hst
  | unknown now st hk =>
    rcases hp with hp | ⟨j, call, hj, hcall, hpoint⟩
    · exact .inl (.inl hp)
    · exact .inl (hcalls hj hcall hpoint hread)
  | _ =>
    rcases hp with hp | ⟨j, call, hj, hcall, hpoint⟩
    · exact .inl (.inl hp)
    · exact .inl (hcalls hj hcall hpoint nofun)

theorem Sound.act {s t : Threads Kernel Call} {a : Act} (hs : Sound s) (h : act s a = some t) : Sound t := by
  refine ⟨pointed_act hs.pointed h, ?_, ?_⟩
  · cases a with
    | tick now =>
      obtain ⟨_, ht⟩ := Option.ite_none_right_eq_some.1 h
      cases ht
      exact hs.own
    | call i =>
      obtain ⟨⟨key, pc⟩, ⟨k', ⟨key', pc'⟩⟩, hc, hr, rfl⟩ := Threads.stepAt_eq_some h
      obtain ⟨hkey, hmoves⟩ := callMoves_of_step hr
      obtain rfl : key' = key := hkey
      intro c c' p hp hp'
      rcases refers_of_step hc hmoves hp with hold | ⟨rfl, rfl⟩ <;>
        rcases refers_of_step hc hmoves hp' with hold' | ⟨rfl, hnew⟩
      · exact hs.own c c' p hold hold'
      · exact absurd (hs.pointed.lt_length hold) (by rw [hnew]; exact Nat.lt_irrefl _)
      · exact absurd (hs.pointed.lt_length hold') (Nat.lt_irrefl _)
      · rfl
  · cases a with
    | tick now =>
      obtain ⟨hle, ht⟩ := Option.ite_none_right_eq_some.1 h
      cases ht
      exact fun i call now' hi hnow => UInt64.le_trans (hs.past i call now' hi hnow) hle
    | call i =>
      obtain ⟨⟨key, pc⟩, ⟨k', ⟨key', pc'⟩⟩, hc, hr, rfl⟩ := Threads.stepAt_eq_some h
      obtain ⟨hkey, hmoves⟩ := callMoves_of_step hr
      intro j call now' hj hnow
      show now' ≤ k'.clock
      rw [hmoves.clock_eq]
      rcases Threads.getElem?_set hj with ⟨-, rfl⟩ | ⟨-, hj⟩
      · have hold := hs.past i ⟨key, pc⟩ now' hc
        dsimp only at hmoves hnow hold
        cases hmoves with
        | clock => cases hnow; exact UInt64.le_refl _
        | missing => exact hold hnow
        | found => exact hold hnow
        | unknown => exact hold hnow
        | _ => cases hnow
      · exact hs.past j call now' hj hnow

theorem sound_of_run {keys : List ExecKey} {acts : List Act} {s : Threads Kernel Call}
    (h : Steps.run act (start keys) acts = some s) : Sound s := by
  have hidle : ∀ {i : Nat} {call : Call}, (start keys).locals[i]? = some call → call.pc = .readClock := by
    intro i call hi
    obtain ⟨key, -, rfl⟩ := List.mem_map.1 (List.mem_of_getElem? hi)
    rfl
  have hnone : ∀ {c p}, ¬ Refers (start keys) c p := by
    rintro c p (hp | ⟨i, call, hi, -, hp⟩)
    · cases hp
    · rw [hidle hi] at hp
      cases hp
  have hpointed : Pointed (start keys) := by
    refine ⟨fun c p hp => (nomatch hp), fun i call p hi hp => ?_⟩
    rw [hidle hi] at hp
    cases hp
  have hstart : Sound (start keys) := by
    refine ⟨hpointed, fun c c' p hp => absurd hp hnone, fun i call now hi hp => ?_⟩
    rw [hidle hi] at hp
    cases hp
  exact Steps.run_invariant Sound hstart (fun _ _ _ hm ha => hm.act ha) h

/-! ## What is settled -/

/-- At the reading `now`, an exec that the record `st` is asked about is denied. -/
def Elapsed (k : Kernel) (st : Nat) (now : UInt64) : Prop :=
  ∃ last, k.lasts[st]? = some last ∧ horizonNs ≤ now - last

def SettledPc (k : Kernel) (c : UInt64) : Pc → Prop
  | .lookupState now => ∀ st, k.cgStateMap.lookup c = some st → Elapsed k st now
  | .createState _ => False
  | .lookupAllow now st => Elapsed k st now
  | .decide now st => Elapsed k st now
  | _ => True

/-- The cgroup has a record, the two windows are over for it, and for every call of the cgroup that is under way. -/
structure Settled (c : UInt64) (s : Threads Kernel Call) : Prop where
  record : ∃ st last, s.shared.cgStateMap.lookup c = some st ∧ s.shared.lasts[st]? = some last ∧
    last.toNat + horizon ≤ s.shared.clock.toNat
  calls : ∀ (i : Nat) (call : Call), s.locals[i]? = some call → call.key.cgid = c → SettledPc s.shared c call.pc

theorem elapsed_of_le {k : Kernel} {st : Nat} {now last : UInt64} (hlast : k.lasts[st]? = some last)
    (h : last.toNat + horizon ≤ now.toNat) : Elapsed k st now :=
  ⟨last, hlast, (le_elapsed_iff (UInt64.le_iff_toNat_le.2 (Nat.le_of_add_right_le h))).2 h⟩

theorem not_elapsed {k : Kernel} {st : Nat} {now : UInt64} {r : CgState} (hr : k.records[st]? = some r)
    (hd : now - r.lastNewExecNs < horizonNs) : ¬ Elapsed k st now := by
  rintro ⟨last, hlast, hle⟩
  rw [Kernel.lasts, List.getElem?_map, hr] at hlast
  cases hlast
  exact UInt64.not_lt.2 hle hd

theorem SettledPc.congr {k k' : Kernel} {c : UInt64} (hmap : k'.cgStateMap.lookup c = k.cgStateMap.lookup c) {pc : Pc}
    (hlasts : ∀ p, (k.cgStateMap.lookup c = some p ∨ pc.pointer = some p) → k'.lasts[p]? = k.lasts[p]?)
    (h : SettledPc k c pc) : SettledPc k' c pc := by
  have helapsed : ∀ {p now}, k'.lasts[p]? = k.lasts[p]? → Elapsed k p now → Elapsed k' p now := by
    rintro p now heq ⟨last, hlast, hle⟩
    exact ⟨last, heq.trans hlast, hle⟩
  cases pc with
  | lookupState now =>
    intro st hst
    rw [hmap] at hst
    exact helapsed (hlasts st (.inl hst)) (h st hst)
  | createState now => exact h
  | lookupAllow now st => exact helapsed (hlasts st (.inr rfl)) h
  | decide now st => exact helapsed (hlasts st (.inr rfl)) h
  | _ => trivial

theorem lasts_of_moves {k k' : Kernel} {key : ExecKey} {pc pc' : Pc} (h : CallMoves k key pc k' pc') {p : Nat}
    (hp : p < k.records.length) (hlearn : ∀ now, pc = .decide now p → Elapsed k p now) :
    k'.lasts[p]? = k.lasts[p]? := by
  unfold Kernel.lasts
  cases h with
  | create now =>
    dsimp only
    rw [List.map_append, List.getElem?_append_left (by simpa using hp)]
  | learn now st r s hr hd =>
    by_cases hst : st = p
    · subst hst
      exact absurd (hlearn now rfl) (not_elapsed hr hd)
    · dsimp only
      rw [List.getElem?_map, List.getElem?_map, List.getElem?_set_ne hst]
  | deny now st r hr hd =>
    exact congrArg (·[p]?) (map_lastNewExecNs_set hr rfl)
  | _ => rfl

theorem Settled.act {c : UInt64} {s t : Threads Kernel Call} {a : Act} (hsound : Sound s) (hs : Settled c s)
    (h : act s a = some t) :
    Settled c t ∧ ∀ key, key.cgid = c → (key ∈ t.shared.allowMap.keys ↔ key ∈ s.shared.allowMap.keys) := by
  obtain ⟨st, last, hst, hlast, hlate⟩ := hs.record
  cases a with
  | tick now =>
    obtain ⟨hle, ht⟩ := Option.ite_none_right_eq_some.1 h
    cases ht
    exact ⟨⟨⟨st, last, hst, hlast, Nat.le_trans hlate (UInt64.le_iff_toNat_le.1 hle)⟩,
      fun i call hi hc => (hs.calls i call hi hc).congr rfl (fun _ _ => rfl)⟩, fun _ _ => Iff.rfl⟩
  | call i =>
    obtain ⟨⟨key, pc⟩, ⟨k', ⟨key', pc'⟩⟩, hc, hr, rfl⟩ := Threads.stepAt_eq_some h
    obtain ⟨hkey, hmoves⟩ := callMoves_of_step hr
    obtain rfl : key' = key := hkey
    dsimp only at hmoves
    have hown : key'.cgid = c → SettledPc s.shared c pc := hs.calls i ⟨key', pc⟩ hc
    -- the records that a pointer under `c` is to stay as they are
    have hkept : ∀ p, Refers s c p → k'.lasts[p]? = s.shared.lasts[p]? := by
      intro p hp
      refine lasts_of_moves hmoves (hsound.pointed.lt_length hp) (fun now hpc => ?_)
      have hself : Refers s key'.cgid p := .inr ⟨i, ⟨key', pc⟩, hc, rfl, by rw [hpc]; rfl⟩
      have hsettled := hown (hsound.own _ _ p hself hp)
      rw [hpc] at hsettled
      exact hsettled
    have hmap : k'.cgStateMap.lookup c = s.shared.cgStateMap.lookup c := by
      cases hmoves with
      | create now =>
        have hne : c ≠ key'.cgid := fun he => hown he.symm
        exact BoundedMap.lookup_put_ne _ _ hne
      | _ => rfl
    refine ⟨⟨⟨st, last, hmap.trans hst, (hkept st (.inl hst)).trans hlast, ?_⟩, fun j call hj hcall => ?_⟩,
      fun x hx => ?_⟩
    · show last.toNat + horizon ≤ k'.clock.toNat
      rw [hmoves.clock_eq]
      exact hlate
    · rcases Threads.getElem?_set hj with ⟨-, rfl⟩ | ⟨-, hj⟩
      · have hsettled := hown hcall
        have hnext : SettledPc s.shared c pc' := by
          cases hmoves with
          | clock =>
            intro p hp
            obtain rfl : st = p := Option.some.inj (hst.symm.trans hp)
            exact elapsed_of_le hlast hlate
          | missing now hnone =>
            obtain rfl : key'.cgid = c := hcall
            rw [hst] at hnone
            cases hnone
          | found now p hp =>
            obtain rfl : key'.cgid = c := hcall
            exact hsettled p hp
          | unknown now p hk => exact hsettled
          | _ => trivial
        refine hnext.congr hmap (fun p hp => ?_)
        rcases hp with hp | hp
        · exact hkept p (.inl hp)
        · cases hmoves with
          | found now q hq =>
            cases hp
            obtain rfl : key'.cgid = c := hcall
            exact hkept p (.inl hq)
          | unknown now q hk =>
            cases hp
            exact hkept p (.inr ⟨i, _, hc, hcall, rfl⟩)
          | _ => cases hp
      · refine (hs.calls j call hj hcall).congr hmap (fun p hp => ?_)
        rcases hp with hp | hp
        · exact hkept p (.inl hp)
        · exact hkept p (.inr ⟨j, call, hj, hcall, hp⟩)
    · cases hmoves with
      | learn now p r state hrec hd =>
        have hne : x ≠ key' := by
          rintro rfl
          exact not_elapsed hrec hd (hown hx)
        show x ∈ (s.shared.allowMap.put key' 1).keys ↔ _
        rw [BoundedMap.mem_keys_put]
        exact or_iff_right (fun h => hne h.1)
      | _ => exact Iff.rfl

/-! ## What the calls return -/

def Bound (known : Prop) [Decidable known] : Pc → Prop
  | .createState _ => False
  | .decide _ _ => ¬ known
  | .done ret => ret = if known then 0 else -1
  | _ => True

theorem bound_of_moves {known : Prop} [Decidable known] {k k' : Kernel} {key : ExecKey} {pc pc' : Pc}
    (h : CallMoves k key pc k' pc') (hsettled : SettledPc k key.cgid pc)
    (hrecord : ∃ st, k.cgStateMap.lookup key.cgid = some st)
    (hknown : ∀ now st, pc = .lookupAllow now st → (key ∈ k.allowMap.keys ↔ known)) (hpc : Bound known pc) :
    Bound known pc' := by
  cases h with
  | missing now hnone =>
    obtain ⟨st, hst⟩ := hrecord
    rw [hnone] at hst
    cases hst
  | create now => exact absurd hsettled id
  | known now st hk => exact (if_pos ((hknown now st rfl).1 hk)).symm
  | unknown now st hk => exact fun h => hk ((hknown now st rfl).2 h)
  | learn now st r s hr hd => exact absurd hsettled (not_elapsed hr hd)
  | deny now st r hr hd => exact (if_neg hpc).symm
  | _ => trivial

def Pc.PastLookup : Pc → Prop
  | .decide _ _ => True
  | .done _ => True
  | _ => False

theorem pastLookup_of_moves {k k' : Kernel} {key : ExecKey} {pc pc' : Pc} (h : CallMoves k key pc k' pc')
    (hpc : pc.PastLookup) : pc'.PastLookup := by
  cases h with
  | learn => trivial
  | deny => trivial
  | _ => exact absurd hpc id

/-- **From a settled state on** the allowed keys of the cgroup stay as they are, and a call that is bound to return what
it has to stays so. -/
theorem settled_run {c : UInt64} {m : Threads Kernel Call} (hsound : Sound m) (hm : Settled c m) {known : Prop}
    [Decidable known] {j : Nat} {x : ExecKey} {pc : Pc} (hx : x.cgid = c) (hj : m.locals[j]? = some ⟨x, pc⟩)
    (hpc : Bound known pc) (hknown : (x ∈ m.shared.allowMap.keys ↔ known) ∨ pc.PastLookup) {acts : List Act}
    {t : Threads Kernel Call} (hrun : Steps.run act m acts = some t) :
    (∀ key, key.cgid = c → (key ∈ t.shared.allowMap.keys ↔ key ∈ m.shared.allowMap.keys)) ∧
      ∀ ret, t.locals[j]? = some ⟨x, .done ret⟩ → ret = if known then 0 else -1 := by
  have ht : (Sound t ∧ Settled c t) ∧
      (∀ key, key.cgid = c → (key ∈ t.shared.allowMap.keys ↔ key ∈ m.shared.allowMap.keys)) ∧
      ∃ pc, t.locals[j]? = some ⟨x, pc⟩ ∧ Bound known pc ∧ ((x ∈ m.shared.allowMap.keys ↔ known) ∨ pc.PastLookup) := by
    refine Steps.run_invariant (fun t : Threads Kernel Call => (Sound t ∧ Settled c t) ∧
      (∀ key, key.cgid = c → (key ∈ t.shared.allowMap.keys ↔ key ∈ m.shared.allowMap.keys)) ∧
      ∃ pc, t.locals[j]? = some ⟨x, pc⟩ ∧ Bound known pc ∧ ((x ∈ m.shared.allowMap.keys ↔ known) ∨ pc.PastLookup))
      ⟨⟨hsound, hm⟩, fun _ _ => Iff.rfl, pc, hj, hpc, hknown⟩ (fun s a t hs ha => ?_) hrun
    obtain ⟨⟨hsound, hs⟩, hallow, pc, hj, hpc, hknown⟩ := hs
    obtain ⟨ht, hsame⟩ := hs.act hsound ha
    refine ⟨⟨hsound.act ha, ht⟩, fun key hkey => (hsame key hkey).trans (hallow key hkey), ?_⟩
    cases a with
    | tick now =>
      obtain ⟨_, ht⟩ := Option.ite_none_right_eq_some.1 ha
      cases ht
      exact ⟨pc, hj, hpc, hknown⟩
    | call i =>
      obtain ⟨⟨key, pc₀⟩, ⟨k', ⟨key', pc'⟩⟩, hc, hr, rfl⟩ := Threads.stepAt_eq_some ha
      obtain ⟨hkey, hmoves⟩ := callMoves_of_step hr
      obtain rfl : key' = key := hkey
      by_cases hij : i = j
      · subst hij
        obtain ⟨rfl, rfl⟩ : key' = x ∧ pc₀ = pc := by
          have heq := Option.some.inj (hc.symm.trans hj)
          exact ⟨congrArg Call.key heq, congrArg Call.pc heq⟩
        subst hx
        obtain ⟨st, last, hst, -, -⟩ := hs.record
        refine ⟨pc', List.getElem?_set_self (List.getElem?_eq_some_iff.1 hc).1, ?_,
          hknown.imp_right (pastLookup_of_moves hmoves)⟩
        refine bound_of_moves hmoves (hs.calls i _ hc rfl) ⟨st, hst⟩ (fun now p hp => ?_) hpc
        refine (hallow key' rfl).trans (hknown.resolve_right (fun hpast => ?_))
        dsimp only at hp
        rw [hp] at hpast
        exact hpast
      · exact ⟨pc, (List.getElem?_set_ne hij).trans hj, hpc, hknown⟩
  obtain ⟨-, hallow, pc, hpc, hbound, -⟩ := ht
  refine ⟨hallow, fun ret hret => ?_⟩
  obtain rfl : pc = .done ret := congrArg Call.pc (Option.some.inj (hpc.symm.trans hret))
  exact hbound

def fourExecs : List ExecKey := [⟨7, ⟨1, 1⟩⟩, ⟨7, ⟨1, 2⟩⟩, ⟨7, ⟨1, 3⟩⟩, ⟨7, ⟨1, 4⟩⟩]

def denying : List Act :=
  [.call 0, .call 0, .call 0, .tick 7000000000, .call 2, .call 2, .call 2]

def beforeDenial : Threads Kernel Call := (Steps.run act (start fourExecs) denying).get (by decide)

def afterDenial : List Act := [.call 2, .tick 8000000000, .call 3, .call 3, .call 3, .call 3]

/-- Call 1 reads the clock at five seconds, and call 2 comes to decide at seven. -/
def straggling : List Act :=
  [.call 0, .call 0, .call 0, .tick 5000000000, .call 1, .call 1, .call 1, .tick 7000000000, .call 2, .call 2, .call 2]

def besideStraggler : Threads Kernel Call := (Steps.run act (start fourExecs) straggling).get (by decide)

def afterStraggler : List Act := [.call 2, .call 1, .tick 8000000000, .call 3, .call 3, .call 3, .call 3]

/-- **It is not absorbing where another call is under way**: call 2 is denied, call 1 learns behind it, and so does
the next to begin. -/
theorem not_absorbing_besideStraggler :
    Steps.run act (start fourExecs) straggling = some besideStraggler ∧
      besideStraggler.locals[2]? = some ⟨⟨7, ⟨1, 3⟩⟩, .decide 7000000000 0⟩ ∧
      besideStraggler.shared.cgStateMap.lookup 7 = some 0 ∧ besideStraggler.shared.lasts[0]? = some 0 ∧
      ∃ t, Steps.run act besideStraggler afterStraggler = some t ∧
        t.locals[2]? = some ⟨⟨7, ⟨1, 3⟩⟩, .done (-1)⟩ ∧ t.locals[3]? = some ⟨⟨7, ⟨1, 4⟩⟩, .done 0⟩ ∧
        ⟨7, ⟨1, 4⟩⟩ ∉ besideStraggler.shared.allowMap.keys ∧ ⟨7, ⟨1, 4⟩⟩ ∈ t.shared.allowMap.keys :=
  ⟨(Option.some_get _).symm, by decide, by decide, by decide,
    (Steps.run act besideStraggler afterStraggler).get (by decide), (Option.some_get _).symm, by decide, by decide,
    by decide, by decide⟩

end ExecControl
end CgroupGuard
