import CgroupGuard.ControlPlane.Pool
import CgroupGuard.Lib.Linearizable
/-!
# Registration — `add` and `remove` take turns on an id

Calls without number, on any ids, with any result of `resolve_cgid` and of each bpf call.  A mark is left where an `add`
stores, where a `remove` pops, and where it deletes.  The marks of an id are what is done to a slot that holds one
cgroup id (`run_registrations`), and the marks of a call are those its result tells (`conduct_of_run`).
-/
namespace CgroupGuard
namespace ControlPlane

/-- A call begins or goes on; `fault` is that the bpf call of the step fails, if it makes one. -/
structure Outcome where
  call : Call
  fault : Bool
  deriving DecidableEq, Repr

/-- What the call `i` does to `_store`, and what it deletes from the map. -/
inductive Mark where
  | added (i : Nat) (cid : String) (cgid : UInt64)
  | popped (i : Nat) (cid : String) (cgid : UInt64)
  | deleted (i : Nat) (cgid : UInt64)
  deriving DecidableEq, Repr

def Mark.call : Mark → Nat
  | .added i _ _ => i
  | .popped i _ _ => i
  | .deleted i _ => i

def Mark.registration (cid : String) : Mark → Option (Slot.Act UInt64)
  | .added _ cid' cgid => if cid' = cid then some (.put cgid) else none
  | .popped _ cid' cgid => if cid' = cid then some (.take cgid) else none
  | .deleted _ _ => none

def Worker.marks (fault : Bool) (m : ContainerMap) (i : Nat) (w : Worker) : List Mark :=
  match w.pc with
  | .addCommit cgid => if w.cid ∉ m.store ∧ (mapInsert m.fd cgid fault).2 = true then [.added i w.cid cgid] else []
  | .removePop =>
    match m.store.lookup w.cid with
    | none => []
    | some cgid => [.popped i w.cid cgid]
  | .removeDelete cgid => [.deleted i cgid]
  | _ => []

namespace Pool

def fresh (fd : CgroupFilter) : Pool := ⟨ContainerMap.init fd, []⟩

def attempt (p : Pool) (o : Outcome) : Option Pool := p.step o.fault o.call

def marks (p : Pool) (o : Outcome) : List Mark :=
  match o.call with
  | .worker i _ => (p.locals[i]?.map (Worker.marks o.fault p.shared i)).getD []
  | _ => []

def trace (fd : CgroupFilter) (os : List Outcome) : List Mark := Steps.outputs attempt marks (fresh fd) os

def registrations (cid : String) (ms : List Mark) : List (Slot.Act UInt64) := ms.filterMap (Mark.registration cid)

def begun (os : List Outcome) : List Call :=
  os.filterMap (fun o =>
    match o.call with
    | .worker _ _ => none
    | c => some c)

end Pool

/-- The marks of the call `i`, by where its thread is: an `add` that returns true has stored its entry, a `remove` that
finds one pops it and then deletes what it popped, and no other call does anything. -/
inductive Conduct (i : Nat) : Call → Pc → List Mark → Prop
  | adding (cid : String) (pc : Pc) (hpc : pc = .addCheck ∨ pc = .addResolve ∨ ∃ cgid, pc = .addCommit cgid) :
    Conduct i (.add cid) pc []
  | refused (cid : String) : Conduct i (.add cid) (.done false) []
  | added (cid : String) (cgid : UInt64) : Conduct i (.add cid) (.done true) [.added i cid cgid]
  | removing (cid : String) : Conduct i (.remove cid) .removePop []
  | unknown (cid : String) : Conduct i (.remove cid) (.done false) []
  | popped (cid : String) (cgid : UInt64) : Conduct i (.remove cid) (.removeDelete cgid) [.popped i cid cgid]
  | deleted (cid : String) (cgid : UInt64) (ok : Bool) :
    Conduct i (.remove cid) (.done ok) [.popped i cid cgid, .deleted i cgid]

/-! ## What a step marks -/

section
variable {resolve : String → Option UInt64} {fault : Bool} {m m' : ContainerMap} {cid : String} {pc pc' : Pc}

theorem marks_of_commit {cgid : UInt64} {fd : CgroupFilter} (i : Nat) (hmem : cid ∉ m.store)
    (hins : mapInsert m.fd cgid fault = (fd, true)) :
    Worker.marks fault m i ⟨cid, .addCommit cgid⟩ = [.added i cid cgid] := by
  have hok : (mapInsert m.fd cgid fault).2 = true := by rw [hins]
  exact if_pos ⟨hmem, hok⟩

theorem marks_of_refused {cgid : UInt64} (i : Nat) (h : cid ∈ m.store ∨ mapInsert m.fd cgid fault = (m.fd, false)) :
    Worker.marks fault m i ⟨cid, .addCommit cgid⟩ = [] := by
  refine if_neg (fun hboth => ?_)
  rcases h with hmem | hins
  · exact hboth.1 hmem
  · rw [hins] at hboth
    exact Bool.noConfusion hboth.2

theorem marks_of_removePop (i : Nat) (r : Option UInt64) (hl : m.store.lookup cid = r) :
    Worker.marks fault m i ⟨cid, .removePop⟩ = (r.map (Mark.popped i cid)).toList := by
  simp only [Worker.marks, hl]
  cases r <;> rfl

theorem run_registrations_of_moves (h : Moves resolve fault m cid pc m' pc') (i : Nat) (id : String) :
    Steps.run Slot.step (m.store.lookup id) (Pool.registrations id (Worker.marks fault m i ⟨cid, pc⟩)) =
      some (m'.store.lookup id) := by
  cases h with
  | present _ hadd hmem =>
    rcases hadd with rfl | ⟨cgid, rfl⟩
    · rfl
    · rw [marks_of_refused i (.inl hmem)]
      rfl
  | absent hmem => rfl
  | unresolved hr => rfl
  | resolved cgid hr => rfl
  | refused cgid hmem hins =>
    rw [marks_of_refused i (.inr hins)]
    rfl
  | commit cgid fd hmem hins =>
    rw [marks_of_commit i hmem hins]
    by_cases hid : cid = id
    · subst hid
      rw [AList.lookup_eq_none.2 hmem, AList.lookup_insert]
      simp [Pool.registrations, Mark.registration, Slot.step]
    · rw [AList.lookup_insert_ne (Ne.symm hid)]
      simp [Pool.registrations, Mark.registration, hid]
  | unknown hl =>
    rw [marks_of_removePop i none hl]
    rfl
  | pop cgid hl =>
    rw [marks_of_removePop i (some cgid) hl]
    by_cases hid : cid = id
    · subst hid
      rw [hl, AList.lookup_erase]
      simp [Pool.registrations, Mark.registration, Slot.step]
    · rw [AList.lookup_erase_ne (Ne.symm hid)]
      simp [Pool.registrations, Mark.registration, hid]
  | delete cgid fd ok hdel => rfl

theorem Conduct.step {i : Nat} {call : Call} {ms : List Mark} (hc : Conduct i call pc ms)
    (hcid : call = .add cid ∨ call = .remove cid) (h : Moves resolve fault m cid pc m' pc') :
    Conduct i call pc' (ms ++ Worker.marks fault m i ⟨cid, pc⟩) := by
  cases h with
  | present _ hadd hmem =>
    rcases hadd with rfl | ⟨cgid, rfl⟩
    · cases hc; exact .refused _
    · rw [marks_of_refused i (.inl hmem)]
      cases hc
      exact .refused _
  | absent hmem => cases hc; exact .adding _ _ (.inr (.inl rfl))
  | unresolved hr => cases hc; exact .refused _
  | resolved cgid hr => cases hc; exact .adding _ _ (.inr (.inr ⟨cgid, rfl⟩))
  | refused cgid hmem hins =>
    rw [marks_of_refused i (.inr hins)]
    cases hc
    exact .refused _
  | commit cgid fd hmem hins =>
    rw [marks_of_commit i hmem hins]
    cases hc with
    | adding cid' _ _ =>
      obtain rfl : cid' = cid := by simpa using hcid
      exact .added _ _
  | unknown hl =>
    rw [marks_of_removePop i none hl]
    cases hc with
    | adding _ _ hpc => simp at hpc
    | removing cid' => exact .unknown _
  | pop cgid hl =>
    rw [marks_of_removePop i (some cgid) hl]
    cases hc with
    | adding _ _ hpc => simp at hpc
    | removing cid' =>
      obtain rfl : cid' = cid := by simpa using hcid
      exact .popped _ _
  | delete cgid fd ok hdel =>
    cases hc with
    | adding _ _ hpc => simp at hpc
    | popped cid' _ => exact .deleted _ _ _

theorem store_of_marks_eq_nil (h : Moves resolve fault m cid pc m' pc') {i : Nat}
    (hnil : Worker.marks fault m i ⟨cid, pc⟩ = []) : m'.store = m.store := by
  cases h with
  | commit cgid fd hmem hins => rw [marks_of_commit i hmem hins] at hnil; cases hnil
  | pop cgid hl => rw [marks_of_removePop i _ hl] at hnil; cases hnil
  | _ => rfl

theorem call_of_mem_marks {i : Nat} {w : Worker} {mk : Mark} (h : mk ∈ Worker.marks fault m i w) : mk.call = i := by
  obtain ⟨cid, pc⟩ := w
  cases pc with
  | addCommit cgid =>
    simp only [Worker.marks] at h
    split at h
    · obtain rfl := List.mem_singleton.1 h
      rfl
    · cases h
  | removePop =>
    simp only [Worker.marks] at h
    split at h
    · cases h
    · obtain rfl := List.mem_singleton.1 h
      rfl
  | removeDelete cgid =>
    obtain rfl := List.mem_singleton.1 h
    rfl
  | _ => cases h

end

/-! ## Runs -/

namespace Pool

theorem run_registrations_of_attempt {p q : Pool} {o : Outcome} (h : p.attempt o = some q) (id : String) :
    Steps.run Slot.step (p.store.lookup id) (registrations id (p.marks o)) = some (q.store.lookup id) := by
  obtain ⟨call, fault⟩ := o
  cases call with
  | add cid => cases h; rfl
  | remove cid => cases h; rfl
  | worker i resolved =>
    obtain ⟨⟨cid, pc⟩, ⟨m, ⟨cid', pc'⟩⟩, hw, hr, rfl⟩ := Threads.stepAt_eq_some h
    obtain ⟨-, hm⟩ := moves_of_step hr
    simp only [marks, hw, Option.map_some, Option.getD_some]
    exact run_registrations_of_moves hm i id

theorem trace_concat {fd : CgroupFilter} {os : List Outcome} {p : Pool} (h : Steps.run attempt (fresh fd) os = some p)
    (o : Outcome) : trace fd (os ++ [o]) = trace fd os ++ p.marks o := Steps.outputs_concat marks os o h

/-- **The registry is a slot for every id**, and `_store` says what the slot holds. -/
theorem run_registrations {fd : CgroupFilter} (id : String) : ∀ (os : List Outcome) (p : Pool),
    Steps.run attempt (fresh fd) os = some p →
      Steps.run Slot.step none (registrations id (trace fd os)) = some (p.store.lookup id) := by
  refine Steps.run_induction (fun os (p : Pool) => Steps.run Slot.step none (registrations id (trace fd os)) =
    some (p.store.lookup id)) rfl (fun os p o q hp ih h => ?_)
  have happ : registrations id (trace fd (os ++ [o])) =
      registrations id (trace fd os) ++ registrations id (p.marks o) := by
    rw [trace_concat hp, registrations, List.filterMap_append]
    rfl
  rw [happ]
  exact Steps.run_append_of_run ih (run_registrations_of_attempt h id)

structure Conducted (p : Pool) (calls : List Call) (ms : List Mark) : Prop where
  length : p.locals.length = calls.length
  bound : ∀ mk ∈ ms, mk.call < calls.length
  conduct : ∀ i call, calls[i]? = some call → ∃ w, p.locals[i]? = some w ∧
    (call = .add w.cid ∨ call = .remove w.cid) ∧ Conduct i call w.pc (ms.filter (fun mk => mk.call = i))

theorem Conducted.begin {p : Pool} {calls : List Call} {ms : List Mark} (hp : Conducted p calls ms) {call : Call}
    {w : Worker} (hcid : call = .add w.cid ∨ call = .remove w.cid) (hw : Conduct calls.length call w.pc []) :
    Conducted { p with locals := p.locals ++ [w] } (calls ++ [call]) ms := by
  refine ⟨?_, fun mk hmk => ?_, fun i c hc => ?_⟩
  · rw [List.length_append, List.length_append, hp.length]
    rfl
  · rw [List.length_append]
    exact Nat.lt_add_right _ (hp.bound mk hmk)
  · rcases Nat.lt_or_ge i calls.length with hlt | hge
    · rw [List.getElem?_append_left hlt] at hc
      obtain ⟨w', hw', hrest⟩ := hp.conduct i c hc
      exact ⟨w', by rw [List.getElem?_append_left (hp.length ▸ hlt)]; exact hw', hrest⟩
    · rw [List.getElem?_append_right hge] at hc
      obtain ⟨hi, rfl⟩ : i = calls.length ∧ call = c := by
        have hlt := (List.getElem?_eq_some_iff.1 hc).1
        rw [List.length_singleton] at hlt
        have hi : i = calls.length := by omega
        subst hi
        rw [Nat.sub_self] at hc
        exact ⟨rfl, Option.some.inj hc⟩
      have hnone : ms.filter (fun mk => mk.call = i) = [] :=
        List.filter_eq_nil_iff.2 (fun mk hmk he => by
          have hlt := hp.bound mk hmk
          rw [of_decide_eq_true he, hi] at hlt
          exact Nat.lt_irrefl _ hlt)
      refine ⟨w, ?_, hcid, ?_⟩
      · rw [hi, ← hp.length, List.getElem?_append_right (Nat.le_refl _), Nat.sub_self]
        rfl
      · rw [hnone, hi]
        exact hw

theorem Conducted.attempt {p q : Pool} {calls : List Call} {ms : List Mark} {o : Outcome} (hp : Conducted p calls ms)
    (h : p.attempt o = some q) : Conducted q (calls ++ begun [o]) (ms ++ p.marks o) := by
  obtain ⟨call, fault⟩ := o
  cases call with
  | add cid =>
    cases h
    rw [show marks p ⟨.add cid, fault⟩ = [] from rfl, List.append_nil]
    exact hp.begin (.inl rfl) (.adding _ _ (.inl rfl))
  | remove cid =>
    cases h
    rw [show marks p ⟨.remove cid, fault⟩ = [] from rfl, List.append_nil]
    exact hp.begin (.inr rfl) (.removing _)
  | worker i resolved =>
    obtain ⟨⟨cid, pc⟩, ⟨m, ⟨cid', pc'⟩⟩, hw, hr, rfl⟩ := Threads.stepAt_eq_some h
    obtain ⟨hcid, hm⟩ := moves_of_step hr
    obtain rfl : cid' = cid := hcid
    have hmarks : marks p ⟨.worker i resolved, fault⟩ = Worker.marks fault p.shared i ⟨cid', pc⟩ := by
      simp only [marks, hw, Option.map_some, Option.getD_some]
    have hi : i < calls.length := hp.length ▸ (List.getElem?_eq_some_iff.1 hw).1
    rw [show begun [⟨.worker i resolved, fault⟩] = [] from rfl, List.append_nil, hmarks]
    refine ⟨(List.length_set).trans hp.length, fun mk hmk => ?_, fun j c hc => ?_⟩
    · rcases List.mem_append.1 hmk with hmk | hmk
      · exact hp.bound mk hmk
      · rw [call_of_mem_marks hmk]
        exact hi
    · obtain ⟨w, hjw, hkind, hcon⟩ := hp.conduct j c hc
      rw [List.filter_append]
      by_cases hij : i = j
      · subst hij
        obtain rfl : (⟨cid', pc⟩ : Worker) = w := Option.some.inj (hw.symm.trans hjw)
        have hall : (Worker.marks fault p.shared i ⟨cid', pc⟩).filter (fun mk => mk.call = i) =
            Worker.marks fault p.shared i ⟨cid', pc⟩ :=
          List.filter_eq_self.2 (fun mk hmk => decide_eq_true (call_of_mem_marks hmk))
        rw [hall]
        exact ⟨⟨cid', pc'⟩, List.getElem?_set_self (List.getElem?_eq_some_iff.1 hw).1, hkind, hcon.step hkind hm⟩
      · have hnone : (Worker.marks fault p.shared i ⟨cid', pc⟩).filter (fun mk => mk.call = j) = [] :=
          List.filter_eq_nil_iff.2 (fun mk hmk he => hij ((call_of_mem_marks hmk).symm.trans (of_decide_eq_true he)))
        rw [hnone, List.append_nil]
        exact ⟨w, (List.getElem?_set_ne hij).trans hjw, hkind, hcon⟩

/-- **Every call of a run keeps to its conduct.** -/
theorem conducted_of_run {fd : CgroupFilter} : ∀ (os : List Outcome) (p : Pool),
    Steps.run Pool.attempt (fresh fd) os = some p → Conducted p (begun os) (trace fd os) := by
  have hstart : Conducted (fresh fd) [] [] := ⟨rfl, nofun, nofun⟩
  refine Steps.run_induction (fun os p => Conducted p (begun os) (trace fd os)) hstart (fun os p o q hp ih h => ?_)
  have hbegun : begun (os ++ [o]) = begun os ++ begun [o] := List.filterMap_append
  rw [trace_concat hp, hbegun]
  exact ih.attempt h

theorem store_of_no_mark {fd : CgroupFilter} {pre post : List Outcome} {i : Nat} {resolved : Option UInt64}
    {fault : Bool} {q r : Pool}
    (hnone : (trace fd (pre ++ ⟨.worker i resolved, fault⟩ :: post)).filter (fun mk => mk.call = i) = [])
    (hq : Steps.run Pool.attempt (fresh fd) pre = some q) (h : q.attempt ⟨.worker i resolved, fault⟩ = some r) :
    r.store = q.store := by
  obtain ⟨⟨cid, pc⟩, ⟨m, ⟨cid', pc'⟩⟩, hw, hr, rfl⟩ := Threads.stepAt_eq_some h
  obtain ⟨-, hm⟩ := moves_of_step hr
  have hmarks : Worker.marks fault q.shared i ⟨cid, pc⟩ = [] := by
    refine List.eq_nil_iff_forall_not_mem.2 (fun mk hmk => ?_)
    have hmem : mk ∈ trace fd (pre ++ ⟨.worker i resolved, fault⟩ :: post) := by
      refine Steps.mem_outputs_of_run hq ?_
      simp only [marks, hw, Option.map_some, Option.getD_some]
      exact hmk
    have hfilter : mk ∈ (trace fd (pre ++ ⟨.worker i resolved, fault⟩ :: post)).filter (fun mk => mk.call = i) :=
      List.mem_filter.2 ⟨hmem, decide_eq_true (call_of_mem_marks hmk)⟩
    rw [hnone] at hfilter
    cases hfilter
  exact store_of_marks_eq_nil hm hmarks

/-- **Exactly once**: on every id entries are added and popped in turn, an `add` first; every call leaves the marks its
result tells; and one that leaves none changes nothing in `_store`. -/
theorem exactly_once (fd : CgroupFilter) (os : List Outcome) (p : Pool)
    (hrun : Steps.run attempt (fresh fd) os = some p) :
    (∀ cid, Slot.Alternating (registrations cid (trace fd os))) ∧
      (∀ i call, (begun os)[i]? = some call → ∃ w, p.locals[i]? = some w ∧
        Conduct i call w.pc ((trace fd os).filter (fun mk => mk.call = i))) ∧
      ∀ i, (trace fd os).filter (fun mk => mk.call = i) = [] →
        ∀ (pre post : List Outcome) (resolved : Option UInt64) (fault : Bool) (q r : Pool),
          os = pre ++ ⟨.worker i resolved, fault⟩ :: post → Steps.run attempt (fresh fd) pre = some q →
          q.attempt ⟨.worker i resolved, fault⟩ = some r → r.store = q.store := by
  refine ⟨fun cid => Slot.alternating_of_run (run_registrations cid os p hrun), fun i call hcall => ?_, ?_⟩
  · obtain ⟨w, hw, -, hcon⟩ := (conducted_of_run os p hrun).conduct i call hcall
    exact ⟨w, hw, hcon⟩
  · rintro i hnone pre post resolved fault q r rfl hq hr
    exact store_of_no_mark hnone hq hr

/-- Two starts of one container are handled at once; the deletion of its `remove` fails. -/
def duplicates : List Outcome :=
  [⟨.add "4f0c9d2e7a1b", false⟩, ⟨.add "4f0c9d2e7a1b", false⟩, ⟨.worker 0 none, false⟩, ⟨.worker 1 none, false⟩,
    ⟨.worker 0 (some 5), false⟩, ⟨.worker 1 (some 5), false⟩, ⟨.worker 1 none, false⟩, ⟨.worker 0 none, false⟩,
    ⟨.remove "4f0c9d2e7a1b", false⟩, ⟨.worker 2 none, false⟩, ⟨.worker 2 none, true⟩]

theorem exactly_once_duplicates :
    trace BoundedMap.empty duplicates =
        [.added 1 "4f0c9d2e7a1b" 5, .popped 2 "4f0c9d2e7a1b" 5, .deleted 2 5] ∧
      Slot.Alternating (registrations "4f0c9d2e7a1b" (trace BoundedMap.empty duplicates)) := by
  have hrun : Steps.run attempt (fresh BoundedMap.empty) duplicates =
      some ((Steps.run attempt (fresh BoundedMap.empty) duplicates).get (by decide)) := (Option.some_get _).symm
  exact ⟨by decide, (exactly_once BoundedMap.empty duplicates _ hrun).1 "4f0c9d2e7a1b"⟩

end Pool

end ControlPlane
end CgroupGuard
