import CgroupGuard.ControlPlane.System
/-!
# Pool — `add` and `remove` in any number, on any ids

Calls begin at any time, on any id, and their threads interleave; `resolve_cgid` returns what it likes to each.  What a
step does to the keys of the map and to the cgroup ids in `_store` is said once (`effect_of_step`).  The two agree at
rest as long as no `remove` deletes a key that `_store` still holds: the deletion comes after the lock is given up, and
nothing looks at the other entries.
-/
namespace CgroupGuard
namespace ControlPlane

abbrev Pool := Threads ContainerMap Worker

/-- A call begins, or a thread takes its next step; `resolved` is what `resolve_cgid` returns if it is that step. -/
inductive Call where
  | add (cid : String)
  | remove (cid : String)
  | worker (i : Nat) (resolved : Option UInt64)
  deriving DecidableEq, Repr

def Worker.deletes (w : Worker) : Option UInt64 :=
  match w.pc with
  | .removeDelete cgid => some cgid
  | _ => none

namespace Pool

def init : Pool := ⟨ContainerMap.init BoundedMap.empty, []⟩

abbrev fd (p : Pool) : CgroupFilter := p.shared.fd

abbrev store (p : Pool) : AList (fun _ : String => UInt64) := p.shared.store

def step (fault : Bool) (p : Pool) : Call → Option Pool
  | .add cid => some { p with locals := p.locals ++ [.adding cid] }
  | .remove cid => some { p with locals := p.locals ++ [.removing cid] }
  | .worker i resolved => Threads.stepAt (Worker.step (fun _ => resolved) fault) p i

/-- The registry after the calls, with no bpf call failing but for want of an entry. -/
abbrev run (p : Pool) (calls : List Call) : Option Pool := Steps.run (step false) p calls

def Stores (p : Pool) (g : UInt64) : Prop := ∃ cid, p.store.lookup cid = some g

instance (p : Pool) (g : UInt64) : Decidable (p.Stores g) :=
  decidable_of_iff (g ∈ p.store.entries.map Sigma.snd) (by
    constructor
    · intro h
      obtain ⟨⟨cid, g'⟩, hmem, rfl⟩ := List.mem_map.1 h
      exact ⟨cid, AList.mem_lookup_iff.2 hmem⟩
    · rintro ⟨cid, h⟩
      exact List.mem_map.2 ⟨⟨cid, g⟩, AList.mem_lookup_iff.1 h, rfl⟩)

/-- A `remove` has popped the cgroup id and is about to delete it. -/
def Deleting (p : Pool) (g : UInt64) : Prop := ∃ w ∈ p.locals, w.pc = .removeDelete g

instance (p : Pool) (g : UInt64) : Decidable (p.Deleting g) := inferInstanceAs (Decidable (∃ _ ∈ _, _))

def AtRest (p : Pool) : Prop := ∀ w ∈ p.locals, w.isDone = true

instance (p : Pool) : Decidable p.AtRest := inferInstanceAs (Decidable (∀ _ ∈ _, _))

def inserts (p : Pool) : Call → Option UInt64
  | .worker i _ => p.locals[i]?.bind (Worker.inserts p.shared)
  | _ => none

def deletes (p : Pool) : Call → Option UInt64
  | .worker i _ => p.locals[i]?.bind Worker.deletes
  | _ => none

def Succeeds (p : Pool) (a : Call) : Prop :=
  (∀ g ∈ p.inserts a, p.fd.Accepts g) ∧ ∀ g ∈ p.deletes a, g ∈ p.fd.keys

instance (p : Pool) (a : Call) : Decidable (p.Succeeds a) :=
  have := Option.decidableForallMem (p := (p.fd.Accepts ·)) (p.inserts a)
  have := Option.decidableForallMem (p := (· ∈ p.fd.keys)) (p.deletes a)
  inferInstanceAs (Decidable (_ ∧ _))

/-! ## What a step does to the keys and the entries -/

structure Effect (p q : Pool) (a : Call) : Prop where
  key : ∀ g ∈ q.fd.keys, (g ∈ p.fd.keys ∧ g ∉ p.deletes a) ∨ (g ∈ p.inserts a ∧ q.Stores g)
  kept : ∀ g ∈ p.fd.keys, g ∈ q.fd.keys ∨ g ∈ p.deletes a
  stored : ∀ g, p.Stores g → q.Stores g ∨ q.Deleting g
  entry : ∀ g, q.Stores g → p.Stores g ∨ g ∈ q.fd.keys
  deleting : ∀ g, p.Deleting g → q.Deleting g ∨ g ∈ p.deletes a

theorem Effect.of_shared_eq {p q : Pool} {a : Call} (hshared : q.shared = p.shared) (hdel : p.deletes a = none)
    (hdeleting : ∀ g, p.Deleting g → q.Deleting g) : Effect p q a := by
  have hfd : q.fd = p.fd := congrArg ContainerMap.fd hshared
  have hstores : ∀ g, q.Stores g ↔ p.Stores g := fun g => by unfold Stores store; rw [hshared]
  refine ⟨fun g hg => .inl ⟨hfd ▸ hg, by rw [hdel]; exact nofun⟩, fun g hg => .inl (hfd ▸ hg),
    fun g hg => .inl ((hstores g).2 hg), fun g hg => .inl ((hstores g).1 hg), fun g hg => .inl (hdeleting g hg)⟩

theorem Deleting.append {p : Pool} {g : UInt64} (h : p.Deleting g) (w : Worker) :
    Deleting { p with locals := p.locals ++ [w] } g := by
  obtain ⟨w', hw', hpc⟩ := h
  exact ⟨w', List.mem_append_left _ hw', hpc⟩

theorem Deleting.set {p : Pool} {g : UInt64} (h : p.Deleting g) {i : Nat} {w : Worker} (hw : p.locals[i]? = some w)
    (hpc : ∀ g, w.pc ≠ .removeDelete g) (m : ContainerMap) (w' : Worker) :
    Deleting ⟨m, p.locals.set i w'⟩ g := by
  obtain ⟨d, hd, hdpc⟩ := h
  have hne : d ≠ w := fun he => hpc g (he ▸ hdpc)
  exact ⟨d, Threads.mem_set_of_ne hw hd hne, hdpc⟩

/-- **What an act does to the keys and the entries.** -/
theorem effect_of_step {p q : Pool} {a : Call} (h : p.step false a = some q) : Effect p q a := by
  cases a with
  | add cid => cases h; exact .of_shared_eq rfl rfl (fun g hg => hg.append _)
  | remove cid => cases h; exact .of_shared_eq rfl rfl (fun g hg => hg.append _)
  | worker i resolved =>
    obtain ⟨⟨cid, pc⟩, ⟨m, ⟨cid', pc'⟩⟩, hw, hr, rfl⟩ := Threads.stepAt_eq_some h
    obtain ⟨hcid, hm⟩ := moves_of_step hr
    obtain rfl : cid' = cid := hcid
    have hdel : p.deletes (.worker i resolved) = Worker.deletes ⟨cid', pc⟩ := by
      simp only [deletes, hw, Option.bind_some]
    have hins : p.inserts (.worker i resolved) = Worker.inserts p.shared ⟨cid', pc⟩ := by
      simp only [inserts, hw, Option.bind_some]
    cases hm with
    | present _ hadd hmem =>
      have hpc : ∀ g, pc ≠ .removeDelete g := by rintro g rfl; simp at hadd
      refine .of_shared_eq rfl ?_ (fun g hg => hg.set hw hpc _ _)
      rcases hadd with rfl | ⟨cgid, rfl⟩ <;> exact hdel
    | absent hmem => exact .of_shared_eq rfl hdel (fun g hg => hg.set hw nofun _ _)
    | unresolved hres => exact .of_shared_eq rfl hdel (fun g hg => hg.set hw nofun _ _)
    | resolved cgid hres => exact .of_shared_eq rfl hdel (fun g hg => hg.set hw nofun _ _)
    | refused cgid hmem hfd => exact .of_shared_eq rfl hdel (fun g hg => hg.set hw nofun _ _)
    | unknown hl => exact .of_shared_eq rfl hdel (fun g hg => hg.set hw nofun _ _)
    | commit cgid fd hmem hfd =>
      have hstored : Stores ⟨⟨fd, p.store.insert cid' cgid⟩, p.locals.set i ⟨cid', .done true⟩⟩ cgid :=
        ⟨cid', AList.lookup_insert _⟩
      refine ⟨fun g hg => ?_, fun g hg => .inl ?_, fun g hg => .inl ?_, fun g hg => ?_,
        fun g hg => .inl (hg.set hw nofun _ _)⟩
      · rcases (mem_keys_of_mapInsert hfd g).1 hg with rfl | hg
        · exact .inr ⟨hins.trans (if_neg hmem), hstored⟩
        · exact .inl ⟨hg, by rw [hdel]; exact nofun⟩
      · exact (mem_keys_of_mapInsert hfd g).2 (.inr hg)
      · obtain ⟨cid, hl⟩ := hg
        exact ⟨cid, AList.lookup_insert_of_notMem hmem hl⟩
      · obtain ⟨cid, hl⟩ := hg
        rcases AList.lookup_insert_eq_some hl with ⟨-, rfl⟩ | hl
        · exact .inr ((mem_keys_of_mapInsert hfd g).2 (.inl rfl))
        · exact .inl ⟨cid, hl⟩
    | pop cgid hl =>
      refine ⟨fun g hg => .inl ⟨hg, by rw [hdel]; exact nofun⟩, fun g hg => .inl hg, fun g hg => ?_, fun g hg => ?_,
        fun g hg => .inl (hg.set hw nofun _ _)⟩
      · obtain ⟨cid, hg⟩ := hg
        by_cases hcid : cid = cid'
        · obtain rfl : cgid = g := Option.some.inj (hl.symm.trans (hcid ▸ hg))
          exact .inr ⟨_, Threads.mem_set_self hw, rfl⟩
        · exact .inl ⟨cid, (AList.lookup_erase_ne hcid).trans hg⟩
      · obtain ⟨cid, hg⟩ := hg
        exact .inl ⟨cid, (AList.lookup_erase_eq_some hg).2⟩
    | delete cgid fd ok hfd =>
      refine ⟨fun g hg => ?_, fun g hg => ?_, fun g hg => .inl hg, fun g hg => .inl hg, fun g hg => ?_⟩
      · obtain ⟨hne, hg⟩ := (mem_keys_of_mapDelete hfd g).1 hg
        exact .inl ⟨hg, by rw [hdel]; exact fun he => hne (Option.some.inj he).symm⟩
      · by_cases hgc : g = cgid
        · exact .inr (hdel.trans (by rw [hgc]; rfl))
        · exact .inl ((mem_keys_of_mapDelete hfd g).2 ⟨hgc, hg⟩)
      · obtain ⟨w, hwm, hpc⟩ := hg
        by_cases hgc : g = cgid
        · exact .inr (hdel.trans (by rw [hgc]; rfl))
        · have hne : w ≠ ⟨cid', .removeDelete cgid⟩ := by
            rintro rfl
            cases hpc
            exact hgc rfl
          exact .inl ⟨w, Threads.mem_set_of_ne hw hwm hne, hpc⟩

theorem fd_of_fault {p q : Pool} {a : Call} (h : p.step true a = some q) : q.fd = p.fd := by
  cases a with
  | add cid => cases h; rfl
  | remove cid => cases h; rfl
  | worker i resolved =>
    obtain ⟨⟨cid, pc⟩, ⟨m, ⟨cid', pc'⟩⟩, hw, hr, rfl⟩ := Threads.stepAt_eq_some h
    obtain ⟨-, hm⟩ := moves_of_step hr
    cases hm with
    | commit cgid fd hmem hfd => cases hfd
    | delete cgid fd ok hfd => cases hfd; rfl
    | _ => rfl

/-! ## The keys are the cgroup ids in `_store` -/

/-- A key is of an entry, or about to be deleted. -/
def Accounted (p : Pool) : Prop := ∀ g ∈ p.fd.keys, p.Stores g ∨ p.Deleting g

def SparesStored (p : Pool) (a : Call) : Prop := ∀ g ∈ p.deletes a, ¬ p.Stores g

instance (p : Pool) (a : Call) : Decidable (p.SparesStored a) :=
  Option.decidableForallMem (p := (¬ p.Stores ·)) (p.deletes a)

theorem accounted_init : Accounted init := fun g hg => by cases hg

theorem Accounted.step {p q : Pool} {a : Call} (hp : p.Accounted) (h : p.step false a = some q) : q.Accounted := by
  have he := effect_of_step h
  intro g hg
  rcases he.key g hg with ⟨hold, hkept⟩ | ⟨-, hnew⟩
  · rcases hp g hold with hs | hd
    · exact he.stored g hs
    · exact (he.deleting g hd).elim .inr (fun hdel => absurd hdel hkept)
  · exact .inl hnew

theorem mem_keys_of_stores {p q : Pool} {a : Call} (hp : ∀ g, p.Stores g → g ∈ p.fd.keys) (hspare : p.SparesStored a)
    (h : p.step false a = some q) : ∀ g, q.Stores g → g ∈ q.fd.keys := by
  have he := effect_of_step h
  intro g hg
  rcases he.entry g hg with hs | hk
  · rcases he.kept g (hp g hs) with hk | hdel
    · exact hk
    · exact absurd hs (hspare g hdel)
  · exact hk

/-- **A deletion of a cgroup id that `_store` holds leaves it held, and no key.** -/
theorem stores_of_deletes {p q : Pool} {a : Call} {g : UInt64} (hdel : p.deletes a = some g) (hs : p.Stores g)
    (h : p.step false a = some q) : q.Stores g ∧ g ∉ q.fd.keys := by
  cases a with
  | add cid => cases hdel
  | remove cid => cases hdel
  | worker i resolved =>
    obtain ⟨⟨cid, pc⟩, ⟨m, ⟨cid', pc'⟩⟩, hw, hr, rfl⟩ := Threads.stepAt_eq_some h
    obtain ⟨-, hm⟩ := moves_of_step hr
    simp only [deletes, hw, Option.bind_some, Worker.deletes] at hdel
    split at hdel
    · cases hdel
      cases hm with
      | present _ hadd _ => simp at hadd
      | delete _ fd ok hfd => exact ⟨hs, fun hg => ((mem_keys_of_mapDelete hfd g).1 hg).1 rfl⟩
    · cases hdel

/-- **The registry and the map agree at rest**, in every run that deletes no cgroup id `_store` holds. -/
theorem mem_keys_iff_stores (calls : List Call) (p : Pool) (hspare : Steps.Always (step false) SparesStored init calls)
    (hrun : init.run calls = some p) (hrest : p.AtRest) (g : UInt64) : g ∈ p.fd.keys ↔ p.Stores g := by
  have hacc : p.Accounted := Steps.run_invariant Accounted accounted_init (fun _ _ _ hp h => hp.step h) hrun
  have htracked : ∀ g, p.Stores g → g ∈ p.fd.keys := by
    refine Steps.always_induction (fun _ p => ∀ g, p.Stores g → g ∈ p.fd.keys) ?_
      (fun _ m a q _ hm ha hq => mem_keys_of_stores hm ha hq) calls p hspare hrun
    rintro g ⟨cid, hg⟩
    cases hg
  constructor
  · intro hg
    rcases hacc g hg with hs | ⟨w, hw, hpc⟩
    · exact hs
    · have hdone := hrest w hw
      simp [Worker.isDone, hpc] at hdone
  · exact htracked g

def twoContainers : List Call :=
  [.add "4f0c9d2e7a1b", .add "b1a7e2d9c0f4", .worker 0 none, .worker 1 none, .worker 0 (some 5), .worker 1 (some 6),
    .worker 1 none, .worker 0 none, .remove "4f0c9d2e7a1b", .worker 2 none, .worker 2 none]

def afterTwo : Pool := (init.run twoContainers).get (by decide)

theorem mem_keys_iff_stores_twoContainers :
    Steps.Always (step false) SparesStored init twoContainers ∧ afterTwo.AtRest ∧
      ∀ g, g ∈ afterTwo.fd.keys ↔ afterTwo.Stores g := by
  have hspare : Steps.Always (step false) SparesStored init twoContainers := by decide
  exact ⟨hspare, by decide, mem_keys_iff_stores twoContainers afterTwo hspare (Option.some_get (by decide)).symm
    (by decide)⟩

/-- A container that `docker ps` and its start event add under both ids, removed under one of them. -/
def bothIds : List Call :=
  [.add "4f0c9d2e7a1b", .worker 0 none, .worker 0 (some 5), .worker 0 none,
    .add "4f0c9d2e7a1bc3d8", .worker 1 none, .worker 1 (some 5), .worker 1 none,
    .remove "4f0c9d2e7a1bc3d8", .worker 2 none, .worker 2 none]

/-- A container that is added again between the pop and the deletion. -/
def addedAgain : List Call :=
  [.add "4f0c9d2e7a1bc3d8", .worker 0 none, .worker 0 (some 5), .worker 0 none,
    .remove "4f0c9d2e7a1bc3d8", .worker 1 none,
    .add "4f0c9d2e7a1bc3d8", .worker 2 none, .worker 2 (some 5), .worker 2 none, .worker 1 none]

/-- **A stored cgroup id that is no key**, at rest after calls on the map that all succeed. -/
theorem stores_not_mem_keys :
    (Steps.Always (step false) Succeeds init bothIds ∧
      ∃ p, init.run bothIds = some p ∧ p.AtRest ∧ p.Stores 5 ∧ 5 ∉ p.fd.keys) ∧
    (Steps.Always (step false) Succeeds init addedAgain ∧
      ∃ p, init.run addedAgain = some p ∧ p.AtRest ∧ p.Stores 5 ∧ 5 ∉ p.fd.keys) := by
  refine ⟨⟨by decide, ?_⟩, ⟨by decide, ?_⟩⟩
  · exact ⟨(init.run bothIds).get (by decide), (Option.some_get _).symm, by decide, by decide, by decide⟩
  · exact ⟨(init.run addedAgain).get (by decide), (Option.some_get _).symm, by decide, by decide, by decide⟩

end Pool

/-! ## The control plane's threads are such calls -/

theorem Worker.step_resolved (resolve : String → Option UInt64) (fault : Bool) (m : ContainerMap) (w : Worker) :
    w.step (fun _ => resolve w.cid) fault m = w.step resolve fault m := by
  unfold Worker.step
  split <;> rfl

theorem Pool.run_adds (p : Pool) : ∀ cids : List String,
    p.run (cids.map Call.add) = some { p with locals := p.locals ++ cids.map Worker.adding }
  | [] => by simp
  | cid :: cids => by
    have ih := run_adds { p with locals := p.locals ++ [.adding cid] } cids
    simpa [step] using ih

theorem calls_of_step {s t : System} {a : Act} (h : s.step a = some t) :
    ∃ calls, Pool.run s.threads calls = some t.threads := by
  cases stepped_of_step h with
  | happen hp d hd => exact ⟨[], rfl⟩
  | ps hph =>
    refine ⟨s.docker.ps.map Call.add, ?_⟩
    exact Pool.run_adds s.threads s.docker.ps
  | join hph hdone => exact ⟨[], rfl⟩
  | subscribe hph => exact ⟨[], rfl⟩
  | read n e hph he =>
    rw [Event.worker_eq]
    split
    · exact ⟨[.add e.id.id], rfl⟩
    · exact ⟨[.remove e.id.id], rfl⟩
  | worker i cid pc pc' m hw hm =>
    obtain ⟨th, hth, ht⟩ := Option.map_eq_some_iff.1 h
    obtain ⟨w, r, hw', hr, rfl⟩ := Threads.stepAt_eq_some hth
    refine ⟨[.worker i (s.docker.resolveCgid w.cid)], ?_⟩
    have hstep : Pool.step false s.threads (.worker i (s.docker.resolveCgid w.cid)) =
        some ⟨r.1, s.threads.locals.set i r.2⟩ :=
      Threads.stepAt_of_step hw' ((Worker.step_resolved _ _ _ _).trans hr)
    rw [← ht, Pool.run, Steps.run_cons, hstep]
    rfl

/-- **Every run of the control plane is a run of calls on the registry**, whatever Docker does. -/
theorem calls_of_run {d : Docker} {pinned : Option CgroupFilter} {acts : List Act} {s : System}
    (h : (System.boot d pinned).run acts = some s) :
    ∃ calls, Pool.run (System.boot d pinned).threads calls = some s.threads := by
  refine Steps.run_invariant
    (fun s => ∃ calls, Pool.run (System.boot d pinned).threads calls = some s.threads) ⟨[], rfl⟩
    (fun m a t hm ht => ?_) h
  obtain ⟨calls, hcalls⟩ := hm
  obtain ⟨more, hmore⟩ := calls_of_step ht
  exact ⟨calls ++ more, Steps.run_append_of_run hcalls hmore⟩

end ControlPlane
end CgroupGuard
