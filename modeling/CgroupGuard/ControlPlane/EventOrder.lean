import CgroupGuard.ControlPlane.System
/-!
# EventOrder — a thread for every event

`event_loop` starts a thread a line and orders none of them, so that the threads of one container overtake each other.
What goes wrong is one of three steps (`InOrder`): a `remove` pops the entry of a live run, an `add` takes the entry of
a dead run for its own, or an `add` registers a run that is over when no `remove` is to come.  A run without them ends
with the registry, the map and Docker agreed (`agreed_at_rest`).
-/
namespace CgroupGuard
namespace ControlPlane

def System.listening : System :=
  { docker := Docker.init
    phase := .loop
    pipe := []
    threads := ⟨ContainerMap.init BoundedMap.empty, []⟩ }

/-- A `remove` of `cid` has yet to pop: its line is to be read, or its thread to begin. -/
def System.RemovePending (s : System) (cid : String) : Prop :=
  (∃ e ∈ s.pipe, e.id.id = cid ∧ e.action ≠ .start) ∨ .removing cid ∈ s.workers

instance (s : System) (cid : String) : Decidable (s.RemovePending cid) := inferInstanceAs (Decidable (_ ∨ _))

def Registers (cgid : UInt64) : Pc → Prop
  | .addCheck => True
  | .addResolve => True
  | .addCommit g => g = cgid
  | _ => False

def System.AddPending (s : System) (c : ContainerId) (cgid : UInt64) : Prop :=
  ⟨.start, c⟩ ∈ s.pipe ∨ ∃ w ∈ s.workers, w.cid = c.id ∧ Registers cgid w.pc

/-- The entry under `cid`, if there is one, is of the live run, if there is one. -/
def System.EntryLive (s : System) (cid : String) : Prop :=
  ∀ g ∈ s.store.lookup cid, ∀ live ∈ s.docker.resolveCgid cid, g = live

instance (s : System) (cid : String) : Decidable (s.EntryLive cid) :=
  have (g : UInt64) : Decidable (∀ live ∈ s.docker.resolveCgid cid, g = live) := Option.decidableForallMem _
  Option.decidableForallMem (s.store.lookup cid)

/-- The entry under `cid`, if there is one, is of a run that is over. -/
def System.EntryDead (s : System) (cid : String) : Prop :=
  ∀ g ∈ s.store.lookup cid, s.docker.resolveCgid cid ≠ some g

instance (s : System) (cid : String) : Decidable (s.EntryDead cid) := Option.decidableForallMem (s.store.lookup cid)

/-- The step of a thread is none of the three that go wrong. -/
def Worker.InOrder (s : System) (w : Worker) : Prop :=
  match w.pc with
  | .addCheck => s.EntryLive w.cid
  | .addCommit cgid =>
    s.EntryLive w.cid ∧ (w.cid ∉ s.store → s.docker.resolveCgid w.cid = some cgid ∨ s.RemovePending w.cid)
  | .removePop => s.EntryDead w.cid
  | _ => True

instance (s : System) : ∀ w : Worker, Decidable (w.InOrder s)
  | ⟨cid, .addCheck⟩ => inferInstanceAs (Decidable (s.EntryLive cid))
  | ⟨_, .addResolve⟩ => inferInstanceAs (Decidable True)
  | ⟨cid, .addCommit cgid⟩ =>
    inferInstanceAs (Decidable (s.EntryLive cid ∧
      (cid ∉ s.store → s.docker.resolveCgid cid = some cgid ∨ s.RemovePending cid)))
  | ⟨cid, .removePop⟩ => inferInstanceAs (Decidable (s.EntryDead cid))
  | ⟨_, .removeDelete _⟩ => inferInstanceAs (Decidable True)
  | ⟨_, .done _⟩ => inferInstanceAs (Decidable True)

def System.InTurn (s : System) : Act → Prop
  | .worker i => ∀ w ∈ s.workers[i]?, w.InOrder s
  | _ => True

instance (s : System) : ∀ a, Decidable (s.InTurn a)
  | .worker i => Option.decidableForallMem s.workers[i]?
  | .happen _ => inferInstanceAs (Decidable True)
  | .main => inferInstanceAs (Decidable True)
  | .read _ => inferInstanceAs (Decidable True)

/-- What a run in order assumes of an act: its insertion is taken, and it takes no thread out of its turn. -/
def InOrder (s : System) (a : Act) : Prop := s.InsertAccepted a ∧ s.InTurn a

instance (s : System) (a : Act) : Decidable (InOrder s a) := inferInstanceAs (Decidable (_ ∧ _))

/-! ## The invariant -/

structure Agreement (s : System) : Prop where
  loop : s.phase = .loop
  ids : ∀ w ∈ s.workers, ∃ c : ContainerId, w.cid = c.id
  entry : ∀ cid g, s.store.lookup cid = some g → ∃ c : ContainerId, cid = c.id ∧ s.docker.owner.lookup g = some c
  resolved : ∀ w ∈ s.workers, ∀ g, w.pc = .addCommit g →
    ∃ c : ContainerId, w.cid = c.id ∧ s.docker.owner.lookup g = some c
  dead : ∀ w ∈ s.workers, ∀ g, w.pc = .removeDelete g →
    (∃ c, s.docker.owner.lookup g = some c) ∧ ∀ c, s.docker.running.lookup c ≠ some g
  stale : ∀ cid g, s.store.lookup cid = some g → s.docker.resolveCgid cid = some g ∨ s.RemovePending cid
  live : ∀ c g, s.docker.running.lookup c = some g → s.store.lookup c.id = some g ∨ s.AddPending c g
  kept : ∀ c g, s.docker.running.lookup c = some g → s.store.lookup c.id = some g → g ∈ s.fd.keys
  keys : ∀ g ∈ s.fd.keys, (∃ cid, s.store.lookup cid = some g) ∨ ∃ w ∈ s.workers, w.pc = .removeDelete g

theorem agreement_listening : Agreement System.listening where
  loop := rfl
  ids := fun w hw => by cases hw
  entry := fun cid g h => by cases h
  resolved := fun w hw => by cases hw
  dead := fun w hw => by cases hw
  stale := fun cid g h => by cases h
  live := fun c g h => by cases h
  kept := fun c g h => by cases h
  keys := fun g h => by cases h

theorem Agreement.happen {s : System} (hs : Agreement s) {h : Happening} {d : Docker} (hd : s.docker.step h = some d) :
    Agreement { s with docker := d, pipe := s.pipe ++ [h.event] } := by
  have howner : ∀ g c, s.docker.owner.lookup g = some c → d.owner.lookup g = some c :=
    fun g c => Docker.owner_of_step hd
  have hpending : ∀ cid, s.RemovePending cid →
      System.RemovePending { s with docker := d, pipe := s.pipe ++ [h.event] } cid := by
    rintro cid (⟨e, he, hrest⟩ | hw)
    · exact .inl ⟨e, List.mem_append_left _ he, hrest⟩
    · exact .inr hw
  -- a live run after the happening was live before, or starts with it in a fresh cgroup
  have hlive : ∀ c g, d.running.lookup c = some g →
      s.docker.running.lookup c = some g ∨ (h.event = ⟨.start, c⟩ ∧ g ∉ s.docker.owner) := fun c g hg => by
    cases Docker.change_of_step hd c with
    | started cgid _ hfresh hnew =>
      obtain rfl : cgid = g := Option.some.inj (hnew.symm.trans hg)
      exact .inr ⟨rfl, hfresh⟩
    | died _ hnew => exact absurd (AList.mem_of_lookup hg) hnew
    | same _ hl _ => exact .inl (hl ▸ hg)
  have howned : ∀ g, (∃ c, s.docker.owner.lookup g = some c) → g ∈ s.docker.owner :=
    fun g ⟨c, hc⟩ => AList.mem_of_lookup hc
  refine ⟨hs.loop, hs.ids, fun cid g hg => ?_, fun w hw g hpc => ?_, fun w hw g hpc => ?_, fun cid g hg => ?_,
    fun c g hg => ?_, fun c g hg hst => ?_, hs.keys⟩
  · obtain ⟨c, hc, ho⟩ := hs.entry cid g hg
    exact ⟨c, hc, howner g c ho⟩
  · obtain ⟨c, hc, ho⟩ := hs.resolved w hw g hpc
    exact ⟨c, hc, howner g c ho⟩
  · obtain ⟨⟨c, ho⟩, hnot⟩ := hs.dead w hw g hpc
    refine ⟨⟨c, howner g c ho⟩, fun c' hc' => ?_⟩
    rcases hlive c' g hc' with hold | ⟨-, hfresh⟩
    · exact hnot c' hold
    · exact hfresh (howned g ⟨c, ho⟩)
  · rcases hs.stale cid g hg with hres | hrem
    · obtain ⟨c, rfl, -⟩ := hs.entry cid g hg
      rw [resolveCgid_id] at hres
      dsimp only
      rw [resolveCgid_id]
      cases Docker.change_of_step hd c with
      | started _ hold _ _ => exact absurd (AList.mem_of_lookup hres) hold
      | died _ _ => exact .inr (.inl ⟨⟨.die, c⟩, by simp [Happening.event], rfl, nofun⟩)
      | same _ hl _ => exact .inl (hl ▸ hres)
    · exact .inr (hpending cid hrem)
  · rcases hlive c g hg with hold | ⟨hev, -⟩
    · rcases hs.live c g hold with hst | hp | hw
      · exact .inl hst
      · exact .inr (.inl (List.mem_append_left _ hp))
      · exact .inr (.inr hw)
    · exact .inr (.inl (List.mem_append_right _ (by rw [hev]; exact List.mem_singleton.2 rfl)))
  · rcases hlive c g hg with hold | ⟨-, hfresh⟩
    · exact hs.kept c g hold hst
    · obtain ⟨c', -, ho⟩ := hs.entry c.id g hst
      exact absurd (howned g ⟨c', ho⟩) hfresh

theorem Agreement.read {s : System} (hs : Agreement s) {n : Nat} {e : Event} (he : s.pipe[n]? = some e) :
    Agreement { s with pipe := s.pipe.eraseIdx n
                       threads := { s.threads with locals := s.threads.locals ++ [e.worker] } } := by
  have hnew : e.worker ∈ s.workers ++ [e.worker] := List.mem_append_right _ (List.mem_singleton.2 rfl)
  have hcases : ∀ w ∈ s.workers ++ [e.worker], w ∈ s.workers ∨ w = e.worker := fun w hw =>
    (List.mem_append.1 hw).imp_right List.mem_singleton.1
  have hcid : e.worker.cid = e.id.id := by
    rw [e.worker_eq]
    split <;> rfl
  have hpc : (∀ g, e.worker.pc ≠ .addCommit g) ∧ ∀ g, e.worker.pc ≠ .removeDelete g := by
    rw [e.worker_eq]
    split <;> exact ⟨nofun, nofun⟩
  refine ⟨hs.loop, fun w hw => ?_, hs.entry, fun w hw g hg => ?_, fun w hw g hg => ?_, fun cid g hg => ?_,
    fun c g hg => ?_, hs.kept, fun g hg => ?_⟩
  · rcases hcases w hw with hw | rfl
    · exact hs.ids w hw
    · exact ⟨e.id, hcid⟩
  · rcases hcases w hw with hw | rfl
    · exact hs.resolved w hw g hg
    · exact absurd hg (hpc.1 g)
  · rcases hcases w hw with hw | rfl
    · exact hs.dead w hw g hg
    · exact absurd hg (hpc.2 g)
  · rcases hs.stale cid g hg with hres | ⟨e', he', hid, hact⟩ | hw
    · exact .inl hres
    · rcases eq_or_mem_eraseIdx he he' with rfl | he'
      · refine .inr (.inr ?_)
        rw [← hid, show Worker.removing e'.id.id = e'.worker by rw [Event.worker_eq, if_neg hact]]
        exact hnew
      · exact .inr (.inl ⟨e', he', hid, hact⟩)
    · exact .inr (.inr (List.mem_append_left _ hw))
  · rcases hs.live c g hg with hst | hp | ⟨w, hw, hrest⟩
    · exact .inl hst
    · rcases eq_or_mem_eraseIdx he hp with rfl | hp
      · exact .inr (.inr ⟨_, hnew, rfl, trivial⟩)
      · exact .inr (.inl hp)
    · exact .inr (.inr ⟨w, List.mem_append_left _ hw, hrest⟩)
  · rcases hs.keys g hg with hst | ⟨w, hw, hpc⟩
    · exact .inl hst
    · exact .inr ⟨w, List.mem_append_left _ hw, hpc⟩

/-! ## The steps of a thread -/

section
variable {s : System} {i : Nat} {cid : String} {pc pc' : Pc}

theorem removePending_set (hw : s.workers[i]? = some ⟨cid, pc⟩) (hpop : pc ≠ .removePop) (m : ContainerMap)
    {cid' : String} (h : s.RemovePending cid') :
    System.RemovePending { s with threads := ⟨m, s.workers.set i ⟨cid, pc'⟩⟩ } cid' := by
  rcases h with he | hwm
  · exact .inl he
  · refine .inr (Threads.mem_set_of_ne hw hwm (fun he => hpop ?_))
    exact (congrArg Worker.pc he).symm

theorem addPending_set (hw : s.workers[i]? = some ⟨cid, pc⟩) (m : ContainerMap) {c : ContainerId} {g : UInt64}
    (hreg : cid = c.id → Registers g pc → Registers g pc') (h : s.AddPending c g) :
    System.AddPending { s with threads := ⟨m, s.workers.set i ⟨cid, pc'⟩⟩ } c g := by
  rcases h with he | ⟨w, hwm, hcid, hpc⟩
  · exact .inl he
  · by_cases heq : w = ⟨cid, pc⟩
    · subst heq
      exact .inr ⟨_, Threads.mem_set_self hw, hcid, hreg hcid hpc⟩
    · exact .inr ⟨w, Threads.mem_set_of_ne hw hwm heq, hcid, hpc⟩

theorem Agreement.sameMap (hs : Agreement s) (hw : s.workers[i]? = some ⟨cid, pc⟩)
    (hresolved : ∀ g, pc' = .addCommit g → ∃ c : ContainerId, cid = c.id ∧ s.docker.owner.lookup g = some c)
    (hdelete : ∀ g, pc ≠ .removeDelete g ∧ pc' ≠ .removeDelete g)
    (hpop : pc = .removePop → s.store.lookup cid = none)
    (hadd : ∀ c g, cid = c.id → s.docker.running.lookup c = some g → Registers g pc →
      s.store.lookup c.id = some g ∨ Registers g pc') :
    Agreement { s with threads := ⟨s.threads.shared, s.workers.set i ⟨cid, pc'⟩⟩ } := by
  have hcid := hs.ids _ (List.mem_of_getElem? hw)
  refine ⟨hs.loop, Threads.forall_mem_set hs.ids hcid, hs.entry, Threads.forall_mem_set hs.resolved hresolved,
    Threads.forall_mem_set hs.dead (fun g hg => absurd hg (hdelete g).2), fun cid' g hg => ?_, fun c g hg => ?_,
    hs.kept, fun g hg => ?_⟩
  · rcases hs.stale cid' g hg with hres | he | hwm
    · exact .inl hres
    · exact .inr (.inl he)
    · by_cases heq : Worker.removing cid' = ⟨cid, pc⟩
      · -- the thread pops nothing: there was no entry
        have hc : cid' = cid := congrArg Worker.cid heq
        subst hc
        have hnone := hpop (congrArg Worker.pc heq).symm
        rw [hnone] at hg
        cases hg
      · exact .inr (.inr (Threads.mem_set_of_ne hw hwm heq))
  · by_cases hst : s.store.lookup c.id = some g
    · exact .inl hst
    · refine (hs.live c g hg).imp_right (addPending_set hw _ (fun hc hreg => ?_))
      exact (hadd c g hc hg hreg).resolve_left hst
  · rcases hs.keys g hg with hst | ⟨w, hwm, hpc⟩
    · exact .inl hst
    · refine .inr ⟨w, Threads.mem_set_of_ne hw hwm (fun he => (hdelete g).1 ?_), hpc⟩
      rw [he] at hpc
      exact hpc

theorem Agreement.commit (hs : Agreement s) {cgid : UInt64} {fd : CgroupFilter}
    (hw : s.workers[i]? = some ⟨cid, .addCommit cgid⟩) (hmem : cid ∉ s.threads.shared.store)
    (hfd : mapInsert s.threads.shared.fd cgid false = (fd, true))
    (hsound : s.docker.resolveCgid cid = some cgid ∨ s.RemovePending cid) :
    Agreement { s with
      threads := ⟨⟨fd, s.threads.shared.store.insert cid cgid⟩, s.workers.set i ⟨cid, .done true⟩⟩ } := by
  obtain ⟨c₀, hc₀, hown⟩ := hs.resolved _ (List.mem_of_getElem? hw) cgid rfl
  refine ⟨hs.loop, Threads.forall_mem_set hs.ids ⟨c₀, hc₀⟩, fun cid' g hg => ?_,
    Threads.forall_mem_set hs.resolved nofun, Threads.forall_mem_set hs.dead nofun, fun cid' g hg => ?_,
    fun c g hg => ?_, fun c g hg hst => ?_, fun g hg => ?_⟩
  · rcases AList.lookup_insert_eq_some hg with ⟨rfl, rfl⟩ | hg
    · exact ⟨c₀, hc₀, hown⟩
    · exact hs.entry cid' g hg
  · rcases AList.lookup_insert_eq_some hg with ⟨rfl, rfl⟩ | hg
    · exact hsound.imp_right (removePending_set hw nofun _)
    · exact (hs.stale cid' g hg).imp_right (removePending_set hw nofun _)
  · by_cases hreg : c = c₀ ∧ g = cgid
    · obtain ⟨rfl, rfl⟩ := hreg
      exact .inl (by rw [← hc₀]; exact AList.lookup_insert _)
    · rcases hs.live c g hg with hst | hp
      · exact .inl (AList.lookup_insert_of_notMem hmem hst)
      · refine .inr (addPending_set hw _ (fun hc hr => hreg ?_) hp)
        have hid : c = c₀ := ContainerId.eq_of_id_eq (hc.symm.trans hc₀)
        exact ⟨hid, hr.symm⟩
  · refine (mem_keys_of_mapInsert hfd g).2 ?_
    rcases AList.lookup_insert_eq_some hst with ⟨-, rfl⟩ | hst
    · exact .inl rfl
    · exact .inr (hs.kept c g hg hst)
  · rcases (mem_keys_of_mapInsert hfd g).1 hg with rfl | hg
    · exact .inl ⟨cid, AList.lookup_insert _⟩
    · rcases hs.keys g hg with ⟨cid', hst⟩ | ⟨w, hwm, hpc⟩
      · exact .inl ⟨cid', AList.lookup_insert_of_notMem hmem hst⟩
      · refine .inr ⟨w, Threads.mem_set_of_ne hw hwm (fun he => ?_), hpc⟩
        rw [he] at hpc
        cases hpc

theorem Agreement.pop (hs : Agreement s) {cgid : UInt64} (hw : s.workers[i]? = some ⟨cid, .removePop⟩)
    (hl : s.threads.shared.store.lookup cid = some cgid) (hsound : s.docker.resolveCgid cid ≠ some cgid) :
    Agreement { s with threads := ⟨{ s.threads.shared with store := s.threads.shared.store.erase cid },
                                   s.workers.set i ⟨cid, .removeDelete cgid⟩⟩ } := by
  obtain ⟨c₀, hc₀, hown⟩ := hs.entry cid cgid hl
  have hnotlive : ∀ c, s.docker.running.lookup c ≠ some cgid := fun c hc => by
    obtain rfl : c = c₀ := Option.some.inj ((s.docker.owned c cgid hc).symm.trans hown)
    rw [hc₀, resolveCgid_id] at hsound
    exact hsound hc
  refine ⟨hs.loop, Threads.forall_mem_set hs.ids ⟨c₀, hc₀⟩, fun cid' g hg => ?_,
    Threads.forall_mem_set hs.resolved nofun, Threads.forall_mem_set hs.dead (fun g hg => ?_), fun cid' g hg => ?_,
    fun c g hg => ?_, fun c g hg hst => ?_, fun g hg => ?_⟩
  · exact hs.entry cid' g (AList.lookup_erase_eq_some hg).2
  · cases hg
    exact ⟨⟨c₀, hown⟩, hnotlive⟩
  · obtain ⟨hne, hg⟩ := AList.lookup_erase_eq_some hg
    rcases hs.stale cid' g hg with hres | he | hwm
    · exact .inl hres
    · exact .inr (.inl he)
    · exact .inr (.inr (Threads.mem_set_of_ne hw hwm (fun heq => hne (congrArg Worker.cid heq))))
  · rcases hs.live c g hg with hst | hp
    · refine .inl ((AList.lookup_erase_ne (fun he => ?_)).trans hst)
      rw [he] at hst
      obtain rfl : cgid = g := Option.some.inj (hl.symm.trans hst)
      exact hnotlive c hg
    · exact .inr (addPending_set hw _ (fun _ hr => hr.elim) hp)
  · exact hs.kept c g hg (AList.lookup_erase_eq_some hst).2
  · rcases hs.keys g hg with ⟨cid', hst⟩ | ⟨w, hwm, hpc⟩
    · by_cases he : cid' = cid
      · subst he
        obtain rfl : cgid = g := Option.some.inj (hl.symm.trans hst)
        exact .inr ⟨_, Threads.mem_set_self hw, rfl⟩
      · exact .inl ⟨cid', (AList.lookup_erase_ne he).trans hst⟩
    · refine .inr ⟨w, Threads.mem_set_of_ne hw hwm (fun he => ?_), hpc⟩
      rw [he] at hpc
      cases hpc

theorem Agreement.delete (hs : Agreement s) {cgid : UInt64} {fd : CgroupFilter} {ok : Bool}
    (hw : s.workers[i]? = some ⟨cid, .removeDelete cgid⟩)
    (hfd : mapDelete s.threads.shared.fd cgid false = (fd, ok)) :
    Agreement { s with threads := ⟨{ s.threads.shared with fd := fd }, s.workers.set i ⟨cid, .done ok⟩⟩ } := by
  have hdead := (hs.dead _ (List.mem_of_getElem? hw) cgid rfl).2
  have hcid := hs.ids _ (List.mem_of_getElem? hw)
  refine ⟨hs.loop, Threads.forall_mem_set hs.ids hcid, hs.entry, Threads.forall_mem_set hs.resolved nofun,
    Threads.forall_mem_set hs.dead nofun, fun cid' g hg => ?_, fun c g hg => ?_, fun c g hg hst => ?_, fun g hg => ?_⟩
  · exact (hs.stale cid' g hg).imp_right (removePending_set hw nofun _)
  · exact (hs.live c g hg).imp_right (addPending_set hw _ (fun _ hr => hr.elim))
  · refine (mem_keys_of_mapDelete hfd g).2 ⟨?_, hs.kept c g hg hst⟩
    rintro rfl
    exact hdead c hg
  · obtain ⟨hne, hg⟩ := (mem_keys_of_mapDelete hfd g).1 hg
    rcases hs.keys g hg with hst | ⟨w, hwm, hpc⟩
    · exact .inl hst
    · refine .inr ⟨w, Threads.mem_set_of_ne hw hwm (fun he => hne ?_), hpc⟩
      rw [he] at hpc
      exact (Pc.removeDelete.inj hpc).symm

end

/-- **An act in order keeps the agreement.** -/
theorem Agreement.step {s t : System} (hs : Agreement s) {a : Act} (ha : InOrder s a) (h : s.step a = some t) :
    Agreement t := by
  obtain ⟨hins, hord⟩ := ha
  cases stepped_of_step h with
  | happen hp d hd =>
    rw [if_pos hs.loop]
    exact hs.happen hd
  | ps hph => rw [hs.loop] at hph; cases hph
  | join hph _ => rw [hs.loop] at hph; cases hph
  | subscribe hph => rw [hs.loop] at hph; cases hph
  | read n e hph he => exact hs.read he
  | worker i cid pc pc' m hw hm =>
    have hsound := hord _ hw
    obtain ⟨c₀, hc₀⟩ := hs.ids _ (List.mem_of_getElem? hw)
    obtain rfl : cid = c₀.id := hc₀
    -- an `add` that finds an entry leaves it to the entry of the live run
    have hfound : c₀.id ∈ s.store → s.EntryLive c₀.id →
        ∀ c g, c₀.id = c.id → s.docker.running.lookup c = some g → s.store.lookup c.id = some g :=
      fun hmem hfind c g hid hg => by
        obtain ⟨g', hg'⟩ := AList.exists_lookup hmem
        rw [← resolveCgid_id, ← hid] at hg
        obtain rfl := hfind g' hg' g hg
        rw [← hid]
        exact hg'
    cases hm with
    | present _ hadd hmem =>
      rcases hadd with rfl | ⟨cgid, rfl⟩
      · exact hs.sameMap hw nofun (fun _ => ⟨nofun, nofun⟩) nofun
          (fun c g hid hg _ => .inl (hfound hmem hsound c g hid hg))
      · exact hs.sameMap hw nofun (fun _ => ⟨nofun, nofun⟩) nofun
          (fun c g hid hg _ => .inl (hfound hmem hsound.1 c g hid hg))
    | absent hmem => exact hs.sameMap hw nofun (fun _ => ⟨nofun, nofun⟩) nofun (fun _ _ _ _ _ => .inr trivial)
    | unresolved hr =>
      refine hs.sameMap hw nofun (fun _ => ⟨nofun, nofun⟩) nofun (fun c g hid hg _ => ?_)
      rw [hid, resolveCgid_id, hg] at hr
      cases hr
    | resolved cgid hr =>
      refine hs.sameMap hw (fun g hg => ?_) (fun _ => ⟨nofun, nofun⟩) nofun (fun c g hid hg _ => ?_)
      · cases hg
        rw [resolveCgid_id] at hr
        exact ⟨c₀, rfl, s.docker.owned c₀ _ hr⟩
      · rw [hid, resolveCgid_id, hg] at hr
        exact .inr (Option.some.inj hr).symm
    | commit cgid fd hmem hfd => exact hs.commit hw hmem hfd (hsound.2 hmem)
    | refused cgid hmem hfd => exact absurd hfd (mapInsert_of_inserts hins hw hmem)
    | unknown hl =>
      exact hs.sameMap hw nofun (fun _ => ⟨nofun, nofun⟩) (fun _ => hl) (fun _ _ _ _ hreg => hreg.elim)
    | pop cgid hl => exact hs.pop hw hl (hsound cgid hl)
    | delete cgid fd ok hfd => exact hs.delete hw hfd

/-! ## The last event -/

def actionOf (c : ContainerId) : Act → Option Action
  | .happen h => if h.event.id = c then some h.event.action else none
  | _ => none

def lastAction (c : ContainerId) (acts : List Act) : Option Action := (acts.filterMap (actionOf c)).getLast?

theorem lastAction_concat (c : ContainerId) (acts : List Act) (a : Act) :
    lastAction c (acts ++ [a]) = (actionOf c a).or (lastAction c acts) := by
  unfold lastAction
  rw [List.filterMap_append, List.getLast?_append]
  cases h : actionOf c a <;> simp [h]

/-- **A container runs when its last event is a start.** -/
theorem running_iff_lastAction (c : ContainerId) : ∀ acts s, System.listening.run acts = some s →
    (c ∈ s.docker.running ↔ lastAction c acts = some .start) := by
  refine Steps.run_induction _ ⟨fun h => (by cases h), fun h => by cases h⟩ (fun acts m a t hm ih ha => ?_)
  rw [lastAction_concat]
  cases stepped_of_step ha with
  | happen h d hd =>
    cases Docker.change_of_step hd c with
    | started cgid _ _ hnew =>
      have hact : actionOf c (.happen (.start c cgid)) = some .start := if_pos rfl
      rw [hact]
      exact iff_of_true (AList.mem_of_lookup hnew) rfl
    | died _ hnew =>
      have hact : actionOf c (.happen (.die c)) = some .die := if_pos rfl
      rw [hact]
      exact iff_of_false hnew nofun
    | same _ hl hown =>
      have hsame : c ∈ d.running ↔ c ∈ m.docker.running := by
        rw [← AList.lookup_isSome, hl, AList.lookup_isSome]
      by_cases hid : h.event.id = c
      · have hact : actionOf c (.happen h) = some h.event.action := if_pos hid
        obtain ⟨hstart, -, hnot⟩ := hown hid
        rw [hact]
        exact iff_of_false (fun hc => hnot (hsame.1 hc)) (fun he => hstart (Option.some.inj he))
      · have hact : actionOf c (.happen h) = none := if_neg hid
        rw [hact]
        exact hsame.trans ih
  | _ => exact ih

/-! ## At rest -/

def Tracked (s : System) (c : ContainerId) : Prop :=
  ∃ g, s.docker.running.lookup c = some g ∧ s.store.lookup c.id = some g ∧ g ∈ s.fd.keys

def Forgotten (s : System) (c : ContainerId) : Prop :=
  c.id ∉ s.store ∧ ∀ g, s.docker.owner.lookup g = some c → g ∉ s.fd.keys

theorem Agreement.at_rest {s : System} (hs : Agreement s) (hrest : s.AtRest) (c : ContainerId) :
    (c ∈ s.docker.running → Tracked s c) ∧ (c ∉ s.docker.running → Forgotten s c) := by
  obtain ⟨hpipe, hdone⟩ := hrest
  have hnoworker : ∀ w ∈ s.workers, ∃ ok, w.pc = .done ok := fun w hw => by
    have hwd := hdone w hw
    obtain ⟨cid, pc⟩ := w
    cases pc with
    | done ok => exact ⟨ok, rfl⟩
    | _ => cases hwd
  -- no `remove` is to come, so that every entry is of a live run
  have hentry : ∀ cid g, s.store.lookup cid = some g → s.docker.resolveCgid cid = some g := fun cid g hg => by
    refine (hs.stale cid g hg).resolve_right (fun hp => ?_)
    rcases hp with ⟨e, he, -⟩ | hw
    · rw [hpipe] at he; cases he
    · obtain ⟨ok, hok⟩ := hnoworker _ hw
      cases hok
  constructor
  · intro hc
    obtain ⟨g, hg⟩ := AList.exists_lookup hc
    have hst : s.store.lookup c.id = some g := by
      refine (hs.live c g hg).resolve_right (fun hp => ?_)
      rcases hp with he | ⟨w, hw, -, hreg⟩
      · rw [hpipe] at he; cases he
      · obtain ⟨ok, hok⟩ := hnoworker w hw
        rw [hok] at hreg
        exact hreg
    exact ⟨g, hg, hst, hs.kept c g hg hst⟩
  · intro hc
    have hnone : s.docker.running.lookup c = none := AList.lookup_eq_none.2 hc
    refine ⟨fun hmem => ?_, fun g hown hg => ?_⟩
    · obtain ⟨g, hg⟩ := AList.exists_lookup hmem
      have hlive := hentry c.id g hg
      rw [resolveCgid_id, hnone] at hlive
      cases hlive
    · rcases hs.keys g hg with ⟨cid, hst⟩ | ⟨w, hw, hpc⟩
      · have hlive := hentry cid g hst
        obtain ⟨c', rfl, -⟩ := hs.entry cid g hst
        rw [resolveCgid_id] at hlive
        obtain rfl : c' = c := Option.some.inj ((s.docker.owned c' g hlive).symm.trans hown)
        rw [hnone] at hlive
        cases hlive
      · obtain ⟨ok, hok⟩ := hnoworker w hw
        rw [hok] at hpc
        cases hpc

/-- **Once all threads have finished, a container is tracked by its live run if its last event is a start, and
forgotten otherwise**, in every run in order. -/
theorem agreed_at_rest (acts : List Act) (s : System)
    (hacts : Steps.Always System.step InOrder System.listening acts) (hrun : System.listening.run acts = some s)
    (hrest : s.AtRest) (c : ContainerId) :
    (Tracked s c ↔ lastAction c acts = some .start) ∧ (lastAction c acts ≠ some .start → Forgotten s c) := by
  have hs : Agreement s := Steps.always_induction (fun _ => Agreement) agreement_listening
    (fun _ _ _ _ _ hm hord ha => hm.step hord ha) acts s hacts hrun
  obtain ⟨htracked, hforgotten⟩ := hs.at_rest hrest c
  have hlast := running_iff_lastAction c acts s hrun
  exact ⟨⟨fun ⟨g, hg, _⟩ => hlast.1 (AList.mem_of_lookup hg), fun h => htracked (hlast.2 h)⟩,
    fun hne => hforgotten (fun hc => hne (hlast.1 hc))⟩

def inTurn : List Act :=
  [.happen (.start (idOf 'a') 5), .read 0, .worker 0, .worker 0, .worker 0, .happen (.die (idOf 'a')), .read 0,
    .worker 1, .worker 1]

def afterInTurn : System := (System.listening.run inTurn).get (by decide)

theorem agreed_at_rest_inTurn :
    (Tracked afterInTurn (idOf 'a') ↔ lastAction (idOf 'a') inTurn = some .start) ∧
      (lastAction (idOf 'a') inTurn ≠ some .start → Forgotten afterInTurn (idOf 'a')) :=
  agreed_at_rest inTurn afterInTurn (by decide) (Option.some_get (by decide)).symm (by decide) (idOf 'a')

/-- A restart: the `add` of the second start looks before the `remove` of the first end pops. -/
def restart : List Act :=
  [.happen (.start (idOf 'a') 5), .read 0, .worker 0, .worker 0, .worker 0, .happen (.die (idOf 'a')),
    .happen (.start (idOf 'a') 6), .read 0, .read 0, .worker 2, .worker 1, .worker 1]

def afterRestart : System := (System.listening.run restart).get (by decide)

/-- **The restarted container is left untracked.** -/
theorem not_tracked_afterRestart :
    System.listening.run restart = some afterRestart ∧ afterRestart.AtRest ∧
      lastAction (idOf 'a') restart = some .start ∧ ¬ Tracked afterRestart (idOf 'a') := by
  refine ⟨(Option.some_get (by decide)).symm, by decide, by decide, fun ⟨g, _, hst, _⟩ => ?_⟩
  rw [show afterRestart.store.lookup (idOf 'a').id = none by decide] at hst
  cases hst

end ControlPlane
end CgroupGuard
