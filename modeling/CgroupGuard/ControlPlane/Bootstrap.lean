import CgroupGuard.ControlPlane.System
/-!
# Bootstrap — from the snapshot on, while containers only start

`add` runs under the two ids Docker gives a container.  While none stops, every thread adds the live run of its
container and every entry is of a live run; what is in the map besides was there before (`Tracking`).
-/
namespace CgroupGuard
namespace ControlPlane

def Names (cid : String) (c : ContainerId) : Prop := cid = c.short ∨ cid = c.id

theorem Names.unique {d : Docker} (hd : d.ShortsDistinct) {cid : String} {c c' : ContainerId} (h : Names cid c)
    (h' : Names cid c') (hc : c ∈ d.running) (hc' : c' ∈ d.running) : c = c' := by
  rcases h with rfl | rfl
  · rcases h' with h' | h'
    · exact hd.eq_of_short_eq hc hc' h'
    · exact absurd h' (short_ne_id c c')
  · rcases h' with h' | h'
    · exact absurd h'.symm (short_ne_id c' c)
    · exact ContainerId.eq_of_id_eq h'

theorem resolveCgid_names {d : Docker} (hd : d.ShortsDistinct) {cid : String} {c : ContainerId} (h : Names cid c)
    (hc : c ∈ d.running) : d.resolveCgid cid = d.running.lookup c := by
  rcases h with rfl | rfl
  · exact resolveCgid_short hd hc
  · exact resolveCgid_id d c

def StartsOnly : Act → Prop
  | .happen h => h.event.action = .start
  | _ => True

instance : ∀ a, Decidable (StartsOnly a)
  | .happen h => inferInstanceAs (Decidable (h.event.action = .start))
  | .main => inferInstanceAs (Decidable True)
  | .read _ => inferInstanceAs (Decidable True)
  | .worker _ => inferInstanceAs (Decidable True)

/-- A thread on `cid` is adding `cgid`, or has found or made its entry. -/
def Adding (store : AList (fun _ : String => UInt64)) (cid : String) (cgid : UInt64) : Pc → Prop
  | .addCheck => True
  | .addResolve => True
  | .addCommit g => g = cgid
  | .removePop => False
  | .removeDelete _ => False
  | .done _ => store.lookup cid = some cgid

structure Tracking (leftover : CgroupFilter) (s : System) : Prop where
  thread : ∀ w ∈ s.workers, ∃ c cgid, s.docker.running.lookup c = some cgid ∧ Names w.cid c ∧
    Adding s.store w.cid cgid w.pc
  stored : ∀ cid cgid, s.store.lookup cid = some cgid →
    (∃ c, s.docker.running.lookup c = some cgid ∧ Names cid c) ∧ ∃ w ∈ s.workers, w.cid = cid
  keys : ∀ g, g ∈ s.fd.keys ↔ g ∈ leftover.keys ∨ ∃ cid, s.store.lookup cid = some g
  printed : ∀ e ∈ s.pipe, e.action = .start ∧ e.id ∈ s.docker.running

theorem tracking_boot (d : Docker) (pinned : Option CgroupFilter) :
    Tracking (mapEnsure pinned) (System.boot d pinned) where
  thread := fun w hw => by cases hw
  stored := fun cid cgid h => by cases h
  keys := fun g => ⟨.inl, fun h => h.elim id (fun ⟨cid, hc⟩ => by cases hc)⟩
  printed := fun e he => by cases he

theorem lookup_of_start {d d' : Docker} {h : Happening} (hd : d.step h = some d') (hstart : h.event.action = .start)
    {c : ContainerId} {cgid : UInt64} (hc : d.running.lookup c = some cgid) : d'.running.lookup c = some cgid := by
  rcases Docker.change_of_step hd c with ⟨_, hold, _, _⟩ | ⟨_, _⟩ | ⟨_, hl, _⟩
  · exact absurd (AList.mem_of_lookup hc) hold
  · cases hstart
  · rw [hl, hc]

theorem mem_of_start {d d' : Docker} {h : Happening} (hd : d.step h = some d') (hstart : h.event.action = .start) :
    h.event.id ∈ d'.running := by
  cases h with
  | start c cgid => exact AList.mem_of_lookup (Docker.started hd).2.2
  | die c => cases hstart
  | stop c => cases hstart
  | destroy c => cases hstart

theorem Adding.mono {store store' : AList (fun _ : String => UInt64)} {cid : String} {cgid : UInt64} {pc : Pc}
    (h : Adding store cid cgid pc)
    (hsub : ∀ cid' g, store.lookup cid' = some g → store'.lookup cid' = some g) : Adding store' cid cgid pc := by
  cases pc with
  | done ok => exact hsub _ _ h
  | _ => exact h

theorem exists_cid_set {ws : List Worker} {i : Nat} {cid : String} {pc : Pc} (hw : ws[i]? = some ⟨cid, pc⟩) (pc' : Pc)
    {w : Worker} (hwm : w ∈ ws) : ∃ w' ∈ ws.set i ⟨cid, pc'⟩, w'.cid = w.cid := by
  by_cases heq : w = ⟨cid, pc⟩
  · subst heq
    exact ⟨_, Threads.mem_set_self hw, rfl⟩
  · exact ⟨w, Threads.mem_set_of_ne hw hwm heq, rfl⟩

/-- **A step of a thread keeps what the threads, the entries and the keys are.** -/
theorem Tracking.worker {leftover : CgroupFilter} {s : System} (hs : Tracking leftover s)
    (hd : s.docker.ShortsDistinct) {i : Nat} {cid : String} {pc pc' : Pc} {m : ContainerMap}
    (hins : s.InsertAccepted (.worker i)) (hw : s.workers[i]? = some ⟨cid, pc⟩)
    (hm : Moves s.docker.resolveCgid false s.threads.shared cid pc m pc') :
    Tracking leftover { s with threads := ⟨m, s.workers.set i ⟨cid, pc'⟩⟩ } := by
  obtain ⟨c, cgid, hc, hname, hadd⟩ := hs.thread _ (List.mem_of_getElem? hw)
  have hkept : ∀ cid', (∃ w ∈ s.workers, w.cid = cid') → ∃ w ∈ s.workers.set i ⟨cid, pc'⟩, w.cid = cid' := by
    rintro cid' ⟨w, hwm, rfl⟩
    exact exists_cid_set hw pc' hwm
  -- an entry under this thread's id is of its container's run
  have hentry : cid ∈ s.store → s.store.lookup cid = some cgid := fun hmem => by
    obtain ⟨g, hg⟩ := AList.exists_lookup hmem
    obtain ⟨⟨c', hc', hname'⟩, -⟩ := hs.stored cid g hg
    obtain rfl := hname.unique hd hname' (AList.mem_of_lookup hc) (AList.mem_of_lookup hc')
    rw [hg, ← hc', hc]
  have hsame : Adding s.store cid cgid pc' → Tracking leftover
      { s with threads := ⟨s.threads.shared, s.workers.set i ⟨cid, pc'⟩⟩ } := fun hnew => by
    refine ⟨Threads.forall_mem_set hs.thread ⟨c, cgid, hc, hname, hnew⟩, fun cid' g hg => ?_, hs.keys, hs.printed⟩
    exact ⟨(hs.stored cid' g hg).1, hkept cid' (hs.stored cid' g hg).2⟩
  have hres := resolveCgid_names hd hname (AList.mem_of_lookup hc)
  cases hm with
  | present _ _ hmem => exact hsame (hentry hmem)
  | absent hmem => exact hsame trivial
  | unresolved hr => rw [hres, hc] at hr; cases hr
  | resolved g hr =>
    rw [hres, hc] at hr
    exact hsame (Option.some.inj hr).symm
  | commit g fd hmem hfd =>
    obtain rfl : g = cgid := hadd
    refine ⟨Threads.forall_mem_set (fun w hwm => ?_) ⟨c, g, hc, hname, AList.lookup_insert _⟩, fun cid' g' hg => ?_,
      fun g' => ?_, hs.printed⟩
    · obtain ⟨c', g', hc', hn', ha'⟩ := hs.thread w hwm
      exact ⟨c', g', hc', hn', ha'.mono (fun _ _ => AList.lookup_insert_of_notMem hmem)⟩
    · rcases AList.lookup_insert_eq_some hg with ⟨rfl, rfl⟩ | hg
      · exact ⟨⟨c, hc, hname⟩, hkept _ ⟨_, List.mem_of_getElem? hw, rfl⟩⟩
      · exact ⟨(hs.stored cid' g' hg).1, hkept cid' (hs.stored cid' g' hg).2⟩
    · show g' ∈ fd.keys ↔ _
      rw [mem_keys_of_mapInsert hfd, hs.keys]
      constructor
      · rintro (rfl | hl | ⟨cid', hg⟩)
        · exact .inr ⟨cid, AList.lookup_insert _⟩
        · exact .inl hl
        · exact .inr ⟨cid', AList.lookup_insert_of_notMem hmem hg⟩
      · rintro (hl | ⟨cid', hg⟩)
        · exact .inr (.inl hl)
        · rcases AList.lookup_insert_eq_some hg with ⟨-, rfl⟩ | hg
          · exact .inl rfl
          · exact .inr (.inr ⟨cid', hg⟩)
  | refused g hmem hfd => exact absurd hfd (mapInsert_of_inserts hins hw hmem)
  | unknown hl => exact hadd.elim
  | pop g hl => exact hadd.elim
  | delete g fd ok hdel => exact hadd.elim

theorem running_of_step {s t : System} {a : Act} (hstart : StartsOnly a) (h : s.step a = some t) {c : ContainerId}
    {cgid : UInt64} (hc : s.docker.running.lookup c = some cgid) : t.docker.running.lookup c = some cgid := by
  cases stepped_of_step h with
  | happen hp d hd => exact lookup_of_start hd hstart hc
  | _ => exact hc

theorem mem_running_of_step {s t : System} {a : Act} (hstart : StartsOnly a) (h : s.step a = some t) :
    ∀ c ∈ s.docker.running, c ∈ t.docker.running := fun c hc => by
  obtain ⟨cgid, hl⟩ := AList.exists_lookup hc
  exact AList.mem_of_lookup (running_of_step hstart h hl)

theorem Tracking.step {leftover : CgroupFilter} {s t : System} (hs : Tracking leftover s)
    (hd : s.docker.ShortsDistinct) {a : Act} (hstart : StartsOnly a) (hins : s.InsertAccepted a)
    (h : s.step a = some t) : Tracking leftover t := by
  have hmono := @running_of_step s t a hstart h
  have hmem := mem_running_of_step hstart h
  have hstep := stepped_of_step h
  cases hstep with
  | happen hp d hdock =>
    refine ⟨fun w hw => ?_, fun cid g hg => ?_, hs.keys, fun e he => ?_⟩
    · obtain ⟨c, cgid, hc, hrest⟩ := hs.thread w hw
      exact ⟨c, cgid, hmono hc, hrest⟩
    · obtain ⟨⟨c, hc, hn⟩, hw⟩ := hs.stored cid g hg
      exact ⟨⟨c, hmono hc, hn⟩, hw⟩
    · have hold : e ∈ s.pipe → e.action = .start ∧ e.id ∈ d.running :=
        fun he => ⟨(hs.printed e he).1, hmem _ (hs.printed e he).2⟩
      dsimp only at he
      split at he
      · rcases List.mem_append.1 he with he | he
        · exact hold he
        · obtain rfl := List.mem_singleton.1 he
          exact ⟨hstart, mem_of_start hdock hstart⟩
      · exact hold he
  | ps hph =>
    refine ⟨fun w hw => ?_, fun cid g hg => ?_, hs.keys, hs.printed⟩
    · rcases List.mem_append.1 hw with hw | hw
      · exact hs.thread w hw
      · obtain ⟨cid, hcid, rfl⟩ := List.mem_map.1 hw
        obtain ⟨c, hc, rfl⟩ := List.mem_map.1 hcid
        obtain ⟨cgid, hl⟩ := AList.exists_lookup (AList.mem_keys.2 hc)
        exact ⟨c, cgid, hl, .inl rfl, trivial⟩
    · obtain ⟨hc, w, hw, hcid⟩ := hs.stored cid g hg
      exact ⟨hc, w, List.mem_append_left _ hw, hcid⟩
  | join hph hdone => exact ⟨hs.thread, hs.stored, hs.keys, hs.printed⟩
  | subscribe hph => exact ⟨hs.thread, hs.stored, hs.keys, hs.printed⟩
  | read n e hph he =>
    obtain ⟨hact, hrun⟩ := hs.printed e (List.mem_of_getElem? he)
    obtain ⟨cgid, hl⟩ := AList.exists_lookup hrun
    have hworker : e.worker = .adding e.id.id := e.worker_eq.trans (if_pos hact)
    refine ⟨fun w hw => ?_, fun cid g hg => ?_, hs.keys, fun e' he' => hs.printed e' (List.mem_of_mem_eraseIdx he')⟩
    · rcases List.mem_append.1 hw with hw | hw
      · exact hs.thread w hw
      · obtain rfl := List.mem_singleton.1 hw
        rw [hworker]
        exact ⟨e.id, cgid, hl, .inr rfl, trivial⟩
    · obtain ⟨hc, w, hw, hcid⟩ := hs.stored cid g hg
      exact ⟨hc, w, List.mem_append_left _ hw, hcid⟩
  | worker i cid pc pc' m hw hm => exact hs.worker hd hins hw hm

/-! ## Which containers a thread is started for -/

/-- The container an act starts between the snapshot and the subscription. -/
def missedAt (s : System) : Act → List ContainerId
  | .happen (.start c _) => if s.phase = .join ∨ s.phase = .subscribe then [c] else []
  | _ => []

def missed (s : System) (acts : List Act) : List ContainerId := Steps.outputs System.step missedAt s acts

/-- Every running container is to be listed, has a thread or an event, or is a missed one, which has neither. -/
structure Covered (missed : List ContainerId) (s : System) : Prop where
  covered : ∀ c ∈ s.docker.running,
    c ∈ missed ∨ s.phase = .ps ∨ (∃ w ∈ s.workers, Names w.cid c) ∨ ∃ e ∈ s.pipe, e.id = c
  apart : ∀ c ∈ missed, c ∈ s.docker.running ∧ s.phase ≠ .ps ∧ (∀ w ∈ s.workers, ¬ Names w.cid c) ∧
    ∀ e ∈ s.pipe, e.id ≠ c

theorem covered_boot (d : Docker) (pinned : Option CgroupFilter) : Covered [] (System.boot d pinned) :=
  ⟨fun _ _ => .inr (.inl rfl), fun _ hc => by cases hc⟩

theorem Covered.happen {leftover : CgroupFilter} {missed : List ContainerId} {s : System} (hs : Covered missed s)
    (ht : Tracking leftover s) {c₀ : ContainerId} {cgid : UInt64} {d : Docker}
    (hd : d.ShortsDistinct) (hstep : s.docker.step (.start c₀ cgid) = some d) :
    Covered (missed ++ missedAt s (.happen (.start c₀ cgid)))
      { s with docker := d, pipe := if s.phase = .loop then s.pipe ++ [⟨.start, c₀⟩] else s.pipe } := by
  have hmono : ∀ c ∈ s.docker.running, c ∈ d.running := fun c hc => by
    obtain ⟨g, hl⟩ := AList.exists_lookup hc
    exact AList.mem_of_lookup (lookup_of_start hstep rfl hl)
  have hnew : c₀ ∈ d.running := mem_of_start hstep rfl
  obtain ⟨hfresh, -, -⟩ := Docker.started hstep
  have hrunning : ∀ c ∈ d.running, c = c₀ ∨ c ∈ s.docker.running := fun c hc => by
    by_cases he : c = c₀
    · exact .inl he
    · obtain ⟨g, hl⟩ := AList.exists_lookup hc
      exact .inr (AList.mem_of_lookup ((Docker.lookup_of_other hstep he).symm.trans hl))
  -- no thread runs under an id of the new container: each names one that was running
  have hapart : ∀ w ∈ s.workers, ¬ Names w.cid c₀ := fun w hw hn => by
    obtain ⟨c, g, hc, hname, -⟩ := ht.thread w hw
    obtain rfl := hn.unique hd hname hnew (hmono c (AList.mem_of_lookup hc))
    exact hfresh (AList.mem_of_lookup hc)
  have hnone : ∀ e ∈ s.pipe, e.id ≠ c₀ := fun e he hid => hfresh (hid ▸ (ht.printed e he).2)
  refine ⟨fun c hc => ?_, fun c hc => ?_⟩
  · dsimp only [missedAt]
    rcases hrunning c hc with rfl | hold
    · cases hph : s.phase with
      | ps => exact .inr (.inl rfl)
      | join => exact .inl (by simp)
      | subscribe => exact .inl (by simp)
      | loop => exact .inr (.inr (.inr ⟨⟨.start, c⟩, by simp, rfl⟩))
    · rcases hs.covered c hold with h | h | h | ⟨e, he, hid⟩
      · exact .inl (List.mem_append_left _ h)
      · exact .inr (.inl h)
      · exact .inr (.inr (.inl h))
      · refine .inr (.inr (.inr ⟨e, ?_, hid⟩))
        split
        · exact List.mem_append_left _ he
        · exact he
  · have hpipe : ∀ e ∈ (if s.phase = .loop then s.pipe ++ [⟨.start, c₀⟩] else s.pipe : List Event),
        e ∈ s.pipe ∨ (s.phase = .loop ∧ e.id = c₀) := fun e he => by
      split at he
      · rename_i hloop
        rcases List.mem_append.1 he with he | he
        · exact .inl he
        · obtain rfl := List.mem_singleton.1 he
          exact .inr ⟨hloop, rfl⟩
      · exact .inl he
    dsimp only [missedAt] at hc
    rcases List.mem_append.1 hc with hold | hwin
    · obtain ⟨hrun, hph, hw, he⟩ := hs.apart c hold
      refine ⟨hmono c hrun, hph, hw, fun e hep hid => ?_⟩
      rcases hpipe e hep with hep | ⟨-, hid'⟩
      · exact he e hep hid
      · exact hfresh (by rwa [← hid', hid])
    · split at hwin
      · rename_i hph
        obtain rfl := List.mem_singleton.1 hwin
        refine ⟨hnew, fun h => ?_, hapart, fun e hep => ?_⟩
        · rcases hph with hph | hph <;> rw [hph] at h <;> cases h
        · rcases hpipe e hep with hep | ⟨hloop, -⟩
          · exact hnone e hep
          · rcases hph with hph | hph <;> rw [hph] at hloop <;> cases hloop
      · cases hwin

theorem Covered.advance {missed : List ContainerId} {s : System} (hs : Covered missed s) (hps : s.phase ≠ .ps)
    {phase : Phase} (hps' : phase ≠ .ps) : Covered missed { s with phase := phase } := by
  refine ⟨fun c hc => ?_, fun c hc => ⟨(hs.apart c hc).1, hps', (hs.apart c hc).2.2⟩⟩
  rcases hs.covered c hc with h | h | h
  · exact .inl h
  · exact absurd h hps
  · exact .inr (.inr h)

theorem Covered.step {leftover : CgroupFilter} {missed : List ContainerId} {s t : System} (hs : Covered missed s)
    (ht : Tracking leftover s) (hd : t.docker.ShortsDistinct) {a : Act} (hstart : StartsOnly a)
    (h : s.step a = some t) : Covered (missed ++ missedAt s a) t := by
  cases stepped_of_step h with
  | happen hp d hdock =>
    cases hp with
    | start c cgid => exact hs.happen ht hd hdock
    | die c => cases hstart
    | stop c => cases hstart
    | destroy c => cases hstart
  | ps hph =>
    rw [show missedAt s .main = [] from rfl, List.append_nil]
    refine ⟨fun c hc => .inr (.inr (.inl ⟨.adding c.short, ?_, .inl rfl⟩)), fun c hc => ?_⟩
    · exact List.mem_append_right _ (List.mem_map_of_mem (List.mem_map_of_mem (AList.mem_keys.1 hc)))
    · exact absurd hph (hs.apart c hc).2.1
  | join hph hdone =>
    rw [show missedAt s .main = [] from rfl, List.append_nil]
    exact hs.advance (by rw [hph]; decide) (by decide)
  | subscribe hph =>
    rw [show missedAt s .main = [] from rfl, List.append_nil]
    exact hs.advance (by rw [hph]; decide) (by decide)
  | read n e hph he =>
    rw [show missedAt s (.read n) = [] from rfl, List.append_nil]
    have hact := (ht.printed e (List.mem_of_getElem? he)).1
    have hworker : e.worker = .adding e.id.id := e.worker_eq.trans (if_pos hact)
    refine ⟨fun c hc => ?_, fun c hc => ?_⟩
    · rcases hs.covered c hc with h | h | ⟨w, hw, hn⟩ | ⟨e', he', hid⟩
      · exact .inl h
      · exact .inr (.inl h)
      · exact .inr (.inr (.inl ⟨w, List.mem_append_left _ hw, hn⟩))
      · rcases eq_or_mem_eraseIdx he he' with rfl | hleft
        · refine .inr (.inr (.inl ⟨e'.worker, List.mem_append_right _ (List.mem_singleton.2 rfl), ?_⟩))
          rw [hworker, ← hid]
          exact .inr rfl
        · exact .inr (.inr (.inr ⟨e', hleft, hid⟩))
    · obtain ⟨hrun, hps, hw, hep⟩ := hs.apart c hc
      refine ⟨hrun, hps, fun w hwm hn => ?_, fun e' he' => hep e' (List.mem_of_mem_eraseIdx he')⟩
      rcases List.mem_append.1 hwm with hwm | hwm
      · exact hw w hwm hn
      · obtain rfl := List.mem_singleton.1 hwm
        rw [hworker] at hn
        rcases hn with hn | hn
        · exact short_ne_id _ _ hn.symm
        · exact hep e (List.mem_of_getElem? he) (ContainerId.eq_of_id_eq hn)
  | worker i cid pc pc' m hw hm =>
    rw [show missedAt s (.worker i) = [] from rfl, List.append_nil]
    refine ⟨fun c hc => ?_, fun c hc => ?_⟩
    · rcases hs.covered c hc with h | h | ⟨w, hwm, hn⟩ | h
      · exact .inl h
      · exact .inr (.inl h)
      · obtain ⟨w', hwm', hcid⟩ := exists_cid_set hw pc' hwm
        exact .inr (.inr (.inl ⟨w', hwm', by rw [hcid]; exact hn⟩))
      · exact .inr (.inr (.inr h))
    · obtain ⟨hrun, hps, hwn, hep⟩ := hs.apart c hc
      exact ⟨hrun, hps, Threads.forall_mem_set hwn (hwn ⟨cid, pc⟩ (List.mem_of_getElem? hw)), hep⟩

/-! ## Runs -/

/-- What a run that starts containers only assumes of an act: its insertion is taken, and it ends no container. -/
def Startup (s : System) (a : Act) : Prop := s.InsertAccepted a ∧ StartsOnly a

instance (s : System) (a : Act) : Decidable (Startup s a) := inferInstanceAs (Decidable (_ ∧ _))

theorem tracking_run (d : Docker) (pinned : Option CgroupFilter) : ∀ acts s,
    Steps.Always System.step Startup (System.boot d pinned) acts → (System.boot d pinned).run acts = some s →
      s.docker.ShortsDistinct →
        Tracking (mapEnsure pinned) s ∧ Covered (missed (System.boot d pinned) acts) s := by
  refine Steps.always_induction _ (fun _ => ⟨tracking_boot d pinned, covered_boot d pinned⟩)
    (fun acts m a t hm ih ha hstep hd => ?_)
  obtain ⟨hins, hstart⟩ := ha
  have hdm := hd.mono (mem_running_of_step hstart hstep)
  obtain ⟨ht, hc⟩ := ih hdm
  refine ⟨ht.step hdm hstart hins hstep, ?_⟩
  unfold missed
  rw [Steps.outputs_concat missedAt acts a hm]
  exact hc.step ht hd hstart hstep

theorem exists_entry_at_rest {leftover : CgroupFilter} {missed : List ContainerId} {s : System}
    (ht : Tracking leftover s) (hcov : Covered missed s) (hd : s.docker.ShortsDistinct) (hrest : s.AtRest)
    (hph : s.phase ≠ .ps) {c : ContainerId} {cgid : UInt64} (hc : s.docker.running.lookup c = some cgid)
    (hnot : c ∉ missed) : ∃ cid, s.store.lookup cid = some cgid ∧ Names cid c := by
  obtain ⟨hpipe, hdone⟩ := hrest
  rcases hcov.covered c (AList.mem_of_lookup hc) with h | h | ⟨w, hw, hn⟩ | ⟨e, he, -⟩
  · exact absurd h hnot
  · exact absurd h hph
  · obtain ⟨c', g, hc', hn', hadd⟩ := ht.thread w hw
    obtain rfl := hn.unique hd hn' (AList.mem_of_lookup hc) (AList.mem_of_lookup hc')
    obtain rfl : cgid = g := Option.some.inj (hc.symm.trans hc')
    have hwd := hdone w hw
    obtain ⟨cid, pc⟩ := w
    cases pc with
    | done ok => exact ⟨cid, hadd, hn⟩
    | _ => cases hwd
  · rw [hpipe] at he
    cases he

/-- **At rest, when no container was missed, the keys are what was left over and the live runs.** -/
theorem keys_at_rest {leftover : CgroupFilter} {s : System} (ht : Tracking leftover s) (hcov : Covered [] s)
    (hd : s.docker.ShortsDistinct) (hrest : s.AtRest) (hph : s.phase ≠ .ps) (g : UInt64) :
    g ∈ s.fd.keys ↔ g ∈ leftover.keys ∨ ∃ c, s.docker.running.lookup c = some g := by
  rw [ht.keys]
  refine or_congr_right ⟨fun ⟨cid, hg⟩ => ?_, fun ⟨c, hc⟩ => ?_⟩
  · obtain ⟨⟨c, hc, -⟩, -⟩ := ht.stored cid g hg
    exact ⟨c, hc⟩
  · obtain ⟨cid, hg, -⟩ := exists_entry_at_rest ht hcov hd hrest hph hc (by simp)
    exact ⟨cid, hg⟩

/-! ## The end of `bootstrap` -/

/-- Nothing is printed before the subscription, and when the threads are joined none is in flight. -/
structure Joined (s : System) : Prop where
  pipe : s.phase ≠ .loop → s.pipe = []
  done : s.phase = .subscribe → ∀ w ∈ s.workers, w.isDone = true

theorem Joined.step {s t : System} {a : Act} (hs : Joined s) (h : s.step a = some t) : Joined t := by
  cases stepped_of_step h with
  | happen hp d hd =>
    refine ⟨fun hph => ?_, hs.done⟩
    dsimp only at hph ⊢
    rw [if_neg hph]
    exact hs.pipe hph
  | ps hph => exact ⟨fun _ => hs.pipe (by rw [hph]; decide), fun hsub => by cases hsub⟩
  | join hph hdone => exact ⟨fun _ => hs.pipe (by rw [hph]; decide), fun _ => hdone⟩
  | subscribe hph => exact ⟨fun hne => absurd rfl hne, fun hsub => by cases hsub⟩
  | read n e hph he => exact ⟨fun hne => absurd hph hne, fun hsub => absurd (hph.symm.trans hsub) (by decide)⟩
  | worker i cid pc pc' m hw hm =>
    refine ⟨hs.pipe, fun hsub => ?_⟩
    -- a thread that is done has no step
    have hdone := hs.done hsub _ (List.mem_of_getElem? hw)
    cases hm with
    | present _ hadd _ => rcases hadd with rfl | ⟨g, rfl⟩ <;> cases hdone
    | _ => cases hdone

/-- **When `bootstrap` returns, the control plane is at rest.** -/
theorem atRest_of_subscribe {d : Docker} {pinned : Option CgroupFilter} {acts : List Act} {s : System}
    (hrun : (System.boot d pinned).run acts = some s) (hph : s.phase = .subscribe) : s.AtRest := by
  have hs : Joined s := Steps.run_invariant Joined ⟨fun _ => rfl, fun hsub => by cases hsub⟩
      (fun _ _ _ hm ha => hm.step ha) hrun
  exact ⟨hs.pipe (by rw [hph]; decide), hs.done hph⟩

def Quiet : Act → Prop
  | .happen _ => False
  | _ => True

instance : ∀ a, Decidable (Quiet a)
  | .happen _ => inferInstanceAs (Decidable False)
  | .main => inferInstanceAs (Decidable True)
  | .read _ => inferInstanceAs (Decidable True)
  | .worker _ => inferInstanceAs (Decidable True)

def Undisturbed (s : System) (a : Act) : Prop := s.InsertAccepted a ∧ Quiet a

instance (s : System) (a : Act) : Decidable (Undisturbed s a) := inferInstanceAs (Decidable (_ ∧ _))

theorem startup_of_undisturbed {s : System} {a : Act} (h : Undisturbed s a) : Startup s a := by
  refine ⟨h.1, ?_⟩
  cases a with
  | happen hp => exact h.2.elim
  | _ => trivial

theorem undisturbed_run (d : Docker) (pinned : Option CgroupFilter) : ∀ acts s,
    Steps.Always System.step Undisturbed (System.boot d pinned) acts → (System.boot d pinned).run acts = some s →
      s.docker = d ∧ missed (System.boot d pinned) acts = [] := by
  refine Steps.always_induction _ ⟨rfl, rfl⟩ (fun acts m a t hm ih ha hstep => ?_)
  obtain ⟨hdock, hmissed⟩ := ih
  unfold missed at hmissed ⊢
  rw [Steps.outputs_concat missedAt acts a hm, hmissed]
  cases stepped_of_step hstep with
  | happen hp d hd => exact ha.2.elim
  | _ => exact ⟨hdock, rfl⟩

end ControlPlane
end CgroupGuard
