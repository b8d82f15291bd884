import CgroupGuard.ControlPlane.Bootstrap
/-!
# Sequential — one event after the other

`bootstrap` registers a container under its short id, `event_loop` looks it up under its full one.  Handled one after
the other, the events of a container that was running at `bootstrap` never find its entry: when it dies, its cgroup
stays in the map (`trackedExactly_iff`).
-/
namespace CgroupGuard
namespace ControlPlane

/-- A line of `docker events`, its thread run to the end before anything else happens. -/
def handle (d : Docker) (m : ContainerMap) (e : Event) : ContainerMap :=
  match e.action with
  | .start => (m.add e.id.id (d.resolveCgid e.id.id) false).1
  | .die => (m.remove e.id.id false).1
  | .stop => (m.remove e.id.id false).1
  | .destroy => (m.remove e.id.id false).1

def sequential (p : Docker × ContainerMap) (h : Happening) : Option (Docker × ContainerMap) :=
  (p.1.step h).map (fun d => (d, handle d p.2 h.event))

def HasRoom (p : Docker × ContainerMap) : Happening → Prop
  | .start _ cgid => p.2.fd.Accepts cgid
  | _ => True

instance (p : Docker × ContainerMap) : ∀ h, Decidable (HasRoom p h)
  | .start _ cgid => inferInstanceAs (Decidable (p.2.fd.Accepts cgid))
  | .die _ => inferInstanceAs (Decidable True)
  | .stop _ => inferInstanceAs (Decidable True)
  | .destroy _ => inferInstanceAs (Decidable True)

/-- The keys of the map are the cgroup ids of the running containers. -/
def TrackedExactly (p : Docker × ContainerMap) : Prop :=
  ∀ g, g ∈ p.2.fd.keys ↔ ∃ c, p.1.running.lookup c = some g

/-! ## The calls -/

theorem add_of_absent {m : ContainerMap} {cid : String} {cgid : UInt64} (hcid : cid ∉ m.store)
    (hacc : m.fd.Accepts cgid) :
    (m.add cid (some cgid) false).1 = ⟨m.fd.put cgid 1, m.store.insert cid cgid⟩ := by
  simp only [ContainerMap.add, if_neg hcid, mapInsert_of_accepts hacc]

theorem remove_of_absent {m : ContainerMap} {cid : String} (hcid : m.store.lookup cid = none) :
    (m.remove cid false).1 = m := by
  unfold ContainerMap.remove
  rw [hcid]

theorem store_remove (m : ContainerMap) (cid : String) : (m.remove cid false).1.store = m.store.erase cid := by
  unfold ContainerMap.remove
  cases hl : m.store.lookup cid with
  | none =>
    apply AList.ext
    have hnot : cid ∉ m.store := AList.lookup_eq_none.1 hl
    exact (List.kerase_of_notMem_keys (fun h => hnot (AList.mem_keys.2 h))).symm
  | some cgid => rfl

theorem mem_keys_remove {m : ContainerMap} {cid : String} {cgid : UInt64} (hl : m.store.lookup cid = some cgid)
    (g : UInt64) : g ∈ (m.remove cid false).1.fd.keys ↔ g ≠ cgid ∧ g ∈ m.fd.keys := by
  have hfd : (m.remove cid false).1.fd = (mapDelete m.fd cgid false).1 := by
    unfold ContainerMap.remove
    rw [hl]
  have hdel : mapDelete m.fd cgid false = ((mapDelete m.fd cgid false).1, (mapDelete m.fd cgid false).2) := rfl
  rw [hfd]
  exact mem_keys_of_mapDelete hdel g

/-! ## What the map holds -/

/-- `boot` was running at `bootstrap`, `hs` has happened since: an entry under a short id is of a run `bootstrap`
found, one under a full id of a later one that is live, and the keys are those of the runs found and of the live
ones. -/
structure Since (boot : Docker) (hs : List Happening) (p : Docker × ContainerMap) : Prop where
  owner : ∀ g c, boot.owner.lookup g = some c → p.1.owner.lookup g = some c
  found : ∀ c g, boot.running.lookup c = some g → (p.1.running.lookup c = some g ↔ .die c ∉ hs)
  later : ∀ c g, p.2.store.lookup c.id = some g ↔ p.1.running.lookup c = some g ∧ boot.running.lookup c ≠ some g
  keys : ∀ g, g ∈ p.2.fd.keys ↔ (∃ c, boot.running.lookup c = some g) ∨ ∃ c, p.1.running.lookup c = some g

theorem Since.container_eq {boot : Docker} {hs : List Happening} {p : Docker × ContainerMap} (hp : Since boot hs p)
    {c c' : ContainerId} {g : UInt64} (hc : boot.running.lookup c = some g) (hc' : p.1.running.lookup c' = some g) :
    c' = c :=
  Option.some.inj ((p.1.owned c' g hc').symm.trans (hp.owner g c (boot.owned c g hc)))

theorem Since.start {boot : Docker} {hs : List Happening} {p : Docker × ContainerMap} (hp : Since boot hs p)
    {c : ContainerId} {cgid : UInt64} {d : Docker} (hd : p.1.step (.start c cgid) = some d)
    (hroom : p.2.fd.Accepts cgid) :
    Since boot (hs ++ [.start c cgid]) (d, (p.2.add c.id (d.resolveCgid c.id) false).1) := by
  obtain ⟨hold, hfresh, hnew⟩ := Docker.started hd
  have hboot : ∀ c', boot.running.lookup c' ≠ some cgid := fun c' hc' =>
    hfresh (AList.mem_of_lookup (hp.owner cgid c' (boot.owned c' cgid hc')))
  have hnone : p.1.running.lookup c = none := AList.lookup_eq_none.2 hold
  have habsent : c.id ∉ p.2.store := fun hmem => by
    obtain ⟨g, hg⟩ := AList.exists_lookup hmem
    rw [((hp.later c g).1 hg).1] at hnone
    cases hnone
  rw [resolveCgid_id, hnew, add_of_absent habsent hroom]
  refine ⟨fun g c' ho => Docker.owner_of_step hd (hp.owner g c' ho), fun c' g hc' => ?_, fun c' g => ?_, fun g => ?_⟩
  · have hdie : Happening.die c' ∉ hs ++ [.start c cgid] ↔ .die c' ∉ hs := by simp
    rw [hdie, ← hp.found c' g hc']
    by_cases he : c' = c
    · subst he
      have hne : cgid ≠ g := fun he => hboot c' (he ▸ hc')
      simp [hnew, hnone, hne]
    · rw [Docker.lookup_of_other hd he]
  · by_cases he : c' = c
    · subst he
      rw [AList.lookup_insert, hnew]
      exact ⟨fun h => ⟨h, by cases h; exact hboot c'⟩, And.left⟩
    · have hid : c'.id ≠ c.id := fun h => he (ContainerId.eq_of_id_eq h)
      rw [AList.lookup_insert_ne hid, Docker.lookup_of_other hd he]
      exact hp.later c' g
  · show g ∈ (p.2.fd.put cgid 1).keys ↔ _
    rw [BoundedMap.mem_keys_put, hp.keys, Docker.live_of_start hd]
    constructor
    · rintro (⟨he, -⟩ | hb | hl)
      · exact .inr (.inl he)
      · exact .inl hb
      · exact .inr (.inr hl)
    · rintro (hb | he | hl)
      · exact .inr (.inl hb)
      · exact .inl ⟨he, hroom⟩
      · exact .inr (.inr hl)

theorem Since.die {boot : Docker} {hs : List Happening} {p : Docker × ContainerMap} (hp : Since boot hs p)
    {c : ContainerId} {d : Docker} (hd : p.1.step (.die c) = some d) :
    Since boot (hs ++ [.die c]) (d, (p.2.remove c.id false).1) := by
  obtain ⟨hold, hdead⟩ := Docker.died hd
  obtain ⟨g₀, hlive⟩ := AList.exists_lookup hold
  refine ⟨fun g c' ho => Docker.owner_of_step hd (hp.owner g c' ho), fun c' g hc' => ?_, fun c' g => ?_, fun g => ?_⟩
  · by_cases he : c' = c
    · subst he
      simp [hdead]
    · have hdie : Happening.die c' ∉ hs ++ [.die c] ↔ .die c' ∉ hs := by simp [he]
      rw [hdie, Docker.lookup_of_other hd he]
      exact hp.found c' g hc'
  · dsimp only
    rw [store_remove]
    by_cases he : c' = c
    · subst he
      simp [hdead]
    · have hid : c'.id ≠ c.id := fun h => he (ContainerId.eq_of_id_eq h)
      rw [AList.lookup_erase_ne hid, Docker.lookup_of_other hd he]
      exact hp.later c' g
  · have hliving := Docker.live_of_die hd hlive g
    dsimp only
    by_cases hboot : boot.running.lookup c = some g₀
    · -- the run `bootstrap` found: its entry is under the short id, and the key stays
      have habsent : p.2.store.lookup c.id = none := by
        apply Option.eq_none_iff_forall_ne_some.2
        intro g hg
        obtain ⟨hg, hne⟩ := (hp.later c g).1 hg
        rw [hlive] at hg
        exact hne (hg ▸ hboot)
      rw [remove_of_absent habsent, hp.keys, hliving]
      constructor
      · rintro (hb | rfl | hl)
        · exact .inl hb
        · exact .inl ⟨c, hboot⟩
        · exact .inr hl
      · rintro (hb | hl)
        · exact .inl hb
        · exact .inr (.inr hl)
    · have hentry : p.2.store.lookup c.id = some g₀ := (hp.later c g₀).2 ⟨hlive, hboot⟩
      rw [mem_keys_remove hentry, hp.keys, hliving]
      constructor
      · rintro ⟨hne, hb | rfl | hl⟩
        · exact .inl hb
        · exact absurd rfl hne
        · exact .inr hl
      · rintro (⟨c', hc'⟩ | ⟨c', hc'⟩)
        · refine ⟨?_, .inl ⟨c', hc'⟩⟩
          rintro rfl
          exact hboot (hp.container_eq hc' hlive ▸ hc')
        · refine ⟨?_, .inr (.inr ⟨c', hc'⟩)⟩
          rintro rfl
          exact Docker.not_live_of_die hd hlive c' hc'

theorem Since.gone {boot : Docker} {hs : List Happening} {p : Docker × ContainerMap} (hp : Since boot hs p)
    {c : ContainerId} (hc : c ∉ p.1.running) {h : Happening} (hdie : ∀ c', h ≠ .die c') :
    Since boot (hs ++ [h]) (p.1, (p.2.remove c.id false).1) := by
  have habsent : p.2.store.lookup c.id = none := by
    apply Option.eq_none_iff_forall_ne_some.2
    intro g hg
    exact hc (AList.mem_of_lookup ((hp.later c g).1 hg).1)
  rw [remove_of_absent habsent]
  refine ⟨hp.owner, fun c' g hc' => ?_, hp.later, hp.keys⟩
  have hmem : Happening.die c' ∉ hs ++ [h] ↔ .die c' ∉ hs := by
    simp [(hdie c').symm]
  rw [hmem]
  exact hp.found c' g hc'

theorem Since.step {boot : Docker} {hs : List Happening} {p q : Docker × ContainerMap} (hp : Since boot hs p)
    {h : Happening} (hroom : HasRoom p h) (hq : sequential p h = some q) : Since boot (hs ++ [h]) q := by
  obtain ⟨d, hd, rfl⟩ := Option.map_eq_some_iff.1 hq
  cases h with
  | start c cgid => exact hp.start hd hroom
  | die c => exact hp.die hd
  | stop c =>
    obtain ⟨hc, he⟩ := Option.ite_none_right_eq_some.1 hd
    cases he
    exact hp.gone hc nofun
  | destroy c =>
    obtain ⟨hc, he⟩ := Option.ite_none_right_eq_some.1 hd
    cases he
    exact hp.gone hc nofun

/-! ## From `bootstrap` on -/

theorem short_of_worker {d : Docker} {pinned : Option CgroupFilter} {acts : List Act} {s : System}
    (hrun : (System.boot d pinned).run acts = some s) :
    s.phase ≠ .loop → ∀ w ∈ s.workers, ∃ c : ContainerId, w.cid = c.short := by
  refine Steps.run_invariant (fun s => s.phase ≠ .loop → ∀ w ∈ s.workers, ∃ c : ContainerId, w.cid = c.short)
    (fun _ w hw => by cases hw) (fun m a t hm ha => ?_) hrun
  cases stepped_of_step ha with
  | happen hp d hd => exact hm
  | ps hph =>
    intro _ w hw
    rcases List.mem_append.1 hw with hw | hw
    · exact hm (by rw [hph]; decide) w hw
    · obtain ⟨cid, hcid, rfl⟩ := List.mem_map.1 hw
      obtain ⟨c, -, rfl⟩ := List.mem_map.1 hcid
      exact ⟨c, rfl⟩
  | join hph hdone => exact fun _ => hm (by rw [hph]; decide)
  | subscribe hph => exact fun hne => absurd rfl hne
  | read n e hph he => exact fun hne => absurd hph hne
  | worker i cid pc pc' r hw hmv =>
    intro hne
    exact Threads.forall_mem_set (hm hne) (hm hne ⟨cid, pc⟩ (List.mem_of_getElem? hw))

theorem since_bootstrap (d : Docker) (acts : List Act) (s : System)
    (hacts : Steps.Always System.step Undisturbed (System.boot d none) acts)
    (hrun : (System.boot d none).run acts = some s) (hshort : d.ShortsDistinct) (hdone : s.phase = .subscribe) :
    Since d [] (d, s.threads.shared) := by
  obtain ⟨hdock, hmissed⟩ := undisturbed_run d none acts s hacts hrun
  have hshort' : s.docker.ShortsDistinct := by rwa [hdock]
  obtain ⟨ht, hcov⟩ := tracking_run d none acts s (hacts.imp fun _ _ => startup_of_undisturbed) hrun hshort'
  rw [hmissed] at hcov
  have hps : s.phase ≠ .ps := by rw [hdone]; decide
  refine ⟨fun g c ho => ho, fun c g hc => ⟨fun _ => by simp, fun _ => hc⟩, fun c g => ⟨fun hg => ?_, fun hg => ?_⟩,
    fun g => ?_⟩
  · -- every entry is under a short id
    obtain ⟨-, w, hw, hcid⟩ := ht.stored c.id g hg
    obtain ⟨c', hc'⟩ := short_of_worker hrun (by rw [hdone]; decide) w hw
    exact absurd (hc'.symm.trans hcid) (short_ne_id c' c)
  · exact absurd hg.1 hg.2
  · have hkeys := keys_at_rest ht hcov hshort' (atRest_of_subscribe hrun hdone) hps g
    rw [hdock] at hkeys
    refine hkeys.trans ⟨fun h => h.elim (fun hleft => by cases hleft) .inr, fun h => .inr (h.elim id id)⟩

theorem since_run {boot : Docker} {p : Docker × ContainerMap} (hp : Since boot [] p) : ∀ hs q,
    Steps.Always sequential HasRoom p hs → Steps.run sequential p hs = some q → Since boot hs q :=
  Steps.always_induction (Since boot) hp (fun _ _ _ _ _ hm hroom hq => hm.step hroom hq)

theorem Since.exactly_iff_no_death {boot : Docker} {hs : List Happening} {p : Docker × ContainerMap}
    (hp : Since boot hs p) : TrackedExactly p ↔ ∀ c ∈ boot.running, Happening.die c ∉ hs := by
  constructor
  · intro htracked c hc
    obtain ⟨g, hg⟩ := AList.exists_lookup hc
    obtain ⟨c', hc'⟩ := (htracked g).1 ((hp.keys g).2 (.inl ⟨c, hg⟩))
    obtain rfl := hp.container_eq hg hc'
    exact (hp.found c' g hg).1 hc'
  · intro hnone g
    rw [hp.keys]
    refine ⟨fun h => h.elim (fun ⟨c, hc⟩ => ⟨c, ?_⟩) id, .inr⟩
    exact (hp.found c g hc).2 (hnone c (AList.mem_of_lookup hc))

/-- **After each of the events, handled one after the other, the keys are the running containers' cgroup ids, exactly
when no container `bootstrap` found has died.** -/
theorem trackedExactly_iff (d : Docker) (acts : List Act) (s : System)
    (hacts : Steps.Always System.step Undisturbed (System.boot d none) acts)
    (hrun : (System.boot d none).run acts = some s) (hshort : d.ShortsDistinct) (hdone : s.phase = .subscribe)
    (hs : List Happening) (q : Docker × ContainerMap)
    (hroom : Steps.Always sequential HasRoom (d, s.threads.shared) hs)
    (hq : Steps.run sequential (d, s.threads.shared) hs = some q) :
    (∀ pre p, pre <+: hs → Steps.run sequential (d, s.threads.shared) pre = some p → TrackedExactly p) ↔
      ∀ c ∈ d.running, Happening.die c ∉ hs := by
  have hstart := since_bootstrap d acts s hacts hrun hshort hdone
  constructor
  · intro hall
    exact (since_run hstart hs q hroom hq).exactly_iff_no_death.1 (hall hs q List.prefix_rfl hq)
  · rintro hnone pre p ⟨post, rfl⟩ hp
    apply (since_run hstart pre p (hroom.left) hp).exactly_iff_no_death.2
    intro c hc hdie
    exact hnone c hc (List.mem_append_left _ hdie)

def bootstrapped : System :=
  ((System.boot oneRunning none).run [.main, .worker 0, .worker 0, .worker 0, .main]).get (by decide)

/-- A container that starts and dies after `bootstrap` is tracked while it runs. -/
theorem trackedExactly_iff_later :
    (∀ pre p, pre <+: [.start (idOf 'b') 6, .die (idOf 'b')] →
        Steps.run sequential (oneRunning, bootstrapped.threads.shared) pre = some p → TrackedExactly p) ↔
      ∀ c ∈ oneRunning.running, Happening.die c ∉ [.start (idOf 'b') 6, .die (idOf 'b')] :=
  trackedExactly_iff oneRunning [.main, .worker 0, .worker 0, .worker 0, .main] bootstrapped (by decide)
    (Option.some_get (by decide)).symm (by decide) (by decide) [.start (idOf 'b') 6, .die (idOf 'b')]
    ((Steps.run sequential (oneRunning, bootstrapped.threads.shared) [.start (idOf 'b') 6, .die (idOf 'b')]).get
      (by decide)) (by decide) (Option.some_get (by decide)).symm

/-- **The container `bootstrap` found dies, and its cgroup stays in the map.** -/
theorem not_trackedExactly_died :
    Steps.Always System.step Undisturbed (System.boot oneRunning none)
        [.main, .worker 0, .worker 0, .worker 0, .main] ∧
      (System.boot oneRunning none).run [.main, .worker 0, .worker 0, .worker 0, .main] = some bootstrapped ∧
      bootstrapped.phase = .subscribe ∧
      ∃ p, Steps.run sequential (oneRunning, bootstrapped.threads.shared) [.die (idOf 'a')] = some p ∧
        ¬ TrackedExactly p := by
  refine ⟨by decide, (Option.some_get (by decide)).symm, by decide, _, (Option.some_get (by decide)).symm, fun h => ?_⟩
  obtain ⟨c, hc⟩ := (h 5).1 (by decide)
  have hempty : ((Steps.run sequential (oneRunning, bootstrapped.threads.shared) [.die (idOf 'a')]).get
    (by decide)).1.running.keys = [] := by decide
  have hmem := AList.mem_keys.1 (AList.mem_of_lookup hc)
  rw [hempty] at hmem
  cases hmem

/-! ## The same run of the system -/

theorem alone_worker (d : Docker) (m : ContainerMap) (e : Event) :
    ∃ ok, Threads.alone (Worker.step d.resolveCgid false) 3 m e.worker = (handle d m e, ⟨e.id.id, .done ok⟩) := by
  obtain ⟨action, c⟩ := e
  cases action with
  | start => exact ⟨_, alone_add d.resolveCgid false m c.id⟩
  | die => exact ⟨_, alone_remove d.resolveCgid false m c.id⟩
  | stop => exact ⟨_, alone_remove d.resolveCgid false m c.id⟩
  | destroy => exact ⟨_, alone_remove d.resolveCgid false m c.id⟩

theorem run_worker (s : System) (i k : Nat) {th : Threads ContainerMap Worker}
    (h : Steps.run (Threads.stepAt (Worker.step s.docker.resolveCgid false)) s.threads (List.replicate k i) = some th) :
    s.run (List.replicate k (.worker i)) = some { s with threads := th } := by
  have hstep : ∀ (t : Threads ContainerMap Worker) (u : System) (j : Nat) t', u = { s with threads := t } →
      Threads.stepAt (Worker.step s.docker.resolveCgid false) t j = some t' →
        ∃ u', u.step (.worker j) = some u' ∧ u' = { s with threads := t' } := by
    rintro t u j t' rfl hj
    exact ⟨_, by simp only [System.step, hj, Option.map_some], rfl⟩
  obtain ⟨u, hu, rfl⟩ := Steps.run_simulation (fun t u => u = { s with threads := t }) Act.worker hstep _ rfl h
  rwa [List.map_replicate] at hu

/-- **What happens and is handled by itself is a run of the system**: the happening, the reading of its line, and the
steps of the thread started for it. -/
theorem run_handle {s : System} (hloop : s.phase = .loop) (hrest : s.AtRest) {h : Happening} {d : Docker}
    (hd : s.docker.step h = some d) :
    ∃ k t, s.run (.happen h :: .read 0 :: List.replicate k (.worker s.workers.length)) = some t ∧ t.AtRest ∧
      t.phase = .loop ∧ t.docker = d ∧ t.threads.shared = handle d s.threads.shared h.event := by
  obtain ⟨hpipe, hdone⟩ := hrest
  let s₁ : System := { s with docker := d, pipe := [h.event] }
  let s₂ : System := { s₁ with pipe := [], threads := ⟨s.threads.shared, s.workers ++ [h.event.worker]⟩ }
  have h₁ : s.step (.happen h) = some s₁ := by
    simp only [System.step, hd, if_pos hloop, hpipe, List.nil_append]
    rfl
  have h₂ : s₁.step (.read 0) = some s₂ := by
    have hcond : s₁.phase = .loop ∧ ∀ e' ∈ s₁.pipe.take 0, e'.id ≠ h.event.id :=
      ⟨hloop, fun e' he' => by cases he'⟩
    show (if s₁.phase = .loop ∧ ∀ e' ∈ s₁.pipe.take 0, e'.id ≠ h.event.id then some s₂ else none) = some s₂
    exact if_pos hcond
  have hget : s₂.threads.locals[s.workers.length]? = some h.event.worker := List.getElem?_concat_length
  obtain ⟨ok, halone⟩ := alone_worker d s.threads.shared h.event
  obtain ⟨k, hk⟩ := Threads.run_alone 3 s₂.threads s.workers.length h.event.worker hget
  have hshared : s₂.threads.shared = s.threads.shared := rfl
  have hset : s₂.threads.locals.set s.workers.length ⟨h.event.id.id, .done ok⟩ =
      s.workers ++ [⟨h.event.id.id, .done ok⟩] := by
    show (s.workers ++ [h.event.worker]).set _ _ = _
    rw [List.set_append_right _ _ (Nat.le_refl _), Nat.sub_self]
    rfl
  rw [hshared, halone, hset] at hk
  let s₃ : System := { s₂ with
    threads := ⟨handle d s.threads.shared h.event, s.workers ++ [⟨h.event.id.id, .done ok⟩]⟩ }
  refine ⟨k, s₃, ?_, ⟨rfl, fun w hw => ?_⟩, hloop, rfl, rfl⟩
  · show Steps.run System.step s _ = _
    rw [Steps.run_cons, h₁, Option.bind_some, Steps.run_cons, h₂, Option.bind_some]
    exact run_worker s₂ s.workers.length k hk
  · rcases List.mem_append.1 hw with hw | hw
    · exact hdone w hw
    · obtain rfl := List.mem_singleton.1 hw
      rfl

end ControlPlane
end CgroupGuard
