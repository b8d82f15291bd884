import CgroupGuard.ControlPlane.Bootstrap
import CgroupGuard.ControlPlane.Shutdown
/-!
# Sessions — one control plane after another over the pinned map

A process ends in `_shutdown`, or without it: killed, or returning from `event_loop`.  The map stays pinned and the
next process takes it as it is, with an empty `_store`.  What a process did not take out is left for good, once its
container is gone (`removable_iff`), and a process that is shut down in time leaves nothing (`left_empty`).
-/
namespace CgroupGuard
namespace ControlPlane

/-- Between two processes, or during one; `flush` is how far its `_shutdown` is. -/
inductive Site where
  | down (d : Docker) (pinned : Option CgroupFilter)
  | up (s : System) (flush : Flush)

/-- `signal` is the snapshot of `flush`: another signal interrupts the handler and takes its own, and the interrupted
one does not go on, since `sys.exit` ends the process.  `crash` is any other end. -/
inductive SiteAct where
  | boot
  | happen (h : Happening)
  | act (a : Act)
  | signal
  | flush
  | crash
  deriving DecidableEq, Repr

def Act.besideMain : Act → Bool
  | .happen _ => true
  | .main => false
  | .read _ => false
  | .worker _ => true

def Flush.isIdle : Flush → Bool
  | .idle => true
  | _ => false

namespace Site

def docker : Site → Docker
  | .down d _ => d
  | .up s _ => s.docker

def map : Site → CgroupFilter
  | .down _ pinned => mapEnsure pinned
  | .up s _ => s.fd

def step (site : Site) (a : SiteAct) : Option Site :=
  match site, a with
  | .down d pinned, .boot => some (.up (System.boot d pinned) .idle)
  | .down d pinned, .happen h => (d.step h).map (.down · pinned)
  | .up s flush, .act a => if flush.isIdle || a.besideMain then (s.step a).map (.up · flush) else none
  | .up s _, .signal => some (.up s (.deleting s.store.entries.reverse))
  | .up s (.deleting (item :: items)), .flush =>
    let fd := (mapDelete s.fd item.2 false).1
    some (.up { s with threads := { s.threads with shared := { s.threads.shared with fd := fd } } } (.deleting items))
  | .up s (.deleting []), .flush =>
    some (.up { s with threads := { s.threads with shared := { s.threads.shared with store := ∅ } } } .cleared)
  -- `os.close` and `sys.exit`
  | .up s .cleared, .flush => some (.down s.docker (some s.fd))
  | .up s _, .crash => some (.down s.docker (some s.fd))
  | _, _ => none

abbrev run (site : Site) (acts : List SiteAct) : Option Site := Steps.run step site acts

end Site

/-! ## Keys of containers that are gone -/

def Stale (g : UInt64) (d : Docker) : Prop := g ∈ d.owner ∧ ∀ c, d.running.lookup c ≠ some g

theorem Stale.step {g : UInt64} {d d' : Docker} {h : Happening} (hg : Stale g d) (hd : d.step h = some d') :
    Stale g d' := by
  obtain ⟨c₀, ho⟩ := AList.exists_lookup hg.1
  refine ⟨AList.mem_of_lookup (Docker.owner_of_step hd ho), fun c hc => ?_⟩
  cases Docker.change_of_step hd c with
  | started cgid hold hfresh hnew =>
    obtain rfl : cgid = g := Option.some.inj (hnew.symm.trans hc)
    exact hfresh hg.1
  | died hold hnew => exact hnew (AList.mem_of_lookup hc)
  | same _ hl hown => exact hg.2 c (hl ▸ hc)

/-- The key is there and nothing in the process knows of it. -/
structure LeftBehind (g : UInt64) (s : System) : Prop where
  key : g ∈ s.fd.keys
  stale : Stale g s.docker
  entry : ∀ cid, s.store.lookup cid ≠ some g
  thread : ∀ w ∈ s.workers, w.pc ≠ .addCommit g ∧ w.pc ≠ .removeDelete g

theorem forgotten_boot {g : UInt64} {d : Docker} {pinned : Option CgroupFilter} (hkey : g ∈ (mapEnsure pinned).keys)
    (hg : Stale g d) : LeftBehind g (System.boot d pinned) :=
  ⟨hkey, hg, fun _ h => (nomatch h), fun _ h => (nomatch h)⟩

theorem LeftBehind.worker {g : UInt64} {s : System} (hs : LeftBehind g s) {i : Nat} {cid : String} {pc pc' : Pc}
    {m : ContainerMap} (hw : s.workers[i]? = some ⟨cid, pc⟩)
    (hm : Moves s.docker.resolveCgid false s.threads.shared cid pc m pc') :
    LeftBehind g { s with threads := ⟨m, s.workers.set i ⟨cid, pc'⟩⟩ } := by
  have hpc := hs.thread _ (List.mem_of_getElem? hw)
  have hsame : pc' ≠ .addCommit g ∧ pc' ≠ .removeDelete g →
      LeftBehind g { s with threads := ⟨s.threads.shared, s.workers.set i ⟨cid, pc'⟩⟩ } := fun hnew =>
    ⟨hs.key, hs.stale, hs.entry, Threads.forall_mem_set hs.thread hnew⟩
  cases hm with
  | present _ hadd hmem => exact hsame ⟨nofun, nofun⟩
  | absent hmem => exact hsame ⟨nofun, nofun⟩
  | unresolved hr => exact hsame ⟨nofun, nofun⟩
  | resolved cgid hr =>
    -- a live run's
    obtain ⟨c, -, hc⟩ := exists_of_resolveCgid hr
    exact hsame ⟨fun he => hs.stale.2 c (by cases he; exact hc), nofun⟩
  | refused cgid hmem hfd => exact hsame ⟨nofun, nofun⟩
  | unknown hl => exact hsame ⟨nofun, nofun⟩
  | commit cgid fd hmem hfd =>
    refine ⟨(mem_keys_of_mapInsert hfd g).2 (.inr hs.key), hs.stale, fun cid' hg => ?_,
      Threads.forall_mem_set hs.thread ⟨nofun, nofun⟩⟩
    rcases AList.lookup_insert_eq_some hg with ⟨-, rfl⟩ | hg
    · exact hpc.1 rfl
    · exact hs.entry cid' hg
  | pop cgid hl =>
    refine ⟨hs.key, hs.stale, fun cid' hg => hs.entry cid' (AList.lookup_erase_eq_some hg).2,
      Threads.forall_mem_set hs.thread ⟨nofun, fun he => ?_⟩⟩
    cases he
    exact hs.entry cid hl
  | delete cgid fd ok hfd =>
    have hne : g ≠ cgid := fun he => hpc.2 (by rw [he])
    exact ⟨(mem_keys_of_mapDelete hfd g).2 ⟨hne, hs.key⟩, hs.stale, hs.entry,
      Threads.forall_mem_set hs.thread ⟨nofun, nofun⟩⟩

theorem LeftBehind.step {g : UInt64} {s t : System} {a : Act} (hs : LeftBehind g s) (h : s.step a = some t) :
    LeftBehind g t := by
  cases stepped_of_step h with
  | happen hp d hd => exact ⟨hs.key, hs.stale.step hd, hs.entry, hs.thread⟩
  | ps hph =>
    refine ⟨hs.key, hs.stale, hs.entry, List.forall_mem_append.2 ⟨hs.thread, fun w hw => ?_⟩⟩
    obtain ⟨cid, -, rfl⟩ := List.mem_map.1 hw
    exact ⟨nofun, nofun⟩
  | join hph hdone => exact ⟨hs.key, hs.stale, hs.entry, hs.thread⟩
  | subscribe hph => exact ⟨hs.key, hs.stale, hs.entry, hs.thread⟩
  | read n e hph he =>
    refine ⟨hs.key, hs.stale, hs.entry, List.forall_mem_append.2 ⟨hs.thread, List.forall_mem_singleton.2 ?_⟩⟩
    rw [e.worker_eq]
    split <;> exact ⟨nofun, nofun⟩
  | worker i cid pc pc' m hw hm => exact hs.worker hw hm

/-- The same between two processes, and of what `flush` is still to delete. -/
def Site.LeftBehind (g : UInt64) : Site → Prop
  | .down d pinned => g ∈ (mapEnsure pinned).keys ∧ Stale g d
  | .up s flush => ControlPlane.LeftBehind g s ∧ g ∉ flush.remaining

theorem Site.LeftBehind.key {g : UInt64} {site : Site} (h : site.LeftBehind g) : g ∈ site.map.keys := by
  cases site with
  | down d pinned => exact h.1
  | up s flush => exact h.1.key

/-- **No act of any process takes the key out.** -/
theorem Site.LeftBehind.step {g : UInt64} {site t : Site} {a : SiteAct} (hs : site.LeftBehind g)
    (h : site.step a = some t) : t.LeftBehind g := by
  cases site with
  | down d pinned =>
    cases a with
    | boot => cases h; exact ⟨forgotten_boot hs.1 hs.2, List.not_mem_nil⟩
    | happen hp =>
      obtain ⟨d', hd, rfl⟩ := Option.map_eq_some_iff.1 h
      exact ⟨hs.1, hs.2.step hd⟩
    | _ => cases h
  | up s flush =>
    obtain ⟨hsys, hflush⟩ := hs
    cases a with
    | act a =>
      obtain ⟨-, hstep⟩ := Option.ite_none_right_eq_some.1 h
      obtain ⟨s', hs', rfl⟩ := Option.map_eq_some_iff.1 hstep
      exact ⟨hsys.step hs', hflush⟩
    | signal =>
      cases h
      refine ⟨hsys, fun hmem => ?_⟩
      obtain ⟨⟨cid, g'⟩, hitem, rfl⟩ := List.mem_map.1 hmem
      exact hsys.entry cid (AList.mem_lookup_iff.2 (List.mem_reverse.1 hitem))
    | flush =>
      cases flush with
      | deleting items =>
        cases items with
        | nil => cases h; exact ⟨⟨hsys.key, hsys.stale, fun cid hl => (nomatch hl), hsys.thread⟩, List.not_mem_nil⟩
        | cons item items =>
          cases h
          have hne : g ≠ item.2 := fun he => hflush (he ▸ List.mem_cons_self)
          exact ⟨⟨(mem_keys_of_mapDelete rfl g).2 ⟨hne, hsys.key⟩, hsys.stale, hsys.entry, hsys.thread⟩,
            fun hmem => hflush (List.mem_cons_of_mem _ hmem)⟩
      | cleared => cases h; exact ⟨hsys.key, hsys.stale⟩
      | _ => cases h
    | crash => cases flush <;> cases h <;> exact ⟨hsys.key, hsys.stale⟩
    | _ => cases h

/-! ## Keys that can still be taken out -/

theorem exists_run_stopping (pinned : Option CgroupFilter) (keep : ContainerId → Prop) : ∀ (n : Nat) (d : Docker),
    d.running.keys.length = n → ∃ acts d', Site.run (.down d pinned) acts = some (.down d' pinned) ∧
      d'.owner = d.owner ∧ (∀ c ∈ d'.running, keep c) ∧ ∀ c, keep c → d'.running.lookup c = d.running.lookup c
  | n, d, hn => by
    by_cases hall : ∀ c ∈ d.running, keep c
    · exact ⟨[], d, rfl, rfl, hall, fun _ _ => rfl⟩
    · push Not at hall
      obtain ⟨c₀, hc₀, hnot⟩ := hall
      obtain ⟨d₁, hd₁⟩ : ∃ d₁, d.step (.die c₀) = some d₁ := ⟨_, if_pos hc₀⟩
      obtain ⟨hown, hrun⟩ : d₁.owner = d.owner ∧ d₁.running = d.running.erase c₀ := by
        obtain ⟨-, he⟩ := Option.ite_none_right_eq_some.1 hd₁
        cases he
        exact ⟨rfl, rfl⟩
      have hlen : d₁.running.keys.length < n := by
        rw [hrun, AList.keys_erase, List.length_erase_of_mem (AList.mem_keys.1 hc₀), hn]
        have hpos := List.length_pos_of_mem (AList.mem_keys.1 hc₀)
        omega
      obtain ⟨acts, d', hacts, hown', honly, hsame⟩ := exists_run_stopping pinned keep _ d₁ rfl
      refine ⟨.happen (.die c₀) :: acts, d', ?_, hown'.trans hown, honly, fun c hc => ?_⟩
      · have hstep : Site.step (.down d pinned) (.happen (.die c₀)) = some (.down d₁ pinned) := by
          show (d.step (.die c₀)).map _ = _
          rw [hd₁]
          rfl
        rw [Site.run, Steps.run_cons, hstep]
        exact hacts
      · have hne : c ≠ c₀ := fun he => hnot (he ▸ hc)
        rw [hsame c hc, hrun, AList.lookup_erase_ne hne]
  termination_by n => n

theorem keys_eq_singleton {d : Docker} {c : ContainerId} (hc : c ∈ d.running) (honly : ∀ c' ∈ d.running, c' = c) :
    d.running.keys = [c] := by
  refine List.perm_singleton.1 ((List.perm_ext_iff_of_nodup d.running.keys_nodup (List.nodup_singleton c)).2 ?_)
  intro c'
  rw [List.mem_singleton]
  exact ⟨fun h => honly c' (AList.mem_keys.2 h), fun h => h ▸ AList.mem_keys.1 hc⟩

theorem removed_of_alone {d : Docker} {c : ContainerId} {g : UInt64} {fd : CgroupFilter} (hkey : g ∈ fd.keys)
    (hl : d.running.lookup c = some g) (honly : ∀ c' ∈ d.running, c' = c) :
    ∃ acts t, Site.run (.down d (some fd)) acts = some t ∧ g ∉ t.map.keys := by
  have hkeys := keys_eq_singleton (AList.mem_of_lookup hl) honly
  have hps : d.ps = [c.short] := by unfold Docker.ps; rw [hkeys]; rfl
  have hshort : d.ShortsDistinct := by unfold Docker.ShortsDistinct; rw [hps]; exact List.nodup_singleton _
  have hres : d.resolveCgid c.short = some g := (resolveCgid_short hshort (AList.mem_of_lookup hl)).trans hl
  have hins : mapInsert fd g false = (fd.put g 1, true) := mapInsert_of_accepts (.inl hkey)
  have hrun : Site.run (.down d (some fd))
      [.boot, .act .main, .act (.worker 0), .act (.worker 0), .act (.worker 0), .signal, .flush] =
        some (.up ⟨d, .join, [], ⟨⟨(mapDelete (fd.put g 1) g false).1, (∅ : AList _).insert c.short g⟩,
          [⟨c.short, .done true⟩]⟩⟩ (.deleting [])) := by
    simp [Site.step, System.step, System.boot, ContainerMap.init, mapEnsure, hps, Threads.stepAt, Worker.adding,
      Worker.step, hres, hins, Flush.isIdle]
    rfl
  exact ⟨_, _, hrun, fun hmem => ((mem_keys_of_mapDelete rfl g).1 hmem).1 rfl⟩

/-- **A key left in the map can ever be taken out if and only if** its cgroup is of a running container, or no container
was given it yet: no run of Docker and of any number of control planes, each ended in any way, takes out another. -/
theorem removable_iff (d : Docker) (fd : CgroupFilter) (g : UInt64) (hkey : g ∈ fd.keys) :
    (∃ acts t, Site.run (.down d (some fd)) acts = some t ∧ g ∉ t.map.keys) ↔
      (∃ c, d.running.lookup c = some g) ∨ g ∉ d.owner := by
  constructor
  · rintro ⟨acts, t, hrun, hgone⟩
    refine Classical.byContradiction (fun hnot => ?_)
    obtain ⟨hdead, howned⟩ := not_or.1 hnot
    have hstart : Site.LeftBehind g (.down d (some fd)) :=
      ⟨hkey, Classical.not_not.1 howned, fun c hc => hdead ⟨c, hc⟩⟩
    have ht : t.LeftBehind g := Steps.run_invariant (Site.LeftBehind g) hstart (fun _ _ _ hm ha => hm.step ha) hrun
    exact hgone ht.key
  · rintro (⟨c, hc⟩ | hfresh)
    · obtain ⟨acts, d', hacts, -, honly, hsame⟩ := exists_run_stopping (some fd) (· = c) _ d rfl
      obtain ⟨more, t, hmore, hgone⟩ := removed_of_alone hkey ((hsame c rfl).trans hc) honly
      exact ⟨acts ++ more, t, Steps.run_append_of_run hacts hmore, hgone⟩
    · -- a container is started in it
      obtain ⟨acts, d', hacts, hown, hnone, -⟩ := exists_run_stopping (some fd) (fun _ => False) _ d rfl
      have hempty : idOf 'a' ∉ d'.running := hnone _
      obtain ⟨d₁, hd₁⟩ : ∃ d₁, d'.step (.start (idOf 'a') g) = some d₁ := ⟨_, dif_pos ⟨hempty, hown ▸ hfresh⟩⟩
      obtain ⟨-, -, hl⟩ := Docker.started hd₁
      have honly : ∀ c ∈ d₁.running, c = idOf 'a' := fun c hc => by
        refine Classical.byContradiction (fun hne => ?_)
        obtain ⟨g', hg'⟩ := AList.exists_lookup hc
        rw [Docker.lookup_of_other hd₁ hne] at hg'
        exact hnone c (AList.mem_of_lookup hg')
      have hstart : Site.run (.down d' (some fd)) [.happen (.start (idOf 'a') g)] = some (.down d₁ (some fd)) := by
        show ((d'.step (.start (idOf 'a') g)).map _).bind _ = _
        rw [hd₁]
        rfl
      obtain ⟨more, t, hmore, hgone⟩ := removed_of_alone hkey hl honly
      exact ⟨_, t, Steps.run_append_of_run hacts (Steps.run_append_of_run hstart hmore), hgone⟩

def stopped : Docker := (oneRunning.step (.die (idOf 'a'))).get (by decide)

def stale5 : CgroupFilter := BoundedMap.empty.put 5 1

theorem removable_iff_stopped :
    5 ∈ stale5.keys ∧ ¬ ∃ acts t, Site.run (.down stopped (some stale5)) acts = some t ∧ 5 ∉ t.map.keys := by
  refine ⟨by decide, fun h => ?_⟩
  rcases (removable_iff stopped stale5 5 (by decide)).1 h with ⟨c, hc⟩ | hfresh
  · have hnone : stopped.running.keys = [] := by decide
    have hmem := AList.mem_keys.1 (AList.mem_of_lookup hc)
    rw [hnone] at hmem
    exact List.not_mem_nil hmem
  · exact hfresh (by decide)

/-! ## Processes that are shut down in time -/

abbrev System.pool (s : System) : Pool := s.threads

namespace Site

/-- From the snapshot on nothing is inserted that `flush` is not still to delete, no deletion is cut off by the end of
the process, and there is no other end while a key is left. -/
def Timely (site : Site) : SiteAct → Prop
  | .act a =>
    match site with
    | .up s (.deleting items) => ∀ g ∈ s.inserts a, g ∈ items.map Sigma.snd
    | .up s .cleared => s.inserts a = none
    | _ => True
  | .flush =>
    match site with
    | .up s .cleared => ∀ g ∈ s.fd.keys, ¬ s.pool.Deleting g
    | _ => True
  | .crash => site.map.keys = []
  | _ => True

instance (site : Site) (a : SiteAct) : Decidable (site.Timely a) :=
  match site, a with
  | .up s (.deleting items), .act a => Option.decidableForallMem (p := (· ∈ Flush.remaining (.deleting items)))
    (s.inserts a)
  | .up s .cleared, .act a => inferInstanceAs (Decidable (s.inserts a = none))
  | .down _ _, .act _ | .up _ .idle, .act _ | .up _ .closed, .act _ => .isTrue trivial
  | .up s .cleared, .flush => List.decidableBAll (¬ s.pool.Deleting ·) s.fd.keys
  | .down _ _, .flush | .up _ .idle, .flush | .up _ (.deleting _), .flush | .up _ .closed, .flush => .isTrue trivial
  | site, .crash => inferInstanceAs (Decidable (site.map.keys = []))
  | _, .boot | _, .happen _ | _, .signal => .isTrue trivial

def Clean : Site → Prop
  | .down _ pinned => (mapEnsure pinned).keys = []
  | .up s .idle => s.pool.Accounted
  | .up s (.deleting items) => s.pool.Accounted ∧ ∀ g ∈ s.fd.keys, g ∈ items.map Sigma.snd ∨ s.pool.Deleting g
  | .up s .cleared => s.pool.Accounted ∧ ∀ g ∈ s.fd.keys, s.pool.Deleting g
  | .up _ .closed => False

end Site

theorem call_of_step {s t : System} {a : Act} (h : s.step a = some t) :
    (∃ ws, t.pool = ⟨s.pool.shared, s.pool.locals ++ ws⟩) ∨
      ∃ c, s.pool.step false c = some t.pool ∧ s.pool.inserts c = s.inserts a := by
  cases stepped_of_step h with
  | happen hp d hd => exact .inl ⟨[], by rw [List.append_nil]⟩
  | ps hph => exact .inl ⟨_, rfl⟩
  | join hph hdone => exact .inl ⟨[], by rw [List.append_nil]⟩
  | subscribe hph => exact .inl ⟨[], by rw [List.append_nil]⟩
  | read n e hph he => exact .inl ⟨_, rfl⟩
  | worker i cid pc pc' m hw hm =>
    obtain ⟨th, hth, ht⟩ := Option.map_eq_some_iff.1 h
    obtain ⟨w, r, hw', hr, rfl⟩ := Threads.stepAt_eq_some hth
    refine .inr ⟨.worker i (s.docker.resolveCgid w.cid), ?_, rfl⟩
    have hstep := Threads.stepAt_of_step hw' ((Worker.step_resolved _ false _ _).trans hr)
    rw [← ht]
    exact hstep

theorem Pool.Deleting.appends {p : Pool} {g : UInt64} (h : p.Deleting g) (ws : List Worker) :
    Pool.Deleting ⟨p.shared, p.locals ++ ws⟩ g := by
  obtain ⟨w, hw, hpc⟩ := h
  exact ⟨w, List.mem_append_left _ hw, hpc⟩

theorem accounted_of_step {s t : System} {a : Act} (hs : s.pool.Accounted) (h : s.step a = some t) :
    t.pool.Accounted := by
  rcases call_of_step h with ⟨ws, ht⟩ | ⟨c, hc, -⟩
  · rw [ht]
    exact fun g hg => (hs g hg).imp id (Pool.Deleting.appends · ws)
  · exact Pool.Accounted.step hs hc

theorem left_of_step {s t : System} {a : Act} (rest : List UInt64) (h : s.step a = some t)
    (hins : ∀ g ∈ s.inserts a, g ∈ rest) (hs : ∀ g ∈ s.fd.keys, g ∈ rest ∨ s.pool.Deleting g) :
    ∀ g ∈ t.fd.keys, g ∈ rest ∨ t.pool.Deleting g := by
  rcases call_of_step h with ⟨ws, ht⟩ | ⟨c, hc, hcall⟩
  · show ∀ g ∈ t.pool.fd.keys, g ∈ rest ∨ t.pool.Deleting g
    rw [ht]
    exact fun g hg => (hs g hg).imp id (Pool.Deleting.appends · ws)
  · exact Process.left_of_call hc (hcall ▸ hins) hs

theorem Site.Clean.accounted {s : System} {flush : Flush} (h : Site.Clean (.up s flush)) : s.pool.Accounted := by
  cases flush with
  | idle => exact h
  | deleting items => exact h.1
  | cleared => exact h.1
  | closed => exact h.elim

theorem Site.Clean.act {s t : System} {flush : Flush} {a : Act} (hs : Site.Clean (.up s flush))
    (htimely : Site.Timely (.up s flush) (.act a)) (h : s.step a = some t) : Site.Clean (.up t flush) := by
  have hacc := accounted_of_step hs.accounted h
  cases flush with
  | idle => exact hacc
  | deleting items => exact ⟨hacc, left_of_step _ h htimely hs.2⟩
  | cleared =>
    have hnone : s.inserts a = none := htimely
    have hleft := left_of_step [] h (by rw [hnone]; exact nofun) (fun g hg => .inr (hs.2 g hg))
    exact ⟨hacc, fun g hg => (hleft g hg).resolve_left List.not_mem_nil⟩
  | closed => exact hs.elim

/-- **An act in time keeps what the keys are of.** -/
theorem Site.Clean.step {site t : Site} {a : SiteAct} (hs : site.Clean) (htimely : site.Timely a)
    (h : site.step a = some t) : t.Clean := by
  cases site with
  | down d pinned =>
    have hempty : ∀ g, g ∉ (mapEnsure pinned).keys := fun g hg => by
      rw [show (mapEnsure pinned).keys = [] from hs] at hg
      exact List.not_mem_nil hg
    cases a with
    | boot => cases h; exact fun g hg => absurd hg (hempty g)
    | happen hp =>
      obtain ⟨d', hd, rfl⟩ := Option.map_eq_some_iff.1 h
      exact hs
    | _ => cases h
  | up s flush =>
    cases a with
    | act a =>
      obtain ⟨-, hstep⟩ := Option.ite_none_right_eq_some.1 h
      obtain ⟨s', hs', rfl⟩ := Option.map_eq_some_iff.1 hstep
      exact hs.act htimely hs'
    | signal =>
      cases h
      exact ⟨hs.accounted, fun g hg => (hs.accounted g hg).imp Process.mem_snapshot_of_stores id⟩
    | flush =>
      cases flush with
      | deleting items =>
        cases items with
        | nil =>
          cases h
          have hleft : ∀ g ∈ s.fd.keys, s.pool.Deleting g := fun g hg =>
            (hs.2 g hg).resolve_left List.not_mem_nil
          exact ⟨fun g hg => .inr (hleft g hg), hleft⟩
        | cons item items =>
          cases h
          refine ⟨fun g hg => hs.1 g ((mem_keys_of_mapDelete rfl g).1 hg).2, fun g hg => ?_⟩
          obtain ⟨hne, hold⟩ := (mem_keys_of_mapDelete rfl g).1 hg
          exact (hs.2 g hold).imp (fun hmem => (List.mem_cons.1 hmem).resolve_left hne) id
      | cleared =>
        cases h
        exact List.eq_nil_iff_forall_not_mem.2 (fun g hg => htimely g hg (hs.2 g hg))
      | _ => cases h
    | crash =>
      cases flush <;> cases h <;> exact htimely
    | _ => cases h

/-- **Processes that are shut down in time leave nothing to the next**, however many there are and whatever Docker does
meanwhile. -/
theorem left_empty (d : Docker) (pinned : Option CgroupFilter) (hempty : (mapEnsure pinned).keys = [])
    (acts : List SiteAct) (t : Site) (hacts : Steps.Always Site.step Site.Timely (.down d pinned) acts)
    (hrun : Site.run (.down d pinned) acts = some t) (d' : Docker) (pinned' : Option CgroupFilter)
    (hdown : t = .down d' pinned') : (mapEnsure pinned').keys = [] := by
  subst hdown
  have ht : Site.Clean (.down d' pinned') :=
    Steps.always_induction (fun _ t => t.Clean) hempty (fun _ m a t _ hm ha hstep => hm.step ha hstep) acts _ hacts hrun
  exact ht

def twoSessions : List SiteAct :=
  [.boot, .act .main, .act (.worker 0), .act (.worker 0), .act (.worker 0), .signal, .flush, .flush, .flush,
    .boot, .act .main, .act (.worker 0), .act (.worker 0), .act (.worker 0), .signal, .act (.happen (.die (idOf 'a'))),
    .flush, .flush, .flush]

def afterTwoSessions : Site := (Site.run (.down oneRunning none) twoSessions).get (by decide)

theorem left_empty_twoSessions :
    (mapEnsure none).keys = [] ∧ Steps.Always Site.step Site.Timely (.down oneRunning none) twoSessions ∧
      afterTwoSessions = .down afterTwoSessions.docker (some afterTwoSessions.map) ∧
      afterTwoSessions.map.keys = [] := by
  have hacts : Steps.Always Site.step Site.Timely (.down oneRunning none) twoSessions := by decide
  have hdown : afterTwoSessions = .down afterTwoSessions.docker (some afterTwoSessions.map) := rfl
  have hempty := left_empty oneRunning none rfl twoSessions afterTwoSessions hacts (Option.some_get (by decide)).symm
    afterTwoSessions.docker (some afterTwoSessions.map) hdown
  exact ⟨rfl, hacts, hdown, hempty⟩

end ControlPlane
end CgroupGuard
