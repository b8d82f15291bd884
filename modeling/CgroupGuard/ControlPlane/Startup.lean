import CgroupGuard.ControlPlane.Bootstrap
/-!
# Startup — what is tracked when the control plane has started

`map_ensure` takes the pinned map as it is and nothing takes a key out of it but `remove` and `flush`, which go by
`_store`, empty in a new process.  `bootstrap` adds the live runs to what is there (`recovered_keys`).

`docker ps` lists what runs before it, `docker events` prints what happens after the subscription, and the threads of
`bootstrap` are joined in between.  A container that starts there is in neither, and is never tracked
(`allTracked_iff`).
-/
namespace CgroupGuard
namespace ControlPlane

/-! ## Over a map an earlier process left -/

/-- **After `map_ensure` and `bootstrap`, the keys are those left over and the running containers' cgroup ids**,
however the threads of `bootstrap` interleave. -/
theorem recovered_keys (d : Docker) (pinned : Option CgroupFilter) (acts : List Act) (s : System)
    (hacts : Steps.Always System.step Undisturbed (System.boot d pinned) acts)
    (hrun : (System.boot d pinned).run acts = some s) (hshort : d.ShortsDistinct) (hdone : s.phase = .subscribe)
    (g : UInt64) : g ∈ s.fd.keys ↔ g ∈ (mapEnsure pinned).keys ∨ ∃ c, d.running.lookup c = some g := by
  obtain ⟨hdock, hmissed⟩ := undisturbed_run d pinned acts s hacts hrun
  rw [← hdock] at hshort
  obtain ⟨ht, hcov⟩ := tracking_run d pinned acts s (hacts.imp fun _ _ => startup_of_undisturbed) hrun hshort
  rw [hmissed] at hcov
  have hkeys := keys_at_rest ht hcov hshort (atRest_of_subscribe hrun hdone) (by rw [hdone]; decide) g
  rwa [hdock] at hkeys

def staleMap : CgroupFilter := BoundedMap.empty.put 9 1

def recovery : List Act := [.main, .worker 0, .worker 0, .worker 0, .main]

def recovered : System := ((System.boot oneRunning (some staleMap)).run recovery).get (by decide)

theorem recovered_keys_stale :
    Steps.Always System.step Undisturbed (System.boot oneRunning (some staleMap)) recovery ∧
      ∀ g, g ∈ recovered.fd.keys ↔ g ∈ staleMap.keys ∨ ∃ c, oneRunning.running.lookup c = some g := by
  have hacts : Steps.Always System.step Undisturbed (System.boot oneRunning (some staleMap)) recovery := by decide
  exact ⟨hacts, recovered_keys oneRunning (some staleMap) recovery recovered hacts (Option.some_get (by decide)).symm
    (by decide) (by decide)⟩

/-- **The stale key is still there**, and no running container's. -/
theorem recovered_not_only_running :
    Steps.Always System.step Undisturbed (System.boot oneRunning (some staleMap)) recovery ∧
      (System.boot oneRunning (some staleMap)).run recovery = some recovered ∧ recovered.phase = .subscribe ∧
      ¬ ∀ g, g ∈ recovered.fd.keys ↔ ∃ c, oneRunning.running.lookup c = some g := by
  refine ⟨by decide, (Option.some_get (by decide)).symm, by decide, fun h => ?_⟩
  obtain ⟨c, hc⟩ := (h 9).1 (by decide)
  have howner := oneRunning.owned c 9 hc
  rw [show oneRunning.owner.lookup 9 = none by decide] at howner
  cases howner

/-! ## The gap between the snapshot and the subscription -/

def AllTracked (s : System) : Prop := ∀ c cgid, s.docker.running.lookup c = some cgid → cgid ∈ s.fd.keys

/-- **Once the started threads have finished, every running container is tracked exactly when none started between
the snapshot and the subscription**, but for one whose cgroup id the map held from before. -/
theorem allTracked_iff (d : Docker) (pinned : Option CgroupFilter) (acts : List Act) (s : System)
    (hacts : Steps.Always System.step Startup (System.boot d pinned) acts)
    (hrun : (System.boot d pinned).run acts = some s) (hshort : s.docker.ShortsDistinct) (hloop : s.phase = .loop)
    (hrest : s.AtRest) :
    AllTracked s ↔ ∀ c ∈ missed (System.boot d pinned) acts, ∀ cgid, s.docker.running.lookup c = some cgid →
      cgid ∈ (mapEnsure pinned).keys := by
  obtain ⟨ht, hcov⟩ := tracking_run d pinned acts s hacts hrun hshort
  have hps : s.phase ≠ .ps := by rw [hloop]; decide
  constructor
  · intro hall c hc cgid hl
    obtain ⟨-, -, hworkers, -⟩ := hcov.apart c hc
    refine ((ht.keys cgid).1 (hall c cgid hl)).resolve_right (fun ⟨cid, hcid⟩ => ?_)
    -- the entry is of the run of `c` itself, so that a thread names it
    obtain ⟨⟨c', hc', hname⟩, w, hw, hwcid⟩ := ht.stored cid cgid hcid
    obtain rfl : c = c' := Option.some.inj ((s.docker.owned c cgid hl).symm.trans (s.docker.owned c' cgid hc'))
    exact hworkers w hw (hwcid ▸ hname)
  · intro hmissed c cgid hc
    refine (ht.keys cgid).2 ?_
    by_cases hmem : c ∈ missed (System.boot d pinned) acts
    · exact .inl (hmissed c hmem cgid hc)
    · obtain ⟨cid, hcid, -⟩ := exists_entry_at_rest ht hcov hshort hrest hps hc hmem
      exact .inr ⟨cid, hcid⟩

def startup : List Act :=
  [.main, .worker 0, .worker 0, .worker 0, .main, .main, .happen (.start (idOf 'b') 6), .read 0, .worker 1, .worker 1,
    .worker 1]

def started : System := ((System.boot oneRunning none).run startup).get (by decide)

theorem allTracked_iff_started :
    Steps.Always System.step Startup (System.boot oneRunning none) startup ∧
      (AllTracked started ↔ ∀ c ∈ missed (System.boot oneRunning none) startup, ∀ cgid,
        started.docker.running.lookup c = some cgid → cgid ∈ (mapEnsure none).keys) := by
  have hacts : Steps.Always System.step Startup (System.boot oneRunning none) startup := by decide
  exact ⟨hacts, allTracked_iff oneRunning none startup started hacts (Option.some_get (by decide)).symm (by decide)
    (by decide) (by decide)⟩

/-- A container starts while `bootstrap` joins its threads. -/
def gap : List Act := [.main, .happen (.start (idOf 'a') 5), .main, .main]

def afterGap : System := ((System.boot Docker.init none).run gap).get (by decide)

theorem not_allTracked_afterGap :
    Steps.Always System.step Startup (System.boot Docker.init none) gap ∧
      (System.boot Docker.init none).run gap = some afterGap ∧ afterGap.phase = .loop ∧ afterGap.AtRest ∧
      ¬ AllTracked afterGap :=
  ⟨by decide, (Option.some_get (by decide)).symm, by decide, by decide,
    fun h => absurd (h (idOf 'a') 5 (by decide)) (by decide)⟩

end ControlPlane
end CgroupGuard
