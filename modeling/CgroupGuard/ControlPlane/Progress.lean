import CgroupGuard.ControlPlane.Locking
import CgroupGuard.Lib.Measure
/-!
# Progress — every call returns, or `_shutdown` ends the process

The steps that threads and handlers have left are bounded, and while one of them has a step left somebody can take it,
unless a signal came into a `with` of the main thread: then the lock is never given up again (`winds_down_iff`).  The
end of the process cuts the calls off that have not returned.
-/
namespace CgroupGuard
namespace ControlPlane
namespace Locking

/-- A step of what is there already: no signal comes and no thread is started. -/
inductive Progress where
  | worker (i : Nat) (resolved : Option UInt64) (fault : Bool)
  | main (fault : Bool)
  deriving DecidableEq, Repr

def Progress.act : Progress → Act
  | .worker i resolved fault => .call (.worker i resolved) fault
  | .main fault => .main fault

def advance (s : State) (p : Progress) : Option State := step s p.act

/-! ## Who is inside -/

/-- One thread is inside its `with` at most, and the lock is its; the main thread has it in the handler on top, or in
one that a signal has interrupted there. -/
structure Exclusive (s : State) : Prop where
  holder : ∀ i, s.lock = some (.worker i) → ∃ t ∈ s.workers[i]?, locked t.worker.pc = true ∧ t.inside = true
  inside : ∀ i t, s.workers[i]? = some t → t.inside = true → s.lock = some (.worker i)
  main : s.lock = some .main → ∃ f ∈ s.stack.head?, f.holds = true ∨ f = .enter
  holds : ∀ f ∈ s.stack.head?, f.holds = true → s.lock = some .main

theorem exclusive_start (m : ContainerMap) : Exclusive (start m) := ⟨nofun, nofun, nofun, nofun⟩

section
variable {s s' : State}

theorem Exclusive.startThread {w : Worker} (hs : Exclusive s) (h : startThread s w = some s') : Exclusive s' := by
  unfold Locking.startThread at h
  split at h
  · cases h
    refine ⟨fun i hi => ?_, fun i t ht hin => ?_, hs.main, hs.holds⟩
    · obtain ⟨t, ht, hin⟩ := hs.holder i hi
      exact ⟨t, List.getElem?_append_left (List.getElem?_eq_some_iff.1 ht).1 ▸ ht, hin⟩
    · rcases Nat.lt_or_ge i s.workers.length with hlt | hge
      · rw [List.getElem?_append_left hlt] at ht
        exact hs.inside i t ht hin
      · rw [List.getElem?_append_right hge] at ht
        obtain rfl := List.mem_singleton.1 (List.mem_of_getElem? ht)
        cases hin
  · cases h

theorem Exclusive.stepWorker {i : Nat} {resolved : Option UInt64} {fault : Bool} (hs : Exclusive s)
    (h : stepWorker s i resolved fault = some s') : Exclusive s' := by
  obtain ⟨t, ht, h⟩ := Option.bind_eq_some_iff.1 h
  have hlt := (List.getElem?_eq_some_iff.1 ht).1
  split at h
  · rename_i hwaits
    split at h
    · rename_i hfree
      cases h
      refine ⟨fun j hj => ?_, fun j t' ht' hin => ?_, nofun, fun f hf hhold => ?_⟩
      · cases hj
        exact ⟨_, List.getElem?_set_self hlt, hwaits.1, rfl⟩
      · rcases Threads.getElem?_set ht' with ⟨rfl, -⟩ | ⟨-, ht'⟩
        · rfl
        · exact absurd (hfree.symm.trans (hs.inside j t' ht' hin)) nofun
      · exact absurd (hfree.symm.trans (hs.holds f hf hhold)) nofun
    · cases h
  · rename_i hgoes
    obtain ⟨r, -, rfl⟩ := Option.map_eq_some_iff.1 h
    cases hlocked : locked t.worker.pc with
    | true =>
      have hin : t.inside = true := by simpa [hlocked] using hgoes
      have hlock := hs.inside i t ht hin
      refine ⟨nofun, fun j t' ht' hin' => ?_, nofun, fun f hf hhold => ?_⟩
      · rcases Threads.getElem?_set ht' with ⟨-, rfl⟩ | ⟨hne, ht'⟩
        · cases hin'
        · have hj := hs.inside j t' ht' hin'
          rw [hlock] at hj
          cases hj
          exact absurd rfl hne
      · exact absurd (hlock.symm.trans (hs.holds f hf hhold)) nofun
    | false =>
      refine ⟨fun j hj => ?_, fun j t' ht' hin' => ?_, hs.main, hs.holds⟩
      · obtain ⟨t', ht', hin⟩ := hs.holder j hj
        have hne : i ≠ j := by
          rintro rfl
          obtain rfl : t = t' := Option.some.inj (ht.symm.trans ht')
          rw [hlocked] at hin
          cases hin.1
        exact ⟨t', (List.getElem?_set_ne hne).trans ht', hin⟩
      · rcases Threads.getElem?_set ht' with ⟨-, rfl⟩ | ⟨-, ht'⟩
        · cases hin'
        · exact hs.inside j t' ht' hin'

theorem Exclusive.lock_ne_main {f : Frame} {below : List Frame} (hs : Exclusive s) (hstack : s.stack = f :: below)
    (hf : f.holds = false) (hne : f ≠ .enter) : s.lock ≠ some .main := by
  intro hmain
  obtain ⟨f', hf', hat⟩ := hs.main hmain
  rw [hstack] at hf'
  obtain rfl : f = f' := Option.some.inj hf'
  rcases hat with hhold | hnew
  · rw [hf] at hhold
    cases hhold
  · exact hne hnew

theorem Exclusive.of_top {m : ContainerMap} {f : Frame} {below : List Frame} {lock : Option Holder}
    (hs : Exclusive s) (hlock : lock = none ∧ s.lock = some .main ∨ lock = s.lock ∧ s.lock ≠ some .main)
    (hf : f.holds = false) : Exclusive { s with shared := m, lock := lock, stack := f :: below } := by
  have hnot : ∀ g ∈ (f :: below).head?, g.holds = true → lock = some .main := fun g hg hhold => by
    obtain rfl : f = g := Option.some.inj hg
    rw [hf] at hhold
    cases hhold
  rcases hlock with ⟨rfl, hmain⟩ | ⟨rfl, hother⟩
  · exact ⟨nofun, fun i t ht hin => absurd (hmain.symm.trans (hs.inside i t ht hin)) nofun, nofun, hnot⟩
  · exact ⟨hs.holder, hs.inside, fun hmain => absurd hmain hother, hnot⟩

theorem Exclusive.stepMain {fault : Bool} (hs : Exclusive s) (h : stepMain s fault = some s') : Exclusive s' := by
  have htop : ∀ {f : Frame} {below : List Frame}, s.stack = f :: below → f.holds = true → s.lock = some .main :=
    fun hstack => hs.holds _ (by rw [hstack]; rfl)
  have henter : ∀ {f : Frame} {below : List Frame}, s.lock = none → f.holds = true →
      Exclusive { s with lock := some .main, stack := f :: below } := fun hfree hf =>
    ⟨nofun, fun i t ht hin => absurd (hfree.symm.trans (hs.inside i t ht hin)) nofun, fun _ => ⟨_, rfl, .inl hf⟩,
      fun _ _ _ => rfl⟩
  unfold Locking.stepMain at h
  split at h
  · split at h <;> cases h
    exact ⟨hs.holder, hs.inside, hs.main, hs.holds⟩
  · split at h
    · rename_i hfree
      cases h
      exact henter hfree rfl
    · cases h
  · rename_i hstack
    cases h
    exact hs.of_top (.inl ⟨rfl, htop hstack rfl⟩) rfl
  · rename_i hstack
    cases h
    exact hs.of_top (.inr ⟨rfl, hs.lock_ne_main hstack rfl nofun⟩) rfl
  · rename_i hstack
    cases h
    exact hs.of_top (.inr ⟨rfl, hs.lock_ne_main hstack rfl nofun⟩) rfl
  · split at h
    · rename_i hfree
      cases h
      exact henter hfree rfl
    · cases h
  · rename_i hstack
    cases h
    exact hs.of_top (.inl ⟨rfl, htop hstack rfl⟩) rfl
  · rename_i hstack
    cases h
    have hother := hs.lock_ne_main hstack rfl nofun
    rw [if_neg hother]
    exact ⟨hs.holder, hs.inside, fun hmain => absurd hmain hother, nofun⟩

/-- **Whatever signals come, the threads exclude each other and the main thread.** -/
theorem Exclusive.step {a : Act} (hs : Exclusive s) (h : step s a = some s') : Exclusive s' := by
  obtain ⟨-, h⟩ := alive_of_step h
  cases a with
  | call c fault =>
    cases c with
    | add cid => exact hs.startThread h
    | remove cid => exact hs.startThread h
    | worker i resolved => exact hs.stepWorker h
  | main fault => exact hs.stepMain h
  | signal =>
    cases h
    refine ⟨hs.holder, hs.inside, fun _ => ⟨.enter, rfl, .inr rfl⟩, fun f hf hhold => ?_⟩
    cases hf
    cases hhold

end

theorem exclusive_of_run (m : ContainerMap) {acts : List Act} {s : State}
    (hrun : Steps.run step (start m) acts = some s) : Exclusive s :=
  Steps.run_invariant Exclusive (exclusive_start m) (fun _ _ _ hs h => hs.step h) hrun

/-! ## What is left to do -/

/-- The steps of a thread, the two around each `with` counted. -/
def pcWork : Pc → Nat
  | .addCheck => 5
  | .addResolve => 3
  | .addCommit _ => 2
  | .removePop => 3
  | .removeDelete _ => 1
  | .done _ => 0

def pcEntries : Pc → Nat
  | .addCheck => 1
  | .addResolve => 1
  | .addCommit _ => 1
  | .removePop => 0
  | .removeDelete _ => 0
  | .done _ => 0

def Thread.work (t : Thread) : Nat := pcWork t.worker.pc - if locked t.worker.pc ∧ t.inside then 1 else 0

def State.entries (s : State) : Nat :=
  s.shared.store.keys.length + (s.workers.map (fun t => pcEntries t.worker.pc)).sum

/-- The steps of the handler on top, with the end of the process; `sys.exit` ends the other handlers with it. -/
def State.handlerWork (s : State) : Nat :=
  match s.stack with
  | [] => if s.life = .exiting then 1 else 0
  | .enter :: _ => s.entries + 7
  | .snapshot :: _ => s.entries + 6
  | .deleting items :: _ => items.length + 5
  | .reenter :: _ => 4
  | .clear :: _ => 3
  | .close :: _ => 2

def State.work (s : State) : Nat := s.handlerWork + (s.workers.map Thread.work).sum

/-- **A step of a thread leaves it less to do**, and makes an entry only that was counted. -/
theorem work_of_moves {resolve : String → Option UInt64} {fault : Bool} {m m' : ContainerMap} {cid : String}
    {pc pc' : Pc} (h : Moves resolve fault m cid pc m' pc') :
    pcWork pc' + (if locked pc then 1 else 0) < pcWork pc ∧
      m'.store.keys.length + pcEntries pc' ≤ m.store.keys.length + pcEntries pc := by
  cases h with
  | present _ hadd hmem =>
    rcases hadd with rfl | ⟨cgid, rfl⟩
    · exact ⟨(by decide : 0 + 1 < 5), Nat.le_succ _⟩
    · exact ⟨(by decide : 0 + 1 < 2), Nat.le_succ _⟩
  | absent hmem => exact ⟨(by decide : 3 + 1 < 5), Nat.le_refl _⟩
  | unresolved hr => exact ⟨(by decide : 0 + 0 < 3), Nat.le_succ _⟩
  | resolved cgid hr => exact ⟨(by decide : 2 + 0 < 3), Nat.le_refl _⟩
  | commit cgid fd hmem hins =>
    have hlen : (m.store.insert cid cgid).keys.length ≤ m.store.keys.length + 1 := by
      rw [AList.keys_insert]
      exact Nat.succ_le_succ List.length_erase_le
    exact ⟨(by decide : 0 + 1 < 2), hlen⟩
  | refused cgid hmem hins => exact ⟨(by decide : 0 + 1 < 2), Nat.le_succ _⟩
  | unknown hl => exact ⟨(by decide : 0 + 1 < 3), Nat.le_refl _⟩
  | pop cgid hl =>
    have hlen : (m.store.erase cid).keys.length ≤ m.store.keys.length := by
      rw [AList.keys_erase]
      exact List.length_erase_le
    exact ⟨(by decide : 1 + 1 < 3), hlen⟩
  | delete cgid fd ok hdel => exact ⟨(by decide : 0 + 0 < 1), Nat.le_refl _⟩

theorem one_lt_pcWork {pc : Pc} (h : locked pc = true) : 1 < pcWork pc := by
  cases pc with
  | addCheck => exact (by decide : 1 < 5)
  | addCommit cgid => exact (by decide : 1 < 2)
  | removePop => exact (by decide : 1 < 3)
  | addResolve => exact (Bool.false_ne_true h).elim
  | removeDelete cgid => exact (Bool.false_ne_true h).elim
  | done ok => exact (Bool.false_ne_true h).elim

theorem handlerWork_le (s s' : State) (hstack : s'.stack = s.stack) (hlife : s'.life = s.life)
    (hentries : s'.entries ≤ s.entries) : s'.handlerWork ≤ s.handlerWork := by
  unfold State.handlerWork
  rw [hstack, hlife]
  split <;> omega

theorem work_of_stepWorker {s s' : State} {i : Nat} {resolved : Option UInt64} {fault : Bool}
    (h : stepWorker s i resolved fault = some s') : s'.work < s.work := by
  obtain ⟨t, ht, h⟩ := Option.bind_eq_some_iff.1 h
  split at h
  · rename_i hwaits
    split at h
    · cases h
      have hsum := Threads.sum_map_set Thread.work { t with inside := true } ht
      have hentries := Threads.sum_map_set (fun t => pcEntries t.worker.pc) { t with inside := true } ht
      have hless : Thread.work { t with inside := true } < t.work := by
        unfold Thread.work
        rw [hwaits.1, hwaits.2]
        have hpos := one_lt_pcWork hwaits.1
        simp
        omega
      have hhandler := handlerWork_le s
        { s with lock := some (.worker i), workers := s.workers.set i { t with inside := true } } rfl rfl
        (by unfold State.entries; dsimp only at hentries ⊢; omega)
      unfold State.work
      dsimp only
      omega
    · cases h
  · rename_i hgoes
    obtain ⟨r, hr, rfl⟩ := Option.map_eq_some_iff.1 h
    obtain ⟨-, hm⟩ := moves_of_step hr
    obtain ⟨hwork, hkeys⟩ := work_of_moves hm
    have hsum := Threads.sum_map_set Thread.work ⟨r.2, false⟩ ht
    have hentries := Threads.sum_map_set (fun t => pcEntries t.worker.pc) ⟨r.2, false⟩ ht
    have hless : Thread.work ⟨r.2, false⟩ < t.work := by
      unfold Thread.work
      cases hlocked : locked t.worker.pc with
      | true =>
        have hin : t.inside = true := by simpa [hlocked] using hgoes
        simp [hlocked, hin] at hwork ⊢
        omega
      | false =>
        simp [hlocked] at hwork ⊢
        omega
    have hhandler := handlerWork_le s { s with
      shared := r.1
      lock := if locked t.worker.pc then none else s.lock
      workers := s.workers.set i ⟨r.2, false⟩ } rfl rfl
      (by unfold State.entries; dsimp only at hentries ⊢; omega)
    unfold State.work
    dsimp only
    omega

theorem work_of_stepMain {s s' : State} {fault : Bool} (h : stepMain s fault = some s') : s'.work < s.work := by
  unfold stepMain at h
  split at h
  · rename_i hstack
    split at h
    · rename_i hexit
      cases h
      simp [State.work, State.handlerWork, hstack, hexit]
    · cases h
  · rename_i hstack
    split at h
    · cases h
      simp [State.work, State.handlerWork, hstack, State.entries]
    · cases h
  · rename_i hstack
    cases h
    have hitems : s.shared.items.length = s.shared.store.keys.length := by
      simp [ContainerMap.items, AList.keys, List.keys]
    simp only [State.work, State.handlerWork, hstack, hitems, State.entries]
    omega
  · rename_i hstack
    cases h
    simp [State.work, State.handlerWork, hstack]
  · rename_i hstack
    cases h
    simp [State.work, State.handlerWork, hstack]
  · rename_i hstack
    split at h
    · cases h
      simp [State.work, State.handlerWork, hstack]
    · cases h
  · rename_i hstack
    cases h
    simp [State.work, State.handlerWork, hstack]
  · rename_i hstack
    cases h
    simp [State.work, State.handlerWork, hstack]

theorem decreasing_advance : Steps.Decreasing advance State.work := by
  intro s p s' h
  obtain ⟨-, h⟩ := alive_of_step h
  cases p with
  | worker i resolved fault => exact work_of_stepWorker h
  | main fault => exact work_of_stepMain h

/-! ## Somebody goes on -/

theorem isSome_step_of_not_done {w : Worker} (h : w.isDone = false) (resolve : String → Option UInt64) (fault : Bool)
    (m : ContainerMap) : ∃ r, w.step resolve fault m = some r := by
  obtain ⟨cid, pc⟩ := w
  cases pc with
  | addCheck => simp only [Worker.step]; split <;> exact ⟨_, rfl⟩
  | addResolve => simp only [Worker.step]; split <;> exact ⟨_, rfl⟩
  | addCommit cgid =>
    simp only [Worker.step]
    split
    · exact ⟨_, rfl⟩
    · split <;> exact ⟨_, rfl⟩
  | removePop => simp only [Worker.step]; split <;> exact ⟨_, rfl⟩
  | removeDelete cgid => exact ⟨_, rfl⟩
  | done ok => cases h

section
variable {s s' : State}

theorem exists_stepWorker (halive : s.life ≠ .gone) {i : Nat} {t : Thread} (ht : s.workers[i]? = some t)
    (hleft : t.worker.isDone = false) (hfree : t.inside = true ∨ s.lock = none) :
    ∃ s', advance s (.worker i none false) = some s' := by
  rw [advance, step_of_alive halive]
  show ∃ s', (s.workers[i]?).bind _ = some s'
  rw [ht, Option.bind_some]
  by_cases hwaits : locked t.worker.pc = true ∧ t.inside = false
  · have hlock := hfree.resolve_left (fun hin => by rw [hwaits.2] at hin; cases hin)
    rw [if_pos hwaits, if_pos hlock]
    exact ⟨_, rfl⟩
  · obtain ⟨r, hr⟩ := isSome_step_of_not_done hleft (fun _ => none) false s.shared
    rw [if_neg hwaits, hr]
    exact ⟨_, rfl⟩

theorem exists_stepMain (halive : s.life ≠ .gone) {f : Frame} {below : List Frame} (hstack : s.stack = f :: below)
    (hfree : f.holds = true ∨ s.lock = none) : ∃ s', advance s (.main false) = some s' := by
  rw [advance, step_of_alive halive]
  show ∃ s', stepMain s false = some s'
  unfold stepMain
  rw [hstack]
  cases f with
  | enter => exact ⟨_, if_pos (hfree.resolve_left nofun)⟩
  | reenter => exact ⟨_, if_pos (hfree.resolve_left nofun)⟩
  | deleting items => cases items <;> exact ⟨_, rfl⟩
  | _ => exact ⟨_, rfl⟩

theorem Exclusive.selfDeadlocked_iff (hs : Exclusive s) :
    SelfDeadlocked s ↔ s.lock = some .main ∧ s.stack.head? = some .enter := by
  constructor
  · rintro ⟨h, hwaits, hlock⟩
    cases h with
    | main =>
      obtain ⟨f, hf, hwait⟩ := hwaits
      obtain ⟨f', hf', hat⟩ := hs.main hlock
      obtain rfl : f = f' := Option.some.inj (hf.symm.trans hf')
      rcases hat with hhold | rfl
      · rw [Frame.waits_eq_false hhold] at hwait
        cases hwait
      · exact ⟨hlock, hf⟩
    | worker i =>
      obtain ⟨t, ht, -, hout⟩ := hwaits
      obtain ⟨t', ht', -, hin⟩ := hs.holder i hlock
      obtain rfl : t = t' := Option.some.inj (ht.symm.trans ht')
      rw [hin] at hout
      cases hout
  · rintro ⟨hlock, htop⟩
    exact ⟨.main, ⟨.enter, htop, rfl⟩, hlock⟩

/-- **While something is left to do somebody goes on**, but for a main thread that waits for itself. -/
theorem Exclusive.done_of_final (hs : Exclusive s) (hnot : ¬ SelfDeadlocked s) (hfinal : Steps.Final advance s)
    (halive : s.life ≠ .gone) : (∀ t ∈ s.workers, t.worker.isDone = true) ∧ s.stack = [] ∧ s.life = .running := by
  have hstuck : ∀ {p : Progress}, (∃ s', advance s p = some s') → False := fun ⟨s', hs'⟩ => by
    rw [hfinal] at hs'
    cases hs'
  have hfree : s.lock = none := by
    cases hlock : s.lock with
    | none => rfl
    | some h =>
      cases h with
      | main =>
        obtain ⟨f, hf, hat⟩ := hs.main hlock
        obtain ⟨below, hstack⟩ := List.head?_eq_some_iff.1 hf
        rcases hat with hhold | rfl
        · exact (hstuck (exists_stepMain halive hstack (.inl hhold))).elim
        · exact absurd (hs.selfDeadlocked_iff.2 ⟨hlock, hf⟩) hnot
      | worker i =>
        obtain ⟨t, ht, hlocked, hin⟩ := hs.holder i hlock
        refine (hstuck (exists_stepWorker halive ht ?_ (.inl hin))).elim
        generalize t.worker = w at hlocked ⊢
        obtain ⟨cid, pc⟩ := w
        cases pc <;> first | rfl | cases hlocked
  have hstack : s.stack = [] := by
    cases hstack : s.stack with
    | nil => rfl
    | cons f below => exact (hstuck (exists_stepMain halive hstack (.inr hfree))).elim
  refine ⟨fun t ht => ?_, hstack, ?_⟩
  · obtain ⟨i, hi⟩ := List.mem_iff_getElem?.1 ht
    exact Bool.of_not_eq_false (fun hleft => hstuck (exists_stepWorker halive hi hleft (.inr hfree)))
  · cases hlife : s.life with
    | running => rfl
    | gone => exact absurd hlife halive
    | exiting =>
      refine (hstuck (p := .main false) ⟨{ s with life := .gone }, ?_⟩).elim
      rw [advance, step_of_alive halive]
      show Locking.stepMain s false = _
      rw [Locking.stepMain, hstack]
      exact if_pos hlife

/-! ## A main thread that waits for itself -/

/-- **It waits for ever**, whatever the threads do and whatever signals come. -/
theorem Exclusive.selfDeadlocked_of_step {a : Act} (hs : Exclusive s) (hdead : SelfDeadlocked s)
    (h : Locking.step s a = some s') : SelfDeadlocked s' := by
  obtain ⟨-, h⟩ := alive_of_step h
  obtain ⟨hlock, htop⟩ := hs.selfDeadlocked_iff.1 hdead
  obtain ⟨below, hstack⟩ := List.head?_eq_some_iff.1 htop
  have hstart : ∀ w, Locking.startThread s w = none := fun w => if_neg (fun hc => by rw [hstack] at hc; cases hc.1)
  cases a with
  | call c fault =>
    cases c with
    | add cid => exact absurd ((hstart _).symm.trans h) nofun
    | remove cid => exact absurd ((hstart _).symm.trans h) nofun
    | worker i resolved =>
      obtain ⟨t, ht, h⟩ := Option.bind_eq_some_iff.1 h
      split at h
      · rw [if_neg (by rw [hlock]; nofun)] at h
        cases h
      · rename_i hgoes
        obtain ⟨r, -, rfl⟩ := Option.map_eq_some_iff.1 h
        cases hlocked : locked t.worker.pc with
        | true =>
          have hin := hs.inside i t ht (by simpa [hlocked] using hgoes)
          rw [hlock] at hin
          cases hin
        | false => exact ⟨.main, ⟨.enter, htop, rfl⟩, hlock⟩
  | main fault =>
    simp [stepAlive, Locking.stepMain, hstack, hlock] at h
  | signal =>
    cases h
    exact ⟨.main, ⟨.enter, rfl, rfl⟩, hlock⟩

theorem Exclusive.not_selfDeadlocked_of_advance {p : Progress} (hs : Exclusive s) (hnot : ¬ SelfDeadlocked s)
    (h : advance s p = some s') : ¬ SelfDeadlocked s' := by
  intro hdead
  have hs' : Exclusive s' := hs.step h
  obtain ⟨hlock, htop⟩ := hs'.selfDeadlocked_iff.1 hdead
  obtain ⟨-, h⟩ := alive_of_step h
  cases p with
  | worker i resolved fault =>
    obtain ⟨hstack, -, hmain⟩ := main_of_stepWorker h
    exact hnot (hs.selfDeadlocked_iff.2 ⟨hmain hlock, hstack ▸ htop⟩)
  | main fault =>
    have hstep : Locking.stepMain s fault = some s' := h
    unfold Locking.stepMain at hstep
    split at hstep
    case h_1 hstack => split at hstep <;> cases hstep; rw [hstack] at htop; cases htop
    case h_2 => split at hstep <;> cases hstep; cases htop
    case h_6 => split at hstep <;> cases hstep; cases htop
    all_goals cases hstep; cases htop

theorem ending_of_advance {p : Progress} (hs : s.stack ≠ [] ∨ s.life ≠ .running) (h : advance s p = some s') :
    s'.stack ≠ [] ∨ s'.life ≠ .running := by
  obtain ⟨-, h⟩ := alive_of_step h
  cases p with
  | worker i resolved fault =>
    obtain ⟨hstack, hlife, -⟩ := main_of_stepWorker h
    rwa [hstack, hlife]
  | main fault =>
    have hstep : stepMain s fault = some s' := h
    unfold stepMain at hstep
    split at hstep
    case h_1 => split at hstep <;> cases hstep; exact .inr nofun
    case h_2 => split at hstep <;> cases hstep; exact .inl nofun
    case h_6 => split at hstep <;> cases hstep; exact .inl nofun
    case h_8 => cases hstep; exact .inr nofun
    all_goals cases hstep; exact .inl nofun

theorem running_of_advance {p : Progress} (hs : s.stack = [] ∧ s.life = .running) (h : advance s p = some s') :
    s'.stack = [] ∧ s'.life = .running := by
  obtain ⟨-, h⟩ := alive_of_step h
  cases p with
  | worker i resolved fault =>
    obtain ⟨hstack, hlife, -⟩ := main_of_stepWorker h
    rwa [hstack, hlife]
  | main fault => simp [Progress.act, stepAlive, stepMain, hs.1, hs.2] at h

end

/-- **Once nothing new comes, `_shutdown` ends the process, or every call returns if it does not run, if and only if
the main thread does not wait for itself**; and all there is to do takes no more than `work` steps. -/
theorem winds_down_iff (m : ContainerMap) (acts : List Act) (s : State)
    (hrun : Steps.run step (start m) acts = some s) :
    (∀ ps t, Steps.run advance s ps = some t → ps.length ≤ s.work) ∧
      ((∀ ps t, Steps.run advance s ps = some t → Steps.Final advance t →
          (s.stack ≠ [] ∨ s.life ≠ .running → t.life = .gone) ∧
            (s.stack = [] ∧ s.life = .running →
              t.life = .running ∧ ∀ th ∈ t.workers, th.worker.isDone = true)) ↔
        ¬ SelfDeadlocked s) := by
  have hs := exclusive_of_run m hrun
  refine ⟨fun ps t ht => Nat.le_of_add_right_le (decreasing_advance.length_add_le ps ht), fun hall hdead => ?_,
    fun hnot ps t ht hfinal => ?_⟩
  · obtain ⟨ps, t, ht, hfinal⟩ := decreasing_advance.exists_final s
    have hstay : (Exclusive t ∧ SelfDeadlocked t) ∧ Held t :=
      Steps.run_invariant (fun t => (Exclusive t ∧ SelfDeadlocked t) ∧ Held t) ⟨⟨hs, hdead⟩, held_of_run m hrun⟩
        (fun _ _ _ hm h => ⟨⟨hm.1.1.step h, hm.1.1.selfDeadlocked_of_step hm.1.2 h⟩, hm.2.step h⟩) ht
    obtain ⟨-, htop⟩ := hs.selfDeadlocked_iff.1 hdead
    have hstack : s.stack ≠ [] := fun hnil => by
      rw [hnil] at htop
      cases htop
    obtain ⟨hlock, -⟩ := hstay.1.1.selfDeadlocked_iff.1 hstay.1.2
    exact (hstay.2 hlock).2 ((hall ps t ht hfinal).1 (.inl hstack))
  · have hlive : Exclusive t ∧ ¬ SelfDeadlocked t :=
      Steps.run_invariant (fun t => Exclusive t ∧ ¬ SelfDeadlocked t) ⟨hs, hnot⟩
        (fun _ _ _ hm h => ⟨hm.1.step h, hm.1.not_selfDeadlocked_of_advance hm.2 h⟩) ht
    have hdone := hlive.1.done_of_final hlive.2 hfinal
    constructor
    · intro hend
      refine Classical.byContradiction (fun halive => ?_)
      obtain ⟨-, hstack, hlife⟩ := hdone halive
      have hending := Steps.run_invariant (fun t : State => t.stack ≠ [] ∨ t.life ≠ .running) hend
        (fun _ _ _ hm h => ending_of_advance hm h) ht
      exact hending.elim (fun hne => hne hstack) (fun hne => hne hlife)
    · intro hidle
      have hrunning := Steps.run_invariant (fun t : State => t.stack = [] ∧ t.life = .running) hidle
        (fun _ _ _ hm h => running_of_advance hm h) ht
      exact ⟨hrunning.2, (hdone (by rw [hrunning.2]; exact nofun)).1⟩

/-- A signal while a thread is inside its first `with`. -/
def interrupted : State :=
  (Steps.run step (start (ContainerMap.init BoundedMap.empty))
    [.call (.add "4f0c9d2e7a1b") false, .call (.worker 0 none) false, .signal]).get (by decide)

theorem winds_down_iff_interrupted :
    interrupted.work = 12 ∧ ∀ ps t, Steps.run advance interrupted ps = some t → ps.length ≤ 12 ∧
      (Steps.Final advance t → t.life = .gone) := by
  have hrun : Steps.run step (start (ContainerMap.init BoundedMap.empty))
      [.call (.add "4f0c9d2e7a1b") false, .call (.worker 0 none) false, .signal] = some interrupted :=
    (Option.some_get (by decide)).symm
  have hnot : ¬ SelfDeadlocked interrupted := fun hdead =>
    absurd ((exclusive_of_run _ hrun).selfDeadlocked_iff.1 hdead).1 nofun
  obtain ⟨hbound, hends⟩ := winds_down_iff _ _ interrupted hrun
  refine ⟨rfl, fun ps t ht => ⟨hbound ps t ht, fun hfinal => ?_⟩⟩
  exact (hends.2 hnot ps t ht hfinal).1 (.inl nofun)

end Locking
end ControlPlane
end CgroupGuard
