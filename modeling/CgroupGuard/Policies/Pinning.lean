import CgroupGuard.ControlPlane.Mounts
import CgroupGuard.Lib.Steps
/-!
# Pinning — which map the processes come to share

Control planes and loaders start in any number and order.  `map_ensure` opens the map pinned at the path, and after any
failure has a bpf file system mounted on `/sys/fs/bpf` if `/proc/mounts` shows none there, makes a map and pins it; a
loader has libbpf load its program over the map pinned at the path, or over one that libbpf makes and pins, and opens
the path once its program is attached.  Pinning a path that is taken fails.

Two control planes that look before either has mounted mount one file system each, the second over the first, and each
pins its map in its own.  So all hold the map pinned at the path, whatever their order, exactly when `/proc/mounts`
shows a bpf file system there at the start (`one_shared_map_iff`).
-/
namespace CgroupGuard
namespace Policies

open ControlPlane (MountEntry isMounted procMounts MAP_PATH isMounted_procMounts)

abbrev MapId := Nat

def BPFFS : Text := Text.dirname MAP_PATH

/-- A mount, and what is pinned at `MAP_PATH` when this is the file system seen there. -/
structure Mounted where
  entry : MountEntry
  pinned : Option MapId
  deriving DecidableEq, Repr

def Mounted.isThere (m : Mounted) : Bool := m.entry.mountPoint = BPFFS

/-- The mounts, the latest first, with nothing mounted over the directories above; and a number no map has had. -/
structure Mounts where
  mounts : List Mounted
  next : MapId
  deriving DecidableEq, Repr

def bpffsEntry : MountEntry := ⟨"bpffs".toList, BPFFS, "bpf".toList, "rw,relatime 0 0".toList⟩

namespace Mounts

def text (h : Mounts) : Text := procMounts (h.mounts.map Mounted.entry).reverse

def seen (h : Mounts) : Option Mounted := h.mounts.find? Mounted.isThere

def isBpf (h : Mounts) : Bool := h.seen.any (fun m => m.entry.fsType = "bpf".toList)

def pinned (h : Mounts) : Option MapId := if h.isBpf then h.seen.bind Mounted.pinned else none

def pinSeen (m : MapId) : List Mounted → List Mounted
  | [] => []
  | mount :: mounts => if mount.isThere then { mount with pinned := some m } :: mounts else mount :: pinSeen m mounts

def pin (h : Mounts) (m : MapId) : Mounts := { h with mounts := pinSeen m h.mounts }

/-- `mount -t bpf bpffs /sys/fs/bpf`. -/
def mount (h : Mounts) : Mounts := { h with mounts := ⟨bpffsEntry, none⟩ :: h.mounts }

end Mounts

/-- Where a process is: the control plane in `map_ensure`, with `_ensure_bpffs` at the mounts or about to mount; a
loader in `bpf_object__load`, in the attachment and in `get_map_fd`.  One that is up has the map behind its fd, and a
loader the map its program uses. -/
inductive Startup where
  | opening
  | reading
  | mounting
  | creating
  | pinning (m : MapId)
  | loading
  | loaderPinning (m : MapId)
  | attaching (m : MapId)
  | attached (m : MapId)
  | up (fd : MapId) (program : Option MapId)
  | raised
  deriving DecidableEq, Repr

/-- The next step of a process.  `lucky` is false where the process is to fail for a reason of its own: any of the calls
may, and the process raises; only after `bpf_obj_get` does the control plane go on, and takes the map for absent. -/
def Startup.step (lucky : Bool) (h : Mounts) : Startup → Option (Mounts × Startup)
  | .opening =>
    match h.pinned with
    | some m => if lucky then some (h, .up m none) else some (h, .reading)
    | none => some (h, .reading)
  | .reading =>
    if lucky then some (h, if isMounted BPFFS h.text then .creating else .mounting) else some (h, .raised)
  | .mounting => if lucky then some (h.mount, .creating) else some (h, .raised)
  | .creating => if lucky then some ({ h with next := h.next + 1 }, .pinning h.next) else some (h, .raised)
  | .pinning m =>
    match h.pinned with
    | some _ => some (h, .raised)
    | none => if lucky && h.isBpf then some (h.pin m, .up m none) else some (h, .raised)
  | .loading =>
    if lucky then
      match h.pinned with
      | some m => some (h, .attaching m)
      | none => some ({ h with next := h.next + 1 }, .loaderPinning h.next)
    else some (h, .raised)
  | .loaderPinning m =>
    match h.pinned with
    -- another pin got there first: the reuse is tried again, or the load fails
    | some _ => if lucky then some (h, .loading) else some (h, .raised)
    | none => if lucky && h.isBpf then some (h.pin m, .attaching m) else some (h, .raised)
  | .attaching m => if lucky then some (h, .attached m) else some (h, .raised)
  | .attached m =>
    match h.pinned with
    | some fd => if lucky then some (h, .up fd (some m)) else some (h, .raised)
    | none => some (h, .raised)
  | .up _ _ => none
  | .raised => none

inductive StartAct where
  | controlPlane
  | loader
  | step (i : Nat) (lucky : Bool)
  deriving DecidableEq, Repr

abbrev Host := Threads Mounts Startup

namespace Host

def step (s : Host) : StartAct → Option Host
  | .controlPlane => some { s with locals := s.locals ++ [.opening] }
  | .loader => some { s with locals := s.locals ++ [.loading] }
  | .step i lucky => Threads.stepAt (Startup.step lucky) s i

abbrev run (s : Host) (acts : List StartAct) : Option Host := Steps.run step s acts

/-- All that are up hold the map pinned at the path, and their programs use it. -/
def HoldPinned (s : Host) : Prop :=
  ∀ fd program, .up fd program ∈ s.locals → s.shared.pinned = some fd ∧ ∀ m ∈ program, m = fd

/-- All that are up hold one map, and their programs use it. -/
def OneMap (s : Host) : Prop := ∃ m, ∀ fd program, .up fd program ∈ s.locals → fd = m ∧ ∀ p ∈ program, p = m

theorem HoldPinned.oneMap {s : Host} (hs : s.HoldPinned) : s.OneMap := by
  refine ⟨s.shared.pinned.getD 0, fun fd program hup => ?_⟩
  obtain ⟨hfd, hprogram⟩ := hs fd program hup
  rw [hfd]
  exact ⟨rfl, hprogram⟩

end Host

/-! ## What a step does to the mounts -/

namespace Mounts

variable {h : Mounts}

theorem map_entry_pinSeen (m : MapId) : ∀ ms : List Mounted,
    (pinSeen m ms).map Mounted.entry = ms.map Mounted.entry
  | [] => rfl
  | mount :: ms => by
    rw [pinSeen]
    split
    · rfl
    · rw [List.map_cons, List.map_cons, map_entry_pinSeen m ms]

theorem find?_pinSeen (m : MapId) : ∀ ms : List Mounted,
    (pinSeen m ms).find? Mounted.isThere = (ms.find? Mounted.isThere).map ({ · with pinned := some m })
  | [] => rfl
  | mount :: ms => by
    rw [pinSeen]
    by_cases hm : mount.isThere = true
    · have hm' : Mounted.isThere { mount with pinned := some m } = true := hm
      rw [if_pos hm, List.find?_cons_of_pos hm, List.find?_cons_of_pos hm']
      rfl
    · rw [if_neg hm, List.find?_cons_of_neg hm, List.find?_cons_of_neg hm, find?_pinSeen m ms]

theorem pinned_pin (hbpf : h.isBpf = true) (m : MapId) : (h.pin m).pinned = some m := by
  have hseen : (h.pin m).seen = h.seen.map ({ · with pinned := some m }) := find?_pinSeen m h.mounts
  obtain ⟨mount, hm, htype⟩ := (Option.any_eq_true _ _).1 hbpf
  have hstill : (h.pin m).isBpf = true := by
    rw [isBpf, hseen, hm]
    exact htype
  rw [pinned, if_pos hstill, hseen, hm]
  rfl

theorem isMounted_text (hplain : ∀ m ∈ h.mounts, m.entry.Plain) :
    isMounted BPFFS h.text = true ↔ ∃ m ∈ h.mounts, m.entry.mountPoint = BPFFS ∧ m.entry.fsType = "bpf".toList := by
  rw [text, isMounted_procMounts (fun e he => ?_) (by decide)]
  · simp only [List.mem_reverse, List.mem_map, exists_exists_and_eq_and]
  · obtain ⟨m, hm, rfl⟩ := List.mem_map.1 (List.mem_reverse.1 he)
    exact hplain m hm

end Mounts

/-! ## Where one is mounted -/

namespace Host

def Shares (pinned : Option MapId) : Startup → Prop
  | .attaching m => pinned = some m
  | .attached m => pinned = some m
  | .up fd program => pinned = some fd ∧ ∀ m ∈ program, m = fd
  | _ => True

theorem Shares.mono {pinned pinned' : Option MapId} (hstay : ∀ m, pinned = some m → pinned' = some m) {p : Startup}
    (h : Shares pinned p) : Shares pinned' p := by
  cases p with
  | attaching m => exact hstay m h
  | attached m => exact hstay m h
  | up fd program => exact ⟨hstay fd h.1, h.2⟩
  | _ => trivial

/-- What a step leaves of the mounts: it keeps what is pinned, or pins a map where there is none. -/
inductive Keeps (h : Mounts) : Mounts → Prop
  | same (next : MapId) : Keeps h { h with next := next }
  | pin (m : MapId) (hnone : h.pinned = none) : Keeps h (h.pin m)

theorem Keeps.stay {h h' : Mounts} (hkeeps : Keeps h h') : ∀ m, h.pinned = some m → h'.pinned = some m := by
  intro m hm
  cases hkeeps with
  | same next => exact hm
  | pin m' hnone => rw [hnone] at hm; cases hm

theorem Keeps.entries {h h' : Mounts} (hkeeps : Keeps h h') :
    h'.mounts.map Mounted.entry = h.mounts.map Mounted.entry := by
  cases hkeeps with
  | same next => rfl
  | pin m hnone => exact Mounts.map_entry_pinSeen m h.mounts

/-- **A step of a process that does not mount unpins nothing, and what it gets hold of is pinned.** -/
theorem shares_of_step {lucky : Bool} {h : Mounts} {p : Startup} {r : Mounts × Startup} (hmount : p ≠ .mounting)
    (hp : Shares h.pinned p) (hr : p.step lucky h = some r) : Keeps h r.1 ∧ Shares r.1.pinned r.2 := by
  have hsame : Keeps h h := .same h.next
  cases p with
  | opening =>
    cases hpinned : h.pinned <;> cases lucky <;> simp only [Startup.step, hpinned] at hr <;> cases hr <;>
      exact ⟨hsame, by simp [Shares, hpinned]⟩
  | reading =>
    cases lucky <;> cases hr
    · exact ⟨hsame, trivial⟩
    · refine ⟨hsame, ?_⟩
      dsimp only
      split <;> exact trivial
  | mounting => exact absurd rfl hmount
  | creating => cases lucky <;> cases hr <;> exact ⟨.same _, trivial⟩
  | pinning m =>
    cases hpinned : h.pinned with
    | some _ =>
      simp only [Startup.step, hpinned] at hr
      cases hr
      exact ⟨hsame, trivial⟩
    | none =>
      simp only [Startup.step, hpinned] at hr
      split at hr <;> cases hr
      · rename_i hlucky
        exact ⟨.pin m hpinned, Mounts.pinned_pin (Bool.and_eq_true_iff.1 hlucky).2 m, by simp⟩
      · exact ⟨hsame, trivial⟩
  | loading =>
    cases hpinned : h.pinned <;> cases lucky <;> simp only [Startup.step, hpinned] at hr <;> cases hr
    · exact ⟨hsame, trivial⟩
    · exact ⟨.same _, trivial⟩
    · exact ⟨hsame, trivial⟩
    · exact ⟨hsame, hpinned⟩
  | loaderPinning m =>
    cases hpinned : h.pinned with
    | some _ =>
      cases lucky <;> simp only [Startup.step, hpinned] at hr <;> cases hr <;> exact ⟨hsame, trivial⟩
    | none =>
      simp only [Startup.step, hpinned] at hr
      split at hr <;> cases hr
      · rename_i hlucky
        exact ⟨.pin m hpinned, Mounts.pinned_pin (Bool.and_eq_true_iff.1 hlucky).2 m⟩
      · exact ⟨hsame, trivial⟩
  | attaching m => cases lucky <;> cases hr <;> [exact ⟨hsame, trivial⟩; exact ⟨hsame, hp⟩]
  | attached m =>
    have hpinned : h.pinned = some m := hp
    cases lucky <;> simp only [Startup.step, hpinned] at hr <;> cases hr
    · exact ⟨hsame, trivial⟩
    · exact ⟨hsame, hpinned, by simp⟩
  | up fd program => cases hr
  | raised => cases hr

/-- The mounts are those there were, nobody is about to mount, and what a process has got hold of is pinned. -/
structure Settled (h : Mounts) (s : Host) : Prop where
  entries : s.shared.mounts.map Mounted.entry = h.mounts.map Mounted.entry
  mounting : .mounting ∉ s.locals
  shares : ∀ p ∈ s.locals, Shares s.shared.pinned p

section
variable {h : Mounts} {s t : Host}

theorem Settled.start (hs : s.Settled h) {p : Startup} (hmount : p ≠ .mounting) (hp : Shares s.shared.pinned p) :
    Settled h { s with locals := s.locals ++ [p] } where
  entries := hs.entries
  mounting := fun hmem => (List.mem_append.1 hmem).elim hs.mounting
      (fun hmem => hmount (List.mem_singleton.1 hmem).symm)
  shares := List.forall_mem_append.2 ⟨hs.shares, List.forall_mem_singleton.2 hp⟩

theorem mounting_ne_of_step {lucky : Bool} {p : Startup} {r : Mounts × Startup}
    (hmounted : isMounted BPFFS h.text = true) (hr : p.step lucky h = some r) : r.2 ≠ .mounting := by
  intro hmount
  obtain ⟨h', p'⟩ := r
  obtain rfl : p' = .mounting := hmount
  cases p with
  | reading => cases lucky <;> simp [Startup.step, hmounted] at hr
  | attaching => cases lucky <;> cases hr
  | mounting => cases lucky <;> cases hr
  | creating => cases lucky <;> cases hr
  | up => cases hr
  | raised => cases hr
  | _ =>
    simp only [Startup.step] at hr
    split at hr
    all_goals first
      | cases hr
      | (split at hr <;> cases hr)

theorem Settled.step {a : StartAct} (hmounted : isMounted BPFFS h.text = true) (hs : s.Settled h)
    (ha : s.step a = some t) : t.Settled h := by
  cases a with
  | controlPlane => cases ha; exact hs.start nofun trivial
  | loader => cases ha; exact hs.start nofun trivial
  | step i lucky =>
    obtain ⟨p, r, hi, hr, rfl⟩ := Threads.stepAt_eq_some ha
    have hp : p ∈ s.locals := List.mem_of_getElem? hi
    have htext : s.shared.text = h.text := by rw [Mounts.text, hs.entries, Mounts.text]
    obtain ⟨hkeeps, hnew⟩ := shares_of_step (fun he => hs.mounting (he ▸ hp)) (hs.shares p hp) hr
    refine ⟨hkeeps.entries.trans hs.entries, fun hmem => ?_, ?_⟩
    · rcases List.mem_or_eq_of_mem_set hmem with hmem | hmem
      · exact hs.mounting hmem
      · exact mounting_ne_of_step (htext ▸ hmounted) hr hmem.symm
    · exact Threads.forall_mem_set (fun q hq => (hs.shares q hq).mono hkeeps.stay) hnew

end

theorem holdPinned_of_run {h : Mounts} (hmounted : isMounted BPFFS h.text = true) {acts : List StartAct} {t : Host}
    (hrun : Host.run ⟨h, []⟩ acts = some t) : t.HoldPinned := by
  have hsettled : t.Settled h := Steps.run_invariant (Settled h)
    ⟨rfl, List.not_mem_nil, fun _ hp => absurd hp List.not_mem_nil⟩ (fun _ _ _ hs ha => hs.step hmounted ha) hrun
  exact fun _ _ hup => hsettled.shares _ hup

/-! ## Where none is -/

theorem step_of_step {lucky : Bool} {s : Host} {i : Nat} {p : Startup} {r : Mounts × Startup}
    (hp : s.locals[i]? = some p) (hr : p.step lucky s.shared = some r) :
    step s (.step i lucky) = some ⟨r.1, s.locals.set i r.2⟩ :=
  Threads.stepAt_of_step hp hr

theorem run_mounting (s : Host) {i : Nat} (hi : s.locals[i]? = some .mounting) :
    s.run [.step i true, .step i true, .step i true] =
      some ⟨⟨⟨bpffsEntry, some s.shared.next⟩ :: s.shared.mounts, s.shared.next + 1⟩,
        s.locals.set i (.up s.shared.next none)⟩ := by
  have hset : ∀ p : Startup, (s.locals.set i p)[i]? = some p := fun p =>
    List.getElem?_set_self (List.getElem?_eq_some_iff.1 hi).1
  have hmount : Startup.step true s.shared .mounting = some (s.shared.mount, .creating) := rfl
  have hcreate : Startup.step true s.shared.mount .creating =
      some ({ s.shared.mount with next := s.shared.next + 1 }, .pinning s.shared.next) := rfl
  have hpin : Startup.step true { s.shared.mount with next := s.shared.next + 1 } (.pinning s.shared.next) =
      some (⟨⟨bpffsEntry, some s.shared.next⟩ :: s.shared.mounts, s.shared.next + 1⟩, .up s.shared.next none) := rfl
  rw [Host.run, Steps.run_cons, step_of_step hi hmount, Option.bind_some, Steps.run_cons,
    step_of_step (hset _) hcreate, Option.bind_some, Steps.run_cons,
    step_of_step (by rw [List.set_set]; exact hset _) hpin, List.set_set, List.set_set]
  rfl

/-- **Two control planes that both look before either has mounted come up with two maps**, the second over the first. -/
theorem exists_two_maps {h : Mounts} (hnot : ¬ isMounted BPFFS h.text = true) :
    ∃ acts t, Host.run ⟨h, []⟩ acts = some t ∧ t.locals = [.up h.next none, .up (h.next + 1) none] := by
  have hopening : Startup.step false h .opening = some (h, .reading) := by
    rw [Startup.step]
    split <;> rfl
  have hreading : Startup.step true h .reading = some (h, .mounting) := by rw [Startup.step, if_pos rfl, if_neg hnot]
  have hlook : Host.run ⟨h, []⟩
      [.controlPlane, .controlPlane, .step 0 false, .step 1 false, .step 0 true, .step 1 true] =
      some ⟨h, [.mounting, .mounting]⟩ := by
    have h0 : step ⟨h, [.opening, .opening]⟩ (.step 0 false) = some ⟨h, [.reading, .opening]⟩ :=
      step_of_step (r := (h, .reading)) rfl hopening
    have h1 : step ⟨h, [.reading, .opening]⟩ (.step 1 false) = some ⟨h, [.reading, .reading]⟩ :=
      step_of_step (r := (h, .reading)) rfl hopening
    have h2 : step ⟨h, [.reading, .reading]⟩ (.step 0 true) = some ⟨h, [.mounting, .reading]⟩ :=
      step_of_step (r := (h, .mounting)) rfl hreading
    have h3 : step ⟨h, [.mounting, .reading]⟩ (.step 1 true) = some ⟨h, [.mounting, .mounting]⟩ :=
      step_of_step (r := (h, .mounting)) rfl hreading
    show Steps.run step ⟨h, [.opening, .opening]⟩ _ = _
    rw [Steps.run_cons, h0, Option.bind_some, Steps.run_cons, h1, Option.bind_some, Steps.run_cons, h2,
      Option.bind_some, Steps.run_cons, h3]
    rfl
  exact ⟨_, _, Steps.run_append_of_run hlook (Steps.run_append_of_run
    (run_mounting ⟨h, [.mounting, .mounting]⟩ (i := 0) rfl) (run_mounting _ (i := 1) rfl)), rfl⟩

theorem exists_not_oneMap {h : Mounts} (hnot : ¬ isMounted BPFFS h.text = true) :
    ∃ acts t, Host.run ⟨h, []⟩ acts = some t ∧ ¬ t.OneMap := by
  obtain ⟨acts, t, hrun, hlocals⟩ := exists_two_maps hnot
  refine ⟨acts, t, hrun, fun ⟨m, hm⟩ => ?_⟩
  have hfirst := (hm h.next none (by simp [hlocals])).1
  have hsecond := (hm (h.next + 1) none (by simp [hlocals])).1
  exact Nat.succ_ne_self h.next (hsecond.trans hfirst.symm)

/-- **All that come up hold the map pinned at the path, in every order of starting, if and only if `/proc/mounts`
shows a bpf file system there at the start**: if one is mounted, where its names are split as the kernel means them. -/
theorem one_shared_map_iff (h : Mounts) :
    ((∀ acts t, Host.run ⟨h, []⟩ acts = some t → t.HoldPinned) ↔ isMounted BPFFS h.text = true) ∧
      ((∀ m ∈ h.mounts, m.entry.Plain) → (isMounted BPFFS h.text = true ↔
        ∃ m ∈ h.mounts, m.entry.mountPoint = BPFFS ∧ m.entry.fsType = "bpf".toList)) := by
  refine ⟨⟨fun hall => ?_, fun hmounted acts t hrun => holdPinned_of_run hmounted hrun⟩, Mounts.isMounted_text⟩
  refine Classical.byContradiction (fun hnot => ?_)
  obtain ⟨acts, t, hrun, htwo⟩ := exists_not_oneMap hnot
  exact htwo (hall acts t hrun).oneMap

def bareHost : Mounts := ⟨[⟨⟨"/dev/sda1".toList, "/".toList, "ext4".toList, "rw,relatime 0 0".toList⟩, none⟩], 0⟩

theorem one_shared_map_iff_mount : ∀ acts t, Host.run ⟨bareHost.mount, []⟩ acts = some t → t.HoldPinned := by
  obtain ⟨hshared, hmounted⟩ := one_shared_map_iff bareHost.mount
  refine hshared.2 ((hmounted fun m hm => ?_).2 ⟨⟨bpffsEntry, none⟩, List.mem_cons_self, by decide, rfl⟩)
  obtain rfl | hm := List.mem_cons.1 hm
  · exact ⟨by decide, by decide, by decide, by decide, by decide⟩
  · obtain rfl := List.mem_singleton.1 hm
    exact ⟨by decide, by decide, by decide, by decide, by decide⟩

/-- Two control planes look; one comes up, and a loader over its map; then the other mounts. -/
def mountingTwice : List StartAct :=
  [.controlPlane, .controlPlane, .loader, .step 0 true, .step 1 true, .step 0 true, .step 1 true, .step 0 true,
    .step 0 true, .step 0 true, .step 2 true, .step 2 true, .step 2 true, .step 1 true, .step 1 true, .step 1 true]

theorem not_holdPinned_mountingTwice : ∃ s, Host.run ⟨bareHost, []⟩ mountingTwice = some s ∧
    s.locals = [.up 0 none, .up 1 none, .up 0 (some 0)] ∧ s.shared.pinned = some 1 ∧ ¬ s.HoldPinned := by
  have hrun : Host.run ⟨bareHost, []⟩ mountingTwice =
      some ((Host.run ⟨bareHost, []⟩ mountingTwice).get (by decide)) := (Option.some_get _).symm
  refine ⟨_, hrun, by decide, by decide, fun hall => ?_⟩
  exact absurd (hall 0 none (by decide)).1 (by decide)

end Host

/-- **All that come up share one map, in every order of starting, if and only if a bpf file system is mounted at the
start.** -/
theorem shared_iff_mounted (h : Mounts) (hplain : ∀ m ∈ h.mounts, m.entry.Plain) :
    (∀ acts t, Host.run ⟨h, []⟩ acts = some t → t.OneMap) ↔
      ∃ m ∈ h.mounts, m.entry.mountPoint = BPFFS ∧ m.entry.fsType = "bpf".toList := by
  rw [← Mounts.isMounted_text hplain]
  constructor
  · intro hall
    refine Classical.byContradiction (fun hnot => ?_)
    obtain ⟨acts, t, hrun, htwo⟩ := Host.exists_not_oneMap hnot
    exact htwo (hall acts t hrun)
  · exact fun hmounted acts t hrun => (Host.holdPinned_of_run hmounted hrun).oneMap

theorem shared_iff_mounted_bareHost : ¬ ∀ acts t, Host.run ⟨Host.bareHost, []⟩ acts = some t → t.OneMap := by
  rw [shared_iff_mounted Host.bareHost (fun m hm => ?_)]
  · decide
  · obtain rfl := List.mem_singleton.1 hm
    exact ⟨by decide, by decide, by decide, by decide, by decide⟩

end Policies
end CgroupGuard
