import CgroupGuard.Lib.BoundedMap
/-!
# Docker — the containers, as the control plane learns of them

The running containers, each with the cgroup of its run, and what Docker's commands say of them: `docker ps -q` prints
the first 12 characters of an id, `docker events` the whole of it, and `docker inspect` takes both.
-/
namespace CgroupGuard
namespace ControlPlane

/-- A full container id: 64 characters. -/
structure ContainerId where
  id : String
  length_id : id.length = 64
  deriving DecidableEq, Repr

/-- The id as `docker ps -q` prints it. -/
def ContainerId.short (c : ContainerId) : String := String.ofList (c.id.toList.take 12)

/-- `owner` holds every cgroup id handed out so far: no two runs share one. -/
structure Docker where
  running : AList (fun _ : ContainerId => UInt64)
  owner : AList (fun _ : UInt64 => ContainerId)
  owned : ∀ c cgid, running.lookup c = some cgid → owner.lookup cgid = some c

def Docker.init : Docker := ⟨∅, ∅, fun _ _ h => by cases h⟩

/-- What happens to a container; a start gives the run its cgroup. -/
inductive Happening where
  | start (c : ContainerId) (cgid : UInt64)
  | die (c : ContainerId)
  | stop (c : ContainerId)
  | destroy (c : ContainerId)
  deriving DecidableEq, Repr

inductive Action where
  | start
  | die
  | stop
  | destroy
  deriving DecidableEq, Repr

structure Event where
  action : Action
  id : ContainerId
  deriving DecidableEq, Repr

def Happening.event : Happening → Event
  | .start c _ => ⟨.start, c⟩
  | .die c => ⟨.die, c⟩
  | .stop c => ⟨.stop, c⟩
  | .destroy c => ⟨.destroy, c⟩

theorem Docker.lookup_fresh (d : Docker) {cgid : UInt64} (h : cgid ∉ d.owner) (c : ContainerId) :
    d.running.lookup c ≠ some cgid := fun hc =>
  h (AList.mem_of_lookup (d.owned c cgid hc))

/-- A container starts when it is not running, in a cgroup of its own, and dies when it is; it stops and is destroyed
after it died. -/
def Docker.step (d : Docker) : Happening → Option Docker
  | .start c cgid =>
    if h : c ∉ d.running ∧ cgid ∉ d.owner then
      some {
        running := d.running.insert c cgid
        owner := d.owner.insert cgid c
        owned := fun c' cgid' hc => by
          by_cases hc' : c' = c
          · subst hc'
            rw [AList.lookup_insert] at hc
            cases hc
            rw [AList.lookup_insert]
          · rw [AList.lookup_insert_ne hc'] at hc
            have hne : cgid' ≠ cgid := fun he => d.lookup_fresh h.2 c' (he ▸ hc)
            rw [AList.lookup_insert_ne hne]
            exact d.owned c' cgid' hc }
    else none
  | .die c =>
    if c ∈ d.running then
      some {
        running := d.running.erase c
        owner := d.owner
        owned := fun c' cgid hc => by
          by_cases hc' : c' = c
          · subst hc'
            rw [AList.lookup_erase] at hc
            cases hc
          · rw [AList.lookup_erase_ne hc'] at hc
            exact d.owned c' cgid hc }
    else none
  | .stop c => if c ∉ d.running then some d else none
  | .destroy c => if c ∉ d.running then some d else none

def Docker.ps (d : Docker) : List String := d.running.keys.map ContainerId.short

/-- The full id `docker inspect` prints for `cid`: the one container whose id begins with it. -/
def Docker.inspect (d : Docker) (cid : String) : Option ContainerId :=
  match d.running.keys.filter (fun c => decide (cid.toList <+: c.id.toList)) with
  | [c] => some c
  | _ => none

/-- What `resolve_cgid` finds: the inode of the directory of the run that is live, under the full id. -/
def Docker.resolveCgid (d : Docker) (cid : String) : Option UInt64 := (d.inspect cid).bind (fun c => d.running.lookup c)

/-- `docker ps -q` prints no id twice, so that `docker inspect` takes every one of them. -/
def Docker.ShortsDistinct (d : Docker) : Prop := d.ps.Nodup

instance (d : Docker) : Decidable d.ShortsDistinct := inferInstanceAs (Decidable (List.Nodup _))

/-! ## What resolves to what -/

theorem ContainerId.eq_of_id_eq {c c' : ContainerId} (h : c.id = c'.id) : c = c' := by
  obtain ⟨id, hid⟩ := c
  obtain rfl : id = c'.id := h
  rfl

theorem prefix_id_iff (c c' : ContainerId) : c.id.toList <+: c'.id.toList ↔ c' = c := by
  constructor
  · intro h
    have hlen : c.id.toList.length = c'.id.toList.length := by
      rw [String.length_toList, String.length_toList, c.length_id, c'.length_id]
    exact (ContainerId.eq_of_id_eq (String.toList_inj.1 (h.eq_of_length hlen))).symm
  · rintro rfl
    exact List.prefix_rfl

theorem length_toList_short (c : ContainerId) : c.short.toList.length = 12 := by
  have hlen : c.id.toList.length = 64 := by rw [String.length_toList, c.length_id]
  unfold ContainerId.short
  rw [String.toList_ofList, List.length_take, hlen]
  rfl

theorem short_ne_id (c c' : ContainerId) : c.short ≠ c'.id := fun h => by
  have hlen := length_toList_short c
  rw [h, String.length_toList, c'.length_id] at hlen
  cases hlen

theorem prefix_short_iff (c c' : ContainerId) : c.short.toList <+: c'.id.toList ↔ c'.short = c.short := by
  rw [List.prefix_iff_eq_take, length_toList_short, ← String.toList_inj, ContainerId.short, ContainerId.short,
    String.toList_ofList, String.toList_ofList]
  exact eq_comm

theorem inspect_eq_some {d : Docker} {cid : String} {c : ContainerId} (h : d.inspect cid = some c) :
    c ∈ d.running ∧ cid.toList <+: c.id.toList := by
  unfold Docker.inspect at h
  split at h
  · rename_i c' hf
    cases h
    have hmem : c ∈ d.running.keys.filter (fun c => decide (cid.toList <+: c.id.toList)) := by
      rw [hf]
      exact List.mem_singleton.2 rfl
    obtain ⟨hk, hp⟩ := List.mem_filter.1 hmem
    exact ⟨AList.mem_keys.2 hk, of_decide_eq_true hp⟩
  · cases h

theorem inspect_of_unique {d : Docker} {cid : String} {c : ContainerId} (hc : c ∈ d.running)
    (hp : cid.toList <+: c.id.toList) (huniq : ∀ c' ∈ d.running, cid.toList <+: c'.id.toList → c' = c) :
    d.inspect cid = some c := by
  have hf : d.running.keys.filter (fun c => decide (cid.toList <+: c.id.toList)) = [c] := by
    refine List.perm_singleton.1 ((List.perm_ext_iff_of_nodup (d.running.keys_nodup.filter _)
      (List.nodup_singleton c)).2 (fun c' => ?_))
    rw [List.mem_filter, List.mem_singleton, decide_eq_true_eq]
    constructor
    · rintro ⟨hk, hp'⟩
      exact huniq c' (AList.mem_keys.2 hk) hp'
    · rintro rfl
      exact ⟨AList.mem_keys.1 hc, hp⟩
  unfold Docker.inspect
  rw [hf]

theorem exists_of_resolveCgid {d : Docker} {cid : String} {cgid : UInt64} (h : d.resolveCgid cid = some cgid) :
    ∃ c, cid.toList <+: c.id.toList ∧ d.running.lookup c = some cgid := by
  obtain ⟨c, hi, hl⟩ := Option.bind_eq_some_iff.1 h
  exact ⟨c, (inspect_eq_some hi).2, hl⟩

/-- **A full id resolves to the live run of its container.** -/
theorem resolveCgid_id (d : Docker) (c : ContainerId) : d.resolveCgid c.id = d.running.lookup c := by
  by_cases hc : c ∈ d.running
  · have hi := inspect_of_unique hc ((prefix_id_iff c c).2 rfl) (fun c' _ hp => (prefix_id_iff c c').1 hp)
    unfold Docker.resolveCgid
    rw [hi]
    rfl
  · rw [AList.lookup_eq_none.2 hc]
    apply Option.eq_none_iff_forall_ne_some.2
    intro cgid h
    obtain ⟨c', hp, hl⟩ := exists_of_resolveCgid h
    obtain rfl := (prefix_id_iff c c').1 hp
    exact hc (AList.mem_of_lookup hl)

theorem Docker.ShortsDistinct.eq_of_short_eq {d : Docker} (hd : d.ShortsDistinct) {c c' : ContainerId}
    (hc : c ∈ d.running) (hc' : c' ∈ d.running) (h : c.short = c'.short) : c = c' :=
  List.inj_on_of_nodup_map hd (AList.mem_keys.1 hc) (AList.mem_keys.1 hc') h

theorem Docker.ShortsDistinct.mono {d d' : Docker} (hd : d'.ShortsDistinct) (hsub : ∀ c ∈ d.running, c ∈ d'.running) :
    d.ShortsDistinct :=
  (List.nodup_map_iff_inj_on d.running.keys_nodup).2 (fun _ hc _ hc' h =>
    hd.eq_of_short_eq (hsub _ (AList.mem_keys.2 hc)) (hsub _ (AList.mem_keys.2 hc')) h)

/-- **A short id resolves to the live run of its container**, when no other running one has it. -/
theorem resolveCgid_short {d : Docker} (hd : d.ShortsDistinct) {c : ContainerId} (hc : c ∈ d.running) :
    d.resolveCgid c.short = d.running.lookup c := by
  have hi := inspect_of_unique hc ((prefix_short_iff c c).2 rfl)
    (fun c' hc' hp => hd.eq_of_short_eq hc' hc ((prefix_short_iff c c').1 hp))
  unfold Docker.resolveCgid
  rw [hi]
  rfl

/-! ## Steps -/

theorem Docker.owner_of_step {d d' : Docker} {h : Happening} (hs : d.step h = some d') {cgid : UInt64}
    {c : ContainerId} (ho : d.owner.lookup cgid = some c) : d'.owner.lookup cgid = some c := by
  cases h with
  | start c' cgid' =>
    obtain ⟨hnew, hd⟩ := Option.dite_none_right_eq_some.1 hs
    cases hd
    have hne : cgid ≠ cgid' := fun he => hnew.2 (he ▸ AList.mem_of_lookup ho)
    exact (AList.lookup_insert_ne hne).trans ho
  | die c' => obtain ⟨_, hd⟩ := Option.ite_none_right_eq_some.1 hs; cases hd; exact ho
  | stop c' => obtain ⟨_, hd⟩ := Option.ite_none_right_eq_some.1 hs; cases hd; exact ho
  | destroy c' => obtain ⟨_, hd⟩ := Option.ite_none_right_eq_some.1 hs; cases hd; exact ho

inductive Docker.Change (d d' : Docker) (c : ContainerId) : Happening → Prop
  | started (cgid : UInt64) (hold : c ∉ d.running) (hfresh : cgid ∉ d.owner)
    (hnew : d'.running.lookup c = some cgid) : Change d d' c (.start c cgid)
  | died (hold : c ∈ d.running) (hnew : c ∉ d'.running) : Change d d' c (.die c)
  | same (h : Happening) (hlookup : d'.running.lookup c = d.running.lookup c)
    (hown : h.event.id = c → h.event.action ≠ .start ∧ h.event.action ≠ .die ∧ c ∉ d.running) : Change d d' c h

theorem Docker.change_of_step {d d' : Docker} {h : Happening} (hs : d.step h = some d') (c : ContainerId) :
    d.Change d' c h := by
  cases h with
  | start c' cgid =>
    obtain ⟨hnew, hd⟩ := Option.dite_none_right_eq_some.1 hs
    cases hd
    by_cases hc : c = c'
    · subst hc
      exact .started cgid hnew.1 hnew.2 (AList.lookup_insert _)
    · exact .same _ (AList.lookup_insert_ne hc) (fun he => absurd he.symm hc)
  | die c' =>
    obtain ⟨hold, hd⟩ := Option.ite_none_right_eq_some.1 hs
    cases hd
    by_cases hc : c = c'
    · subst hc
      exact .died hold (AList.lookup_eq_none.1 (AList.lookup_erase _ _))
    · exact .same _ (AList.lookup_erase_ne hc) (fun he => absurd he.symm hc)
  | stop c' =>
    obtain ⟨hold, hd⟩ := Option.ite_none_right_eq_some.1 hs
    cases hd
    exact .same _ rfl (fun he => ⟨nofun, nofun, he ▸ hold⟩)
  | destroy c' =>
    obtain ⟨hold, hd⟩ := Option.ite_none_right_eq_some.1 hs
    cases hd
    exact .same _ rfl (fun he => ⟨nofun, nofun, he ▸ hold⟩)

theorem Docker.lookup_of_other {d d' : Docker} {h : Happening} (hs : d.step h = some d') {c : ContainerId}
    (hne : c ≠ h.event.id) : d'.running.lookup c = d.running.lookup c := by
  cases Docker.change_of_step hs c with
  | started => exact absurd rfl hne
  | died => exact absurd rfl hne
  | same _ hl _ => exact hl

theorem Docker.started {d d' : Docker} {c : ContainerId} {cgid : UInt64} (hs : d.step (.start c cgid) = some d') :
    c ∉ d.running ∧ cgid ∉ d.owner ∧ d'.running.lookup c = some cgid := by
  cases Docker.change_of_step hs c with
  | started _ hold hfresh hnew => exact ⟨hold, hfresh, hnew⟩
  | same _ _ hown => exact absurd rfl (hown rfl).1

theorem Docker.died {d d' : Docker} {c : ContainerId} (hs : d.step (.die c) = some d') :
    c ∈ d.running ∧ d'.running.lookup c = none := by
  cases Docker.change_of_step hs c with
  | died hold hnew => exact ⟨hold, AList.lookup_eq_none.2 hnew⟩
  | same _ _ hown => exact absurd rfl (hown rfl).2.1

theorem Docker.live_of_start {d d' : Docker} {c : ContainerId} {cgid : UInt64} (hs : d.step (.start c cgid) = some d')
    (g : UInt64) : (∃ c', d'.running.lookup c' = some g) ↔ g = cgid ∨ ∃ c', d.running.lookup c' = some g := by
  obtain ⟨hold, -, hnew⟩ := Docker.started hs
  constructor
  · rintro ⟨c', hc'⟩
    by_cases he : c' = c
    · subst he
      exact .inl (Option.some.inj (hc'.symm.trans hnew))
    · exact .inr ⟨c', (Docker.lookup_of_other hs he).symm.trans hc'⟩
  · rintro (rfl | ⟨c', hc'⟩)
    · exact ⟨c, hnew⟩
    · have hne : c' ≠ c := fun he => hold (he ▸ AList.mem_of_lookup hc')
      exact ⟨c', (Docker.lookup_of_other hs hne).trans hc'⟩

theorem Docker.live_of_die {d d' : Docker} {c : ContainerId} {cgid : UInt64} (hs : d.step (.die c) = some d')
    (hlive : d.running.lookup c = some cgid) (g : UInt64) :
    (∃ c', d.running.lookup c' = some g) ↔ g = cgid ∨ ∃ c', d'.running.lookup c' = some g := by
  obtain ⟨-, hdead⟩ := Docker.died hs
  constructor
  · rintro ⟨c', hc'⟩
    by_cases he : c' = c
    · subst he
      exact .inl (Option.some.inj (hc'.symm.trans hlive))
    · exact .inr ⟨c', (Docker.lookup_of_other hs he).trans hc'⟩
  · rintro (rfl | ⟨c', hc'⟩)
    · exact ⟨c, hlive⟩
    · have hne : c' ≠ c := fun he => by rw [he, hdead] at hc'; cases hc'
      exact ⟨c', (Docker.lookup_of_other hs hne).symm.trans hc'⟩

theorem Docker.not_live_of_die {d d' : Docker} {c : ContainerId} {cgid : UInt64} (hs : d.step (.die c) = some d')
    (hlive : d.running.lookup c = some cgid) (c' : ContainerId) : d'.running.lookup c' ≠ some cgid := fun hc' => by
  obtain ⟨-, hdead⟩ := Docker.died hs
  have hne : c' ≠ c := fun he => by rw [he, hdead] at hc'; cases hc'
  rw [Docker.lookup_of_other hs hne] at hc'
  exact hne (Option.some.inj ((d.owned c' _ hc').symm.trans (d.owned c _ hlive)))

/-! ## One container -/

def idOf (ch : Char) : ContainerId := ⟨String.ofList (List.replicate 64 ch), by simp⟩

def oneRunning : Docker := (Docker.init.step (.start (idOf 'a') 5)).get (by decide)

end ControlPlane
end CgroupGuard
