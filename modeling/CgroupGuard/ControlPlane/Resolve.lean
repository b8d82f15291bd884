import CgroupGuard.ControlPlane.CgroupPath
/-!
# Resolve — `resolve_cgid` when Docker does not always answer

An attempt asks `docker inspect`, then `docker info` unless an attempt before it has, and then looks for the directory.
What comes of the one `docker info` is kept for all containers: `asked` is the cache an attempt leaves, and `resolve_eq`
says that from it everything else follows.
-/
namespace CgroupGuard
namespace ControlPlane

/-- What the calls of one attempt give if they are made; `inspect` and `info` are nothing when the command fails. -/
structure Replies where
  inspect : Option Text
  info : Option Text
  stat : Text → Option UInt64

/-- `resolve_cgid`, and the cache after it; there are as many attempts as `retries`. -/
def resolveCgid (cache : Option Bool) : List Replies → Option UInt64 × Option Bool
  | [] => (none, cache)
  | r :: rs =>
    match containerCgroupPath cache r.inspect r.info with
    | (none, cache) => resolveCgid cache rs
    | (some path, cache) =>
      match cgidFromPath r.stat path with
      | some cgid => (some cgid, cache)
      | none => resolveCgid cache rs

structure Container where
  parent : Text
  fullId : Text
  cgid : UInt64
  parent_bar : '|' ∉ parent
  hex : FullId fullId

structure Attempt where
  inspect : Bool
  info : Bool
  stat : Bool
  deriving DecidableEq, Repr

def Attempt.Good (a : Attempt) : Prop := a.inspect = true ∧ a.info = true ∧ a.stat = true

instance (a : Attempt) : Decidable a.Good := inferInstanceAs (Decidable (_ ∧ _))

def isSystemd (driver : Text) : Bool := driver = "systemd".toList

/-- The directory of the container is at the path of the driver, and nowhere else. -/
def Container.replies (driver : Text) (c : Container) (a : Attempt) : Replies where
  inspect := if a.inspect then some (inspectOutput c.parent c.fullId) else none
  info := if a.info then some driver else none
  stat full := if a.stat = true ∧ full = fullPath (cgroupPath (isSystemd driver) c.fullId) then some c.cgid else none

structure Resolution where
  container : Container
  attempts : List Attempt

def Resolution.resolve (driver : Text) (cache : Option Bool) (call : Resolution) : Option UInt64 × Option Bool :=
  resolveCgid cache (call.attempts.map (call.container.replies driver))

def cacheAfter (driver : Text) (calls : List Resolution) : Option Bool :=
  calls.foldl (fun cache call => (call.resolve driver cache).2) none

/-- Every call with an attempt that all three calls would succeed for returns the cgroup id. -/
def Unpoisoned (driver : Text) (calls : List Resolution) : Prop :=
  ∀ pre call post, calls = pre ++ call :: post → (∃ a ∈ call.attempts, a.Good) →
    (call.resolve driver (cacheAfter driver pre)).1 = some call.container.cgid

def firstAsking (calls : List Resolution) : Option Attempt :=
  (calls.flatMap Resolution.attempts).find? Attempt.inspect

def asked (driver : Text) (cache : Option Bool) (as : List Attempt) : Option Bool :=
  cache.or ((as.find? Attempt.inspect).map (fun a => a.info && isSystemd driver))

/-! ## One attempt -/

theorem cgroupPath_ne (fullId : Text) {b b' : Bool} (h : b ≠ b') : fullPath (cgroupPath b fullId) ≠
    fullPath (cgroupPath b' fullId) := by
  have hne : fullPath (cgroupPath true fullId) ≠ fullPath (cgroupPath false fullId) := nofun
  cases b <;> cases b'
  · exact absurd rfl h
  · exact hne.symm
  · exact hne
  · exact absurd rfl h

theorem cgroupPath_injective : ∀ {b : Bool} {fullId fullId' : Text},
    fullPath (cgroupPath b fullId) = fullPath (cgroupPath b fullId') → fullId = fullId'
  | true, fullId, fullId', h => by
    have h' : CGROUPFS_ROOT ++ "/system.slice/docker-".toList ++ (fullId ++ ".scope".toList) =
        CGROUPFS_ROOT ++ "/system.slice/docker-".toList ++ (fullId' ++ ".scope".toList) := h
    exact List.append_cancel_right (List.append_cancel_left h')
  | false, fullId, fullId', h => by
    have h' : CGROUPFS_ROOT ++ "/docker/".toList ++ fullId = CGROUPFS_ROOT ++ "/docker/".toList ++ fullId' := h
    exact List.append_cancel_left h'

section
variable (driver : Text) (c : Container)

theorem resolveCgid_of_not_inspect (cache : Option Bool) {a : Attempt} (ha : a.inspect = false) (as : List Attempt) :
    resolveCgid cache ((a :: as).map (c.replies driver)) = resolveCgid cache (as.map (c.replies driver)) := by
  simp only [List.map_cons, resolveCgid, Container.replies, ha, Bool.false_eq_true, if_false, containerCgroupPath,
    Option.bind_none]

theorem resolveCgid_of_inspect (cache : Option Bool) {a : Attempt} (ha : a.inspect = true) (as : List Attempt) :
    resolveCgid cache ((a :: as).map (c.replies driver)) =
      let systemd := isSystemdDriver cache (if a.info then some driver else none)
      if a.stat = true ∧ systemd = isSystemd driver then (some c.cgid, some systemd)
      else resolveCgid (some systemd) (as.map (c.replies driver)) := by
  have hparse : parseInspect (inspectOutput c.parent c.fullId) = some (c.parent.dropWhile Text.isSpace, c.fullId) := by
    rw [parseInspect_inspectOutput _ c.hex, if_neg c.parent_bar]
  simp only [List.map_cons, resolveCgid, Container.replies, ha, if_true, containerCgroupPath, Option.bind_some, hparse,
    cgidFromPath]
  generalize isSystemdDriver cache (if a.info = true then some driver else none) = systemd
  by_cases hsystemd : systemd = isSystemd driver
  · subst hsystemd
    by_cases hstat : a.stat = true
    · simp only [hstat, and_self, if_true]
    · simp only [hstat, false_and, Bool.false_eq_true, if_false]
  · have hpath := cgroupPath_ne c.fullId hsystemd
    simp only [hsystemd, hpath, and_false, if_false]

theorem isSystemdDriver_eq (cache : Option Bool) (a : Attempt) :
    isSystemdDriver cache (if a.info then some driver else none) = cache.getD (a.info && isSystemd driver) := by
  cases cache with
  | some systemd => rfl
  | none => cases a.info <;> rfl

/-! ## One call -/

/-- **What a call returns, and the cache it leaves**: with the right cache, one attempt that finds the directory is
enough, and with the wrong one none is. -/
theorem resolve_eq : ∀ (as : List Attempt) (cache : Option Bool),
    resolveCgid cache (as.map (c.replies driver)) =
      (if asked driver cache as = some (isSystemd driver) ∧ as.any (fun a => a.inspect && a.stat) = true
        then some c.cgid else none, asked driver cache as)
  | [], cache => by
    rw [asked, List.find?_nil, Option.map_none, Option.or_none, if_neg (fun h => Bool.false_ne_true h.2)]
    rfl
  | a :: as, cache => by
    cases ha : a.inspect with
    | false =>
      have hasked : asked driver cache (a :: as) = asked driver cache as := by
        rw [asked, List.find?_cons_of_neg (by rw [ha]; exact Bool.false_ne_true), asked]
      rw [resolveCgid_of_not_inspect driver c cache ha, resolve_eq as cache, hasked, List.any_cons, ha, Bool.false_and,
        Bool.false_or]
    | true =>
      have hasked : asked driver cache (a :: as) = some (cache.getD (a.info && isSystemd driver)) := by
        rw [asked, List.find?_cons_of_pos ha, Option.map_some]
        cases cache <;> rfl
      have hkept : ∀ systemd, asked driver (some systemd) as = some systemd := fun _ => rfl
      rw [resolveCgid_of_inspect driver c cache ha, isSystemdDriver_eq, hasked, List.any_cons, ha, Bool.true_and]
      dsimp only
      rw [resolve_eq as, hkept]
      by_cases hright : cache.getD (a.info && isSystemd driver) = isSystemd driver
      · cases a.stat <;> simp [hright]
      · simp [hright]

end

/-! ## A sequence of calls -/

theorem cacheAfter_eq (driver : Text) (calls : List Resolution) :
    cacheAfter driver calls = asked driver none (calls.flatMap Resolution.attempts) := by
  induction calls using List.reverseRecOn with
  | nil => rfl
  | append_singleton calls call ih =>
    rw [cacheAfter, List.foldl_append, ← cacheAfter, ih, List.foldl_cons, List.foldl_nil, Resolution.resolve,
      resolve_eq, List.flatMap_append, List.flatMap_singleton, asked, asked, asked, List.find?_append, Option.map_or,
      Option.none_or, Option.none_or]

theorem firstAsking_append (xs ys : List Resolution) :
    firstAsking (xs ++ ys) = (firstAsking xs).or (firstAsking ys) := by
  rw [firstAsking, List.flatMap_append, List.find?_append]
  rfl

theorem exists_firstAsking {calls : List Resolution} {call : Resolution} {a : Attempt} (hcall : call ∈ calls)
    (ha : a ∈ call.attempts) (hinspect : a.inspect = true) : ∃ first, firstAsking calls = some first :=
  Option.isSome_iff_exists.1 (List.find?_isSome.2 ⟨a, List.mem_flatMap.2 ⟨call, hcall, ha⟩, hinspect⟩)

theorem resolve_cacheAfter (driver : Text) (pre : List Resolution) {call : Resolution} {a first : Attempt}
    (ha : a ∈ call.attempts) (hgood : a.Good) (hfirst : firstAsking (pre ++ [call]) = some first) :
    (call.resolve driver (cacheAfter driver pre)).1 = some call.container.cgid ↔
      isSystemd driver = false ∨ first.info = true := by
  have hany : call.attempts.any (fun a => a.inspect && a.stat) = true :=
    List.any_eq_true.2 ⟨a, ha, by rw [hgood.1, hgood.2.2]; rfl⟩
  have hasked : asked driver (cacheAfter driver pre) call.attempts =
      (firstAsking (pre ++ [call])).map (fun a => a.info && isSystemd driver) := by
    rw [cacheAfter_eq, firstAsking, List.flatMap_append, List.flatMap_singleton, asked, asked, Option.none_or,
      List.find?_append, Option.map_or]
  rw [Resolution.resolve, resolve_eq, hasked, hfirst]
  cases hs : isSystemd driver <;> cases hi : first.info <;> simp [hany, hi]

/-- **A failure of Docker is forgotten exactly if it is not the first `docker info` that fails**, or the driver is not
systemd, so that a failure says the same as an answer. -/
theorem unpoisoned_iff (driver : Text) (calls : List Resolution) :
    Unpoisoned driver calls ↔
      isSystemd driver = false ∨ (∀ call ∈ calls, ∀ a ∈ call.attempts, ¬ a.Good) ∨
        ∀ first ∈ firstAsking calls, first.info = true := by
  constructor
  · intro h
    by_cases hgood : ∀ call ∈ calls, ∀ a ∈ call.attempts, ¬ a.Good
    · exact .inr (.inl hgood)
    · push Not at hgood
      obtain ⟨call, hcall, a, ha, hgood⟩ := hgood
      obtain ⟨pre, post, rfl⟩ := List.append_of_mem hcall
      obtain ⟨first, hfirst⟩ :=
        exists_firstAsking (List.mem_append_right pre (List.mem_singleton_self call)) ha hgood.1
      have hall : firstAsking (pre ++ call :: post) = some first := by
        rw [List.append_cons, firstAsking_append, hfirst, Option.some_or]
      refine ((resolve_cacheAfter driver pre ha hgood hfirst).1 (h pre call post rfl ⟨a, ha, hgood⟩)).imp_right ?_
      intro hinfo
      exact .inr (fun first' hfirst' => Option.some.inj (hall.symm.trans hfirst') ▸ hinfo)
  · rintro h pre call post rfl ⟨a, ha, hgood⟩
    obtain ⟨first, hfirst⟩ := exists_firstAsking (List.mem_append_right pre (List.mem_singleton_self call)) ha hgood.1
    refine (resolve_cacheAfter driver pre ha hgood hfirst).2 (h.imp_right ?_)
    rintro (hnone | hinfo)
    · exact absurd hgood (hnone call (List.mem_append_right _ List.mem_cons_self) a ha)
    · refine hinfo first ?_
      rw [List.append_cons, firstAsking_append, hfirst]
      rfl

def nginx : Container := ⟨[], List.replicate 64 '4', 5, List.not_mem_nil, .replicate 63 (by decide)⟩

def redis : Container := ⟨[], List.replicate 64 '7', 7, List.not_mem_nil, .replicate 63 (by decide)⟩

/-- `docker info` fails once, in the first attempt for the first container; nothing fails after it. -/
def oneFailure : List Resolution :=
  [⟨nginx, ⟨true, false, true⟩ :: List.replicate 19 ⟨true, true, true⟩⟩, ⟨redis, List.replicate 20 ⟨true, true, true⟩⟩]

/-- **One failure of `docker info` loses the container it is asked for and every later one.** -/
theorem poisoned : ¬ Unpoisoned "systemd".toList oneFailure ∧
    (redis.replies "systemd".toList ⟨true, true, true⟩).stat (fullPath (cgroupPath true redis.fullId)) = some 7 := by
  refine ⟨fun h => ?_, by decide⟩
  have hredis := h [oneFailure.head nofun] _ [] rfl ⟨⟨true, true, true⟩, by decide, by decide⟩
  have hfirst : firstAsking oneFailure = some ⟨true, false, true⟩ := by decide
  have hinfo := (resolve_cacheAfter _ [oneFailure.head nofun] (a := ⟨true, true, true⟩)
      (by decide) (by decide) hfirst).1
    hredis
  exact absurd hinfo (by decide)

/-! ## Without failures -/

/-- What an attempt for `cid` gives when nothing fails; `parent` is `HostConfig.CgroupParent`. -/
def Docker.replies (d : Docker) (driver : Text) (parent : ContainerId → Text) (cid : String) : Replies where
  inspect := (d.inspect cid).map (fun c => inspectOutput (parent c) c.id.toList)
  info := some driver
  stat full :=
    (d.running.keys.find? (fun c => full = fullPath (cgroupPath (isSystemd driver) c.id.toList))).bind
      (fun c => d.running.lookup c)

theorem Docker.mem_keys_of_inspect {d : Docker} {cid : String} {c : ContainerId} (h : d.inspect cid = some c) :
    c ∈ d.running.keys := by
  unfold Docker.inspect at h
  split at h
  · rename_i c' hc'
    cases h
    exact List.mem_of_mem_filter (hc' ▸ List.mem_singleton_self c)
  · cases h

theorem Docker.stat_replies (d : Docker) (driver : Text) (parent : ContainerId → Text) (cid : String) {c : ContainerId}
    (hc : c ∈ d.running.keys) :
    cgidFromPath (d.replies driver parent cid).stat (cgroupPath (isSystemd driver) c.id.toList) =
      d.running.lookup c := by
  have hother : ∀ c' : ContainerId, fullPath (cgroupPath (isSystemd driver) c.id.toList) =
      fullPath (cgroupPath (isSystemd driver) c'.id.toList) → c' = c := fun c' h =>
    ContainerId.eq_of_id_eq (String.toList_injective (cgroupPath_injective h).symm)
  obtain ⟨c', hc'⟩ : ∃ c', d.running.keys.find? (fun c' => fullPath (cgroupPath (isSystemd driver) c.id.toList) =
      fullPath (cgroupPath (isSystemd driver) c'.id.toList)) = some c' :=
    Option.isSome_iff_exists.1 (List.find?_isSome.2 ⟨c, hc, decide_eq_true rfl⟩)
  have hpath := List.find?_some hc'
  obtain rfl := hother c' (of_decide_eq_true hpath)
  show (d.running.keys.find? _).bind _ = _
  rw [hc', Option.bind_some]

/-- **`resolve_cgid` on a host where nothing fails is the lookup of the running container.** -/
theorem resolveCgid_eq_docker (d : Docker) (driver : Text) {parent : ContainerId → Text} (cid : String)
    (hparent : ∀ c ∈ d.running.keys, '|' ∉ parent c) (hhex : ∀ c ∈ d.running.keys, FullId c.id.toList) (retries : Nat) :
    (resolveCgid none (List.replicate (retries + 1) (d.replies driver parent cid))).1 = d.resolveCgid cid := by
  have hinfo : (d.replies driver parent cid).info = some driver := rfl
  unfold Docker.resolveCgid
  cases hd : d.inspect cid with
  | none =>
    have hinspect : (d.replies driver parent cid).inspect = none := by rw [Docker.replies, hd]; rfl
    have hnone : ∀ n cache, resolveCgid cache (List.replicate n (d.replies driver parent cid)) = (none, cache) := by
      intro n cache
      induction n with
      | zero => rfl
      | succ n ih =>
        rw [List.replicate_succ, resolveCgid, containerCgroupPath, hinspect]
        exact ih
    rw [hnone]
    rfl
  | some c =>
    have hc := Docker.mem_keys_of_inspect hd
    have hinspect : (d.replies driver parent cid).inspect = some (inspectOutput (parent c) c.id.toList) := by
      rw [Docker.replies, hd]
      rfl
    obtain ⟨cgid, hcgid⟩ := AList.exists_lookup (AList.mem_keys.1 hc)
    have hstat := d.stat_replies driver parent cid hc
    rw [List.replicate_succ, resolveCgid, containerCgroupPath, hinspect, hinfo, Option.bind_some,
      parseInspect_inspectOutput _ (hhex c hc), if_neg (hparent c hc)]
    show (match cgidFromPath (d.replies driver parent cid).stat (cgroupPath (isSystemd driver) c.id.toList) with
      | some cgid => (some cgid, some (isSystemd driver))
      | none => resolveCgid (some (isSystemd driver)) (List.replicate retries (d.replies driver parent cid))).1 = _
    rw [hstat, hcgid, Option.bind_some, hcgid]

end ControlPlane
end CgroupGuard
