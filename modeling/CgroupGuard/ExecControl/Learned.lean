import CgroupGuard.ExecControl.View
/-!
# Learned — what a container has learned at the end of a run

While neither map is full, the view of a cgroup follows the idle-window learner fed its history (`simulates_run`).
The learner's closed form then describes `allow_map` (`learned_keys_closed_form`), and tells when what was allowed
once stays allowed (`retained_iff`).
-/
namespace CgroupGuard
namespace ExecControl

open IdleWindow (Learner offer firstOccs learnedCount)

def Near (s t : Nat) : Prop := t - s < horizon

instance : DecidableRel Near := fun s t => inferInstanceAs (Decidable (t - s < horizon))

theorem near_mono {l s t : Nat} (h : s ≤ t) (hn : Near l t) : Near l s :=
  Nat.lt_of_le_of_lt (Nat.sub_le_sub_right h l) hn

/-- Neither map reaches its capacity in the run. -/
def NeverFull (xs : List Invocation) : Prop :=
  ∀ pre, pre <+: xs → (run pre).cgStateMap.size < 1024 ∧ (run pre).allowMap.size < 8192

/-- A container's first exec starts its learner, later ones are offered to it. -/
def learnerStep : Option (Learner FileId Nat) → FileId × Nat → Option (Learner FileId Nat)
  | none, e => some ⟨e.2, []⟩
  | some L, e => some (offer Near L e)

def learner (h : List (FileId × Nat)) : Option (Learner FileId Nat) := h.foldl learnerStep none

def Simulates (v : View) : Option (Learner FileId Nat) → Prop
  | none => v.last = none ∧ ∀ f, v.allowed f = false
  | some L => (∃ l, v.last = some l ∧ l.toNat = L.last) ∧ ∀ f, v.allowed f = true ↔ f ∈ L.known

theorem learner_concat (h : List (FileId × Nat)) (e : FileId × Nat) :
    learner (h ++ [e]) = learnerStep (learner h) e := by
  unfold learner
  rw [List.foldl_append]
  rfl

theorem foldl_learnerStep : ∀ (h : List (FileId × Nat)) (L : Learner FileId Nat),
    h.foldl learnerStep (some L) = some (h.foldl (offer Near) L)
  | [], _ => rfl
  | e :: h, L => foldl_learnerStep h (offer Near L e)

theorem learner_cons (e : FileId × Nat) (h : List (FileId × Nat)) :
    learner (e :: h) = some (h.foldl (offer Near) ⟨e.2, []⟩) :=
  foldl_learnerStep h ⟨e.2, []⟩

theorem learner_eq_none {h : List (FileId × Nat)} (hl : learner h = none) : h = [] := by
  cases h with
  | nil => rfl
  | cons e h => rw [learner_cons] at hl; cases hl

theorem exists_last_offer (L : Learner FileId Nat) (e : FileId × Nat) :
    (offer Near L e).last = L.last ∨ (offer Near L e).last = e.2 := by
  unfold offer
  split
  · exact .inl rfl
  split
  · exact .inr rfl
  · exact .inl rfl

theorem exists_last_learner (h : List (FileId × Nat)) {L : Learner FileId Nat} (hl : learner h = some L) :
    ∃ e ∈ h, L.last = e.2 := by
  induction h using List.reverseRecOn generalizing L with
  | nil => cases hl
  | append_singleton h e ih =>
    rw [learner_concat] at hl
    cases ho : learner h with
    | none =>
      rw [ho] at hl
      cases hl
      exact ⟨e, by simp, rfl⟩
    | some L₀ =>
      rw [ho] at hl
      cases hl
      rcases exists_last_offer L₀ e with h₁ | h₁
      · obtain ⟨e', he', hlast⟩ := ih ho
        exact ⟨e', by simp [he'], h₁.trans hlast⟩
      · exact ⟨e, by simp, h₁⟩

/-! ## The simulation -/

/-- **One checked call with room for its writes is one step of the learner**: it denies exactly when the learner does
not know the executable afterwards. -/
theorem simulates_viewStep {v : View} {o : Option (Learner FileId Nat)} (hv : Simulates v o) (fid : FileId)
    (now : UInt64) (hlast : ∀ L, o = some L → L.last ≤ now.toNat) :
    Simulates (viewStep v true true fid now).1 (learnerStep o (fid, now.toNat)) ∧
      ((viewStep v true true fid now).2 = -1 ↔
        ∃ L, o = some L ∧ fid ∉ (offer Near L (fid, now.toNat)).known) := by
  cases o with
  | none =>
    obtain ⟨hl, ha⟩ := hv
    simp only [viewStep, hl, if_true]
    refine ⟨⟨⟨now, rfl, rfl⟩, fun f => ?_⟩, ?_⟩
    · rw [ha f]; simp
    · simp
  | some L =>
    obtain ⟨⟨l, hl, hlL⟩, ha⟩ := hv
    have hle : l ≤ now := UInt64.le_iff_toNat_le.2 (hlL ▸ hlast L rfl)
    have hnear : now - l < horizonNs ↔ Near L.last now.toNat := by rw [elapsed_lt_iff hle, hlL]; rfl
    have hone : ∀ P : Learner FileId Nat → Prop, (∃ L', some L = some L' ∧ P L') ↔ P L := fun P => by
      constructor
      · rintro ⟨L', h, hp⟩
        cases h
        exact hp
      · exact fun hp => ⟨L, rfl, hp⟩
    rw [hone, learnerStep]
    simp only [viewStep, hl]
    by_cases hk : fid ∈ L.known
    · rw [if_pos ((ha fid).2 hk), IdleWindow.offer_of_mem Near hk]
      exact ⟨⟨⟨l, hl, hlL⟩, ha⟩, by simp [hk]⟩
    · rw [if_neg (fun h => hk ((ha fid).1 h))]
      by_cases hn : Near L.last now.toNat
      · rw [if_pos (hnear.2 hn), IdleWindow.offer_of_near Near hk hn]
        refine ⟨⟨⟨now, rfl, rfl⟩, fun f => ?_⟩, by simp⟩
        simp [ha f]
      · rw [if_neg (fun h => hn (hnear.1 h)), IdleWindow.offer_of_not_near Near hn]
        exact ⟨⟨⟨l, hl, hlL⟩, ha⟩, by simp [hk]⟩

theorem accepts_of_size_lt {κ ν : Type} [DecidableEq κ] {cap : Nat} {m : BoundedMap κ ν cap} (h : m.size < cap)
    (k : κ) : m.Accepts k := .inr h

theorem NeverFull.left {xs ys : List Invocation} (h : NeverFull (xs ++ ys)) : NeverFull xs :=
  fun pre hpre => h pre (hpre.trans (List.prefix_append xs ys))

theorem NeverFull.upTo {xs p q : List Invocation} {x : Invocation} (h : NeverFull xs) (hxs : xs = p ++ x :: q) :
    NeverFull (p ++ [x]) := by
  rw [hxs, List.append_cons] at h
  exact h.left

theorem neverFull_of_length_lt {xs : List Invocation} (h : xs.length < 1024) : NeverFull xs := fun pre hpre => by
  have hlen := hpre.length_le
  obtain ⟨hs, ha⟩ := size_run_le pre
  exact ⟨by omega, by omega⟩

theorem viewStep_of_room {m : Maps} (hs : m.cgStateMap.size < 1024) (ha : m.allowMap.size < 8192) {x : Invocation}
    {key : ExecKey} (h : x.checked = some key) :
    (view (execControl m x).1 key.cgid, (execControl m x).2) =
      viewStep (view m key.cgid) true true key.fid x.now := by
  rw [execControl_view m h, decide_eq_true (accepts_of_size_lt hs key.cgid), decide_eq_true (accepts_of_size_lt ha key)]

theorem learner_last_le {c : UInt64} {xs : List Invocation} {x : Invocation} (hclock : Nondecreasing (xs ++ [x]))
    {L : Learner FileId Nat} (hL : learner (history c xs) = some L) : L.last ≤ x.now.toNat := by
  obtain ⟨e, he, hlast⟩ := exists_last_learner _ hL
  obtain ⟨y, hy, hye⟩ := List.mem_filterMap.1 he
  rw [hlast, (occurrence_eq_some hye).2]
  exact UInt64.le_iff_toNat_le.1 (hclock.le y hy)

/-- **A cgroup's view follows the learner of its history** while neither map is full. -/
theorem simulates_run (c : UInt64) (xs : List Invocation) (hclock : Nondecreasing xs) (hroom : NeverFull xs) :
    Simulates (view (run xs) c) (learner (history c xs)) := by
  induction xs using List.reverseRecOn with
  | nil => exact ⟨rfl, fun _ => rfl⟩
  | append_singleton xs x ih =>
    have hv := ih hclock.left hroom.left
    obtain ⟨hs, ha⟩ := hroom xs (List.prefix_append xs [x])
    rw [run_concat, history_concat]
    cases ho : occurrence c x with
    | none =>
      rw [view_of_other (run xs) x (fun _ => occurrence_eq_none ho)]
      simpa using hv
    | some e =>
      obtain ⟨fid, t⟩ := e
      obtain ⟨hk, rfl⟩ := occurrence_eq_some ho
      have hstep := congrArg Prod.fst (viewStep_of_room hs ha hk)
      rw [show view _ c = _ from hstep, Option.toList_some, learner_concat]
      exact (simulates_viewStep hv fid x.now (fun L hL => learner_last_le hclock hL)).1

/-- **A checked call is denied exactly when the learner does not know its executable afterwards.** -/
theorem result_eq_neg_one_iff {pre : List Invocation} {x : Invocation} {key : ExecKey}
    (hclock : Nondecreasing (pre ++ [x])) (hroom : NeverFull (pre ++ [x])) (hx : x.checked = some key) :
    result pre x = -1 ↔ ∃ L, learner (history key.cgid pre) = some L ∧
      key.fid ∉ (offer Near L (key.fid, x.now.toNat)).known := by
  obtain ⟨hs, ha⟩ := hroom pre (List.prefix_append pre [x])
  have hv := simulates_run key.cgid pre hclock.left hroom.left
  rw [result, congrArg Prod.snd (viewStep_of_room hs ha hx)]
  exact (simulates_viewStep hv key.fid x.now (fun L hL => learner_last_le hclock hL)).2

theorem mem_allowMap_iff {c : UInt64} {xs : List Invocation} (hclock : Nondecreasing xs) (hroom : NeverFull xs)
    {L : Learner FileId Nat} (hL : learner (history c xs) = some L) (fid : FileId) :
    (⟨c, fid⟩ : ExecKey) ∈ (run xs).allowMap.keys ↔ fid ∈ L.known := by
  have hv := simulates_run c xs hclock hroom
  rw [hL] at hv
  rw [← view_allowed]
  exact hv.2 fid

theorem denied_iff_not_stored {pre : List Invocation} {x : Invocation} {key : ExecKey}
    (hclock : Nondecreasing (pre ++ [x])) (hroom : NeverFull (pre ++ [x])) (hx : x.checked = some key)
    (hne : history key.cgid pre ≠ []) : result pre x = -1 ↔ key ∉ (run (pre ++ [x])).allowMap.keys := by
  obtain ⟨L, hL⟩ : ∃ L, learner (history key.cgid pre) = some L :=
    Option.ne_none_iff_exists'.1 (fun h => hne (learner_eq_none h))
  have hL' : learner (history key.cgid (pre ++ [x])) = some (offer Near L (key.fid, x.now.toNat)) := by
    rw [history_concat_of_checked pre hx, learner_concat, hL]
    rfl
  rw [result_eq_neg_one_iff hclock hroom hx, mem_allowMap_iff hclock hroom hL' key.fid]
  constructor
  · rintro ⟨L₁, hL₁, hk⟩
    rw [hL] at hL₁
    cases hL₁
    exact hk
  · exact fun hk => ⟨L, hL, hk⟩

/-! ## The closed form -/

/-- **The learned set, from the history alone.**  `t₀` is the clock of the first checked exec of `c` and `rest` the
later ones; the keys of `c` in `allow_map` are the first `m` first occurrences of `rest`, for the largest `m` whose
gaps are all below the two windows, and a later exec is denied exactly when its key is not stored afterwards. -/
theorem learned_keys_closed_form (c : UInt64) (xs : List Invocation) (hclock : Nondecreasing xs)
    (hroom : NeverFull xs) (k₀ : FileId) (t₀ : Nat) (rest : List (FileId × Nat))
    (hhist : history c xs = (k₀, t₀) :: rest) :
    (∀ fid, (⟨c, fid⟩ : ExecKey) ∈ (run xs).allowMap.keys ↔
      fid ∈ ((firstOccs rest).take (learnedCount Near t₀ (firstOccs rest))).map Prod.fst) ∧
    (∀ pre x post key, xs = pre ++ x :: post → x.checked = some key → key.cgid = c → history c pre ≠ [] →
      (result pre x = -1 ↔ key ∉ (run (pre ++ [x])).allowMap.keys)) := by
  constructor
  · intro fid
    have hsorted := history_nondecreasing c hclock
    rw [hhist, List.map_cons, List.pairwise_cons] at hsorted
    have hL : learner (history c xs) = some (rest.foldl (offer Near) ⟨t₀, []⟩) := by rw [hhist, learner_cons]
    rw [mem_allowMap_iff hclock hroom hL, IdleWindow.known_foldl_offer_nil Near near_mono t₀ rest hsorted.2]
  · rintro pre x post key rfl hx rfl hne
    exact denied_iff_not_stored (hclock.upTo rfl) (hroom.upTo rfl) hx hne

/-- The container of `hello.cpp`: its entry, `/test1` five seconds later, and `/test1` and `/test2` after ten more. -/
def helloRun : List Invocation :=
  [trackedExec 7 1 0, trackedExec 7 2 5000000000, trackedExec 7 2 15000000000, trackedExec 7 3 15000000000]

theorem nondecreasing_helloRun : Nondecreasing helloRun := by unfold Nondecreasing helloRun; decide

theorem learned_keys_helloRun :
    Nondecreasing helloRun ∧ NeverFull helloRun ∧
    (∀ fid, (⟨7, fid⟩ : ExecKey) ∈ (run helloRun).allowMap.keys ↔ fid = ⟨1, 2⟩) ∧
    result (helloRun.take 3) (trackedExec 7 3 15000000000) = -1 := by
  have hroom : NeverFull helloRun := neverFull_of_length_lt (by decide)
  have h := learned_keys_closed_form 7 helloRun nondecreasing_helloRun hroom ⟨1, 1⟩ 0
    [(⟨1, 2⟩, 5000000000), (⟨1, 2⟩, 15000000000), (⟨1, 3⟩, 15000000000)] (by decide)
  refine ⟨nondecreasing_helloRun, hroom, fun fid => (h.1 fid).trans ?_, ?_⟩
  · rw [← List.mem_singleton]
    exact iff_of_eq (congrArg (fid ∈ ·) (by decide))
  · exact (h.2 (helloRun.take 3) (trackedExec 7 3 15000000000) [] ⟨7, ⟨1, 3⟩⟩ rfl (by decide) rfl (by decide)).2
      (by decide)

/-! ## What was learned stays allowed -/

/-- Every exec allowed before its container's first denial is allowed at every later time. -/
def Retained (xs : List Invocation) : Prop :=
  ∀ pre x mid y post key, xs = pre ++ x :: (mid ++ y :: post) → x.checked = some key → y.checked = some key →
    result pre x = 0 → (∀ p d q, pre = p ++ d :: q → d.cgid = key.cgid → result p d ≠ -1) →
      result (pre ++ x :: mid) y = 0

/-- Every container that executes its first executable a second time does so while it still learns: the gaps between
its first exec, the first occurrences after it and that second time are all below the two windows. -/
def FirstRelearned (xs : List Invocation) : Prop :=
  ∀ c k₀ t₀ rest, history c xs = (k₀, t₀) :: rest →
    ∀ r₁ s r₂, rest = r₁ ++ (k₀, s) :: r₂ → k₀ ∉ r₁.map Prod.fst →
      (t₀ :: ((firstOccs r₁).map Prod.snd ++ [s])).IsChain Near

theorem result_of_history_nil {pre : List Invocation} {d : Invocation} (hclock : Nondecreasing (pre ++ [d]))
    (hroom : NeverFull (pre ++ [d])) (h : history d.cgid pre = []) : result pre d = 0 := by
  refine (result_zero_or pre d).resolve_right (fun hd => ?_)
  cases hk : d.checked with
  | none => rw [result, execControl_of_unchecked _ hk] at hd; cases hd
  | some key =>
    obtain ⟨L, hL, -⟩ := (result_eq_neg_one_iff hclock hroom hk).1 hd
    rw [Invocation.cgid_of_checked hk, h] at hL
    cases hL

theorem result_of_stored {pre : List Invocation} {x : Invocation} {key : ExecKey} (hx : x.checked = some key)
    (hk : key ∈ (run pre).allowMap.keys) : result pre x = 0 := by
  unfold result
  have hc := execControl_of_checked (run pre) hx
  generalize execControl (run pre) x = r at hc ⊢
  cases hc with
  | deny st hst hk' hd => exact absurd hk hk'
  | _ => rfl

theorem result_of_allowed {pre : List Invocation} {x : Invocation} {key : ExecKey}
    (hclock : Nondecreasing (pre ++ [x])) (hroom : NeverFull (pre ++ [x])) (hx : x.checked = some key)
    (hne : history key.cgid pre ≠ []) (hx0 : result pre x = 0) (mid : List Invocation) {y : Invocation}
    (hy : y.checked = some key) : result (pre ++ x :: mid) y = 0 := by
  have hk : key ∈ (run (pre ++ [x])).allowMap.keys := by
    by_contra hk
    rw [(denied_iff_not_stored hclock hroom hx hne).2 hk] at hx0
    cases hx0
  rw [List.append_cons]
  exact result_of_stored hy (mem_allowMap_run_append hk mid)

/-- **The second exec of a container's first executable** is allowed exactly when the container still learns then:
the first exec stored nothing. -/
theorem rerun_allowed_iff {pre : List Invocation} {x : Invocation} {mid : List Invocation} {y : Invocation}
    {key : ExecKey} (hclock : Nondecreasing (pre ++ x :: mid ++ [y])) (hroom : NeverFull (pre ++ x :: mid ++ [y]))
    (hx : x.checked = some key) (hy : y.checked = some key) (hpre : history key.cgid pre = [])
    (hnew : key.fid ∉ (history key.cgid mid).map Prod.fst) :
    result (pre ++ x :: mid) y = 0 ↔
      (x.now.toNat :: ((firstOccs (history key.cgid mid)).map Prod.snd ++ [y.now.toNat])).IsChain Near := by
  have hhist : history key.cgid (pre ++ x :: mid) = (key.fid, x.now.toNat) :: history key.cgid mid := by
    rw [List.append_cons, history_append, history_concat_of_checked pre hx, hpre]
    rfl
  have hsorted := history_nondecreasing key.cgid hclock
  rw [history_concat_of_checked _ hy, hhist, List.cons_append, List.map_cons, List.pairwise_cons] at hsorted
  have hL : learner (history key.cgid (pre ++ x :: mid)) =
      some ((history key.cgid mid).foldl (offer Near) ⟨x.now.toNat, []⟩) := by
    rw [hhist]
    exact learner_cons _ _
  rw [← IdleWindow.mem_known_first_offer Near near_mono x.now.toNat _ hsorted.2 hnew, List.foldl_append]
  have hdenied := result_eq_neg_one_iff hclock hroom hy
  rw [hL] at hdenied
  constructor
  · intro h0
    by_contra hk
    rw [hdenied.2 ⟨_, rfl, hk⟩] at h0
    cases h0
  · intro hk
    refine (result_zero_or _ y).resolve_right (fun hd => ?_)
    obtain ⟨L, hL', hnot⟩ := hdenied.1 hd
    cases hL'
    exact hnot hk

/-- **What was learned stays allowed exactly in the runs where every container's first executable is learned at its
second exec**: the call that creates the record answers 0 without storing its key. -/
theorem retained_iff (xs : List Invocation) (hclock : Nondecreasing xs) (hroom : NeverFull xs) :
    Retained xs ↔ FirstRelearned xs := by
  constructor
  · rintro hret c k₀ t₀ rest hhist r₁ s r₂ rfl hnew
    obtain ⟨pre, x, post, rfl, hpre, hx, rfl⟩ := exists_of_history_eq (show _ = [] ++ _ from hhist)
    have hpost : history c post = r₁ ++ (k₀, s) :: r₂ := by
      rw [List.append_cons, history_append, history_concat_of_checked pre hx, hpre] at hhist
      exact (List.cons.inj hhist).2
    obtain ⟨mid, y, post', rfl, rfl, hy, rfl⟩ := exists_of_history_eq hpost
    have hfirst : ∀ p d q, pre ++ x :: (mid ++ y :: post') = p ++ d :: q → d.cgid = c → history c p = [] →
        result p d = 0 := fun p d q hp hdc hnil =>
      result_of_history_nil (hclock.upTo hp) (hroom.upTo hp) (by rw [hdc]; exact hnil)
    have hnone : ∀ p d q, pre = p ++ d :: q → d.cgid = c → result p d ≠ -1 := by
      rintro p d q rfl hdc
      rw [history_append] at hpre
      rw [hfirst p d (q ++ x :: (mid ++ y :: post')) (by simp) hdc (List.append_eq_nil_iff.1 hpre).1]
      decide
    have hx0 := hfirst pre x _ rfl (Invocation.cgid_of_checked hx).symm hpre
    have hy0 := hret pre x mid y post' ⟨c, k₀⟩ rfl hx hy hx0 hnone
    have hupto : pre ++ x :: (mid ++ y :: post') = (pre ++ x :: mid) ++ y :: post' := by simp
    exact (rerun_allowed_iff (hclock.upTo hupto) (hroom.upTo hupto) hx hy hpre hnew).1 hy0
  · rintro hfirst pre x mid y post key rfl hx hy hx0 -
    by_cases hpre : history key.cgid pre = []
    · have hrest : ∀ m z q, mid ++ y :: post = m ++ z :: q → z.checked = some key →
          key.fid ∉ (history key.cgid m).map Prod.fst → result (pre ++ x :: m) z = 0 := fun m z q hm hz hnew => by
        have hupto : pre ++ x :: (mid ++ y :: post) = (pre ++ x :: m) ++ z :: q := by rw [hm]; simp
        refine (rerun_allowed_iff (hclock.upTo hupto) (hroom.upTo hupto) hx hz hpre hnew).2
          (hfirst key.cgid key.fid x.now.toNat _ ?_ (history key.cgid m) z.now.toNat (history key.cgid q) rfl hnew)
        rw [hm, List.append_cons, history_append, history_concat_of_checked pre hx, hpre, List.append_cons m,
          history_append, history_concat_of_checked m hz]
        simp
      -- the second exec of the executable is `y`, or stored the key before `y`
      by_cases hnew : key.fid ∈ (history key.cgid mid).map Prod.fst
      · obtain ⟨r₁, s, r₂, hr, hr₁⟩ := IdleWindow.exists_first_occ hnew
        obtain ⟨m, z, q, rfl, rfl, hz, -⟩ := exists_of_history_eq hr
        have hupto : pre ++ x :: (m ++ z :: q ++ y :: post) = (pre ++ x :: m) ++ z :: (q ++ y :: post) := by simp
        have hne : history key.cgid (pre ++ x :: m) ≠ [] := by
          rw [List.append_cons, history_append, history_concat_of_checked pre hx]
          simp
        rw [show pre ++ x :: (m ++ z :: q) = (pre ++ x :: m) ++ z :: q by simp]
        exact result_of_allowed (hclock.upTo hupto) (hroom.upTo hupto) hz hne
          (hrest m z (q ++ y :: post) (by simp) hz hr₁) q hy
      · exact hrest mid y post rfl hy hnew
    · exact result_of_allowed (hclock.upTo rfl) (hroom.upTo rfl) hx hpre hx0 mid hy

theorem retained_helloRun_iff :
    Nondecreasing helloRun ∧ NeverFull helloRun ∧ (Retained helloRun ↔ FirstRelearned helloRun) := by
  have hroom : NeverFull helloRun := neverFull_of_length_lt (by decide)
  exact ⟨nondecreasing_helloRun, hroom, retained_iff helloRun nondecreasing_helloRun hroom⟩

def rerunEntry : List Invocation := [trackedExec 7 1 0, trackedExec 7 1 6000000000]

theorem not_retained_rerunEntry : Nondecreasing rerunEntry ∧ NeverFull rerunEntry ∧ ¬ Retained rerunEntry := by
  refine ⟨by unfold Nondecreasing rerunEntry; decide, neverFull_of_length_lt (by decide), fun h => ?_⟩
  have hy := h [] (trackedExec 7 1 0) [] (trackedExec 7 1 6000000000) [] ⟨7, ⟨1, 1⟩⟩ rfl (by decide) (by decide)
    (by decide) (fun p d q hp => by cases p <;> cases hp)
  exact absurd hy (by decide)

end ExecControl
end CgroupGuard
