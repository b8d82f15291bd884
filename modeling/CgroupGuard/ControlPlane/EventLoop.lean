import CgroupGuard.ControlPlane.System
import CgroupGuard.Lib.Text
/-!
# EventLoop — the lines `event_loop` reads

`eventLoop` reads lines of any content, and ends where one of them raises; `expected` is what the lines that are events
ask for.  The loop skips what is not JSON, and what is JSON of another shape can end it or start a thread for a value
that is no id.
-/
namespace CgroupGuard
namespace ControlPlane

/-- A value of `json.loads`.  A `float` is given by its bits, an object by the fields of its `dict`. -/
inductive Json where
  | null
  | bool (b : Bool)
  | int (n : Int)
  | float (bits : UInt64)
  | str (s : String)
  | arr (elems : List Json)
  | obj (fields : List (String × Json))

namespace Json

/-- What `or` and `if` take for true. -/
def truthy : Json → Bool
  | null => false
  | bool b => b
  | int n => n ≠ 0
  | float bits => bits ≠ 0 && bits ≠ 0x8000000000000000
  | str s => s ≠ ""
  | arr elems => !elems.isEmpty
  | obj fields => !fields.isEmpty

def isStr (s : String) : Json → Bool
  | str t => t = s
  | _ => false

end Json

/-- What comes of `json.loads`: `raised` is an exception other than `JSONDecodeError`. -/
inductive Loaded where
  | value (v : Json)
  | decodeError
  | raised

inductive Target where
  | add
  | remove
  deriving DecidableEq, Repr

structure Thread where
  target : Target
  cid : Json

def Target.ofAction (action : Json) : Option Target :=
  if action.isStr "start" then some .add
  else if action.isStr "die" || action.isStr "destroy" || action.isStr "stop" then some .remove
  else none

/-- `event.get("Actor", {}).get("ID")`, or nothing when `Actor` has no `get`. -/
def actorId (fields : List (String × Json)) : Option Json :=
  match fields.lookup "Actor" with
  | none => some .null
  | some (.obj actor) => some ((actor.lookup "ID").getD .null)
  | some _ => none

/-- `event.get("id") or event.get("Actor", {}).get("ID")`. -/
def chosenId (fields : List (String × Json)) : Option Json :=
  match fields.lookup "id" with
  | some id => if id.truthy then some id else actorId fields
  | none => actorId fields

def isContainerEvent (fields : List (String × Json)) : Bool :=
  ((fields.lookup "Type").getD .null).isStr "container"

def eventAction (fields : List (String × Json)) : Json := (fields.lookup "Action").getD (.str "")

/-- The threads of a line that is JSON, or nothing when it raises. -/
def dispatch (event : Json) : Option (List Thread) :=
  match event with
  | .obj fields =>
    if isContainerEvent fields then
      (chosenId fields).map (fun cid => (Target.ofAction (eventAction fields)).toList.map (fun target => ⟨target, cid⟩))
    else some []
  -- no other value has a `get`
  | _ => none

def readLine (loads : Text → Loaded) (line : Text) : Option (List Thread) :=
  let line := Text.strip line
  if line = [] then some []
  else
    match loads line with
    | .value event => dispatch event
    | .decodeError => some []
    | .raised => none

def eventLoop (loads : Text → Loaded) : List Text → List Thread × Bool
  | [] => ([], true)
  | line :: lines =>
    match readLine loads line with
    | none => ([], false)
    | some threads =>
      let rest := eventLoop loads lines
      (threads ++ rest.1, rest.2)

/-! ## What is asked for -/

/-- The id of an event, if it is a string: the top-level one unless it is missing or empty, else the actor's. -/
def stringId (fields : List (String × Json)) : Option String :=
  let actor :=
    match fields.lookup "Actor" with
    | some (.obj actor) =>
      match actor.lookup "ID" with
      | some (.str id) => some id
      | _ => none
    | _ => none
  match fields.lookup "id" with
  | some (.str id) => if id = "" then actor else some id
  | _ => actor

def wanted (fields : List (String × Json)) : List Thread :=
  if isContainerEvent fields then
    match stringId fields, Target.ofAction (eventAction fields) with
    | some id, some target => [⟨target, .str id⟩]
    | _, _ => []
  else []

def expected (loads : Text → Loaded) (line : Text) : List Thread :=
  let line := Text.strip line
  if line = [] then []
  else
    match loads line with
    | .value (.obj fields) => wanted fields
    | _ => []

def Survives (loads : Text → Loaded) (lines : List Text) : Prop :=
  eventLoop loads lines = (lines.flatMap (expected loads), true)

def ActorReadable (fields : List (String × Json)) : Prop :=
  (∃ id, fields.lookup "id" = some id ∧ id.truthy = true) ∨ fields.lookup "Actor" = none ∨
    ∃ actor, fields.lookup "Actor" = some (.obj actor)

def IdIsString (fields : List (String × Json)) : Prop :=
  (∃ id, fields.lookup "id" = some (.str id) ∧ id ≠ "") ∨
    (∀ id, fields.lookup "id" = some id → id.truthy = false) ∧
      ∃ actor id, fields.lookup "Actor" = some (.obj actor) ∧ actor.lookup "ID" = some (.str id)

/-- An object, and if it is about a container, one whose actor can be read and whose id, if its action is one of the
four, is a string. -/
def PlainEvent : Json → Prop
  | .obj fields => isContainerEvent fields = true →
      ActorReadable fields ∧ ((Target.ofAction (eventAction fields)).isSome = true → IdIsString fields)
  | _ => False

/-- The line is blank, or not JSON, or JSON of the shape the loop counts on. -/
def PlainLine (loads : Text → Loaded) (line : Text) : Prop :=
  Text.strip line = [] ∨
    match loads (Text.strip line) with
    | .value event => PlainEvent event
    | .decodeError => True
    | .raised => False

/-! ## One line -/

section
variable {fields : List (String × Json)}

theorem actorId_isSome_iff : (actorId fields).isSome = true ↔
    fields.lookup "Actor" = none ∨ ∃ actor, fields.lookup "Actor" = some (.obj actor) := by
  unfold actorId
  split
  · rename_i h
    exact iff_of_true rfl (.inl h)
  · rename_i actor h
    exact iff_of_true rfl (.inr ⟨actor, h⟩)
  · rename_i v hother h
    refine iff_of_false nofun ?_
    rintro (hnone | ⟨actor, hactor⟩)
    · cases h.symm.trans hnone
    · exact hother actor (Option.some.inj (h.symm.trans hactor))

theorem actorId_eq_str_iff {id : String} : actorId fields = some (.str id) ↔
    ∃ actor, fields.lookup "Actor" = some (.obj actor) ∧ actor.lookup "ID" = some (.str id) := by
  unfold actorId
  split
  · rename_i h
    exact iff_of_false nofun (fun ⟨_, hactor, _⟩ => nomatch h.symm.trans hactor)
  · rename_i actor h
    constructor
    · intro hid
      refine ⟨actor, h, ?_⟩
      cases hlook : actor.lookup "ID" with
      | none => rw [hlook] at hid; cases hid
      | some v =>
        rw [hlook] at hid
        exact hid
    · rintro ⟨actor', hactor, hid⟩
      obtain rfl := Json.obj.inj (Option.some.inj (h.symm.trans hactor))
      rw [hid]
      rfl
  · rename_i v hother h
    exact iff_of_false nofun (fun ⟨actor, hactor, _⟩ => hother actor (Option.some.inj (h.symm.trans hactor)))

theorem chosenId_of_not_truthy (h : ∀ id, fields.lookup "id" = some id → id.truthy = false) :
    chosenId fields = actorId fields := by
  unfold chosenId
  cases hid : fields.lookup "id" with
  | none => rfl
  | some id => simp only [h id hid, Bool.false_eq_true, if_false]

theorem chosenId_of_truthy {id : Json} (h : fields.lookup "id" = some id) (htrue : id.truthy = true) :
    chosenId fields = some id := by
  unfold chosenId
  simp only [h, htrue, if_true]

theorem truthy_or (fields : List (String × Json)) : (∃ id, fields.lookup "id" = some id ∧ id.truthy = true) ∨
    ∀ id, fields.lookup "id" = some id → id.truthy = false := by
  by_cases h : ∃ id, fields.lookup "id" = some id ∧ id.truthy = true
  · exact .inl h
  · exact .inr (fun id hid => eq_false_of_ne_true (fun htrue => h ⟨id, hid, htrue⟩))

theorem chosenId_isSome_iff : (chosenId fields).isSome = true ↔ ActorReadable fields := by
  unfold ActorReadable
  rcases truthy_or fields with ⟨id, hid, htrue⟩ | hfalse
  · rw [chosenId_of_truthy hid htrue]
    exact iff_of_true rfl (.inl ⟨id, hid, htrue⟩)
  · rw [chosenId_of_not_truthy hfalse, actorId_isSome_iff]
    refine (or_iff_right ?_).symm
    rintro ⟨id, hid, htrue⟩
    rw [hfalse id hid] at htrue
    cases htrue

theorem exists_chosenId_iff : (∃ id, chosenId fields = some (.str id)) ↔ IdIsString fields := by
  unfold IdIsString
  rcases truthy_or fields with ⟨v, hv, htrue⟩ | hfalse
  · rw [chosenId_of_truthy hv htrue]
    constructor
    · rintro ⟨id, hid⟩
      obtain rfl := Option.some.inj hid
      exact .inl ⟨id, hv, of_decide_eq_true htrue⟩
    · rintro (⟨id, hid, -⟩ | ⟨hfalse, -⟩)
      · exact ⟨id, hv.symm.trans hid⟩
      · rw [hfalse v hv] at htrue
        cases htrue
  · rw [chosenId_of_not_truthy hfalse]
    simp only [actorId_eq_str_iff]
    constructor
    · rintro ⟨id, actor, hactor, hid⟩
      exact .inr ⟨hfalse, actor, id, hactor, hid⟩
    · rintro (⟨id, hid, hne⟩ | ⟨-, actor, id, hactor, hid⟩)
      · exact absurd (of_decide_eq_false (hfalse _ hid)) (fun h => h hne)
      · exact ⟨id, actor, hactor, hid⟩

theorem stringId_of_chosenId {id : String} (h : chosenId fields = some (.str id)) : stringId fields = some id := by
  unfold stringId
  rcases truthy_or fields with ⟨v, hv, htrue⟩ | hfalse
  · rw [chosenId_of_truthy hv htrue] at h
    obtain rfl := Option.some.inj h
    have hne : id ≠ "" := of_decide_eq_true htrue
    simp only [hv, if_neg hne]
  · rw [chosenId_of_not_truthy hfalse, actorId_eq_str_iff] at h
    obtain ⟨actor, hactor, hid⟩ := h
    simp only [hactor, hid]
    split
    · rename_i id' hid'
      have hempty : id' = "" := not_not.1 (of_decide_eq_false (hfalse _ hid'))
      rw [if_pos hempty]
    · rfl

theorem length_wanted_le {threads : List Thread} (h : dispatch (.obj fields) = some threads) :
    (wanted fields).length ≤ threads.length := by
  unfold wanted
  split
  · rename_i hcontainer
    simp only [dispatch, hcontainer, if_true] at h
    obtain ⟨cid, -, rfl⟩ := Option.map_eq_some_iff.1 h
    cases Target.ofAction (eventAction fields) with
    | none => cases stringId fields <;> exact Nat.le_refl 0
    | some target => cases stringId fields <;> exact Nat.le_of_ble_eq_true rfl
  · exact Nat.zero_le _

theorem dispatch_eq_wanted_iff : dispatch (.obj fields) = some (wanted fields) ↔ PlainEvent (.obj fields) := by
  unfold dispatch wanted PlainEvent
  by_cases hcontainer : isContainerEvent fields = true
  · simp only [hcontainer, if_true, true_imp_iff]
    rw [← chosenId_isSome_iff, ← exists_chosenId_iff]
    cases hid : chosenId fields with
    | none => exact iff_of_false nofun (fun h => nomatch h.1)
    | some cid =>
      cases Target.ofAction (eventAction fields) with
      | none => exact iff_of_true (by cases stringId fields <;> rfl) ⟨rfl, nofun⟩
      | some target =>
        constructor
        · intro h
          refine ⟨rfl, fun _ => ?_⟩
          cases hs : stringId fields with
          | none => rw [hs] at h; cases h
          | some id =>
            rw [hs] at h
            cases h
            exact ⟨id, rfl⟩
        · rintro ⟨-, hstr⟩
          obtain ⟨id, hstr⟩ := hstr rfl
          obtain rfl := Option.some.inj hstr
          rw [stringId_of_chosenId hid]
          rfl
  · simp only [hcontainer, Bool.false_eq_true, if_false, false_imp_iff]

end

section
variable (loads : Text → Loaded)

theorem readLine_eq_expected_iff (line : Text) :
    readLine loads line = some (expected loads line) ↔ PlainLine loads line := by
  unfold readLine expected PlainLine
  by_cases hblank : Text.strip line = []
  · simp only [hblank, if_true, true_or]
  · simp only [hblank, if_false, false_or]
    cases loads (Text.strip line) with
    | decodeError => exact iff_of_true rfl trivial
    | raised => exact iff_of_false nofun id
    | value event =>
      cases event with
      | obj fields => exact dispatch_eq_wanted_iff
      | _ => exact iff_of_false nofun id

theorem length_expected_le {line : Text} {threads : List Thread} (h : readLine loads line = some threads) :
    (expected loads line).length ≤ threads.length := by
  unfold readLine at h
  unfold expected
  by_cases hblank : Text.strip line = []
  · simp only [hblank, if_true, List.length_nil, Nat.zero_le]
  · simp only [hblank, if_false] at h ⊢
    split
    · rename_i fields hloads
      rw [hloads] at h
      exact length_wanted_le h
    · exact Nat.zero_le _

/-! ## The loop -/

theorem eventLoop_fst {lines : List Text} (h : (eventLoop loads lines).2 = true) :
    (eventLoop loads lines).1 = lines.flatMap (fun line => (readLine loads line).getD []) := by
  induction lines with
  | nil => rfl
  | cons line lines ih =>
    unfold eventLoop at h ⊢
    cases hline : readLine loads line with
    | none => rw [hline] at h; cases h
    | some threads =>
      rw [hline] at h
      rw [List.flatMap_cons, hline, Option.getD_some, ← ih h]

theorem eventLoop_snd_iff (lines : List Text) :
    (eventLoop loads lines).2 = true ↔ ∀ line ∈ lines, (readLine loads line).isSome = true := by
  induction lines with
  | nil => exact iff_of_true rfl nofun
  | cons line lines ih =>
    rw [List.forall_mem_cons, ← ih, eventLoop]
    cases readLine loads line with
    | none => exact iff_of_false nofun (fun h => nomatch h.1)
    | some threads => exact (and_iff_right rfl).symm

end

/-- **The loop survives exactly the lines it counts on**: those that are blank, those that are not JSON, and objects
that are of no container or of one with a readable actor and, for the four actions, a string for an id. -/
theorem survives_iff (loads : Text → Loaded) (lines : List Text) :
    Survives loads lines ↔ ∀ line ∈ lines, PlainLine loads line := by
  have hline : ∀ line, PlainLine loads line ↔
      (readLine loads line).isSome = true ∧ (readLine loads line).getD [] = expected loads line := by
    intro line
    rw [← readLine_eq_expected_iff]
    cases readLine loads line with
    | none => exact iff_of_false nofun (fun h => nomatch h.1)
    | some threads => simp
  simp only [hline, forall_and, ← eventLoop_snd_iff]
  unfold Survives
  rw [Prod.ext_iff, and_comm]
  refine and_congr_right (fun hread => ?_)
  have hsome := (eventLoop_snd_iff loads lines).1 hread
  rw [eventLoop_fst loads hread, flatMap_eq_iff]
  intro line hmem
  obtain ⟨threads, hthreads⟩ := Option.isSome_iff_exists.1 (hsome line hmem)
  rw [hthreads]
  exact length_expected_le loads hthreads

def loadsTwo (line : Text) : Loaded :=
  if line = "[]".toList then .value (.arr [])
  else if line = "\x7b\"Type\":\"container\",\"Action\":\"start\",\"id\":\"4f0c9d2e7a1b\"\x7d".toList then
    .value (.obj [("Type", .str "container"), ("Action", .str "start"), ("id", .str "4f0c9d2e7a1b")])
  else .decodeError

def listThenStart : List Text :=
  ["[]".toList, "\x7b\"Type\":\"container\",\"Action\":\"start\",\"id\":\"4f0c9d2e7a1b\"\x7d".toList]

/-- **A line with a list ends the loop**, and the container that starts after it is never added. -/
theorem ended_by_list : ¬ Survives loadsTwo listThenStart ∧ (eventLoop loadsTwo listThenStart).1 = [] ∧
    listThenStart.flatMap (expected loadsTwo) = [⟨.add, .str "4f0c9d2e7a1b"⟩] := by
  have hended : eventLoop loadsTwo listThenStart = ([], false) := rfl
  refine ⟨fun h => ?_, by rw [hended], rfl⟩
  have hread := congrArg Prod.snd (hended.symm.trans h)
  cases hread

/-! ## The events of Docker -/

def Action.name : Action → String
  | .start => "start"
  | .die => "die"
  | .stop => "stop"
  | .destroy => "destroy"

def Event.json (e : Event) : Json :=
  .obj [("id", .str e.id.id), ("Type", .str "container"), ("Action", .str e.action.name),
    ("Actor", .obj [("ID", .str e.id.id)])]

def Event.thread (e : Event) : Thread := ⟨if e.action = .start then .add else .remove, .str e.id.id⟩

/-- The thread before its first step; one for a value that is no string is none of the pool's. -/
def Thread.worker (t : Thread) : Option Worker :=
  match t.target, t.cid with
  | .add, .str cid => some (.adding cid)
  | .remove, .str cid => some (.removing cid)
  | _, _ => none

theorem Event.worker_thread (e : Event) : e.thread.worker = some e.worker := by
  obtain ⟨action, id⟩ := e
  cases action <;> rfl

theorem Event.dispatch_json (e : Event) : dispatch e.json = some [e.thread] := by
  obtain ⟨action, id⟩ := e
  have hne : id.id ≠ "" := by
    intro h
    have hlen := id.length_id
    rw [h] at hlen
    cases hlen
  have hchosen : chosenId [("id", .str id.id), ("Type", .str "container"), ("Action", .str action.name),
      ("Actor", .obj [("ID", .str id.id)])] = some (.str id.id) := chosenId_of_truthy rfl (decide_eq_true hne)
  show (chosenId _).map _ = _
  rw [hchosen]
  cases action <;> rfl

/-- **Lines that are events start the threads of the system's `read`**, in their order. -/
theorem eventLoop_events {loads : Text → Loaded} {line : Event → Text} (hblank : ∀ e, Text.strip (line e) ≠ [])
    (hloads : ∀ e, loads (Text.strip (line e)) = .value e.json) : ∀ es : List Event,
      eventLoop loads (es.map line) = (es.map Event.thread, true)
  | [] => rfl
  | e :: es => by
    have hread : readLine loads (line e) = some [e.thread] := by
      simp only [readLine, hblank, if_false, hloads, e.dispatch_json]
    rw [List.map_cons, eventLoop, hread, List.map_cons]
    simp only [eventLoop_events hblank hloads es, List.cons_append, List.nil_append]

end ControlPlane
end CgroupGuard
