import Mathlib.Data.List.Nodup
import CgroupGuard.Lib.Steps
/-!
# Linearizable — an object whose concurrent calls take effect one at a time

A history has the calls on an object and what they return.  A linearization is an order in which one thread could have
made them: what each comes to is what the object does in that order, every call that returned is in it, and a call that
returned before another began comes before it.  Where the calls of a run can be marked at a point between their
beginning and their return, the order of the marks is one (`linearization_of_conduct`).

Of a place that holds one thing at a time the order shows puts and takes in turns, each take of what the put before it
put (`Slot.alternating_of_run`).
-/

namespace Linearizable

variable {ι Op Out Res σ : Type}

inductive Event (ι Op Res : Type) where
  | call (i : ι) (op : Op)
  | ret (i : ι) (res : Res)
  deriving DecidableEq, Repr

/-- An event, or that a call takes effect and comes to `out`. -/
inductive Mark (ι Op Out Res : Type) where
  | call (i : ι) (op : Op)
  | effect (i : ι) (op : Op) (out : Out)
  | ret (i : ι) (res : Res)
  deriving DecidableEq, Repr

structure Entry (ι Op Out : Type) where
  id : ι
  op : Op
  out : Out
  deriving DecidableEq, Repr

/-- What an operation does when no other comes between, and what it may return when it has come to `out`. -/
structure Object (σ Op Out Res : Type) where
  effect : σ → Op → Out → σ → Prop
  answer : Op → Out → Res → Prop

def Object.Sequential (o : Object σ Op Out Res) : σ → List (Entry ι Op Out) → σ → Prop
  | s, [], t => t = s
  | s, e :: order, t => ∃ m, o.effect s e.op e.out m ∧ o.Sequential m order t

theorem Object.Sequential.append {o : Object σ Op Out Res} : ∀ {xs ys : List (Entry ι Op Out)} {s m t : σ},
    o.Sequential s xs m → o.Sequential m ys t → o.Sequential s (xs ++ ys) t
  | [], _, _, _, _, hx, hy => by cases hx; exact hy
  | _ :: _, _, _, _, _, hx, hy => by
    obtain ⟨n, he, hx⟩ := hx
    exact ⟨n, he, hx.append hy⟩

structure Object.Linearization (o : Object σ Op Out Res) (s t : σ) (history : List (Event ι Op Res))
    (order : List (Entry ι Op Out)) : Prop where
  sequential : o.Sequential s order t
  once : (order.map Entry.id).Nodup
  called : ∀ e ∈ order, .call e.id e.op ∈ history
  answered : ∀ i res, .ret i res ∈ history → ∃ e ∈ order, e.id = i ∧ o.answer e.op e.out res
  inTime : ∀ h₁ h₂ i res j op, history = h₁ ++ .ret i res :: h₂ → .call j op ∈ h₂ →
    ∀ pre e post, order = pre ++ e :: post → e.id = j → i ∈ pre.map Entry.id

/-! ## Marks -/

def Mark.id : Mark ι Op Out Res → ι
  | .call i _ => i
  | .effect i _ _ => i
  | .ret i _ => i

def Mark.event : Mark ι Op Out Res → Option (Event ι Op Res)
  | .call i op => some (.call i op)
  | .effect _ _ _ => none
  | .ret i res => some (.ret i res)

def Mark.entry : Mark ι Op Out Res → Option (Entry ι Op Out)
  | .effect i op out => some ⟨i, op, out⟩
  | _ => none

def history (ms : List (Mark ι Op Out Res)) : List (Event ι Op Res) := ms.filterMap Mark.event

def order (ms : List (Mark ι Op Out Res)) : List (Entry ι Op Out) := ms.filterMap Mark.entry

inductive Stage (Op Out : Type) where
  | idle
  | called (op : Op)
  | taken (op : Op) (out : Out)
  | returned

/-- The marks of the call `i`, which begins, takes effect and returns. -/
inductive Object.Conduct (o : Object σ Op Out Res) (i : ι) : List (Mark ι Op Out Res) → Stage Op Out → Prop
  | idle : o.Conduct i [] .idle
  | called (op : Op) : o.Conduct i [.call i op] (.called op)
  | taken (op : Op) (out : Out) : o.Conduct i [.call i op, .effect i op out] (.taken op out)
  | returned (op : Op) (out : Out) (res : Res) (hres : o.answer op out res) :
    o.Conduct i [.call i op, .effect i op out, .ret i res] .returned

theorem mem_order {ms : List (Mark ι Op Out Res)} {e : Entry ι Op Out} :
    e ∈ order ms ↔ .effect e.id e.op e.out ∈ ms := by
  constructor
  · intro h
    obtain ⟨mk, hmk, he⟩ := List.mem_filterMap.1 h
    cases mk <;> cases he
    exact hmk
  · exact fun h => List.mem_filterMap.2 ⟨_, h, rfl⟩

section
variable [DecidableEq ι]

def marksOf (i : ι) (ms : List (Mark ι Op Out Res)) : List (Mark ι Op Out Res) := ms.filter (fun mk => mk.id = i)

theorem mem_marksOf {i : ι} {ms : List (Mark ι Op Out Res)} {mk : Mark ι Op Out Res} :
    mk ∈ marksOf i ms ↔ mk ∈ ms ∧ mk.id = i := by
  rw [marksOf, List.mem_filter, decide_eq_true_iff]

theorem marksOf_eq_self {i : ι} {ms : List (Mark ι Op Out Res)} (h : ∀ mk ∈ ms, mk.id = i) : marksOf i ms = ms :=
  List.filter_eq_self.2 (fun mk hmk => decide_eq_true (h mk hmk))

theorem marksOf_eq_nil {i : ι} {ms : List (Mark ι Op Out Res)} (h : ∀ mk ∈ ms, mk.id ≠ i) : marksOf i ms = [] :=
  List.filter_eq_nil_iff.2 (fun mk hmk he => h mk hmk (of_decide_eq_true he))

theorem order_marksOf (i : ι) (ms : List (Mark ι Op Out Res)) :
    order (marksOf i ms) = (order ms).filter (fun e => e.id = i) := by
  unfold order marksOf
  rw [List.filterMap_filter, List.filter_filterMap]
  congr 1
  funext mk
  by_cases hid : mk.id = i <;> cases mk <;> simp_all [Mark.id, Mark.entry, Option.filter]

end

variable {o : Object σ Op Out Res} {i : ι}

namespace Object.Conduct

variable {ms l r : List (Mark ι Op Out Res)} {st : Stage Op Out}

theorem call_mem (h : o.Conduct i ms st) {op : Op} {out : Out} (hmem : .effect i op out ∈ ms) : .call i op ∈ ms := by
  cases h <;> simp_all

theorem before_call (h : o.Conduct i (l ++ r) st) {op : Op} (hmem : .call i op ∈ r) : l = [] := by
  cases l with
  | nil => rfl
  | cons mk l =>
    exfalso
    have htail : .call i op ∈ l ++ r := List.mem_append_right l hmem
    rw [List.cons_append] at h
    generalize l ++ r = tail at h htail
    cases h <;> simp at htail

/-- Before its return a call took effect. -/
theorem before_ret {res : Res} (h : o.Conduct i (l ++ .ret i res :: r) st) :
    ∃ op out, .effect i op out ∈ l ∧ o.answer op out res := by
  generalize hms : l ++ .ret i res :: r = ms at h
  have hret : .ret i res ∈ ms := hms ▸ List.mem_append_right l List.mem_cons_self
  cases h with
  | returned op out res' hres =>
    obtain rfl : res = res' := by simpa using hret
    refine ⟨op, out, ?_, hres⟩
    match l, hms with
    | [], hms => cases hms
    | [_], hms => cases hms
    | _ :: second :: l, hms =>
      obtain rfl : second = .effect i op out := (List.cons.inj (List.cons.inj hms).2).1
      exact List.mem_cons_of_mem _ List.mem_cons_self
  | _ => simp at hret

theorem length_order_le (h : o.Conduct i ms st) : (order ms).length ≤ 1 := by
  cases h with
  | idle => exact Nat.zero_le 1
  | called op => exact Nat.zero_le 1
  | taken op out => exact Nat.le_refl 1
  | returned op out res hres => exact Nat.le_refl 1

end Object.Conduct

/-- **The order in which the calls take effect is a linearization.** -/
theorem linearization_of_conduct [DecidableEq ι] {s t : σ} {ms : List (Mark ι Op Out Res)}
    (hconduct : ∀ i, ∃ st, o.Conduct i (marksOf i ms) st) (hseq : o.Sequential s (order ms) t) :
    o.Linearization s t (history ms) (order ms) where
  sequential := hseq
  once := by
    rw [List.nodup_iff_count_le_one]
    intro i
    obtain ⟨st, hst⟩ := hconduct i
    have hle := hst.length_order_le
    rw [order_marksOf, ← List.countP_eq_length_filter] at hle
    rw [List.count, List.countP_map]
    refine Nat.le_trans (Nat.le_of_eq (List.countP_congr (fun e _ => ?_))) hle
    simp
  called := by
    intro e he
    obtain ⟨st, hst⟩ := hconduct e.id
    have hcall := hst.call_mem (mem_marksOf.2 ⟨mem_order.1 he, rfl⟩)
    exact List.mem_filterMap.2 ⟨_, (mem_marksOf.1 hcall).1, rfl⟩
  answered := by
    intro i res hret
    obtain ⟨mk, hmk, hev⟩ := List.mem_filterMap.1 hret
    cases mk <;> cases hev
    obtain ⟨m₁, m₂, rfl⟩ := List.append_of_mem hmk
    obtain ⟨st, hst⟩ := hconduct i
    rw [marksOf, List.filter_append, List.filter_cons_of_pos (by simp [Mark.id])] at hst
    obtain ⟨op, out, hmem, hres⟩ := hst.before_ret
    refine ⟨⟨i, op, out⟩, mem_order.2 ?_, rfl, hres⟩
    exact List.mem_append_left _ (mem_marksOf.1 hmem).1
  inTime := by
    intro h₁ h₂ i res j op hhist hcall pre e post horder hid
    obtain ⟨m₁, m₂', rfl, -, hm₂'⟩ := List.filterMap_eq_append_iff.1 hhist
    obtain ⟨l, mk, m₂, rfl, hl, hmk, hm₂⟩ := List.filterMap_eq_cons_iff.1 hm₂'
    have hret : mk = .ret i res := by
      cases mk <;> cases hmk
      rfl
    subst hret
    -- the call of `j` comes after the return of `i`, so that its effect does too
    have hj : ∀ e ∈ order (m₁ ++ l), e.id ≠ j := by
      obtain ⟨mk, hmk, hev⟩ := List.mem_filterMap.1 (hm₂ ▸ hcall)
      obtain rfl : mk = .call j op := by
        cases mk <;> cases hev
        rfl
      obtain ⟨st, hst⟩ := hconduct j
      rw [← List.append_assoc, marksOf, List.filter_append] at hst
      have hnone := hst.before_call
        (mem_marksOf (i := j).2 ⟨List.mem_cons_of_mem _ hmk, rfl⟩)
      have hfilter := order_marksOf j (m₁ ++ l)
      rw [show marksOf j (m₁ ++ l) = [] from hnone] at hfilter
      intro e he hej
      have hmem : e ∈ (order (m₁ ++ l)).filter (fun e => e.id = j) := List.mem_filter.2 ⟨he, decide_eq_true hej⟩
      rw [← hfilter] at hmem
      cases hmem
    have hi : ∃ x ∈ order (m₁ ++ l), x.id = i := by
      obtain ⟨st, hst⟩ := hconduct i
      rw [← List.append_assoc, marksOf, List.filter_append, List.filter_cons_of_pos (by simp [Mark.id])] at hst
      obtain ⟨op', out, hmem, -⟩ := hst.before_ret
      exact ⟨⟨i, op', out⟩, mem_order.2 (mem_marksOf.1 hmem).1, rfl⟩
    have hsplit : order (m₁ ++ l) ++ order (.ret i res :: m₂) = pre ++ e :: post := by
      rw [← horder, order, order, order, ← List.filterMap_append, List.append_assoc]
    obtain ⟨x, hx, rfl⟩ := hi
    rcases List.append_eq_append_iff.1 hsplit with ⟨p, hpre, -⟩ | ⟨p, hord, hp⟩
    · rw [hpre]
      exact List.mem_map_of_mem (List.mem_append_left _ hx)
    · cases p with
      | nil =>
        rw [List.append_nil] at hord
        exact List.mem_map_of_mem (hord ▸ hx)
      | cons y p =>
        obtain rfl : e = y := (List.cons.inj hp).1
        exact absurd hid (hj e (hord ▸ List.mem_append_right _ List.mem_cons_self))

end Linearizable

/-! ## A place that holds one thing at a time -/

namespace Slot

variable {α : Type}

inductive Act (α : Type) where
  | put (a : α)
  | take (a : α)
  deriving DecidableEq, Repr

def step [DecidableEq α] : Option α → Act α → Option (Option α)
  | none, .put a => some (some a)
  | some b, .take a => if a = b then some none else none
  | _, _ => none

/-- Put, take what was put, and so on; the last put may be without its take. -/
def Alternating : List (Act α) → Prop
  | [] => True
  | [.put _] => True
  | .put a :: .take b :: l => b = a ∧ Alternating l
  | _ => False

/-- **Whatever was done to an empty place alternates.** -/
theorem alternating_of_run [DecidableEq α] : ∀ {l : List (Act α)} {s : Option α}, Steps.run step none l = some s →
    Alternating l
  | [], _, _ => trivial
  | .take _ :: _, _, h => by cases h
  | [.put _], _, _ => trivial
  | .put _ :: .put _ :: _, _, h => by cases h
  | .put a :: .take b :: l, s, h => by
    have hstep : (step (some a) (.take b)).bind (Steps.run step · l) = some s := h
    obtain ⟨m, hm, hl⟩ := Option.bind_eq_some_iff.1 hstep
    obtain ⟨rfl, hnone⟩ := Option.ite_none_right_eq_some.1 hm
    cases hnone
    exact ⟨rfl, alternating_of_run hl⟩

end Slot
