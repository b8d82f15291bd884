import Mathlib.Data.List.Induction
/-!
# Steps — runs of a guarded step function, and threads that interleave

`step s a = none` is an act that is not enabled.  `run` is the state after a list of acts, all of them enabled;
`outputs` collects what each act of a run emits.  `Threads` is a shared state with the local states of threads over
it: `stepAt i` lets thread `i` take its next atomic step, and `alone` runs one thread without interruption.
-/

namespace Steps

variable {σ α β : Type} (step : σ → α → Option σ)

def run (s : σ) (as : List α) : Option σ := as.foldlM step s

@[simp] theorem run_nil (s : σ) : run step s [] = some s := rfl

@[simp] theorem run_cons (s : σ) (a : α) (as : List α) : run step s (a :: as) = (step s a).bind (run step · as) := rfl

theorem run_append (s : σ) (as bs : List α) : run step s (as ++ bs) = (run step s as).bind (run step · bs) :=
  List.foldlM_append

theorem run_concat (s : σ) (as : List α) (a : α) : run step s (as ++ [a]) = (run step s as).bind (step · a) := by
  rw [run_append]
  cases run step s as with
  | none => rfl
  | some t => cases h : step t a <;> simp [h]

variable {step}

theorem run_concat_eq_some {s t : σ} {as : List α} {a : α} (h : run step s (as ++ [a]) = some t) :
    ∃ m, run step s as = some m ∧ step m a = some t := by
  rw [run_concat] at h
  exact Option.bind_eq_some_iff.1 h

theorem run_append_of_run {s m t : σ} {as bs : List α} (h : run step s as = some m) (hb : run step m bs = some t) :
    run step s (as ++ bs) = some t := by
  rw [run_append, h]
  exact hb

/-- **What holds at the start and across every step holds after every run.** -/
theorem run_induction {s : σ} (P : List α → σ → Prop) (hstart : P [] s)
    (hstep : ∀ as m a t, run step s as = some m → P as m → step m a = some t → P (as ++ [a]) t) :
    ∀ as t, run step s as = some t → P as t := by
  intro as
  induction as using List.reverseRecOn with
  | nil => intro t h; cases h; exact hstart
  | append_singleton as a ih =>
    intro t h
    obtain ⟨m, hm, ha⟩ := run_concat_eq_some h
    exact hstep as m a t hm (ih m hm) ha

theorem run_invariant {s : σ} (P : σ → Prop) (hstart : P s) (hstep : ∀ m a t, P m → step m a = some t → P t)
    {as : List α} {t : σ} (h : run step s as = some t) : P t :=
  run_induction (fun _ t => P t) hstart (fun _ m a t _ hm ha => hstep m a t hm ha) as t h

/-- **What simulates every step simulates every run.** -/
theorem run_simulation {τ : Type} {step' : τ → β → Option τ} (R : τ → σ → Prop) (f : β → α)
    (hstep : ∀ t s b t', R t s → step' t b = some t' → ∃ s', step s (f b) = some s' ∧ R t' s') :
    ∀ (bs : List β) {t t' : τ} {s : σ}, R t s → run step' t bs = some t' →
      ∃ s', run step s (bs.map f) = some s' ∧ R t' s'
  | [], _, _, s, hR, h => by cases h; exact ⟨s, rfl, hR⟩
  | b :: bs, t, t', s, hR, h => by
    obtain ⟨m, hb, hbs⟩ := Option.bind_eq_some_iff.1 h
    obtain ⟨n, hn, hRm⟩ := hstep t s b m hR hb
    obtain ⟨s', hs', hR'⟩ := run_simulation R f hstep bs hRm hbs
    refine ⟨s', ?_, hR'⟩
    rw [List.map_cons, run_cons, hn]
    exact hs'

/-! ## Runs whose every act meets a condition -/

variable (step) in
/-- Every act of the run meets `P` in the state it is taken in. -/
def Always (P : σ → α → Prop) : σ → List α → Prop
  | _, [] => True
  | s, a :: as => P s a ∧ ∀ t ∈ step s a, Always P t as

instance decidableAlways (P : σ → α → Prop) [∀ s a, Decidable (P s a)] :
    ∀ (s : σ) (as : List α), Decidable (Always step P s as)
  | _, [] => inferInstanceAs (Decidable True)
  | s, a :: as =>
    match h : step s a with
    | none => decidable_of_iff (P s a) ⟨fun hp => ⟨hp, fun t ht => by rw [h] at ht; cases ht⟩, And.left⟩
    | some t =>
      have := decidableAlways P t as
      decidable_of_iff (P s a ∧ Always step P t as)
        ⟨fun hp => ⟨hp.1, fun u hu => by rw [h] at hu; cases hu; exact hp.2⟩, fun hp => ⟨hp.1, hp.2 t h⟩⟩

theorem Always.imp {P Q : σ → α → Prop} (h : ∀ s a, P s a → Q s a) : ∀ {as : List α} {s : σ},
    Always step P s as → Always step Q s as
  | [], _, _ => trivial
  | _ :: _, _, hP => ⟨h _ _ hP.1, fun t ht => Always.imp h (hP.2 t ht)⟩

theorem Always.left {P : σ → α → Prop} : ∀ {as bs : List α} {s : σ}, Always step P s (as ++ bs) → Always step P s as
  | [], _, _, _ => trivial
  | _ :: _, _, _, h => ⟨h.1, fun t ht => Always.left (h.2 t ht)⟩

theorem Always.concat {P : σ → α → Prop} : ∀ {as : List α} {s m : σ} {a : α}, Always step P s (as ++ [a]) →
    run step s as = some m → Always step P s as ∧ P m a
  | [], _, _, _, h, hr => by cases hr; exact ⟨trivial, h.1⟩
  | _ :: _, _, _, _, h, hr => by
    obtain ⟨t, hb, hm⟩ := Option.bind_eq_some_iff.1 hr
    obtain ⟨hbs, ha⟩ := Always.concat (h.2 t hb) hm
    refine ⟨⟨h.1, fun u hu => ?_⟩, ha⟩
    obtain rfl : t = u := Option.some.inj (hb.symm.trans hu)
    exact hbs

theorem always_of_forall {P : σ → α → Prop} : ∀ {as : List α} {s : σ},
    (∀ pre a post m, as = pre ++ a :: post → run step s pre = some m → P m a) → Always step P s as
  | [], _, _ => trivial
  | a :: as, s, h => by
    refine ⟨h [] a as s rfl rfl, fun t ht => always_of_forall (fun pre b post m has hm => ?_)⟩
    refine h (a :: pre) b post m (by rw [has]; rfl) ?_
    rw [run_cons, Option.mem_def.1 ht]
    exact hm

/-- **Induction over the runs whose every act meets `P`.** -/
theorem always_induction {s : σ} {P : σ → α → Prop} (Q : List α → σ → Prop) (hstart : Q [] s)
    (hstep : ∀ as m a t, run step s as = some m → Q as m → P m a → step m a = some t → Q (as ++ [a]) t) :
    ∀ as t, Always step P s as → run step s as = some t → Q as t := by
  intro as t hP hr
  refine run_induction (fun as t => Always step P s as → Q as t) (fun _ => hstart)
    (fun as m a t hm ih ha hP => ?_) as t hr hP
  obtain ⟨hPas, hPa⟩ := hP.concat hm
  exact hstep as m a t hm (ih hPas) hPa ha

/-- A run that does not always meet `P` has a first act that does not. -/
theorem exists_first_of_not_always {P : σ → α → Prop} : ∀ {as : List α} {s : σ}, ¬ Always step P s as →
    ∃ pre a post m, as = pre ++ a :: post ∧ Always step P s pre ∧ run step s pre = some m ∧ ¬ P m a
  | [], _, h => absurd trivial h
  | a :: as, s, h => by
    by_cases hPa : P s a
    · obtain ⟨t, ht, hnot⟩ : ∃ t, step s a = some t ∧ ¬ Always step P t as := by
        refine Classical.byContradiction (fun hall => h ⟨hPa, fun t ht => Classical.byContradiction (fun hnot => ?_)⟩)
        exact hall ⟨t, ht, hnot⟩
      obtain ⟨pre, b, post, m, rfl, hpre, hm, hb⟩ := exists_first_of_not_always hnot
      refine ⟨a :: pre, b, post, m, rfl, ⟨hPa, fun u hu => ?_⟩, by rw [run_cons, ht]; exact hm, hb⟩
      obtain rfl : t = u := Option.some.inj (ht.symm.trans hu)
      exact hpre
    · exact ⟨[], a, as, s, rfl, trivial, rfl, hPa⟩

/-- **A run without the acts that are not kept**: it simulates the whole, if each act kept can be followed and the
others change nothing to be seen, as long as the acts meet `P`. -/
theorem run_erasing {P : σ → α → Prop} {τ : Type} {step' : τ → α → Option τ} (keep : α → Bool) (R : σ → τ → Prop)
    (hkeep : ∀ s t a s', R s t → P s a → keep a = true → step s a = some s' → ∃ t', step' t a = some t' ∧ R s' t')
    (hdrop : ∀ s t a s', R s t → P s a → keep a = false → step s a = some s' → R s' t) :
    ∀ {as : List α} {s s' : σ} {t : τ}, R s t → Always step P s as → run step s as = some s' →
      ∃ t', run step' t (as.filter keep) = some t' ∧ R s' t'
  | [], _, _, t, hR, _, h => by cases h; exact ⟨t, rfl, hR⟩
  | a :: as, s, s', t, hR, hP, h => by
    obtain ⟨m, hm, has⟩ := Option.bind_eq_some_iff.1 h
    cases ha : keep a with
    | true =>
      obtain ⟨n, hn, hR'⟩ := hkeep s t a m hR hP.1 ha hm
      obtain ⟨t', ht', hend⟩ := run_erasing keep R hkeep hdrop hR' (hP.2 m hm) has
      refine ⟨t', ?_, hend⟩
      rw [List.filter_cons_of_pos ha, run_cons, hn]
      exact ht'
    | false =>
      rw [List.filter_cons_of_neg (by rw [ha]; exact Bool.false_ne_true)]
      exact run_erasing keep R hkeep hdrop (hdrop s t a m hR hP.1 ha hm) (hP.2 m hm) has

/-- **A run by other steps**: if every act that meets `P` is some acts of the other, or none, so is every run whose acts
do. -/
theorem run_refines {P : σ → α → Prop} {τ : Type} {step' : τ → β → Option τ} (R : σ → τ → Prop)
    (hstep : ∀ s t a s', R s t → P s a → step s a = some s' → ∃ bs t', run step' t bs = some t' ∧ R s' t') :
    ∀ {as : List α} {s s' : σ} {t : τ}, R s t → Always step P s as → run step s as = some s' →
      ∃ bs t', run step' t bs = some t' ∧ R s' t'
  | [], _, _, t, hR, _, h => by cases h; exact ⟨[], t, rfl, hR⟩
  | a :: as, s, s', t, hR, hP, h => by
    obtain ⟨m, hm, has⟩ := Option.bind_eq_some_iff.1 h
    obtain ⟨bs, n, hn, hR'⟩ := hstep s t a m hR hP.1 hm
    obtain ⟨cs, t', ht', hend⟩ := run_refines R hstep hR' (hP.2 m hm) has
    exact ⟨bs ++ cs, t', run_append_of_run hn ht', hend⟩

theorem Always.append {P : σ → α → Prop} : ∀ {as bs : List α} {s t : σ}, Always step P s as → run step s as = some t →
    Always step P t bs → Always step P s (as ++ bs)
  | [], _, _, _, _, h, hb => by cases h; exact hb
  | _ :: _, _, _, _, ha, h, hb => by
    refine ⟨ha.1, fun u hu => ?_⟩
    rw [run_cons, Option.mem_def.1 hu] at h
    exact Always.append (ha.2 u hu) h hb

/-! ## What a run emits -/

variable (step) in
def outputs (out : σ → α → List β) : σ → List α → List β
  | _, [] => []
  | s, a :: as =>
    out s a ++ match step s a with
      | none => []
      | some t => outputs out t as

theorem outputs_concat (out : σ → α → List β) : ∀ (as : List α) {s t : σ} (a : α), run step s as = some t →
    outputs step out s (as ++ [a]) = outputs step out s as ++ out t a
  | [], s, t, a, h => by
    cases h
    simp only [List.nil_append, outputs]
    cases step s a <;> exact List.append_nil _
  | b :: bs, s, t, a, h => by
    obtain ⟨m, hb, hm⟩ := Option.bind_eq_some_iff.1 h
    have ih := outputs_concat out bs a hm
    simp only [List.cons_append, outputs, hb, ih, List.append_assoc]

theorem mem_outputs_of_run {out : σ → α → List β} {x : β} : ∀ {as bs : List α} {a : α} {s t : σ},
    run step s as = some t → x ∈ out t a → x ∈ outputs step out s (as ++ a :: bs)
  | [], _, _, _, _, h, hx => by cases h; exact List.mem_append_left _ hx
  | b :: as, bs, a, s, t, h, hx => by
    obtain ⟨m, hb, hm⟩ := Option.bind_eq_some_iff.1 h
    have ih : x ∈ outputs step out m (as ++ a :: bs) := mem_outputs_of_run hm hx
    simp only [List.cons_append, outputs, hb]
    exact List.mem_append_right _ ih

end Steps

structure Threads (σ ρ : Type) where
  shared : σ
  locals : List ρ

namespace Threads

variable {σ ρ : Type} (step : σ → ρ → Option (σ × ρ))

def stepAt (s : Threads σ ρ) (i : Nat) : Option (Threads σ ρ) :=
  s.locals[i]?.bind (fun p => (step s.shared p).map (fun r => ⟨r.1, s.locals.set i r.2⟩))

/-- One thread running by itself for at most `n` steps, until it has none left. -/
def alone : Nat → σ → ρ → σ × ρ
  | 0, s, p => (s, p)
  | n + 1, s, p =>
    match step s p with
    | none => (s, p)
    | some r => alone n r.1 r.2

variable {step}

theorem stepAt_eq_some {s t : Threads σ ρ} {i : Nat} (h : stepAt step s i = some t) :
    ∃ p r, s.locals[i]? = some p ∧ step s.shared p = some r ∧ t = ⟨r.1, s.locals.set i r.2⟩ := by
  obtain ⟨p, hp, hr⟩ := Option.bind_eq_some_iff.1 h
  obtain ⟨r, hr, ht⟩ := Option.map_eq_some_iff.1 hr
  exact ⟨p, r, hp, hr, ht.symm⟩

theorem stepAt_of_step {s : Threads σ ρ} {i : Nat} {p : ρ} {r : σ × ρ} (hp : s.locals[i]? = some p)
    (hr : step s.shared p = some r) : stepAt step s i = some ⟨r.1, s.locals.set i r.2⟩ := by
  unfold stepAt
  rw [hp, Option.bind_some, hr]
  rfl

/-- **A thread by itself is one of the interleavings.** -/
theorem run_alone : ∀ (n : Nat) (s : Threads σ ρ) (i : Nat) (p : ρ), s.locals[i]? = some p →
    ∃ k, Steps.run (stepAt step) s (List.replicate k i) =
      some ⟨(alone step n s.shared p).1, s.locals.set i (alone step n s.shared p).2⟩
  | 0, s, i, p, h => by
    refine ⟨0, ?_⟩
    obtain ⟨hlt, rfl⟩ := List.getElem?_eq_some_iff.1 h
    simp [alone]
  | n + 1, s, i, p, h => by
    unfold alone
    cases hr : step s.shared p with
    | none =>
      refine ⟨0, ?_⟩
      obtain ⟨hlt, rfl⟩ := List.getElem?_eq_some_iff.1 h
      simp
    | some r =>
      have hlt := (List.getElem?_eq_some_iff.1 h).1
      obtain ⟨k, hk⟩ := run_alone n ⟨r.1, s.locals.set i r.2⟩ i r.2 (List.getElem?_set_self hlt)
      refine ⟨k + 1, ?_⟩
      rw [List.replicate_succ, Steps.run_cons, stepAt_of_step h hr, Option.bind_some, hk, List.set_set]

theorem mem_set_self {ps : List ρ} {i : Nat} {p q : ρ} (hp : ps[i]? = some p) : q ∈ ps.set i q :=
  List.mem_of_getElem? (List.getElem?_set_self (List.getElem?_eq_some_iff.1 hp).1)

theorem mem_set_of_ne {ps : List ρ} {i : Nat} {p q w : ρ} (hp : ps[i]? = some p) (hw : w ∈ ps) (hne : w ≠ p) :
    w ∈ ps.set i q := by
  obtain ⟨j, hj⟩ := List.mem_iff_getElem?.1 hw
  have hij : i ≠ j := fun hij => hne (Option.some.inj (hj.symm.trans (hij ▸ hp)))
  exact List.mem_of_getElem? ((List.getElem?_set_ne hij).trans hj)

theorem forall_mem_set {P : ρ → Prop} {ps : List ρ} {i : Nat} {q : ρ} (h : ∀ w ∈ ps, P w) (hq : P q) :
    ∀ w ∈ ps.set i q, P w := by
  intro w hw
  rcases List.mem_or_eq_of_mem_set hw with hw | rfl
  · exact h w hw
  · exact hq

theorem getElem?_set {ps : List ρ} {i j : Nat} {p q : ρ} (h : (ps.set i p)[j]? = some q) :
    (j = i ∧ q = p) ∨ (j ≠ i ∧ ps[j]? = some q) := by
  rw [List.getElem?_set] at h
  by_cases hj : i = j
  · rw [if_pos hj] at h
    split at h
    · cases h; exact .inl ⟨hj.symm, rfl⟩
    · cases h
  · rw [if_neg hj] at h
    exact .inr ⟨fun he => hj he.symm, h⟩

end Threads
