import Mathlib.Data.List.Chain
import Mathlib.Data.Nat.Find
import Mathlib.Order.Basic
/-!
# IdleWindow — learning that ends with the first long silence

A learner is offered keys at times.  A key it knows changes nothing; a new one is taken in while its time is near the
last one taken in, and turned away otherwise.  Over a nondecreasing history the keys it knows have a closed form
(`known_foldl_offer`): the first occurrences of the history, up to the first of them that is not near the one before.
`near s t` reads "`t` is soon enough after `s`"; all the rules ask of it is that an earlier time is as near as a later.
-/
namespace IdleWindow

variable {κ τ : Type}

structure Learner (κ τ : Type) where
  last : τ
  known : List κ

section Defs

variable [DecidableEq κ] (near : τ → τ → Prop) [DecidableRel near]

def offer (L : Learner κ τ) (e : κ × τ) : Learner κ τ :=
  if e.1 ∈ L.known then L
  else if near L.last e.2 then ⟨e.2, L.known ++ [e.1]⟩
  else L

/-- The first occurrence of each key of a history, in order. -/
def firstOccs : List (κ × τ) → List (κ × τ)
  | [] => []
  | e :: es => e :: (firstOccs es).filter (fun e' => decide (e'.1 ≠ e.1))

/-- The events taken in one after the other, each near the one before (`t` before the first). -/
def admitted : τ → List (κ × τ) → List (κ × τ)
  | _, [] => []
  | t, e :: es => if near t e.2 then e :: admitted e.2 es else []

/-- The largest `m` such that the first `m` events are each near the one before. -/
def learnedCount (t : τ) (es : List (κ × τ)) : Nat :=
  Nat.findGreatest (fun m => (t :: (es.take m).map Prod.snd).IsChain near) es.length

end Defs

section FirstOccs

variable [DecidableEq κ]

theorem mem_keys_firstOccs (k : κ) : ∀ (es : List (κ × τ)), k ∈ (firstOccs es).map Prod.fst ↔ k ∈ es.map Prod.fst
  | [] => Iff.rfl
  | e :: es => by
    have ih := mem_keys_firstOccs k es
    simp only [List.mem_map] at ih
    simp only [firstOccs, List.map_cons, List.mem_cons, List.mem_map, List.mem_filter, decide_eq_true_eq]
    by_cases hk : k = e.1
    · simp [hk]
    · constructor
      · rintro (h | ⟨a, ⟨ha, -⟩, rfl⟩)
        · exact .inl h
        · exact .inr (ih.1 ⟨a, ha, rfl⟩)
      · rintro (h | h)
        · exact .inl h
        · obtain ⟨a, ha, rfl⟩ := ih.2 h
          exact .inr ⟨a, ⟨ha, hk⟩, rfl⟩

theorem mem_of_mem_firstOccs {e : κ × τ} : ∀ {es : List (κ × τ)}, e ∈ firstOccs es → e ∈ es
  | a :: es, h => by
    rcases List.mem_cons.1 h with rfl | h
    · exact List.mem_cons_self
    · exact List.mem_cons_of_mem _ (mem_of_mem_firstOccs (List.mem_filter.1 h).1)

theorem firstOccs_append : ∀ (es fs : List (κ × τ)),
    firstOccs (es ++ fs) = firstOccs es ++ (firstOccs fs).filter (fun e => decide (e.1 ∉ es.map Prod.fst))
  | [], fs => by simp [firstOccs]
  | e :: es, fs => by
    rw [List.cons_append, firstOccs, firstOccs_append es fs, List.filter_append, List.filter_filter, firstOccs,
      List.cons_append]
    congr 2
    apply List.filter_congr
    intro a _
    simp only [List.map_cons, List.mem_cons, not_or, Bool.decide_and]

theorem firstOccs_concat_new {es : List (κ × τ)} {k : κ} {t : τ} (h : k ∉ es.map Prod.fst) :
    firstOccs (es ++ [(k, t)]) = firstOccs es ++ [(k, t)] := by
  rw [firstOccs_append]
  simp [firstOccs, h]

theorem exists_first_occ {k : κ} : ∀ {es : List (κ × τ)}, k ∈ es.map Prod.fst →
    ∃ r₁ s r₂, es = r₁ ++ (k, s) :: r₂ ∧ k ∉ r₁.map Prod.fst
  | e :: es, h => by
    by_cases hk : k = e.1
    · exact ⟨[], e.2, es, by rw [hk]; rfl, List.not_mem_nil⟩
    · rw [List.map_cons, List.mem_cons, or_iff_right hk] at h
      obtain ⟨r₁, s, r₂, hes, hr⟩ := exists_first_occ h
      exact ⟨e :: r₁, s, r₂, by rw [hes]; rfl, by simp [hk, hr]⟩

end FirstOccs

section Admitted

variable (near : τ → τ → Prop) [DecidableRel near]

theorem admitted_eq_nil (t : τ) (es : List (κ × τ)) (h : ∀ e ∈ es, ¬ near t e.2) : admitted near t es = [] := by
  cases es with
  | nil => rfl
  | cons e es => rw [admitted, if_neg (h e List.mem_cons_self)]

theorem admitted_isPrefix : ∀ (t : τ) (es : List (κ × τ)), admitted near t es <+: es
  | _, [] => List.prefix_rfl
  | t, e :: es => by
    rw [admitted]
    split
    · exact (List.prefix_cons_inj e).2 (admitted_isPrefix e.2 es)
    · exact List.nil_prefix

theorem isChain_take_iff : ∀ (t : τ) (es : List (κ × τ)) (m : Nat), m ≤ es.length →
    ((t :: (es.take m).map Prod.snd).IsChain near ↔ m ≤ (admitted near t es).length)
  | t, es, 0, _ => by simp
  | t, e :: es, m + 1, hm => by
    rw [List.take_succ_cons, List.map_cons, List.isChain_cons_cons, admitted]
    by_cases h : near t e.2
    · rw [if_pos h, isChain_take_iff e.2 es m (Nat.le_of_succ_le_succ hm)]
      simp [h]
    · simp [h]

theorem length_admitted (t : τ) (es : List (κ × τ)) : (admitted near t es).length = learnedCount near t es := by
  have hle := (admitted_isPrefix near t es).length_le
  refine Eq.symm (Nat.findGreatest_eq_iff.2 ⟨hle, fun _ => ?_, fun n hlt hn hc => ?_⟩)
  · exact (isChain_take_iff near t es _ hle).2 (Nat.le_refl _)
  · have := (isChain_take_iff near t es n hn).1 hc
    omega

theorem admitted_eq_take (t : τ) (es : List (κ × τ)) : admitted near t es = es.take (learnedCount near t es) := by
  rw [← length_admitted]
  exact List.prefix_iff_eq_take.1 (admitted_isPrefix near t es)

theorem mem_keys_admitted_concat (t : τ) (es : List (κ × τ)) {k : κ} {s : τ} (h : k ∉ es.map Prod.fst) :
    k ∈ (admitted near t (es ++ [(k, s)])).map Prod.fst ↔ (t :: (es.map Prod.snd ++ [s])).IsChain near := by
  have hchain := isChain_take_iff near t (es ++ [(k, s)]) (es.length + 1) (by simp)
  rw [List.take_of_length_le (by simp), List.map_append] at hchain
  refine Iff.trans ?_ hchain.symm
  have hpre := admitted_isPrefix near t (es ++ [(k, s)])
  rw [List.prefix_iff_eq_take] at hpre
  constructor
  · intro hk
    by_contra hlt
    rw [hpre, List.take_append_of_le_length (by omega)] at hk
    exact h (List.map_subset _ (List.take_subset _ _) hk)
  · intro hle
    rw [hpre, List.take_of_length_le (by simpa using hle)]
    simp

end Admitted

section Offer

variable [DecidableEq κ] (near : τ → τ → Prop) [DecidableRel near]

theorem offer_of_mem {L : Learner κ τ} {e : κ × τ} (h : e.1 ∈ L.known) : offer near L e = L := if_pos h

theorem offer_of_near {L : Learner κ τ} {e : κ × τ} (h : e.1 ∉ L.known) (hn : near L.last e.2) :
    offer near L e = ⟨e.2, L.known ++ [e.1]⟩ := by
  rw [offer, if_neg h, if_pos hn]

theorem offer_of_not_near {L : Learner κ τ} {e : κ × τ} (hn : ¬ near L.last e.2) : offer near L e = L := by
  unfold offer
  split <;> rfl

variable [Preorder τ] (hmono : ∀ {l s t : τ}, s ≤ t → near l t → near l s)
include hmono

/-- **The closed form**: over a nondecreasing history, the keys taken in are the first occurrences of the unknown
keys, up to the first that is not near the one before. -/
theorem known_foldl_offer : ∀ (es : List (κ × τ)) (L : Learner κ τ), (es.map Prod.snd).Pairwise (· ≤ ·) →
    (es.foldl (offer near) L).known = L.known ++
      (admitted near L.last ((firstOccs es).filter (fun e => decide (e.1 ∉ L.known)))).map Prod.fst
  | [], L, _ => by simp [firstOccs, admitted]
  | e :: es, L, hs => by
    rw [List.map_cons, List.pairwise_cons] at hs
    rw [List.foldl_cons, known_foldl_offer es (offer near L e) hs.2, firstOccs, List.filter_cons, List.filter_filter]
    by_cases hk : e.1 ∈ L.known
    · have hf : ∀ a ∈ firstOccs es, (decide (a.1 ∉ L.known) && decide (a.1 ≠ e.1)) = decide (a.1 ∉ L.known) := by
        intro a _
        by_cases ha : a.1 = e.1 <;> simp [ha, hk]
      rw [offer_of_mem near hk, if_neg (by simpa using hk), List.filter_congr hf]
    · rw [if_pos (by simpa using hk), admitted]
      by_cases hn : near L.last e.2
      · have hf : ∀ a ∈ firstOccs es,
            decide (a.1 ∉ L.known ++ [e.1]) = (decide (a.1 ∉ L.known) && decide (a.1 ≠ e.1)) := by
          intro a _
          simp [not_or, Bool.decide_and]
        rw [offer_of_near near hk hn, if_pos hn, List.filter_congr hf]
        simp
      · rw [offer_of_not_near near hn, if_neg hn, admitted_eq_nil]
        -- every later event is at least as far from the last one taken in as `e` is
        intro a ha hna
        have hle := hs.1 a.2 (List.mem_map_of_mem (mem_of_mem_firstOccs (List.mem_filter.1 ha).1))
        exact hn (hmono hle hna)

theorem known_foldl_offer_nil (t : τ) (es : List (κ × τ)) (hs : (es.map Prod.snd).Pairwise (· ≤ ·)) :
    (es.foldl (offer near) ⟨t, []⟩).known =
      ((firstOccs es).take (learnedCount near t (firstOccs es))).map Prod.fst := by
  rw [known_foldl_offer near hmono es _ hs, ← admitted_eq_take]
  simp

theorem mem_known_first_offer (t : τ) (es : List (κ × τ)) {k : κ} {s : τ}
    (hs : ((es ++ [(k, s)]).map Prod.snd).Pairwise (· ≤ ·)) (h : k ∉ es.map Prod.fst) :
    k ∈ ((es ++ [(k, s)]).foldl (offer near) ⟨t, []⟩).known ↔
      (t :: ((firstOccs es).map Prod.snd ++ [s])).IsChain near := by
  rw [known_foldl_offer_nil near hmono t _ hs, ← admitted_eq_take, firstOccs_concat_new h]
  exact mem_keys_admitted_concat near t (firstOccs es) (fun hk => h ((mem_keys_firstOccs k es).1 hk))

end Offer

end IdleWindow
