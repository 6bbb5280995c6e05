import Concurrencia.Distributed.PathReversal.Theorems.Edges

open Function

namespace PathReversal

variable {α : Type*} {s s' : State α} {a c i j k p : α}

-- The next request that reaches node `j` ends there.
def State.Open (s : State α) (j : α) : Prop :=
  s.parent j = none ∧ (s.held j = none ∨ s.carried j ≠ none)

theorem State.waiting_of_give [DecidableEq α] (h : (s.give j k).waiting i) : s.waiting i := by
  rcases eq_or_ne i k with rfl | hn
  · simp at h
  · simpa [hn] using h

structure Owned (s : State α) : Prop where
  owner     : ∃ t, ∀ i, s.token i ↔ i = t
  waiting   : ∀ i, s.waiting i → ¬s.token i
  deferred  : ∀ i, s.deferred i ≠ none → s.token i
  isOpen    : ∀ i, s.Open i ↔ s.waiting i ∨ s.token i ∧ s.deferred i = none
  finishing : ∀ i, s.held i ≠ none → s.carried i = none → s.parent i = none

namespace Owned

theorem eq (ho : Owned s) (hi : s.token i) (hj : s.token j) : i = j :=
  have ⟨_, ht⟩ := ho.owner
  ((ht i).mp hi).trans ((ht j).mp hj).symm

theorem ne (ho : Owned s) (hj : s.token j) (hk : s.waiting k) : j ≠ k := by
  rintro rfl
  exact ho.waiting j hk hj

theorem deferred_eq_none (ho : Owned s) (hi : s.waiting i) : s.deferred i = none := by
  by_contra hd
  exact ho.waiting i hi (ho.deferred i hd)

theorem token_of_open (ho : Owned s) (hi : s.Open i) (hw : ¬s.waiting i) :
    s.token i ∧ s.deferred i = none :=
  ((ho.isOpen i).mp hi).resolve_left hw

theorem not_open (ho : Owned s) (hd : s.deferred i ≠ none) : ¬s.Open i := fun hi =>
  ((ho.isOpen i).mp hi).elim (fun hw => hd (ho.deferred_eq_none hw)) fun h => hd h.right

variable [DecidableEq α]

theorem init (c : α) : Owned (init c) where
  owner         := ⟨c, fun _ => .rfl⟩
  waiting _ h   := h.elim
  deferred _ h  := absurd rfl h
  isOpen i      := by simp [State.Open, PathReversal.init]
  finishing _ h := absurd rfl h

theorem give_token (ho : Owned s) (hj : s.token j) : (s.give j k).token i ↔ i = k := by
  rcases eq_or_ne i k with rfl | hk
  · simp
  rcases eq_or_ne i j with rfl | hn
  · simp [hk]
  · simpa [hk, hn] using fun hi => hn (ho.eq hi hj)

theorem step_owner (ho : Owned s) (h : Move s s') : ∃ t, ∀ i, s'.token i ↔ i = t := by
  cases h
  case reply j k _ _ hj _ => exact ⟨k, fun i => ho.give_token hj⟩
  case grant j k _ hj _   => exact ⟨k, fun i => ho.give_token hj⟩
  all_goals exact ho.owner

theorem give_waiting (ho : Owned s) (hi : (s.give j k).waiting i) : ¬(s.give j k).token i := by
  rcases eq_or_ne i k with rfl | hk
  · simp at hi
  · simpa [hk, update_apply] using fun _ => ho.waiting i (State.waiting_of_give hi)

theorem step_waiting (ho : Owned s) (h : Move s s') (hi : s'.waiting i) : ¬s'.token i := by
  cases h
  case request j p _ _ _ _ ht =>
    rcases eq_or_ne i j with rfl | hn
    · exact ht
    · exact ho.waiting i (by simpa [hn] using hi)
  case reply => exact ho.give_waiting hi
  case grant => exact ho.give_waiting hi
  all_goals exact ho.waiting i hi

theorem step_deferred (ho : Owned s) (h : Move s s') (hi : s'.deferred i ≠ none) : s'.token i := by
  cases h
  case reply j k hp hk hj hw =>
    refine absurd (?_ : s.Open j) (ho.not_open ?_)
    · exact ⟨hp, .inr (by simp [hk])⟩
    · rwa [← ho.eq (ho.deferred i hi) hj]
  case defer j k hp hk hw =>
    rcases eq_or_ne i j with rfl | hn
    · exact (ho.token_of_open ⟨hp, .inr (by simp [hk])⟩ hw).left
    · exact ho.deferred i (by simpa [hn] using hi)
  case grant j k hk hj hw =>
    rcases eq_or_ne i j with rfl | hn
    · simp at hi
    · exact absurd (ho.eq (ho.deferred i (by simpa [hn] using hi)) hj) hn
  all_goals exact ho.deferred i hi

omit [DecidableEq α] in
theorem waiting_iff (ho : Owned s) (hj : s.token j) : s.waiting i ↔ s.Open i ∧ i ≠ j := by
  constructor
  case mp  => exact fun hw => ⟨(ho.isOpen i).mpr (.inl hw), (ho.ne hj hw).symm⟩
  case mpr =>
    intro ⟨hi, hn⟩
    exact ((ho.isOpen i).mp hi).resolve_right fun h => hn (ho.eq h.left hj)

theorem give_open {d : α → Option α} (ho : Owned s) (hj : s.token j) (hk : s.waiting k)
    (hd : d k = none) :
    s.Open i ∧ i ≠ j ↔ (s.give j k).waiting i ∨ (s.give j k).token i ∧ d i = none := by
  rw [← ho.waiting_iff hj, ho.give_token hj]
  rcases eq_or_ne i k with rfl | hn
  · simp [hk, hd]
  · simp [hn]

theorem clear_open (hj : s.parent j = none) (hk : s.carried j = some k) (hh : s.held j ≠ none) :
    (s.clear j).Open i ↔ s.Open i ∧ i ≠ j := by
  rcases eq_or_ne i j with rfl | hn
  · simp [State.Open, hh]
  · simp [State.Open, hn]

theorem step_open (ho : Owned s) (hs : Star s c) (h : Move s s') :
    s'.Open i ↔ s'.waiting i ∨ s'.token i ∧ s'.deferred i = none := by
  have hi := ho.isOpen i
  cases h
  case stay => exact hi
  case request j p hp hh hc hw ht =>
    rcases eq_or_ne i j with rfl | hn
    · have hf : s.held i = none ∨ s.carried i ≠ none :=
        or_iff_not_imp_left.mpr fun hh hc => by simp [ho.finishing i hh hc] at hp
      simpa [State.Open, hs.parent_ne hp] using hf
    · rcases eq_or_ne i p with rfl | hn'
      · simp_all [State.Open]
      · simpa [State.Open, hn, hn'] using hi
  case forward j p a k hp ha hk hh hc =>
    rcases eq_or_ne i j with rfl | hn
    · simp_all [State.Open]
    · rcases eq_or_ne i p with rfl | hn'
      · simp_all [State.Open]
      · simpa [State.Open, hn, hn'] using hi
  case reply j k hp hk ht hw =>
    exact (clear_open hp hk (hs.carried _ _ hk)).trans (ho.give_open ht hw (ho.deferred_eq_none hw))
  case defer j k hp hk hw =>
    refine (clear_open hp hk (hs.carried _ _ hk)).trans ?_
    have ⟨ht, hd⟩ := ho.token_of_open ⟨hp, .inr (by simp [hk])⟩ hw
    rcases eq_or_ne i j with rfl | hn
    · simp [hw]
    · simpa [hn] using hi
  case finish j a hp ha hc =>
    rcases eq_or_ne i j with rfl | hn
    · simp_all [State.Open]
    · simpa [State.Open, hn] using hi
  case grant j k hk ht hw =>
    have hd : (s.defer j none).deferred k = none := by
      simpa [(ho.ne ht hw).symm] using ho.deferred_eq_none hw
    refine .trans ?_ (ho.give_open ht hw hd)
    refine ⟨fun hi => ⟨hi, ?_⟩, And.left⟩
    rintro rfl
    exact ho.not_open (by simp [hk]) hi

theorem step_finishing (ho : Owned s) (h : Move s s') (hh : s'.held i ≠ none)
    (hc : s'.carried i = none) : s'.parent i = none := by
  have hf := ho.finishing i
  cases h
  case request j p hp hh' _ _ _ =>
    rcases eq_or_ne i j with rfl | hn
    · simp
    · rcases eq_or_ne i p with rfl | hn'
      · simp at hc
      · simp_all
  case forward j p a k hp ha hk hh' _ =>
    rcases eq_or_ne i j with rfl | hn
    · simp_all
    · rcases eq_or_ne i p with rfl | hn'
      · simp_all
      · simp_all
  case reply j k hp _ _ _ =>
    rcases eq_or_ne i j with rfl | hn
    · exact hp
    · simp_all
  case defer j k hp _ _ =>
    rcases eq_or_ne i j with rfl | hn
    · exact hp
    · simp_all
  case finish j a _ _ _ =>
    rcases eq_or_ne i j with rfl | hn
    · simp at hh
    · simp_all
  all_goals exact hf hh hc

theorem step (ho : Owned s) (hs : Star s c) (h : Move s s') : Owned s' where
  owner          := ho.step_owner h
  waiting _      := ho.step_waiting h
  deferred _     := ho.step_deferred h
  isOpen _       := ho.step_open hs h
  finishing _    := ho.step_finishing h

end Owned

end PathReversal
