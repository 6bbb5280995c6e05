import Concurrencia.Distributed.PathReversal.Basic
import Mathlib.Logic.Relation
import Mathlib.Order.Nat
import Mathlib.Tactic.SplitIfs

open Function

namespace PathReversal

-- An edge of a star points to its center or to the leaf, or a request passes it in one of the two
-- directions.
inductive Way
  | toCenter | toLeaf | upward | downward
  deriving DecidableEq

variable {α : Type*} {s s' : State α} {a c i j k p : α} {w : Way}

def Way.Of (s : State α) (c i : α) : Way → Prop
  | toCenter => s.parent i = some c
  | toLeaf   => s.parent c = some i
  | upward   => s.held c = some i
  | downward => s.held i = some c

-- Nodes `i` and `p` are the ends of an edge of the star with center `c`.
def Adjacent (c i p : α) : Prop :=
  i = c ∧ p ≠ c ∨ i ≠ c ∧ p = c

structure Star (s : State α) (c : α) : Prop where
  parent  : ∀ i p, s.parent i = some p → Adjacent c i p
  held    : ∀ i p, s.held i = some p → Adjacent c i p
  edge    : ∀ i, i ≠ c → ∃ w, ∀ w', Way.Of s c i w' ↔ w' = w
  carried : ∀ j k, s.carried j = some k → s.held j ≠ none
  direct  : ∀ k, s.carried c = some k → s.held c = some k

namespace Star

theorem way_unique (hs : Star s c) (w₁ w₂ : Way) (hi : i ≠ c) (h₁ : Way.Of s c i w₁)
    (h₂ : Way.Of s c i w₂) : w₁ = w₂ := by
  have ⟨w, hw⟩ := hs.edge i hi
  exact ((hw _).mp h₁).trans ((hw _).mp h₂).symm

theorem existsUnique_way (hs : Star s c) (hi : i ≠ c) : ∃! w, Way.Of s c i w :=
  have ⟨w, hw⟩ := hs.edge i hi
  ⟨w, (hw w).mpr rfl, fun _ => (hw _).mp⟩

theorem parent_ne (hs : Star s c) (h : s.parent i = some p) : i ≠ p := by
  rintro rfl
  rcases hs.parent _ _ h with h | h <;> exact absurd h.left (by simp [h.right])

-- A node which gets the requests of one of its neighbours has none from that neighbour, and it
-- does not send its own the other way.
theorem opposite (hs : Star s c) (h : s.parent i = some p) :
    s.parent p ≠ some i ∧ s.held p ≠ some i ∧ s.held i ≠ some p := by
  rcases hs.parent _ _ h with ⟨rfl, hn⟩ | ⟨hn, rfl⟩
  · refine ⟨fun h' => ?_, fun h' => ?_, fun h' => ?_⟩
    · cases hs.way_unique .toLeaf .toCenter hn h h'
    · cases hs.way_unique .toLeaf .downward hn h h'
    · cases hs.way_unique .toLeaf .upward hn h h'
  · refine ⟨fun h' => ?_, fun h' => ?_, fun h' => ?_⟩
    · cases hs.way_unique .toCenter .toLeaf hn h h'
    · cases hs.way_unique .toCenter .upward hn h h'
    · cases hs.way_unique .toCenter .downward hn h h'

theorem parent_eq_none (hs : Star s c) (h : s.parent c = some p) : s.parent p = none := by
  by_contra hr
  have ⟨q, hq⟩ := Option.ne_none_iff_exists'.mp hr
  have hqc := ((hs.parent _ _ hq).resolve_left (by simp [(hs.parent_ne h).symm])).right
  exact (hs.opposite h).left (hqc ▸ hq)

theorem held_eq_none (hs : Star s c) (h : s.parent c = some p) : s.held p = none := by
  by_contra hr
  have ⟨q, hq⟩ := Option.ne_none_iff_exists'.mp hr
  have hqc := ((hs.held _ _ hq).resolve_left (by simp [(hs.parent_ne h).symm])).right
  exact (hs.opposite h).right.left (hqc ▸ hq)

-- A request which still has to be passed on is at the center, and it is from a leaf.
theorem passing (hs : Star s c) (hk : s.carried i = some k) (hp : s.parent i ≠ none) :
    i = c ∧ k ≠ c ∧ s.held c = some k := by
  have ⟨p, hp⟩ := Option.ne_none_iff_exists'.mp hp
  have ⟨a, ha⟩ := Option.ne_none_iff_exists'.mp (hs.carried _ _ hk)
  have hi : i = c := by
    by_contra hn
    have hpc := (hs.parent _ _ hp).resolve_left (by simp [hn])
    have hac := (hs.held _ _ ha).resolve_left (by simp [hn])
    exact (hs.opposite hp).right.right (by rw [ha, hac.right, hpc.right])
  subst hi
  have hh := hs.direct _ hk
  exact ⟨rfl, ((hs.held _ _ hh).resolve_right (by simp)).right, hh⟩

theorem of_edges (hs : Star s c) (hp : s'.parent = s.parent) (hh : s'.held = s.held)
    (hc : ∀ j k, s'.carried j = some k → s.carried j = some k) : Star s' c where
  parent      := by simpa only [hp] using hs.parent
  held        := by simpa only [hh] using hs.held
  edge i hi   := by
    have ⟨w, hw⟩ := hs.edge i hi
    refine ⟨w, ?_⟩
    rintro ⟨⟩ <;> simp only [← hw, Way.Of, hp, hh]
  carried j k h := hh ▸ hs.carried j k (hc j k h)
  direct k h    := hh ▸ hs.direct k (hc c k h)

section

variable [DecidableEq α]

theorem init (c : α) : Star (init c) c where
  parent i p h  := by
    by_cases hi : i = c <;> simp_all [PathReversal.init, Adjacent]
  held i p h    := by simp [PathReversal.init] at h
  edge i hi     := ⟨.toCenter, by rintro ⟨⟩ <;> simp [Way.Of, PathReversal.init, hi]⟩
  carried j k h := by simp [PathReversal.init] at h
  direct k h    := by simp [PathReversal.init] at h

theorem pass (hs : Star s c) (hp : s.parent j = some p) (hh : s.held p = none)
    (hk : p = c → k = j) : Star (s.pass j p k) c where
  parent i q h := by
    rcases eq_or_ne i j with rfl | hn
    · simp at h
    · exact hs.parent i q (by simpa [hn] using h)
  held i q h := by
    rcases eq_or_ne i p with rfl | hn
    · obtain rfl : j = q := by simpa using h
      exact (hs.parent _ _ hp).symm.imp And.symm And.symm
    · exact hs.held i q (by simpa [hn] using h)
  edge i hi := by
    have ⟨w, hw⟩ := hs.edge i hi
    have hj := hs.parent _ _ hp
    -- The edge between `j` and `p` is turned around halfway.
    refine ⟨if i = j then .upward else if i = p then .downward else w, ?_⟩
    have := hw .toCenter
    have := hw .toLeaf
    have := hw .upward
    have := hw .downward
    rintro ⟨⟩ <;>
      simp only [Way.Of, State.pass_parent, State.pass_held, update_apply] at * <;>
      grind [Adjacent]
  carried i q h := by
    rcases eq_or_ne i p with rfl | hn
    · simp
    · simpa [hn] using hs.carried i q (by simpa [hn] using h)
  direct q h := by
    rcases eq_or_ne c p with rfl | hn
    · obtain rfl : k = q := by simpa using h
      simp [hk rfl]
    · simpa [hn] using hs.direct q (by simpa [hn] using h)

theorem finish (hs : Star s c) (hp : s.parent j = none) (ha : s.held j = some a)
    (hc : s.carried j = none) : Star (s.finish j a) c where
  parent i q h := by
    rcases eq_or_ne i j with rfl | hn
    · obtain rfl : a = q := by simpa using h
      exact hs.held _ _ ha
    · exact hs.parent i q (by simpa [hn] using h)
  held i q h := by
    rcases eq_or_ne i j with rfl | hn
    · simp at h
    · exact hs.held i q (by simpa [hn] using h)
  edge i hi := by
    have ⟨w, hw⟩ := hs.edge i hi
    have hj := hs.held _ _ ha
    refine ⟨if i = j then .toCenter else if i = a then .toLeaf else w, ?_⟩
    have := hw .toCenter
    have := hw .toLeaf
    have := hw .upward
    have := hw .downward
    rintro ⟨⟩ <;>
      simp only [Way.Of, State.finish_parent, State.finish_held, update_apply] at * <;>
      grind [Adjacent]
  carried i q h := by
    rcases eq_or_ne i j with rfl | hn
    · simp [hc] at h
    · simpa [hn] using hs.carried i q h
  direct q h := by
    rcases eq_or_ne c j with rfl | hn
    · simp [hc] at h
    · simpa [hn] using hs.direct q h

theorem clear (hs : Star s c) (j : α) : Star (s.clear j) c :=
  hs.of_edges rfl rfl fun i k h => by
    rcases eq_or_ne i j with rfl | hn
    · simp at h
    · simpa [hn] using h

theorem step (hs : Star s c) (h : Move s s') : Star s' c := by
  cases h
  case stay => exact hs
  case request i p hp hh _ _ _ => exact (hs.pass hp hh fun _ => rfl).of_edges rfl rfl (by simp)
  case forward j p a k hp ha hk hh _ =>
    have ⟨hj, _, _⟩ := hs.passing hk (by simp [hp])
    have hn := hs.parent_ne hp
    refine (((hs.clear j).pass hp hh fun h => absurd (hj.trans h.symm) hn).finish ?_ ?_ ?_) <;>
      simp [ha, hn]
  case reply j _ _ _ _ _   => exact (hs.clear j).of_edges rfl rfl (by simp)
  case defer j _ _ _ _     => exact (hs.clear j).of_edges rfl rfl (by simp)
  case finish j a hp ha hc => exact hs.finish hp ha hc
  case grant               => exact hs.of_edges rfl rfl (by simp)

end

end Star

-- The number of parents that can come after a node.
def rank [DecidableEq α] (s : State α) (c i : α) : ℕ :=
  if s.parent i = none then 0 else if i = c then 1 else 2

theorem Star.rank_lt [DecidableEq α] (hs : Star s c) (h : s.parent i = some p) :
    rank s c p < rank s c i := by
  rcases hs.parent _ _ h with ⟨rfl, hp⟩ | ⟨hi, rfl⟩
  · simp [rank, h, hs.parent_eq_none h]
  · simp only [rank, h, hi, reduceCtorEq, if_true, if_false]
    split_ifs <;> simp

theorem Star.rank_lt_of_transGen [DecidableEq α] (hs : Star s c)
    (h : Relation.TransGen (fun i p => s.parent i = some p) i p) : rank s c p < rank s c i := by
  induction h
  case single h    => exact hs.rank_lt h
  case tail _ h hi => exact (hs.rank_lt h).trans hi

-- The parents form no cycle.
theorem Star.acyclic [DecidableEq α] (hs : Star s c) :
    ¬Relation.TransGen (fun i p => s.parent i = some p) i i :=
  fun h => Nat.lt_irrefl _ (hs.rank_lt_of_transGen h)

end PathReversal
