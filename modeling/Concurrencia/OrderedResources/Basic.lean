import Mathlib.Logic.Function.Basic
import Mathlib.Order.WellFounded

open Function

-- Processes which hold some resources and wait for others. If each process waits only for resources
-- which come after all those it holds, they never wait for each other in a circle.
namespace OrderedResources

variable {ι ρ : Type*}

def Held (holds : ι → ρ → Prop) (r : ρ) : Prop :=
  ∃ i, holds i r

def Blocked (holds waits : ι → ρ → Prop) (i : ι) : Prop :=
  ∃ r, waits i r ∧ Held holds r

variable {holds waits : ι → ρ → Prop} {i : ι} {r : ρ}

-- Whoever waits for somebody waits in the end for a process which is not blocked: the resources
-- along the way only go up.
theorem exists_not_blocked [LT ρ] [WellFoundedGT ρ]
    (ordered : ∀ i q r, holds i q → waits i r → q < r) (h : Held holds r) :
    ∃ i, (∃ q, holds i q) ∧ ¬Blocked holds waits i := by
  induction r using (wellFounded_gt (α := ρ)).induction
  case h r hi =>
    have ⟨i, hr⟩ := h
    by_cases hb : Blocked holds waits i
    case neg => exact ⟨i, ⟨r, hr⟩, hb⟩
    case pos =>
      have ⟨q, hq, hh⟩ := hb
      exact hi q (ordered i r q hr hq) hh

-- Each resource is free, or it is held by one process.
structure Allocated (holds : ι → ρ → Prop) (free : ρ → Bool) : Prop where
  taken  : ∀ {i r}, holds i r → free r = false
  unique : ∀ {i j r}, holds i r → holds j r → i = j
  holder : ∀ {r}, free r = false → Held holds r

namespace Allocated

variable [DecidableEq ρ] {holds' : ι → ρ → Prop} {free : ρ → Bool}

omit [DecidableEq ρ] in
theorem congr (h : Allocated holds free) (hh : ∀ i r, holds' i r ↔ holds i r) :
    Allocated holds' free := by
  obtain rfl : holds' = holds := by
    ext i r
    exact hh i r
  exact h

theorem take
    (h : Allocated holds free) (hf : free r = true)
    (hh : ∀ j q, holds' j q ↔ holds j q ∨ j = i ∧ q = r) :
    Allocated holds' (update free r false) := by
  have hn {j : ι} : ¬holds j r := fun hj => by cases hf.symm.trans (h.taken hj)
  exact {
    taken {j q} hj := by
      cases (hh j q).mp hj
      case inl hj =>
        have hq : q ≠ r := fun hq => hn (hq ▸ hj)
        simpa [hq] using h.taken hj
      case inr hj => simp [hj.right]
    unique {j k q} hj hk := by
      cases (hh j q).mp hj <;> cases (hh k q).mp hk
      case inl.inl hj hk => exact h.unique hj hk
      case inl.inr hj hk => exact absurd (hk.right ▸ hj) hn
      case inr.inl hj hk => exact absurd (hj.right ▸ hk) hn
      case inr.inr hj hk => exact hj.left.trans hk.left.symm
    holder {q} hq := by
      by_cases hr : q = r
      case pos => exact ⟨i, (hh i q).mpr <| .inr ⟨rfl, hr⟩⟩
      case neg =>
        have ⟨j, hj⟩ := h.holder (r := q) (by simpa [hr] using hq)
        exact ⟨j, (hh j q).mpr <| .inl hj⟩
  }

theorem put
    (h : Allocated holds free) (hi : holds i r)
    (hh : ∀ j q, holds' j q ↔ holds j q ∧ ¬(j = i ∧ q = r)) :
    Allocated holds' (update free r true) where
  taken {j q} hj := by
    have ⟨hj, hn⟩ := (hh j q).mp hj
    have hq : q ≠ r := fun hq => hn ⟨h.unique hj (hq ▸ hi), hq⟩
    simpa [hq] using h.taken hj
  unique hj hk := h.unique ((hh _ _).mp hj).left ((hh _ _).mp hk).left
  holder {q} hq := by
    have hr : q ≠ r := fun hr => by simp [hr] at hq
    have ⟨j, hj⟩ := h.holder (r := q) (by simpa [hr] using hq)
    exact ⟨j, (hh j q).mpr ⟨hj, fun hn => hr hn.right⟩⟩

end Allocated

end OrderedResources
