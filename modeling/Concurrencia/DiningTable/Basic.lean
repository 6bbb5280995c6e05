import Concurrencia.RoundTable.Basic
import Mathlib.Combinatorics.SimpleGraph.Basic

open Function

-- Guests who sit at a table, where two neighbours cannot eat at the same time. A host keeps the
-- status of each guest and lets a hungry one eat as soon as no neighbour does.
namespace DiningTable

inductive Status
  | thinking | hungry | eating
  deriving DecidableEq

variable {ι : Type*} {G : SimpleGraph ι} {f : ι → Status} {late late' : ι → Prop} {i : ι}

def CanEat (G : SimpleGraph ι) (f : ι → Status) (i : ι) : Prop :=
  f i = .hungry ∧ ∀ j, G.Adj i j → f j ≠ .eating

-- Nobody waits for nothing, except for those in `late` whom the host still has to look after.
structure Served (G : SimpleGraph ι) (f : ι → Status) (late : ι → Prop) : Prop where
  apart : ∀ {i j}, G.Adj i j → f i = .eating → f j ≠ .eating
  timely : ∀ {i}, f i = .hungry → ¬late i → ∃ j, G.Adj i j ∧ f j = .eating

namespace Served

theorem mono (h : Served G f late) (hl : ∀ i, late i → late' i) : Served G f late' where
  apart        := h.apart
  timely hi hn := h.timely hi fun hc => hn (hl _ hc)

-- A guest who may not eat is not passed over.
theorem pass (h : Served G f late) (hn : ¬CanEat G f i) : Served G f (fun j => late j ∧ j ≠ i) where
  apart := h.apart
  timely {j} hj hl := by
    by_cases hi : j = i
    case neg => exact h.timely hj fun hc => hl ⟨hc, hi⟩
    case pos =>
      by_contra hc
      refine hn ⟨hi ▸ hj, fun k hk he => hc ⟨k, hi ▸ hk, he⟩⟩

variable [DecidableEq ι]

-- Who does not eat is in nobody's way.
theorem apart_update {p : Status} {j k : ι} (h : Served G f late) (hp : p ≠ .eating)
    (ha : G.Adj j k) (hj : update f i p j = .eating) : update f i p k ≠ .eating := by
  have hji : j ≠ i := fun h => by simp [h, hp] at hj
  by_cases hki : k = i
  case pos => simpa [hki] using hp
  case neg => simpa [hki] using h.apart ha (by simpa [hji] using hj)

theorem hungry (h : Served G f late) (hi : f i = .thinking) :
    Served G (update f i .hungry) (fun j => late j ∨ j = i) where
  apart ha hj := h.apart_update (by decide) ha hj
  timely {j} hj hl := by
    have ⟨hl, hji⟩ := not_or.mp hl
    have ⟨k, ha, hk⟩ := h.timely (by simpa [hji] using hj) hl
    have hki : k ≠ i := fun h => by simp [h, hi] at hk
    exact ⟨k, ha, by simpa [hki] using hk⟩

-- The neighbours of a guest who leaves may be waiting for it.
theorem leave (h : Served G f late) :
    Served G (update f i .thinking) (fun j => late j ∨ G.Adj i j) where
  apart ha hj := h.apart_update (by decide) ha hj
  timely {j} hj hl := by
    have ⟨hl, hn⟩ := not_or.mp hl
    have hji : j ≠ i := fun h => by simp [h] at hj
    have ⟨k, ha, hk⟩ := h.timely (by simpa [hji] using hj) hl
    have hki : k ≠ i := fun h => hn (h ▸ ha.symm)
    exact ⟨k, ha, by simpa [hki] using hk⟩

theorem grant (h : Served G f late) (hc : CanEat G f i) :
    Served G (update f i .eating) (fun j => late j ∧ j ≠ i) where
  apart {j k} ha hj := by
    by_cases hji : j = i
    case pos =>
      have hki : k ≠ i := fun h => ha.ne (hji.trans h.symm)
      simpa [hki] using hc.right k (hji ▸ ha)
    case neg =>
      have hj : f j = .eating := by simpa [hji] using hj
      have hki : k ≠ i := fun h => hc.right j (h ▸ ha.symm) hj
      simpa [hki] using h.apart ha hj
  timely {j} hj hl := by
    have hji : j ≠ i := fun h => by simp [h] at hj
    have ⟨k, ha, hk⟩ := h.timely (by simpa [hji] using hj) fun hc => hl ⟨hc, hji⟩
    have hki : k ≠ i := fun h => by simp [h, hc.left] at hk
    exact ⟨k, ha, by simpa [hki] using hk⟩

end Served

end DiningTable

open DiningTable

namespace RoundTable

variable {n : ℕ} {hn : 2 ≤ n} {f : Fin n → Status} {i j : Fin n}

def graph (hn : 2 ≤ n) : SimpleGraph (Fin n) where
  Adj      := Adjacent
  symm     := ⟨fun _ _ => Adjacent.symm⟩
  loopless := ⟨fun _ h => h.ne hn rfl⟩

theorem canEat_iff :
    CanEat (graph hn) f i ↔
    f i = .hungry ∧ f (before i) ≠ .eating ∧ f (after i) ≠ .eating := by
  constructor
  case mp  => exact fun h => ⟨h.left, h.right _ (.inr rfl), h.right _ (.inl rfl)⟩
  case mpr =>
    intro ⟨hi, hb, ha⟩
    refine ⟨hi, fun j hj => ?_⟩
    cases hj
    case inl hj => exact hj ▸ ha
    case inr hj => exact hj ▸ hb

end RoundTable
