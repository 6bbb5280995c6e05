import Concurrencia.Spinlocks.TicketRw.Basic
import Mathlib.Data.Fintype.Basic
import Mathlib.Tactic.SplitIfs

open Function

-- What the lock is for: a reader is admitted once every earlier reader is and every earlier writer
-- is done, and a writer once everybody earlier is done. The tickets have no bound here.
namespace TicketRw.Admission

structure Request where
  ticket : ℕ
  role   : Role
  inside : Bool

-- The requests which are not done yet.
structure State (ι : Type*) where
  number  : ℕ
  request : ι → Option Request

def Request.Admits (q : Request) (r : Role) : Prop :=
  r = .reader ∧ q.role = .reader ∧ q.inside = true

instance (q : Request) (r : Role) : Decidable (q.Admits r) :=
  inferInstanceAs <| Decidable (_ ∧ _)

variable {ι : Type*} [Fintype ι] [DecidableEq ι]

def step (s : State ι) : Event ι → Option (State ι)
  | .request i r =>
    match s.request i with
    | none   => some ⟨s.number + 1, update s.request i (some ⟨s.number, r, false⟩)⟩
    | some _ => none
  | .enter i r =>
    match s.request i with
    | some q =>
      if q.role = r ∧ q.inside = false ∧
          ∀ j, ∀ p ∈ s.request j, p.ticket < q.ticket → p.Admits r then
        some ⟨s.number, update s.request i (some { q with inside := true })⟩
      else none
    | none   => none
  | .leave i r =>
    match s.request i with
    | some q =>
      if q.role = r ∧ q.inside = true then some ⟨s.number, update s.request i none⟩ else none
    | none   => none

def init (ι : Type*) : State ι where
  number    := 0
  request _ := none

def machine (ι : Type*) [Fintype ι] [DecidableEq ι] : Machine (State ι) (Event ι) where
  init s := s = init ι
  step   := step

inductive Step (s : State ι) : Event ι → State ι → Prop
  | request : (s.request i = none) →
    Step s (.request i r) ⟨s.number + 1, update s.request i (some ⟨s.number, r, false⟩)⟩
  | enter : (s.request i = some ⟨k, r, false⟩) →
    (∀ j q, s.request j = some q → q.ticket < k → q.Admits r) →
    Step s (.enter i r) ⟨s.number, update s.request i (some ⟨k, r, true⟩)⟩
  | leave : (s.request i = some ⟨k, r, true⟩) →
    Step s (.leave i r) ⟨s.number, update s.request i none⟩

variable {s s' : State ι} {e : Event ι} {i j : ι} {p q : Request}

theorem step_iff : step s e = some s' ↔ Step s e s' := by
  constructor
  case mp =>
    intro h
    cases e <;> simp only [step] at h
    case request i r =>
      cases hq : s.request i <;> simp only [hq] at h
      all_goals cases h
      exact .request hq
    case enter i r =>
      cases hq : s.request i <;> simp only [hq] at h
      case none => cases h
      case some q =>
        split_ifs at h with hg
        cases h
        have ⟨hr, hi, ha⟩ := hg
        subst hr
        exact .enter (by rw [hq, ← hi]) ha
    case leave i r =>
      cases hq : s.request i <;> simp only [hq] at h
      case none => cases h
      case some q =>
        split_ifs at h with hg
        cases h
        have ⟨hr, hi⟩ := hg
        subst hr
        exact .leave (by rw [hq, ← hi])
  case mpr =>
    intro h
    cases h
    case request h  => simp [step, h]
    case enter h ha =>
      simp [step, h]
      exact ha
    case leave h    => simp [step, h]

-- The tickets tell the requests apart, and who is inside was admitted by all earlier requests.
structure Inv (s : State ι) : Prop where
  lt       : ∀ {i q}, s.request i = some q → q.ticket < s.number
  unique   : ∀ {i j p q}, s.request i = some p → s.request j = some q → p.ticket = q.ticket → i = j
  admitted : ∀ {i j p q}, s.request i = some p → p.inside = true → s.request j = some q →
    q.ticket < p.ticket → q.Admits p.role

namespace Inv

omit [Fintype ι] [DecidableEq ι] in
theorem init : Inv (init ι) := by
  constructor <;> simp [Admission.init]

omit [Fintype ι] in
theorem step (inv : Inv s) (h : Step s e s') : Inv s' where
  lt {j q} hq := by
    have := @inv.lt j
    cases h <;> grind [update_apply]
  unique {j k p q} hp hq he := by
    have hl := @inv.lt
    have hu := @inv.unique j k
    cases h <;> grind [update_apply]
  admitted {j k p q} hp hi hq hl := by
    have hlt := @inv.lt
    have hu := @inv.unique j k
    have ha := @inv.admitted j k
    cases h <;> grind [update_apply, Request.Admits]

omit [Fintype ι] [DecidableEq ι] in
theorem readers (inv : Inv s) (hp : s.request i = some p) (hq : s.request j = some q)
    (hi : p.inside = true) (hj : q.inside = true) (hn : j ≠ i) :
    p.role = .reader ∧ q.role = .reader := by
  rcases Nat.lt_trichotomy p.ticket q.ticket with h | h | h
  · have ⟨hq, hp, _⟩ := inv.admitted hq hj hp h
    exact ⟨hp, hq⟩
  · exact absurd (inv.unique hp hq h).symm hn
  · have ⟨hp, hq, _⟩ := inv.admitted hp hi hq h
    exact ⟨hp, hq⟩

end Inv

theorem inv_of_run {es : List (Event ι)} (r : (machine ι).Run s es s') (inv : Inv s) : Inv s' :=
  r.invariant inv fun _ _ _ inv h => inv.step (step_iff.mp h)

end TicketRw.Admission
