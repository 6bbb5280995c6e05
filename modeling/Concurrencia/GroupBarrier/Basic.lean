import Concurrencia.Machine.Basic
import Mathlib.Data.List.Perm.Basic

-- The purpose of a barrier for any number of threads: `n` calls at a time make up a group. The
-- group is released when it is complete, and the next one starts when everybody has left.
namespace GroupBarrier

inductive Event (ι : Type*)
  | arrive (i : ι)
  | depart (i : ι)

structure State (ι : Type*) where
  members : List ι
  departing : Bool

def init (ι : Type*) : State ι where
  members   := []
  departing := false

inductive Step {ι : Type*} [DecidableEq ι] (n : ℕ) (s : State ι) : Event ι → State ι → Prop
  | arrive : (s.departing = false) → (i ∉ s.members) →
    Step n s (.arrive i) ⟨s.members ++ [i], s.members.length + 1 = n⟩
  | depart : (s.departing = true) → (i ∈ s.members) →
    Step n s (.depart i) ⟨s.members.erase i, s.members.erase i ≠ []⟩

variable {ι : Type*} {n : ℕ}

-- The events of a group: those in `a` have arrived and those in `d` have departed.
def group (a d : List ι) : List (Event ι) :=
  a.map .arrive ++ d.map .depart

-- All calls of a group arrive before the first one departs.
def Complete (n : ℕ) (l : List (Event ι)) : Prop :=
  ∃ a d, l = group a d ∧ a.length = n ∧ a.Nodup ∧ d.Perm a

def Incomplete (n : ℕ) (l : List (Event ι)) : Prop :=
  ∃ a d, l = group a d ∧ a.length ≤ n ∧ a.Nodup ∧ d.Subperm a ∧ (d ≠ [] → a.length = n)

-- One group follows upon the other.
def Grouped (n : ℕ) (l : List (Event ι)) : Prop :=
  ∃ (gs : List (List (Event ι))) (l' : List (Event ι)),
    l = gs.flatten ++ l' ∧ (∀ g ∈ gs, Complete n g) ∧ Incomplete n l'

-- The current group, in which `a` have arrived and `d` have departed.
structure Current (n : ℕ) (s : State ι) (a d : List ι) : Prop where
  nodup   : a.Nodup
  perm    : (s.members ++ d).Perm a
  waiting : s.departing = false → d = [] ∧ a.length < n
  leaving : s.departing = true → a.length = n ∧ s.members ≠ []

def Inv (n : ℕ) (l : List (Event ι)) (s : State ι) : Prop :=
  ∃ (gs : List (List (Event ι))) (a d : List ι),
    l = gs.flatten ++ group a d ∧ (∀ g ∈ gs, Complete n g) ∧ Current n s a d

variable {s s' : State ι} {i : ι} {e : Event ι} {a d : List ι} {l : List (Event ι)}

theorem group_arrive : group a [] ++ [.arrive i] = group (a ++ [i]) [] := by
  simp [group]

theorem group_depart : group a d ++ [.depart i] = group a (d ++ [i]) := by
  simp [group]

namespace Current

theorem init (h : 0 < n) : Current n (init ι) [] [] where
  nodup     := .nil
  perm      := .nil
  waiting _ := ⟨rfl, h⟩
  leaving h := by simp [GroupBarrier.init] at h

variable (cur : Current n s a d)
include cur

theorem incomplete : Incomplete n (group a d) := by
  have hd : d.Subperm a := (List.sublist_append_right s.members d).subperm.trans cur.perm.subperm
  cases hs : s.departing
  case false =>
    have ⟨hn, hl⟩ := cur.waiting hs
    exact ⟨a, d, rfl, hl.le, cur.nodup, hd, fun h => absurd hn h⟩
  case true =>
    have ⟨hl, _⟩ := cur.leaving hs
    exact ⟨a, d, rfl, hl.le, cur.nodup, hd, fun _ => hl⟩

theorem arrive (hs : s.departing = false) (hi : i ∉ s.members) :
    Current n ⟨s.members ++ [i], s.members.length + 1 = n⟩ (a ++ [i]) [] := by
  obtain ⟨rfl, hl⟩ := cur.waiting hs
  have hp : s.members.Perm a := by simpa using cur.perm
  have hi : i ∉ a := fun h => hi (hp.mem_iff.mpr h)
  exact {
    nodup     :=
      (List.perm_append_singleton i a).nodup_iff.mpr <| List.nodup_cons.mpr ⟨hi, cur.nodup⟩
    perm      := by simpa using hp.append_right [i]
    waiting h := by
      simp only [decide_eq_false_iff_not] at h
      simp only [List.length_append, List.length_singleton, ← hp.length_eq, true_and] at hl ⊢
      omega
    leaving h := by
      simp only [decide_eq_true_eq] at h
      simp [← hp.length_eq, h]
  }

variable [DecidableEq ι]

theorem depart_perm (hi : i ∈ s.members) : (s.members.erase i ++ (d ++ [i])).Perm a := by
  have h : (s.members.erase i ++ (d ++ [i])).Perm (i :: s.members.erase i ++ d) := by
    rw [← List.append_assoc]
    exact List.perm_append_singleton ..
  exact h.trans <| ((List.perm_cons_erase hi).symm.append_right d).trans cur.perm

theorem depart (hs : s.departing = true) (hi : i ∈ s.members) (hn : s.members.erase i ≠ []) :
    Current n ⟨s.members.erase i, s.members.erase i ≠ []⟩ a (d ++ [i]) where
  nodup     := cur.nodup
  perm      := cur.depart_perm hi
  waiting h := by simp [hn] at h
  leaving _ := ⟨(cur.leaving hs).left, hn⟩

-- The last one has left.
theorem complete (hs : s.departing = true) (hi : i ∈ s.members) (hn : s.members.erase i = []) :
    Complete n (group a (d ++ [i])) :=
  ⟨a, d ++ [i], rfl, (cur.leaving hs).left, cur.nodup, by simpa [hn] using cur.depart_perm hi⟩

end Current

namespace Inv

theorem init (h : 0 < n) : Inv n [] (init ι) :=
  ⟨[], [], [], rfl, by simp, .init h⟩

variable (inv : Inv n l s)
include inv

theorem grouped : Grouped n l :=
  have ⟨gs, _, _, hl, hg, cur⟩ := inv
  ⟨gs, _, hl, hg, cur.incomplete⟩

variable [DecidableEq ι]

theorem step (hn : 0 < n) (h : Step n s e s') : Inv n (l ++ [e]) s' := by
  obtain ⟨gs, a, d, rfl, hg, cur⟩ := inv
  cases h
  case arrive i hs hi =>
    obtain ⟨rfl, _⟩ := cur.waiting hs
    exact ⟨gs, a ++ [i], [], by rw [List.append_assoc, group_arrive], hg, cur.arrive hs hi⟩
  case depart i hs hi =>
    by_cases he : s.members.erase i = []
    case neg =>
      exact ⟨gs, a, d ++ [i], by rw [List.append_assoc, group_depart], hg, cur.depart hs hi he⟩
    case pos =>
      refine ⟨gs ++ [group a (d ++ [i])], [], [], ?_, ?_, ?_⟩
      · simp [group, List.append_assoc]
      · intro g h
        cases List.mem_append.mp h
        case inl h => exact hg g h
        case inr h => exact List.mem_singleton.mp h ▸ cur.complete hs hi he
      · simpa [he, GroupBarrier.init] using Current.init hn

end Inv

variable [DecidableEq ι]

def step (n : ℕ) (s : State ι) : Event ι → Option (State ι)
  | .arrive i =>
    if s.departing = false ∧ i ∉ s.members then
      some ⟨s.members ++ [i], s.members.length + 1 = n⟩
    else none
  | .depart i =>
    if s.departing = true ∧ i ∈ s.members then
      some ⟨s.members.erase i, s.members.erase i ≠ []⟩
    else none

def machine (ι : Type*) [DecidableEq ι] (n : ℕ) : Machine (State ι) (Event ι) where
  init s := s = init ι
  step   := step n

theorem step_iff : step n s e = some s' ↔ Step n s e s' := by
  constructor
  case mp =>
    intro h
    cases e <;> simp only [step, Option.ite_none_right_eq_some, Option.some.injEq] at h
    case arrive => exact h.right ▸ .arrive h.left.left h.left.right
    case depart => exact h.right ▸ .depart h.left.left h.left.right
  case mpr =>
    intro h
    cases h
    case arrive hs hi => simp [step, hs, hi]
    case depart hs hi => simp [step, hs, hi]

theorem inv_of_run {l' : List (Event ι)} (hn : 0 < n) (r : (machine ι n).Run s l' s')
    (inv : Inv n l s) : Inv n (l ++ l') s' := by
  induction r generalizing l
  case refl        => simpa using inv
  case step h _ hi => simpa using hi (inv.step hn (step_iff.mp h))

theorem grouped_of_run (hn : 0 < n) (r : (machine ι n).Run (init ι) l s) : Grouped n l :=
  (inv_of_run hn r (.init hn)).grouped

end GroupBarrier
