import Concurrencia.Machine.Basic
import Concurrencia.Threads.Basic
import Mathlib.Data.List.Nodup

open Function

-- The purpose of a set of shared stacks: threads allocate nodes and move them, one at a time, from
-- stack to stack.
namespace LifoStacks

inductive Event (ι κ α : Type*)
  | alloc (i : ι) (a : α)
  | push (i : ι) (k : κ) (a : α)
  | pop (i : ι) (k : κ) (a : Option α)

structure State (ι κ α : Type*) where
  lists     : κ → List α
  held      : ι → Option α
  allocated : List α

-- Where a node can be.
inductive Place (ι κ : Type*)
  | stack (k : κ)
  | thread (i : ι)

def init (ι κ α : Type*) : State ι κ α where
  lists _   := []
  held _    := none
  allocated := []

variable {ι κ α : Type*}

def At (s : State ι κ α) (a : α) : Place ι κ → Prop
  | .stack k  => a ∈ s.lists k
  | .thread i => s.held i = some a

structure Inv (s : State ι κ α) : Prop where
  nodup     : ∀ k, (s.lists k).Nodup
  unique    : ∀ {a p q}, At s a p → At s a q → p = q
  allocated : ∀ {a}, a ∈ s.allocated ↔ ∃ p, At s a p

variable [DecidableEq ι] [DecidableEq κ]

inductive Step (s : State ι κ α) : Event ι κ α → State ι κ α → Prop
  | alloc : (s.held i = none) → (a ∉ s.allocated) →
    Step s (.alloc i a) ⟨s.lists, update s.held i (some a), a :: s.allocated⟩
  | push : (s.held i = some a) → Step s (.push i k a)
      ⟨update s.lists k (a :: s.lists k), update s.held i none, s.allocated⟩
  | pop : (s.held i = none) → (s.lists k = a :: as) → Step s (.pop i k (some a))
      ⟨update s.lists k as, update s.held i (some a), s.allocated⟩
  | empty : (s.lists k = []) → Step s (.pop i k none) s

variable {s s' : State ι κ α} {e : Event ι κ α} {l : List (Event ι κ α)} {i : ι} {k : κ} {a : α}
variable {p : Place ι κ}

namespace Inv

omit [DecidableEq ι] [DecidableEq κ]

theorem init : Inv (init ι κ α) where
  nodup _ := .nil
  unique {a p q} h := by
    cases p <;> simp [At, LifoStacks.init] at h
  allocated {a} := by
    refine iff_of_false (by simp [LifoStacks.init]) fun ⟨p, h⟩ => ?_
    cases p <;> simp [At, LifoStacks.init] at h

variable (inv : Inv s)
include inv

theorem existsUnique (h : a ∈ s.allocated) : ∃! p, At s a p :=
  have ⟨p, hp⟩ := inv.allocated.mp h
  ⟨p, hp, fun _ hq => inv.unique hq hp⟩

theorem disjoint {m : κ} (h : k ≠ m) : (s.lists k).Disjoint (s.lists m) :=
  fun _ hk hm => h <| Place.stack.inj <| inv.unique (p := .stack k) (q := .stack m) hk hm

theorem not_mem_of_held (h : s.held i = some a) (k : κ) : a ∉ s.lists k :=
  fun hk => nomatch inv.unique (p := .thread i) (q := .stack k) h hk

-- A step brings one node to a place and leaves the others where they are.
theorem move
    (hn : ∀ k, (s'.lists k).Nodup)
    (hs : ∀ k, a ∈ s'.lists k ↔ p = .stack k) (ht : ∀ i, s'.held i = some a ↔ p = .thread i)
    (hs' : ∀ b ≠ a, ∀ k, b ∈ s'.lists k ↔ b ∈ s.lists k)
    (ht' : ∀ b ≠ a, ∀ i, s'.held i = some b ↔ s.held i = some b)
    (ha : ∀ b, b ∈ s'.allocated ↔ b = a ∨ b ∈ s.allocated) : Inv s' := by
  have hp (q : Place ι κ) : At s' a q ↔ p = q := by
    cases q
    case stack k  => exact hs k
    case thread i => exact ht i
  have hb {b : α} (hb : b ≠ a) (q : Place ι κ) : At s' b q ↔ At s b q := by
    cases q
    case stack k  => exact hs' b hb k
    case thread i => exact ht' b hb i
  constructor
  case nodup => exact hn
  case unique =>
    intro b q r hq hr
    by_cases hba : b = a
    case pos =>
      subst hba
      exact ((hp q).mp hq).symm.trans ((hp r).mp hr)
    case neg => exact inv.unique ((hb hba q).mp hq) ((hb hba r).mp hr)
  case allocated =>
    intro b
    rw [ha]
    by_cases hba : b = a
    case pos => exact iff_of_true (.inl hba) ⟨p, hba ▸ (hp p).mpr rfl⟩
    case neg => simp only [hba, false_or, inv.allocated, hb hba]

variable [DecidableEq ι] [DecidableEq κ]

theorem step (h : Step s e s') : Inv s' := by
  cases h
  case empty => exact inv
  case alloc i a hi ha =>
    have hp (p : Place ι κ) : ¬At s a p := fun h => ha <| inv.allocated.mpr ⟨p, h⟩
    apply inv.move (a := a) (p := .thread i)
    case hn  => exact inv.nodup
    case hs  => exact fun k => iff_of_false (hp <| .stack k) nofun
    case hs' => exact fun _ _ _ => .rfl
    case ha  => simp
    case ht =>
      intro j
      rw [Threads.update_iff_eq (P := (· = some a)) rfl fun j _ => hp (.thread j)]
      simp [eq_comm]
    case ht' => exact fun b hb => Threads.update_iff (P := (· = some b)) (by simp [hi, hb.symm])
  case push i a k hi =>
    have ha : At s a (.thread i : Place ι κ) := hi
    have hs (k : κ) := inv.not_mem_of_held hi k
    apply inv.move (a := a) (p := .stack k)
    case ha => simp [inv.allocated.mpr ⟨_, ha⟩]
    case hn =>
      intro m
      by_cases hm : m = k
      case pos => simpa [hm] using ⟨hs k, inv.nodup k⟩
      case neg => simpa [hm] using inv.nodup m
    case hs =>
      intro m
      rw [Threads.update_iff_eq (P := (a ∈ ·)) (by simp) fun m _ => hs m]
      simp [eq_comm]
    case hs' => exact fun b hb => Threads.update_iff (P := (b ∈ ·)) (by simp [hb])
    case ht =>
      intro j
      refine iff_of_false (Threads.not_update (P := (· = some a)) (p := none) nofun ?_ j) nofun
      exact fun j hj h => hj <| Place.thread.inj <| inv.unique (p := .thread j) h ha
    case ht' => exact fun b hb => Threads.update_iff (P := (· = some b)) (by simp [hi, hb.symm])
  case pop i k a as hi hk =>
    have hd := List.nodup_cons.mp (hk ▸ inv.nodup k)
    have ha : At s a (.stack k : Place ι κ) := by simp [At, hk]
    apply inv.move (a := a) (p := .thread i)
    case ha => simp [inv.allocated.mpr ⟨_, ha⟩]
    case hn =>
      intro m
      by_cases hm : m = k
      case pos => simpa [hm] using hd.right
      case neg => simpa [hm] using inv.nodup m
    case hs =>
      intro m
      refine iff_of_false (Threads.not_update (P := (a ∈ ·)) hd.left ?_ m) nofun
      exact fun m hm h => hm <| Place.stack.inj <| inv.unique (p := .stack m) h ha
    case hs' => exact fun b hb => Threads.update_iff (P := (b ∈ ·)) (by simp [hk, hb])
    case ht =>
      intro j
      rw [Threads.update_iff_eq (P := (· = some a)) rfl fun j _ h => inv.not_mem_of_held h k ha]
      simp [eq_comm]
    case ht' => exact fun b hb => Threads.update_iff (P := (· = some b)) (by simp [hi, hb.symm])

end Inv

variable [DecidableEq α]

def step (s : State ι κ α) : Event ι κ α → Option (State ι κ α)
  | .alloc i a        =>
    if s.held i = none ∧ a ∉ s.allocated then
      some ⟨s.lists, update s.held i (some a), a :: s.allocated⟩
    else none
  | .push i k a       =>
    if s.held i = some a then
      some ⟨update s.lists k (a :: s.lists k), update s.held i none, s.allocated⟩
    else none
  | .pop i k (some a) =>
    if s.held i = none ∧ (s.lists k).head? = some a then
      some ⟨update s.lists k (s.lists k).tail, update s.held i (some a), s.allocated⟩
    else none
  | .pop _ k none     => if s.lists k = [] then some s else none

def machine (ι κ α : Type*) [DecidableEq ι] [DecidableEq κ] [DecidableEq α] :
    Machine (State ι κ α) (Event ι κ α) where
  init s := s = init ι κ α
  step   := step

theorem Step.step_eq (h : Step s e s') : step s e = some s' := by
  cases h
  case alloc hi ha => exact if_pos ⟨hi, ha⟩
  case push hi     => exact if_pos hi
  case pop hi hk   => simp [LifoStacks.step, hi, hk]
  case empty hk    => exact if_pos hk

theorem Step.of_step (h : step s e = some s') : Step s e s' := by
  cases e
  case alloc i a =>
    obtain ⟨hs, h⟩ := Option.ite_none_right_eq_some.mp h
    cases h
    exact .alloc hs.left hs.right
  case push i k a =>
    obtain ⟨hs, h⟩ := Option.ite_none_right_eq_some.mp h
    cases h
    exact .push hs
  case pop i k o =>
    cases o
    case none =>
      obtain ⟨hs, h⟩ := Option.ite_none_right_eq_some.mp h
      cases h
      exact .empty hs
    case some a =>
      obtain ⟨hs, h⟩ := Option.ite_none_right_eq_some.mp h
      cases h
      exact .pop hs.left (List.eq_cons_of_mem_head? hs.right)

theorem step_of_run (r : (machine ι κ α).Run s [e] s') : Step s e s' := by
  cases r
  case step h r =>
    cases r
    exact .of_step h

-- A step which establishes `R` is a run which does.
theorem run_of_step {R : State ι κ α → Prop} (h : ∃ t, Step s e t ∧ R t) :
    ∃ t, (machine ι κ α).Run s [e] t ∧ R t :=
  have ⟨t, ht, hr⟩ := h
  ⟨t, .single ht.step_eq, hr⟩

end LifoStacks
