import Concurrencia.LifoStacks.Basic
import Concurrencia.Threads.Count
import Mathlib

open Function

-- Threads which take a node from the free list, or allocate one, push it on the stack, pop a node
-- from there, which may be another one, and put it on the free list.
namespace LifoStacks

inductive Phase
  | start | empty | holds | pushed | popped
  deriving DecidableEq

-- What thread `i` does in a phase, and the phase it enters.
inductive Phase.Turn {ι κ α : Type*} (stack free : κ) (i : ι) : Phase → Event ι κ α → Phase → Prop
  | take : Turn stack free i .start (.pop i free (some a)) .holds
  | miss : Turn stack free i .start (.pop i free none) .empty
  | alloc : Turn stack free i .empty (.alloc i a) .holds
  | push : Turn stack free i .holds (.push i stack a) .pushed
  | pop : Turn stack free i .pushed (.pop i stack (some a)) .popped
  | lost : Turn stack free i .pushed (.pop i stack none) .start
  | free : Turn stack free i .popped (.push i free a) .start

variable {ι κ α : Type*} [Fintype ι] {stack free : κ} {s s' : State ι κ α} {e : Event ι κ α}
variable {f : ι → Phase} {p : Phase} {i : ι} {a : α}

namespace Phase

-- The nodes are on the stack, on the free list and with the threads which hold one. There is one on
-- the stack for each thread which will pop one, and the threads which have found no free node do
-- not get more nodes than there are threads.
structure Bounded (stack free : κ) (s : State ι κ α) (f : ι → Phase) : Prop where
  owed  : (s.lists stack).length = Threads.count f (· = pushed)
  nodes : s.allocated.length =
    (s.lists stack).length + (s.lists free).length +
      Threads.count f (· = holds) + Threads.count f (· = popped)
  bound : s.allocated.length + Threads.count f (· = empty) ≤ Fintype.card ι

-- A thread is in one phase at a time.
theorem count_busy : Threads.count f (· ≠ start) =
    Threads.count f (· = pushed) + Threads.count f (· = holds) + Threads.count f (· = popped) +
      Threads.count f (· = empty) := by
  simp only [Threads.count, ← Finset.sum_add_distrib]
  refine Finset.sum_congr rfl fun i _ => ?_
  cases f i <;> rfl

namespace Bounded

theorem init : Bounded stack free (LifoStacks.init ι κ α) fun _ => start where
  owed  := (Threads.count_eq_zero (fun _ => nofun)).symm
  nodes := by simp [LifoStacks.init, Threads.count]
  bound := by simp [LifoStacks.init, Threads.count]

variable (h : Bounded stack free s f)
include h

-- A thread which will pop a node from the stack finds one.
theorem stack_ne_nil (hi : f i = pushed) : s.lists stack ≠ [] := by
  have := Threads.count_pos (f := f) (P := (· = pushed)) hi
  have := h.owed
  apply List.ne_nil_of_length_pos
  omega

-- A thread which finds no free node is one for which there is no node yet.
theorem allocated_lt (hf : s.lists free = []) (hi : f i = start) :
    s.allocated.length + Threads.count f (· = empty) < Fintype.card ι := by
  have hb := Threads.count_lt_card (f := f) (P := (· ≠ start)) (i := i) (by simp [hi])
  have hn := h.nodes
  have hs := h.owed
  rw [count_busy] at hb
  rw [hf, List.length_nil] at hn
  omega

-- When all threads have finished, there are no nodes but the free ones.
theorem lists_of_start (inv : Inv s) (hf : ∀ i, f i = start) (hh : ∀ i, s.held i = none)
    (hk : ∀ k, k = stack ∨ k = free) :
    s.lists stack = [] ∧ ∀ a, a ∈ s.lists free ↔ a ∈ s.allocated := by
  have hs : s.lists stack = [] := by
    apply List.eq_nil_of_length_eq_zero
    rw [h.owed]
    exact Threads.count_eq_zero fun i => by simp [hf]
  refine ⟨hs, fun a => inv.allocated.trans ⟨?_, fun ha => ⟨.stack free, ha⟩⟩ |>.symm⟩
  rintro ⟨p, hp⟩
  cases p
  case thread i => exact nomatch (hh i).symm.trans hp
  case stack k  =>
    obtain rfl | rfl := hk k
    · exact absurd hp (by simp [At, hs])
    · exact hp

variable [DecidableEq ι] [DecidableEq κ]

theorem step (hk : free ≠ stack) (hs : Step s e s') (ht : Turn stack free i (f i) e p) :
    Bounded stack free s' (update f i p) ∧ ∀ j, e ≠ .pop j stack none := by
  have hp := Threads.count_update (f := f) (i := i) (p := p) (P := (· = pushed))
  have hh := Threads.count_update (f := f) (i := i) (p := p) (P := (· = holds))
  have hq := Threads.count_update (f := f) (i := i) (p := p) (P := (· = popped))
  have he := Threads.count_update (f := f) (i := i) (p := p) (P := (· = empty))
  have ho := h.owed
  have hn := h.nodes
  have hb := h.bound
  generalize hi : f i = q at ht hp hh hq he
  cases ht <;> simp only [reduceCtorEq, if_true, if_false] at hp hh hq he
  all_goals cases hs
  case take.pop as _ hl =>
    have hl : (s.lists free).length = as.length + 1 := congrArg List.length hl
    refine ⟨⟨?_, ?_, ?_⟩, by simp [hk]⟩
    all_goals simp only [update_self, update_of_ne hk.symm]
    all_goals omega
  case miss.empty hl =>
    have := h.allocated_lt hl hi
    refine ⟨⟨?_, ?_, ?_⟩, by simp [hk]⟩
    all_goals omega
  case alloc.alloc a _ _ =>
    refine ⟨⟨?_, ?_, ?_⟩, by simp⟩
    all_goals simp only [List.length_cons]
    all_goals omega
  case push.push =>
    refine ⟨⟨?_, ?_, ?_⟩, by simp⟩
    all_goals simp only [update_self, update_of_ne hk, List.length_cons]
    all_goals omega
  case pop.pop as _ hl =>
    have hl : (s.lists stack).length = as.length + 1 := congrArg List.length hl
    refine ⟨⟨?_, ?_, ?_⟩, by simp⟩
    all_goals simp only [update_self, update_of_ne hk]
    all_goals omega
  case lost.empty hl => exact absurd hl <| h.stack_ne_nil hi
  case free.push =>
    refine ⟨⟨?_, ?_, ?_⟩, by simp⟩
    all_goals simp only [update_self, update_of_ne hk.symm, List.length_cons]
    all_goals omega

end Bounded

end Phase

end LifoStacks
