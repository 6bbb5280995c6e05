import Concurrencia.LifoStacks.Basic
import Concurrencia.Threads.Count

open Function

namespace LifoStacks

-- The stacks in memory: each one is a head and the nodes which are reached from there.
structure Memory (ι κ α : Type*) where
  head      : κ → Option α
  next      : α → Option α
  held      : ι → Option α
  allocated : List α

variable {ι κ α : Type*} {m : Memory ι κ α} {s : State ι κ α} {i j : ι} {k : κ} {a b : α}
variable {next next' : α → Option α} {o : Option α} {as : List α}

-- The nodes which are reached from `o`.
def Linked (next : α → Option α) : Option α → List α → Prop
  | o, []      => o = none
  | o, a :: as => o = some a ∧ Linked next (next a) as

theorem Linked.congr (h : Linked next o as) (hn : ∀ a ∈ as, next' a = next a) :
    Linked next' o as := by
  induction as generalizing o
  case nil => exact h
  case cons a as hi =>
    refine ⟨h.left, ?_⟩
    rw [hn a (by simp)]
    exact hi h.right fun b hb => hn b (by simp [hb])

structure Represents (m : Memory ι κ α) (s : State ι κ α) : Prop where
  inv       : Inv s
  linked    : ∀ k, Linked m.next (m.head k) (s.lists k)
  held      : s.held = m.held
  allocated : s.allocated = m.allocated

namespace Memory

variable [DecidableEq ι] [DecidableEq κ] [DecidableEq α]

def write (m : Memory ι κ α) (a : α) (o : Option α) : Memory ι κ α :=
  { m with next := update m.next a o }

def alloc (m : Memory ι κ α) (i : ι) (a : α) : Memory ι κ α :=
  { m with held := update m.held i (some a), allocated := a :: m.allocated }

def push (m : Memory ι κ α) (i : ι) (k : κ) (a : α) : Memory ι κ α :=
  { m with head := update m.head k (some a), held := update m.held i none }

def pop (m : Memory ι κ α) (i : ι) (k : κ) (a : α) : Memory ι κ α :=
  { m with head := update m.head k (m.next a), held := update m.held i (some a) }

end Memory

namespace Represents

theorem init : Represents ⟨fun _ => none, next, fun _ => none, []⟩ (init ι κ α) where
  inv       := .init
  linked _  := rfl
  held      := rfl
  allocated := rfl

variable (h : Represents m s)
include h

theorem lists_eq_nil (hk : m.head k = none) : s.lists k = [] := by
  have hr := h.linked k
  cases hl : s.lists k
  case nil => rfl
  case cons a as =>
    rw [hl] at hr
    exact nomatch hk.symm.trans hr.left

theorem lists_eq_cons (hk : m.head k = some a) :
    ∃ as, s.lists k = a :: as ∧ Linked m.next (m.next a) as := by
  have hr := h.linked k
  cases hl : s.lists k
  case nil =>
    rw [hl] at hr
    exact nomatch hk.symm.trans hr
  case cons b as =>
    rw [hl] at hr
    have hb : a = b := Option.some.inj <| hk.symm.trans hr.left
    exact ⟨as, hb ▸ rfl, hb ▸ hr.right⟩

theorem held_inj (hi : m.held i = some a) (hj : m.held j = some a) : i = j :=
  Place.thread.inj <| h.inv.unique (p := .thread i) (q := .thread j)
    ((congrFun h.held i).trans hi) ((congrFun h.held j).trans hj)

-- A node which is held by a thread is in no stack.
theorem not_mem_of_held (hi : m.held i = some a) (k : κ) : a ∉ s.lists k :=
  h.inv.not_mem_of_held (h.held ▸ hi) k

theorem ne_of_held (hi : m.held i = some b) (hk : m.head k = some a) : a ≠ b := by
  have ⟨as, hl, _⟩ := h.lists_eq_cons hk
  rintro rfl
  exact h.not_mem_of_held hi k (by simp [hl])

variable [DecidableEq ι] [DecidableEq κ]

theorem empty (i : ι) (hk : m.head k = none) : Step s (.pop i k none) s :=
  .empty (h.lists_eq_nil hk)

theorem alloc (hi : m.held i = none) (ha : a ∉ m.allocated) :
    ∃ s', Step s (.alloc i a) s' ∧ Represents (m.alloc i a) s' := by
  have hs : Step s (.alloc i a) _ := .alloc (h.held ▸ hi) (h.allocated ▸ ha)
  refine ⟨_, hs, h.inv.step hs, h.linked, ?_, ?_⟩
  · exact congrArg (update · i _) h.held
  · exact congrArg _ h.allocated

theorem push (hi : m.held i = some a) (ha : m.next a = m.head k) :
    ∃ s', Step s (.push i k a) s' ∧ Represents (m.push i k a) s' := by
  have hs : Step s (.push i k a) _ := .push (h.held ▸ hi)
  refine ⟨_, hs, h.inv.step hs, ?_, congrArg (update · i _) h.held, h.allocated⟩
  intro q
  by_cases hq : q = k
  case pos => simpa [Memory.push, hq, Linked, ha] using h.linked k
  case neg => simpa [Memory.push, hq] using h.linked q

theorem pop (hi : m.held i = none) (hk : m.head k = some a) :
    ∃ s', Step s (.pop i k (some a)) s' ∧ Represents (m.pop i k a) s' := by
  have ⟨as, hl, ha⟩ := h.lists_eq_cons hk
  have hs : Step s (.pop i k (some a)) _ := .pop (h.held ▸ hi) hl
  refine ⟨_, hs, h.inv.step hs, ?_, congrArg (update · i _) h.held, h.allocated⟩
  intro q
  by_cases hq : q = k
  case pos => simpa [Memory.pop, hq] using ha
  case neg => simpa [Memory.pop, hq] using h.linked q

omit [DecidableEq ι] [DecidableEq κ] in
theorem write [DecidableEq α] (hi : m.held i = some a) : Represents (m.write a o) s where
  inv       := h.inv
  held      := h.held
  allocated := h.allocated
  linked k  := (h.linked k).congr fun _ hb =>
    update_of_ne (ne_of_mem_of_not_mem hb (h.not_mem_of_held hi k)) ..

end Represents

end LifoStacks

namespace LifoStacks

variable {ι κ α : Type*} [Fintype ι] [Fintype κ] {s s' : State ι κ α} {e : Event ι κ α}

-- All nodes are on a stack or are held by a thread.
def Conserved (s : State ι κ α) : Prop :=
  s.allocated.length = ∑ k, (s.lists k).length + Threads.count s.held (·.isSome = true)

theorem Conserved.init : Conserved (init ι κ α) := by
  simp [Conserved, LifoStacks.init, Threads.count]

variable [DecidableEq ι] [DecidableEq κ]

theorem Conserved.step (h : Conserved s) (hs : Step s e s') : Conserved s' := by
  unfold Conserved at *
  cases hs
  case empty => exact h
  case alloc i a hi ha =>
    have := Threads.count_enter (f := s.held) (P := (·.isSome = true)) (p := some a) (i := i)
      (by simp [hi]) rfl
    simp only [List.length_cons]
    omega
  case push i a k hi =>
    have := Threads.count_leave (f := s.held) (P := (·.isSome = true)) (p := none) (i := i)
      (by simp [hi]) (by simp)
    have hl := Threads.sum_update (f := s.lists) (i := k) (p := a :: s.lists k) (g := List.length)
    simp only [List.length_cons] at hl ⊢
    omega
  case pop i k a as hi hk =>
    have := Threads.count_enter (f := s.held) (P := (·.isSome = true)) (p := some a) (i := i)
      (by simp [hi]) rfl
    have hl := Threads.sum_update (f := s.lists) (i := k) (p := as) (g := List.length)
    rw [hk, List.length_cons] at hl
    simp only
    omega

variable [DecidableEq α]

theorem Conserved.run {l : List (Event ι κ α)} (h : Conserved s)
    (r : (machine ι κ α).Run s l s') : Conserved s' :=
  r.invariant h fun _ _ _ h hs => h.step (.of_step hs)

end LifoStacks
