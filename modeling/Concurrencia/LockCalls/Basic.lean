import Concurrencia.Machine.History
import Mathlib.Logic.Function.Basic

open Function

-- A lock as its callers see it. It is free again as soon as its owner calls `unlock`, and a call
-- of `lock` takes it when it returns. The owner may call `lock` again, and then it waits forever.
namespace LockCalls

inductive Event (ι : Type*)
  | callLock (i : ι)
  | returnLock (i : ι)
  | callUnlock (i : ι)
  | returnUnlock (i : ι)
  deriving DecidableEq

inductive Phase
  | idle | locking | unlocking
  deriving DecidableEq

structure State (ι : Type*) where
  phase : ι → Phase
  owner : Option ι

variable {ι : Type*} [DecidableEq ι]

def init : State ι where
  phase _ := .idle
  owner   := none

def step (s : State ι) : Event ι → Option (State ι)
  | .callLock i     =>
    if s.phase i = .idle then some { s with phase := update s.phase i .locking } else none
  | .returnLock i   =>
    if s.phase i = .locking ∧ s.owner = none then some ⟨update s.phase i .idle, some i⟩ else none
  | .callUnlock i   =>
    if s.phase i = .idle ∧ s.owner = some i then
      some ⟨update s.phase i .unlocking, none⟩
    else none
  | .returnUnlock i =>
    if s.phase i = .unlocking then some { s with phase := update s.phase i .idle } else none

def machine (ι : Type*) [DecidableEq ι] : Machine (State ι) (Event ι) where
  init s := s = init
  step   := step

variable {s : State ι} {i : ι}

theorem trace_callLock (h : s.phase i = .idle) :
    (machine ι).Trace Machine.label s [.callLock i]
      { s with phase := update s.phase i .locking } :=
  .of_step (if_pos h)

theorem trace_returnLock (h : s.phase i = .locking) (ho : s.owner = none) :
    (machine ι).Trace Machine.label s [.returnLock i] ⟨update s.phase i .idle, some i⟩ :=
  .of_step (if_pos ⟨h, ho⟩)

theorem trace_callUnlock (h : s.phase i = .idle) (ho : s.owner = some i) :
    (machine ι).Trace Machine.label s [.callUnlock i] ⟨update s.phase i .unlocking, none⟩ :=
  .of_step (if_pos ⟨h, ho⟩)

theorem trace_returnUnlock (h : s.phase i = .unlocking) :
    (machine ι).Trace Machine.label s [.returnUnlock i]
      { s with phase := update s.phase i .idle } :=
  .of_step (if_pos h)

end LockCalls
