import Concurrencia.Distributed.Basic
import Mathlib.Logic.Function.Basic

open Function Distributed

namespace NeilsenMizuno

structure Message (n : ℕ) where
  source : Fin n
  originator : Fin n
  deriving DecidableEq

-- The statements of the loop of `node` with its calls of `lock` and `unlock`.
inductive Main (n : ℕ)
  | loop
  | lockAcquire | testHolding | request | clearParent | await | clearHolding | lockRelease
  | load | store (v : ℕ)
  | unlockAcquire | testDeferred | reply | clearDeferred | setHolding | unlockRelease
  | done
  deriving DecidableEq

-- The statements of `receiver`. At `setParent` the flag tells whether the message has just been
-- forwarded.
inductive Receiver (n : ℕ)
  | receive
  | acquire (m : Message n) | testParent (m : Message n) | testHolding (m : Message n)
  | reply (m : Message n) | clearHolding (m : Message n)
  | setDeferred (m : Message n)
  | forward (m : Message n)
  | setParent (forwarded : Bool) (m : Message n)
  | release
  deriving DecidableEq

-- The value `None` of `parent` and `deferred` is `none`.
structure State (n : ℕ) where
  main : Fin n → Main n
  receiver : Fin n → Receiver n
  round : Fin n → ℕ
  mutex : Fin n → Bool
  parent : Fin n → Option (Fin n)
  holding : Fin n → Bool
  deferred : Fin n → Option (Fin n)
  counter : ℕ

variable {n : ℕ}

def State.goto (s : State n) (i : Fin n) (p : Main n) : State n :=
  { s with main := update s.main i p }

def State.turn (s : State n) (i : Fin n) (p : Receiver n) : State n :=
  { s with receiver := update s.receiver i p }

def mainStep (counts : Fin n → ℕ) (s : State n) (i : Fin n) : Option (State n) :=
  match s.main i with
  | .loop          => s.goto i (if s.round i < counts i then .lockAcquire else .done)
  -- lock
  | .lockAcquire   =>
    if s.mutex i then none
    else some <| { s with mutex := update s.mutex i true }.goto i .testHolding
  | .testHolding   => some <| s.goto i (if !s.holding i then .request else .clearHolding)
  | .request       =>
    match s.parent i with
    -- `requests[None]` is out of range.
    | none   => none
    | some p =>
      if s.receiver p = .receive
      then some <| (s.turn p (.acquire ⟨i, i⟩)).goto i .clearParent
      else none
  | .clearParent   => some <| { s with parent := update s.parent i none }.goto i .await
  -- The node which sends the reply takes the step of both.
  | .await         => none
  | .clearHolding  => some <| { s with holding := update s.holding i false }.goto i .lockRelease
  | .lockRelease   => some <| { s with mutex := update s.mutex i false }.goto i .load
  -- counter++
  | .load          => some <| s.goto i (.store s.counter)
  | .store v       => some <| { s with counter := v + 1 }.goto i .unlockAcquire
  -- unlock
  | .unlockAcquire =>
    if s.mutex i then none
    else some <| { s with mutex := update s.mutex i true }.goto i .testDeferred
  | .testDeferred  => some <| s.goto i (if s.deferred i ≠ none then .reply else .setHolding)
  | .reply         =>
    match s.deferred i with
    | none   => none
    | some k =>
      if s.main k = .await
      then some <| (s.goto k .clearHolding).goto i .clearDeferred
      else none
  | .clearDeferred => some <| { s with deferred := update s.deferred i none }.goto i .unlockRelease
  | .setHolding    => some <| { s with holding := update s.holding i true }.goto i .unlockRelease
  | .unlockRelease =>
    some <| { s with
      mutex := update s.mutex i false
      round := update s.round i (s.round i + 1) }.goto i .loop
  | .done          => none

def receiverStep (s : State n) (i : Fin n) : Option (State n) :=
  match s.receiver i with
  | .receive        => none
  | .acquire m      =>
    if s.mutex i then none
    else some <| { s with mutex := update s.mutex i true }.turn i (.testParent m)
  | .testParent m   => some <| s.turn i (if s.parent i = none then .testHolding m else .forward m)
  | .testHolding m  => some <| s.turn i (if s.holding i then .reply m else .setDeferred m)
  | .reply m        =>
    if s.main m.originator = .await
    then some <| (s.goto m.originator .clearHolding).turn i (.clearHolding m)
    else none
  | .clearHolding m =>
    some <| { s with holding := update s.holding i false }.turn i (.setParent false m)
  | .setDeferred m  =>
    some <| { s with deferred := update s.deferred i (some m.originator) }.turn i (.setParent false m)
  | .forward m      =>
    match s.parent i with
    | none   => none
    | some p =>
      if s.receiver p = .receive
      then some <| (s.turn p (.acquire ⟨i, m.originator⟩)).turn i (.setParent true m)
      else none
  | .setParent _ m  => some <| { s with parent := update s.parent i (some m.source) }.turn i .release
  | .release        => some <| { s with mutex := update s.mutex i false }.turn i .receive

def step (counts : Fin n → ℕ) (s : State n) : Process n → Option (State n)
  | .main i     => mainStep counts s i
  | .receiver i => receiverStep s i

def init (n : ℕ) : State n where
  main _     := .loop
  receiver _ := .receive
  round _    := 0
  mutex _    := false
  parent i   := if i.val = 0 then none else some ⟨0, i.pos⟩
  holding i  := i.val == 0
  deferred _ := none
  counter    := 0

def machine (counts : Fin n → ℕ) : Machine (State n) (Process n) where
  init s := s = init n
  step   := step counts

end NeilsenMizuno
