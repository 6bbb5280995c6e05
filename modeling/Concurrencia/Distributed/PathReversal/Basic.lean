import Mathlib.Logic.Function.Basic
import Mathlib.Tactic.Simps.Basic

open Function

namespace PathReversal

-- The token algorithms which pass a request along the edges of a tree and turn around each edge
-- that it passes. A node which has received a request from its neighbour `held` is finished with
-- it when it takes that neighbour for its parent. Up to the point where it passes the request on,
-- defers it or answers it, the originator of the request is `carried`.
@[ext]
structure State (α : Type*) where
  parent   : α → Option α
  held     : α → Option α
  carried  : α → Option α
  deferred : α → Option α
  waiting  : α → Prop
  token    : α → Prop

variable {α : Type*} [DecidableEq α]

namespace State

-- Node `j` passes the request of `k` to its parent `p`.
@[simps -fullyApplied]
def pass (s : State α) (j p k : α) : State α where
  parent   := update s.parent j none
  held     := update s.held p (some j)
  carried  := update s.carried p (some k)
  deferred := s.deferred
  waiting  := s.waiting
  token    := s.token

@[simps -fullyApplied]
def clear (s : State α) (j : α) : State α where
  parent   := s.parent
  held     := s.held
  carried  := update s.carried j none
  deferred := s.deferred
  waiting  := s.waiting
  token    := s.token

@[simps -fullyApplied]
def finish (s : State α) (j a : α) : State α where
  parent   := update s.parent j (some a)
  held     := update s.held j none
  carried  := s.carried
  deferred := s.deferred
  waiting  := s.waiting
  token    := s.token

@[simps -fullyApplied]
def defer (s : State α) (j : α) (k : Option α) : State α where
  parent   := s.parent
  held     := s.held
  carried  := s.carried
  deferred := update s.deferred j k
  waiting  := s.waiting
  token    := s.token

@[simps -fullyApplied]
def wait (s : State α) (i : α) : State α where
  parent   := s.parent
  held     := s.held
  carried  := s.carried
  deferred := s.deferred
  waiting  := update s.waiting i True
  token    := s.token

-- Node `j` sends the token to `k`.
@[simps -fullyApplied]
def give (s : State α) (j k : α) : State α where
  parent   := s.parent
  held     := s.held
  carried  := s.carried
  deferred := s.deferred
  waiting  := update s.waiting k False
  token    := update (update s.token j False) k True

end State

-- A star all of whose edges point to the center, which owns the token.
def init (c : α) : State α where
  parent i   := if i = c then none else some c
  held _     := none
  carried _  := none
  deferred _ := none
  waiting _  := False
  token i    := i = c

inductive Move (s : State α) : State α → Prop
  | stay : Move s s
  | request (i p : α) (hp : s.parent i = some p) (hh : s.held p = none) (hc : s.carried p = none)
    (hw : ¬s.waiting i) (ht : ¬s.token i) : Move s ((s.pass i p i).wait i)
  | forward (j p a k : α) (hp : s.parent j = some p) (ha : s.held j = some a)
    (hk : s.carried j = some k) (hh : s.held p = none) (hc : s.carried p = none) :
    Move s (((s.clear j).pass j p k).finish j a)
  | reply (j k : α) (hp : s.parent j = none) (hk : s.carried j = some k) (ht : s.token j)
    (hw : s.waiting k) : Move s ((s.clear j).give j k)
  | defer (j k : α) (hp : s.parent j = none) (hk : s.carried j = some k) (hw : ¬s.waiting j) :
    Move s ((s.clear j).defer j (some k))
  | finish (j a : α) (hp : s.parent j = none) (ha : s.held j = some a) (hc : s.carried j = none) :
    Move s (s.finish j a)
  | grant (j k : α) (hk : s.deferred j = some k) (ht : s.token j) (hw : s.waiting k) :
    Move s ((s.defer j none).give j k)

theorem Move.of_eq {s s' : State α} (h : s' = s) : Move s s' :=
  h ▸ .stay

end PathReversal
