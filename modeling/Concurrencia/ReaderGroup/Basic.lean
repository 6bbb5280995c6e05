import Concurrencia.Machine.Basic
import Mathlib.Logic.Function.Basic

open Function

-- Readers who share one token. A lock protects their number, the first of them takes the token, and
-- the last of them gives it back. A writer takes the token alone.
namespace ReaderGroup

inductive Phase
  | outside
  | counting | first | entered
  | inside
  | leaving | last | left
  | writing
  deriving DecidableEq

namespace Phase

def HasLock : Phase → Prop
  | counting | first | entered | leaving | last | left => True
  | _                                                  => False

-- The readers which are counted.
def Counted : Phase → Prop
  | first | entered | inside | leaving => True
  | _                                  => False

-- The readers which have the token together.
def Shares : Phase → Prop
  | entered | inside | leaving | last => True
  | _                                 => False

instance : DecidablePred Counted := fun p => by
  unfold Counted
  split <;> infer_instance

instance : DecidablePred Shares := fun p => by
  unfold Shares
  split <;> infer_instance

end Phase

structure State (ι : Type*) where
  phase : ι → Phase
  lock : Bool
  token : Bool
  readers : ℤ

inductive Label (ι : Type*)
  | start (i : ι)
  | count (i : ι)
  | takeToken (i : ι)
  | enter (i : ι)
  | finish (i : ι)
  | discount (i : ι)
  | giveToken (i : ι)
  | leave (i : ι)
  | write (i : ι)
  | endWrite (i : ι)

variable {ι : Type*} [DecidableEq ι]

def State.goto (s : State ι) (i : ι) (p : Phase) : State ι :=
  { s with phase := update s.phase i p }

-- Whether the lock and the token are taken.
def step (s : State ι) : Label ι → Option (State ι)
  | .start i     =>
    if s.phase i = .outside ∧ s.lock = false then
      some <| { s with lock := true }.goto i .counting
    else none
  | .count i     =>
    if s.phase i = .counting then
      some <| { s with readers := s.readers + 1 }.goto i (if s.readers = 0 then .first else .entered)
    else none
  | .takeToken i =>
    if s.phase i = .first ∧ s.token = false then
      some <| { s with token := true }.goto i .entered
    else none
  | .enter i     =>
    if s.phase i = .entered then some <| { s with lock := false }.goto i .inside else none
  | .finish i    =>
    if s.phase i = .inside ∧ s.lock = false then
      some <| { s with lock := true }.goto i .leaving
    else none
  | .discount i  =>
    if s.phase i = .leaving then
      some <| { s with readers := s.readers - 1 }.goto i (if s.readers = 1 then .last else .left)
    else none
  | .giveToken i =>
    if s.phase i = .last then some <| { s with token := false }.goto i .left else none
  | .leave i     =>
    if s.phase i = .left then some <| { s with lock := false }.goto i .outside else none
  | .write i     =>
    if s.phase i = .outside ∧ s.token = false then
      some <| { s with token := true }.goto i .writing
    else none
  | .endWrite i  =>
    if s.phase i = .writing then some <| { s with token := false }.goto i .outside else none

-- The thread has taken something, and its next step is not blocked.
def State.Movable (s : State ι) (i : ι) : Prop :=
  match s.phase i with
  | .outside                                                   => False
  | .counting | .entered | .leaving | .last | .left | .writing => True
  | .first                                                     => s.token = false
  | .inside                                                    => s.lock = false

def init (ι : Type*) : State ι where
  phase _ := .outside
  lock    := false
  token   := false
  readers := 0

def machine (ι : Type*) [DecidableEq ι] : Machine (State ι) (Label ι) where
  init s := s = init ι
  step   := step

end ReaderGroup
