import Concurrencia.Distributed.Basic
import Mathlib.Logic.Function.Basic

open Function Distributed

namespace TokenPassing

structure Message (n : ℕ) where
  source : Fin n
  number : ℕ
  deriving DecidableEq

-- The statements of `sendToken`, whose loop over `requested` is at `scan`.
inductive SendToken (n : ℕ)
  | scan (k : ℕ)
  | send (k : Fin n)
  | clearToken
  deriving DecidableEq

-- The statements of the loop of `node` with its calls of `lock` and `unlock`. The loop over
-- `requests` is at `send`.
inductive Main (n : ℕ)
  | loop
  | lockAcquire | testToken | setNumber | requestRelease
  | send (k : ℕ) | request (k : Fin n)
  | await
  | tokenAcquire | setToken | setInCS | lockRelease
  | load | store (v : ℕ)
  | unlockAcquire | setGranted | clearInCS | sendToken (p : SendToken n) | unlockRelease
  | done
  deriving DecidableEq

inductive Receiver (n : ℕ)
  | receive
  | record (m : Message n)
  | acquire | test | sendToken (p : SendToken n) | release
  deriving DecidableEq

structure State (n : ℕ) where
  main : Fin n → Main n
  receiver : Fin n → Receiver n
  round : Fin n → ℕ
  mutex : Fin n → Bool
  requested : Fin n → Fin n → ℕ
  granted : Fin n → Fin n → ℕ
  myNumber : Fin n → ℕ
  inCS : Fin n → Bool
  haveToken : Fin n → Bool
  counter : ℕ

variable {n : ℕ}

def State.goto (s : State n) (i : Fin n) (p : Main n) : State n :=
  { s with main := update s.main i p }

def State.turn (s : State n) (i : Fin n) (p : Receiver n) : State n :=
  { s with receiver := update s.receiver i p }

-- The array `granted` of node `i` is sent to node `k` by value.
def State.give (s : State n) (i k : Fin n) : State n :=
  { s with granted := update s.granted k (s.granted i) }.goto k .tokenAcquire

-- Takes a statement of `sendToken` as node `i`. Besides the new state this yields the next
-- statement, which is `none` on return.
def sendToken (s : State n) (i : Fin n) : SendToken n → Option (State n × Option (SendToken n))
  | .scan k     =>
    some (s,
      if h : k < n then
        if s.requested i ⟨k, h⟩ > s.granted i ⟨k, h⟩ then some (.send ⟨k, h⟩) else some (.scan (k + 1))
      else none)
  | .send k     =>
    if s.main k = .await then some (s.give i k, some .clearToken) else none
  | .clearToken => some ({ s with haveToken := update s.haveToken i false }, none)

def mainStep (counts : Fin n → ℕ) (s : State n) (i : Fin n) : Option (State n) :=
  match s.main i with
  | .loop           => s.goto i (if s.round i < counts i then .lockAcquire else .done)
  -- lock
  | .lockAcquire    =>
    if s.mutex i then none
    else some <| { s with mutex := update s.mutex i true }.goto i .testToken
  | .testToken      => some <| s.goto i (if !s.haveToken i then .setNumber else .setInCS)
  | .setNumber      =>
    some <| { s with myNumber := update s.myNumber i (s.myNumber i + 1) }.goto i .requestRelease
  | .requestRelease => some <| { s with mutex := update s.mutex i false }.goto i (.send 0)
  | .send k         =>
    some <| s.goto i (if h : k < n then if k = i then .send (k + 1) else .request ⟨k, h⟩ else .await)
  | .request k      =>
    if s.receiver k = .receive
    then some <| (s.turn k (.record ⟨i, s.myNumber i⟩)).goto i (.send (k + 1))
    else none
  -- The node which sends the token takes the step of both.
  | .await          => none
  | .tokenAcquire   =>
    if s.mutex i then none
    else some <| { s with mutex := update s.mutex i true }.goto i .setToken
  | .setToken       => some <| { s with haveToken := update s.haveToken i true }.goto i .setInCS
  | .setInCS        => some <| { s with inCS := update s.inCS i true }.goto i .lockRelease
  | .lockRelease    => some <| { s with mutex := update s.mutex i false }.goto i .load
  -- counter++
  | .load           => some <| s.goto i (.store s.counter)
  | .store v        => some <| { s with counter := v + 1 }.goto i .unlockAcquire
  -- unlock
  | .unlockAcquire  =>
    if s.mutex i then none
    else some <| { s with mutex := update s.mutex i true }.goto i .setGranted
  | .setGranted     =>
    some <| { s with
      granted := update s.granted i (update (s.granted i) i (s.myNumber i)) }.goto i .clearInCS
  | .clearInCS      => some <| { s with inCS := update s.inCS i false }.goto i (.sendToken (.scan 0))
  | .sendToken p    =>
    (sendToken s i p).map fun (s', q) => s'.goto i (q.elim .unlockRelease .sendToken)
  | .unlockRelease  =>
    some <| { s with
      mutex := update s.mutex i false
      round := update s.round i (s.round i + 1) }.goto i .loop
  | .done           => none

def receiverStep (s : State n) (i : Fin n) : Option (State n) :=
  match s.receiver i with
  | .receive     => none
  | .record m    =>
    some <| { s with
      requested :=
        if m.number > s.requested i m.source
        then update s.requested i (update (s.requested i) m.source m.number)
        else s.requested
    }.turn i .acquire
  | .acquire     =>
    if s.mutex i then none
    else some <| { s with mutex := update s.mutex i true }.turn i .test
  | .test        =>
    some <| s.turn i (if s.haveToken i && !s.inCS i then .sendToken (.scan 0) else .release)
  | .sendToken p =>
    (sendToken s i p).map fun (s', q) => s'.turn i (q.elim .release .sendToken)
  | .release     => some <| { s with mutex := update s.mutex i false }.turn i .receive

def step (counts : Fin n → ℕ) (s : State n) : Process n → Option (State n)
  | .main i     => mainStep counts s i
  | .receiver i => receiverStep s i

def init (n : ℕ) : State n where
  main _        := .loop
  receiver _    := .receive
  round _       := 0
  mutex _       := false
  requested _ _ := 0
  granted _ _   := 0
  myNumber _    := 0
  inCS _        := false
  haveToken i   := i.val == 0
  counter       := 0

def machine (counts : Fin n → ℕ) : Machine (State n) (Process n) where
  init s := s = init n
  step   := step counts

-- What matters for the order in which the nodes get the token: when node `i` draws a new number, and
-- when the token is handed to node `k`.
inductive Event (n : ℕ)
  | request (i : Fin n)
  | grant (k : Fin n)
  deriving DecidableEq

def event (s : State n) : Process n → Option (Event n)
  | .main i     =>
    match s.main i with
    | .setNumber           => some <| .request i
    | .sendToken (.send k) => if s.main k = .await then some <| .grant k else none
    | _                    => none
  | .receiver i =>
    match s.receiver i with
    | .sendToken (.send k) => if s.main k = .await then some <| .grant k else none
    | _                    => none

end TokenPassing
