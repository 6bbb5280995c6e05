import Concurrencia.Distributed.Basic
import Mathlib.Logic.Function.Basic

open Function Distributed

namespace RicartAgrawala

structure Message (n : ℕ) where
  source : Fin n
  number : ℕ
  deriving DecidableEq

-- The statements of the loop of `node` with its calls of `lock` and `unlock`. The loop over
-- `requests` is at `send`, the one over the replies at `await` and the one over the deferred
-- requests at `drain`.
inductive Main (n : ℕ)
  | loop
  | lockAcquire | setRequest | setNumber | lockRelease
  | send (k : ℕ) | request (k : Fin n)
  | await
  | load | store (v : ℕ)
  | clearRequest | unlockAcquire | measure | unlockRelease (m : ℕ)
  | drain (k m : ℕ) | reply (k m : ℕ) (src : Fin n)
  | done
  deriving DecidableEq

-- The statements of `receiver`, with the message they deal with.
inductive Receiver (n : ℕ)
  | receive
  | acquire (m : Message n) | raise (m : Message n) | testRequest (m : Message n)
  | compare (m : Message n)
  | release (m : Message n) | reply (m : Message n)
  | defer (m : Message n) | deferRelease
  deriving DecidableEq

-- `replied i` holds the sources of the messages node `i` has received from `replies[i]` since its
-- last request. Their number is the variable of the loop that receives them.
structure State (n : ℕ) where
  main : Fin n → Main n
  receiver : Fin n → Receiver n
  round : Fin n → ℕ
  mutex : Fin n → Bool
  requestCS : Fin n → Bool
  myNumber : Fin n → ℕ
  highestNum : Fin n → ℕ
  deferred : Fin n → List (Fin n)
  replied : Fin n → List (Fin n)
  counter : ℕ

variable {n : ℕ}

def State.goto (s : State n) (i : Fin n) (p : Main n) : State n :=
  { s with main := update s.main i p }

def State.turn (s : State n) (i : Fin n) (p : Receiver n) : State n :=
  { s with receiver := update s.receiver i p }

-- Node `j` waits for a message on `replies[j]`.
def State.Ready (s : State n) (j : Fin n) : Prop :=
  s.main j = .await ∧ (s.replied j).length < n - 1

instance {s : State n} {j : Fin n} : Decidable (s.Ready j) :=
  inferInstanceAs (Decidable (_ ∧ _))

def State.reply (s : State n) (i j : Fin n) : State n :=
  { s with replied := update s.replied j (s.replied j ++ [i]) }

def mainStep (counts : Fin n → ℕ) (s : State n) (i : Fin n) : Option (State n) :=
  match s.main i with
  | .loop            => s.goto i (if s.round i < counts i then .lockAcquire else .done)
  -- lock
  | .lockAcquire     =>
    if s.mutex i then none
    else some <| { s with mutex := update s.mutex i true }.goto i .setRequest
  | .setRequest      => some <| { s with requestCS := update s.requestCS i true }.goto i .setNumber
  | .setNumber       =>
    some <| { s with
      myNumber := update s.myNumber i (s.highestNum i + 1)
      replied  := update s.replied i [] }.goto i .lockRelease
  | .lockRelease     => some <| { s with mutex := update s.mutex i false }.goto i (.send 0)
  | .send k          =>
    some <| s.goto i (if h : k < n then if k = i then .send (k + 1) else .request ⟨k, h⟩ else .await)
  | .request k       =>
    if s.receiver k = .receive
    then some <| (s.turn k (.acquire ⟨i, s.myNumber i⟩)).goto i (.send (k + 1))
    else none
  | .await           => if (s.replied i).length < n - 1 then none else some <| s.goto i .load
  -- counter++
  | .load            => some <| s.goto i (.store s.counter)
  | .store v         => some <| { s with counter := v + 1 }.goto i .clearRequest
  -- unlock
  | .clearRequest    => some <| { s with requestCS := update s.requestCS i false }.goto i .unlockAcquire
  | .unlockAcquire   =>
    if s.mutex i then none
    else some <| { s with mutex := update s.mutex i true }.goto i .measure
  | .measure         => some <| s.goto i (.unlockRelease (s.deferred i).length)
  | .unlockRelease m => some <| { s with mutex := update s.mutex i false }.goto i (.drain 0 m)
  | .drain k m       =>
    if k < m then
      match s.deferred i with
      | []         => none
      | src :: tl => some <| { s with deferred := update s.deferred i tl }.goto i (.reply k m src)
    else some <| { s with round := update s.round i (s.round i + 1) }.goto i .loop
  | .reply k m src   =>
    if s.Ready src then some <| (s.reply i src).goto i (.drain (k + 1) m) else none
  | .done            => none

def receiverStep (s : State n) (i : Fin n) : Option (State n) :=
  match s.receiver i with
  | .receive       => none
  | .acquire m     =>
    if s.mutex i then none
    else some <| { s with mutex := update s.mutex i true }.turn i (.raise m)
  | .raise m       =>
    some <| { s with
      highestNum := update s.highestNum i (if m.number > s.highestNum i then m.number else s.highestNum i)
    }.turn i (.testRequest m)
  | .testRequest m => some <| s.turn i (if !s.requestCS i then .release m else .compare m)
  | .compare m     =>
    some <| s.turn i (
      if m.number < s.myNumber i ∨ (m.number = s.myNumber i ∧ m.source < i) then .release m else .defer m
    )
  | .release m     => some <| { s with mutex := update s.mutex i false }.turn i (.reply m)
  | .reply m       =>
    if s.Ready m.source then some <| (s.reply i m.source).turn i .receive else none
  -- The channel `deferred` has a buffer of `Nodes` places.
  | .defer m       =>
    if (s.deferred i).length < n
    then some <| { s with deferred := update s.deferred i (s.deferred i ++ [m.source]) }.turn i .deferRelease
    else none
  | .deferRelease  => some <| { s with mutex := update s.mutex i false }.turn i .receive

def step (counts : Fin n → ℕ) (s : State n) : Process n → Option (State n)
  | .main i     => mainStep counts s i
  | .receiver i => receiverStep s i

def init (n : ℕ) : State n where
  main _       := .loop
  receiver _   := .receive
  round _      := 0
  mutex _      := false
  requestCS _  := false
  myNumber _   := 0
  highestNum _ := 0
  deferred _   := []
  replied _    := []
  counter      := 0

def machine (counts : Fin n → ℕ) : Machine (State n) (Process n) where
  init s := s = init n
  step   := step counts

-- What an observer of the critical sections sees: when node `i` draws the number `k` for its round
-- `r`, when `lock` returns, and when `unlock` has executed `requestCS = false`.
inductive Event (n : ℕ)
  | request (i : Fin n) (r k : ℕ)
  | enter (i : Fin n) (r : ℕ)
  | leave (i : Fin n) (r : ℕ)
  deriving DecidableEq

def event (s : State n) : Process n → Option (Event n)
  | .receiver _ => none
  | .main i     =>
    match s.main i with
    | .setNumber    => some <| .request i (s.round i) (s.highestNum i + 1)
    | .await        => if (s.replied i).length < n - 1 then none else some <| .enter i (s.round i)
    | .clearRequest => some <| .leave i (s.round i)
    | _             => none

end RicartAgrawala
