import Concurrencia.Channels.Mutex.Basic

open Function

-- The mutex of `channels/mutex_sync.go`, and a fork of `channels/philosophers_sync.go`: there `fork`
-- is the goroutine of `NewMutex`, and the receive and the send of a philosopher are those of `Lock`
-- and `Unlock`, which have the same statements as in `channels/mutex.go`.
namespace ChannelMutexSync

open ChannelMutex (Goroutine)

-- The statements of the goroutine of `NewMutex`.
inductive Server
  | send | receive
  deriving DecidableEq

-- The channel has no buffer.
structure State (n : ℕ) where
  goroutines : Fin n → Goroutine
  server : Server

-- A send and a receive are one step: `grant` is the server's send to a `Lock`, `accept` its
-- receive from an `Unlock`, and `pass` an `Unlock` of `i` which is received by the `Lock` of `j`.
inductive Label (n : ℕ)
  | lock (i : Fin n)
  | unlock (i : Fin n)
  | grant (i : Fin n)
  | accept (i : Fin n)
  | pass (i j : Fin n)
  | ret (i : Fin n)
  deriving DecidableEq

variable {n : ℕ}

def State.put (s : State n) (i : Fin n) (g : Goroutine) : State n :=
  { s with goroutines := update s.goroutines i g }

namespace State

variable {s : State n} {i : Fin n} {g : Goroutine}

@[simp] theorem put_goroutines : (s.put i g).goroutines = update s.goroutines i g := rfl
@[simp] theorem put_server : (s.put i g).server = s.server := rfl

end State

def step (s : State n) : Label n → Option (State n)
  | .lock i   =>
    let g := s.goroutines i
    if g.pc = .idle then s.put i ⟨.receive, g.held⟩ else none
  | .unlock i => if s.goroutines i = ⟨.idle, true⟩ then s.put i ⟨.send, false⟩ else none
  | .grant i  =>
    let g := s.goroutines i
    if s.server = .send ∧ g.pc = .receive then
      some <| { s with server := .receive }.put i ⟨.lockReturn, g.held⟩
    else none
  | .accept i =>
    let g := s.goroutines i
    if s.server = .receive ∧ g.pc = .send then
      some <| { s with server := .send }.put i ⟨.unlockReturn, g.held⟩
    else none
  | .pass i j =>
    let g := s.goroutines i
    let g' := s.goroutines j
    if g.pc = .send ∧ g'.pc = .receive then
      some <| (s.put i ⟨.unlockReturn, g.held⟩).put j ⟨.lockReturn, g'.held⟩
    else none
  | .ret i    =>
    let g := s.goroutines i
    match g.pc with
    | .lockReturn   => s.put i ⟨.idle, true⟩
    | .unlockReturn => s.put i ⟨.idle, g.held⟩
    | _             => none

def newMutex (n : ℕ) : State n where
  goroutines _ := ⟨.idle, false⟩
  server       := .send

def machine (n : ℕ) : Machine (State n) (Label n) where
  init s := s = newMutex n
  step   := step

def callEvent (s : State n) : Label n → Option (LockCalls.Event (Fin n))
  | .lock i   => some (.callLock i)
  | .unlock i => some (.callUnlock i)
  | .ret i    =>
    match (s.goroutines i).pc with
    | .lockReturn   => some (.returnLock i)
    | .unlockReturn => some (.returnUnlock i)
    | _             => none
  | _         => none

end ChannelMutexSync
