import Concurrencia.CyclicBarrier.Basic
import Concurrencia.Futex.Drepper.Basic

open Function

namespace Barrier

open CyclicBarrier (Event)

-- The accesses of `barrier_wait` in their order. The arguments are `phase` and the values which have
-- been loaded but not used yet. A thread at `asleep` is in the queue of the futex `phase`. While it
-- is at `lock` or `unlock` the thread takes the steps of the inner lock.
inductive Pc
  | idle
  | lock | loadArrive | storeArrive (toArrive : UInt32) | testArrive
  | loadPhase | unlock (phase : UInt32)
  | wait (phase : UInt32) | asleep (phase : UInt32) | testPhase (phase : UInt32)
  | readPhase | writePhase (phase : UInt32) | resetArrive | wakeAll | unlockLast
  deriving DecidableEq

structure State (n : ℕ) where
  pc : Fin n → Pc
  lock : Drepper.State n
  phase : UInt32
  processes : UInt32
  toArrive : UInt32

-- The kernel chooses the sleeper which is woken by the inner lock, and each `FUTEX_WAIT` may return
-- for no reason.
inductive Label (n : ℕ)
  | thread (i : Fin n)
  | wake (i j : Fin n)
  | spurious (i : Fin n)
  deriving DecidableEq

variable {n : ℕ}

def State.goto (s : State n) (i : Fin n) (p : Pc) : State n :=
  { s with pc := update s.pc i p }

namespace State

variable {s : State n} {i j : Fin n} {p : Pc}

@[simp] theorem goto_pc_self : (s.goto i p).pc i = p := update_self ..
@[simp] theorem goto_pc_of_ne (h : j ≠ i) : (s.goto i p).pc j = s.pc j := update_of_ne h ..
@[simp] theorem goto_lock : (s.goto i p).lock = s.lock := rfl
@[simp] theorem goto_phase : (s.goto i p).phase = s.phase := rfl
@[simp] theorem goto_processes : (s.goto i p).processes = s.processes := rfl
@[simp] theorem goto_toArrive : (s.goto i p).toArrive = s.toArrive := rfl

end State

def lockStep (s : State n) (l : Drepper.Label n) : Option (State n) :=
  (Drepper.step s.lock l).map fun m => { s with lock := m }

def Pc.woken : Pc → Pc
  | asleep p => testPhase p
  | p        => p

def threadStep (s : State n) (i : Fin n) : Option (State n) :=
  match s.pc i with
  -- Call of `barrier_wait`.
  | .idle          => s.goto i .lock
  | .lock          =>
    if s.lock.pc i = .critical then some <| s.goto i .loadArrive else lockStep s (.thread i)
  | .loadArrive    => s.goto i (.storeArrive s.toArrive)
  | .storeArrive v => { s with toArrive := v - 1 }.goto i .testArrive
  | .testArrive    => s.goto i (if s.toArrive > 0 then .loadPhase else .readPhase)
  | .loadPhase     => s.goto i (.unlock s.phase)
  | .unlock p      =>
    if s.lock.pc i = .idle then some <| s.goto i (.wait p) else lockStep s (.thread i)
  | .wait p        => s.goto i (if s.phase = p then .asleep p else .testPhase p)
  | .asleep _      => none
  | .testPhase p   => s.goto i (if s.phase = p then .wait p else .idle)
  | .readPhase     => s.goto i (.writePhase s.phase)
  | .writePhase v  => { s with phase := v + 1 }.goto i .resetArrive
  | .resetArrive   => { s with toArrive := s.processes }.goto i .wakeAll
  -- A `FUTEX_WAKE` of `INT_MAX` wakes all sleepers.
  | .wakeAll       => { s with pc := fun j => (s.pc j).woken }.goto i .unlockLast
  | .unlockLast    => if s.lock.pc i = .idle then some <| s.goto i .idle else lockStep s (.thread i)

def spuriousStep (s : State n) (i : Fin n) : Option (State n) :=
  match s.pc i with
  | .wait p | .asleep p                                    => s.goto i (.testPhase p)
  | .idle | .lock | .unlock _ | .unlockLast | .testPhase _ => lockStep s (.spurious i)
  | .loadArrive | .storeArrive _ | .testArrive             => lockStep s (.spurious i)
  | .loadPhase | .readPhase | .writePhase _                => lockStep s (.spurious i)
  | .resetArrive | .wakeAll                                => lockStep s (.spurious i)

def step (s : State n) : Label n → Option (State n)
  | .thread i   => threadStep s i
  | .wake i j   => lockStep s (.wake i j)
  | .spurious i => spuriousStep s i

def init (n : ℕ) : State n where
  pc _      := .idle
  lock      := Drepper.init n
  phase     := 0
  processes := .ofNat n
  toArrive  := .ofNat n

def machine (n : ℕ) : Machine (State n) (Label n) where
  init s := s = init n
  step   := step

def event (s : State n) : Label n → Option (Event (Fin n))
  | .thread i =>
    match s.pc i with
    | .idle          => some (.call i)
    | .storeArrive _ => some (.arrive i)
    | .writePhase _  => some .turn
    | .testPhase p   => if s.phase = p then none else some (.leave i)
    | .unlockLast    => if s.lock.pc i = .idle then some (.leave i) else none
    | .lock | .loadArrive | .testArrive | .loadPhase | .unlock _ | .wait _ | .asleep _ => none
    | .readPhase | .resetArrive | .wakeAll                                             => none
  | _ => none

end Barrier
