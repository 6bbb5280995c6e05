import Concurrencia.Semaphores.ProducerConsumer.Basic
import Concurrencia.Threads.Count
import Mathlib.Tactic.SplitIfs

open Function Threads

namespace SemaphoreProducerConsumer

section Step

-- One constructor for each way through a statement, with the event which it causes.
inductive Step {α : Type*} {n : ℕ} (size : ℕ) (s : State α n) :
    Option (BoundedBuffer.Event α) → State α n → Prop
  | callAppend : (s.pc i = .idle) → Step size s none (s.goto i (.acquireNotFull d))
  | callTake : (s.pc i = .idle) → Step size s none (s.goto i .acquireNotEmpty)
  | acquireNotFull : (s.pc i = .acquireNotFull d) → (s.notFull = k + 1) →
    Step size s none ({ s with notFull := k }.goto i (.appendMutex d))
  | appendLock : (s.pc i = .appendMutex d) → (s.mutex = false) →
    Step size s none ({ s with mutex := true }.goto i (.append d))
  | append : (s.pc i = .append d) → Step size s (some (.append d))
    ({ s with buffer := Deque.append size s.buffer d }.goto i .appendUnlock)
  | appendUnlock : (s.pc i = .appendUnlock) → Step size s none (unlock s i .releaseNotEmpty)
  | releaseNotEmpty : (s.pc i = .releaseNotEmpty) →
    Step size s none ({ s with notEmpty := s.notEmpty + 1 }.goto i .idle)
  | acquireNotEmpty : (s.pc i = .acquireNotEmpty) → (s.notEmpty = k + 1) →
    Step size s none ({ s with notEmpty := k }.goto i .takeMutex)
  | takeLock : (s.pc i = .takeMutex) → (s.mutex = false) →
    Step size s none ({ s with mutex := true }.goto i .popleft)
  | raise : (s.pc i = .popleft) → (s.buffer = []) → Step size s none (unlock s i .raised)
  | popleft : (s.pc i = .popleft) → (s.buffer = d :: b) →
    Step size s (some (.take d)) ({ s with buffer := b }.goto i (.takeUnlock d))
  | takeUnlock : (s.pc i = .takeUnlock d) → Step size s none (unlock s i (.releaseNotFull d))
  | releaseNotFull : (s.pc i = .releaseNotFull d) →
    Step size s none ({ s with notFull := s.notFull + 1 }.goto i .idle)

variable {α : Type*} {n size : ℕ} {s s' : State α n} {i : Fin n} {l : Label α n} {p : Pc α}

theorem lock_eq_some : lock s i p = some s' ↔
    s.mutex = false ∧ { s with mutex := true }.goto i p = s' := by
  simp [lock]

namespace Step

theorem of_thread (h : threadStep size s i = some s') :
    Step size s (bufferEvent s (.thread i)) s' := by
  cases hp : s.pc i <;> simp only [threadStep, hp, lock_eq_some] at h <;> simp only [bufferEvent, hp]
  case appendMutex => exact h.right ▸ .appendLock hp h.left
  case takeMutex   => exact h.right ▸ .takeLock hp h.left
  case acquireNotFull =>
    split_ifs at h with hk
    cases h
    exact .acquireNotFull hp (Nat.sub_add_cancel (Nat.pos_of_ne_zero hk)).symm
  case acquireNotEmpty =>
    split_ifs at h with hk
    cases h
    exact .acquireNotEmpty hp (Nat.sub_add_cancel (Nat.pos_of_ne_zero hk)).symm
  case popleft =>
    cases hb : s.buffer <;> simp only [hb, Deque.popleft] at h <;> cases h
    case nil  => exact .raise hp hb
    case cons => exact .popleft hp hb
  all_goals cases h
  case append          => exact .append hp
  case appendUnlock    => exact .appendUnlock hp
  case releaseNotEmpty => exact .releaseNotEmpty hp
  case takeUnlock      => exact .takeUnlock hp
  case releaseNotFull  => exact .releaseNotFull hp

theorem of_step (h : step size s l = some s') : Step size s (bufferEvent s l) s' := by
  cases l
  case append i d =>
    cases hp : s.pc i <;> simp only [step, hp] at h <;> cases h
    exact .callAppend hp
  case take i =>
    cases hp : s.pc i <;> simp only [step, hp] at h <;> cases h
    exact .callTake hp
  case thread => exact .of_thread h

end Step

end Step

namespace Pc

variable {α : Type*}

-- The operation has taken the permit of a place, or it leaves one.
def place : Pc α → Bool
  | appendMutex _ | append _ | takeUnlock _ | releaseNotFull _ => true
  | _                                                          => false

-- The operation has taken the permit of a value, or it leaves one.
def value : Pc α → Bool
  | appendUnlock | releaseNotEmpty | takeMutex | popleft => true
  | _                                                    => false

-- The operation has acquired its semaphore and has not released the other one.
def inProgress : Pc α → Bool
  | appendMutex _ | append _ | appendUnlock | releaseNotEmpty     => true
  | takeMutex | popleft | takeUnlock _ | releaseNotFull _         => true
  | _                                                             => false

end Pc

variable {α : Type*} {n size : ℕ} {s s' : State α n} {i : Fin n} {p q : Pc α}
variable {e : Option (BoundedBuffer.Event α)} {x y z : ℕ} {b : List α} {m : Bool}

-- Each value in the buffer has its permit, and so has each free place.
structure Inv (size : ℕ) (s : State α n) : Prop where
  values : s.buffer.length = s.notEmpty + count s.pc (·.value = true)
  places : s.buffer.length + s.notFull + count s.pc (·.place = true) = size

namespace Inv

theorem init : Inv size (init α n size) where
  values := by
    have h : count (SemaphoreProducerConsumer.init α n size).pc (·.value = true) = 0 :=
      count_eq_zero fun _ => Bool.false_ne_true
    rw [h]
    rfl
  places := by
    have h : count (SemaphoreProducerConsumer.init α n size).pc (·.place = true) = 0 :=
      count_eq_zero fun _ => Bool.false_ne_true
    rw [h]
    simp [SemaphoreProducerConsumer.init]

variable (inv : Inv size s)
include inv

theorem move (hv : b.length + s.notEmpty + (s.pc i).value.toNat =
      s.buffer.length + x + p.value.toNat)
    (hp : b.length + y + p.place.toNat = s.buffer.length + s.notFull + (s.pc i).place.toNat) :
    Inv size ({ s with mutex := m, notFull := y, notEmpty := x, buffer := b }.goto i p) where
  values := by
    have h := count_update_toNat (f := s.pc) (i := i) (p := p) (g := Pc.value)
    have := inv.values
    dsimp
    omega
  places := by
    have h := count_update_toNat (f := s.pc) (i := i) (p := p) (g := Pc.place)
    have := inv.places
    dsimp
    omega

theorem length_pos (hi : (s.pc i).value = true) : 0 < s.buffer.length := by
  have := count_pos (P := (Pc.value · = true)) hi
  have := inv.values
  omega

theorem length_lt (hi : (s.pc i).place = true) : s.buffer.length < size := by
  have := count_pos (P := (Pc.place · = true)) hi
  have := inv.places
  omega

-- The buffer of the program is a bounded buffer: what happens to it is an event of the latter.
theorem step [DecidableEq α] (h : Step size s e s') :
    (BoundedBuffer.machine α size).Trace Machine.label s.buffer e.toList s'.buffer ∧
    Inv size s' := by
  cases h
  case append i d hp =>
    have hl := inv.length_lt (i := i) (by rw [hp]; rfl)
    rw [Deque.append_of_lt hl]
    refine ⟨BoundedBuffer.trace_append hl, inv.move ?_ ?_⟩
    all_goals
      simp [hp, Pc.value, Pc.place]
      omega
  case popleft i d b hp hb =>
    rw [hb]
    refine ⟨BoundedBuffer.trace_take, inv.move ?_ ?_⟩
    all_goals
      simp [hp, hb, Pc.value, Pc.place]
      omega
  case raise i hp hb =>
    have := inv.length_pos (i := i) (by rw [hp]; rfl)
    simp [hb] at this
  case callAppend hp | callTake hp | appendLock hp _ | takeLock hp _ | appendUnlock hp |
      takeUnlock hp | releaseNotEmpty hp | releaseNotFull hp =>
    refine ⟨.refl, inv.move ?_ ?_⟩
    all_goals simp [hp, Pc.value, Pc.place] <;> omega
  case acquireNotFull hp hk | acquireNotEmpty hp hk =>
    refine ⟨.refl, inv.move ?_ ?_⟩
    all_goals simp [hp, hk, Pc.value, Pc.place] <;> omega

omit inv in
theorem inProgress_eq :
    count s.pc (·.inProgress = true) = count s.pc (·.value = true) + count s.pc (·.place = true) :=
  count_add fun p => by cases p <;> rfl

-- The semaphores and the operations share the permits.
theorem permits : s.notFull + s.notEmpty + count s.pc (·.inProgress = true) = size := by
  have := inv.values
  have := inv.places
  rw [inProgress_eq]
  omega

end Inv

theorem refines [DecidableEq α] : (machine α n size).Simulation bufferEvent
    (BoundedBuffer.machine α size) Machine.label fun s b => Inv size s ∧ s.buffer = b where
  init h := by
    obtain rfl := h
    exact ⟨_, rfl, .init, rfl⟩
  step h hs := by
    obtain ⟨inv, rfl⟩ := h
    have ⟨t, inv⟩ := inv.step (.of_step hs)
    exact ⟨_, t, inv, rfl⟩

end SemaphoreProducerConsumer
