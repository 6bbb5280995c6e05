import Concurrencia.Monitors.ProducerConsumer.Basic
import Concurrencia.Threads.Basic
import Mathlib.Tactic.SplitIfs

open Function Threads

namespace MonitorProducerConsumer

section Step

-- One constructor for each way through a statement, with the event which it causes.
inductive Step {α : Type*} {n : ℕ} (size : ℕ) (s : State α n) :
    Option (BoundedBuffer.Event α) → State α n → Prop
  | callAppend : (s.pc i = .idle) → Step size s none (s.goto i (.appendMutex d))
  | callTake : (s.pc i = .idle) → Step size s none (s.goto i .takeMutex)
  | appendLock : (s.pc i = .appendMutex d ∨ s.pc i = .appendRelock d) → (s.mutex = false) →
    Step size s none ({ s with mutex := true }.goto i (.appendTest d))
  | full : (s.pc i = .appendTest d) → (s.buffer.length = size) →
    Step size s none (s.goto i (.appendWait d))
  | notFull : (s.pc i = .appendTest d) → (s.buffer.length ≠ size) →
    Step size s none (s.goto i (.append d))
  | appendWait : (s.pc i = .appendWait d) → Step size s none (unlock s i (.appendWaiting d))
  | append : (s.pc i = .append d) → Step size s (some (.append d))
    ({ s with buffer := Deque.append size s.buffer d }.goto i .appendNotify)
  | appendExit : (s.pc i = .appendExit) → Step size s none (unlock s i .idle)
  | takeLock : (s.pc i = .takeMutex ∨ s.pc i = .takeRelock) → (s.mutex = false) →
    Step size s none ({ s with mutex := true }.goto i .takeTest)
  | empty : (s.pc i = .takeTest) → (s.buffer = []) → Step size s none (s.goto i .takeWait)
  | notEmpty : (s.pc i = .takeTest) → (s.buffer ≠ []) → Step size s none (s.goto i .popleft)
  | takeWait : (s.pc i = .takeWait) → Step size s none (unlock s i .takeWaiting)
  | raise : (s.pc i = .popleft) → (s.buffer = []) → Step size s none (unlock s i .raised)
  | popleft : (s.pc i = .popleft) → (s.buffer = d :: b) →
    Step size s (some (.take d)) ({ s with buffer := b }.goto i (.takeNotify d))
  | takeExit : (s.pc i = .takeExit d) → Step size s none (unlock s i .idle)
  | noConsumer : (s.pc i = .appendNotify) → (∀ j, s.pc j ≠ .takeWaiting) →
    Step size s none (s.goto i .appendExit)
  | noProducer : (s.pc i = .takeNotify d) → (∀ j x, s.pc j ≠ .appendWaiting x) →
    Step size s none (s.goto i (.takeExit d))
  | notifyConsumer : (s.pc i = .appendNotify) → (s.pc j = .takeWaiting) →
    Step size s none ((s.goto i .appendExit).goto j .takeRelock)
  | notifyProducer : (s.pc i = .takeNotify d) → (s.pc j = .appendWaiting x) →
    Step size s none ((s.goto i (.takeExit d)).goto j (.appendRelock x))

variable {α : Type*} {n size : ℕ} {s s' : State α n} {i j : Fin n} {l : Label α n} {p : Pc α}

theorem lock_eq_some : lock s i p = some s' ↔
    s.mutex = false ∧ { s with mutex := true }.goto i p = s' := by
  simp [lock]

theorem notEmpty_eq_some {q : Pc α} : notEmpty p = some q ↔ p = .takeWaiting ∧ q = .takeRelock := by
  cases p <;> simp [notEmpty, eq_comm]

theorem notFull_eq_some {q : Pc α} :
    notFull p = some q ↔ ∃ x, p = .appendWaiting x ∧ q = .appendRelock x := by
  cases p <;> simp [notFull, eq_comm]

namespace Step

theorem of_notifyNobody (h : notifyNobody s i = some s') : Step size s none s' := by
  obtain ⟨c, hc, h⟩ := Option.bind_eq_some_iff.mp h
  simp only [Option.ite_none_right_eq_some, Option.isNone_iff_eq_none, Option.some.injEq] at h
  obtain ⟨hn, rfl⟩ := h
  cases hp : s.pc i <;> rw [hp] at hc <;> cases hc
  case appendNotify =>
    refine .noConsumer hp fun j hj => ?_
    simpa [hj, MonitorProducerConsumer.notEmpty] using hn j
  case takeNotify =>
    refine .noProducer hp fun j x hj => ?_
    simpa [hj, MonitorProducerConsumer.notFull] using hn j

theorem of_notify (h : notifyStep s i j = some s') : Step size s none s' := by
  obtain ⟨c, hc, h⟩ := Option.bind_eq_some_iff.mp h
  obtain ⟨q, hq, rfl⟩ := Option.map_eq_some_iff.mp h
  cases hp : s.pc i <;> rw [hp] at hc <;> cases hc
  case appendNotify =>
    obtain ⟨hj, rfl⟩ := notEmpty_eq_some.mp hq
    exact .notifyConsumer hp hj
  case takeNotify =>
    obtain ⟨x, hj, rfl⟩ := notFull_eq_some.mp hq
    exact .notifyProducer hp hj

theorem of_thread (h : threadStep size s i = some s') :
    Step size s (bufferEvent s (.thread i)) s' := by
  cases hp : s.pc i <;> simp only [threadStep, hp, lock_eq_some] at h <;> simp only [bufferEvent, hp]
  case appendNotify | takeNotify => exact .of_notifyNobody h
  case appendMutex  => exact h.right ▸ .appendLock (.inl hp) h.left
  case appendRelock => exact h.right ▸ .appendLock (.inr hp) h.left
  case takeMutex    => exact h.right ▸ .takeLock (.inl hp) h.left
  case takeRelock   => exact h.right ▸ .takeLock (.inr hp) h.left
  case popleft =>
    cases hb : s.buffer <;> simp only [hb, Deque.popleft] at h <;> cases h
    case nil  => exact .raise hp hb
    case cons => exact .popleft hp hb
  all_goals cases h
  case appendTest =>
    split_ifs with hl
    · exact .full hp hl
    · exact .notFull hp hl
  case takeTest =>
    split_ifs with hb
    · exact .empty hp hb
    · exact .notEmpty hp hb
  case appendWait => exact .appendWait hp
  case append     => exact .append hp
  case appendExit => exact .appendExit hp
  case takeWait   => exact .takeWait hp
  case takeExit   => exact .takeExit hp

theorem of_step (h : step size s l = some s') : Step size s (bufferEvent s l) s' := by
  cases l
  case append i d =>
    cases hp : s.pc i <;> simp only [step, hp] at h <;> cases h
    exact .callAppend hp
  case take i =>
    cases hp : s.pc i <;> simp only [step, hp] at h <;> cases h
    exact .callTake hp
  case thread => exact .of_thread h
  case notify => exact .of_notify h

end Step

end Step

namespace Pc

variable {α : Type*}

def HasMutex : Pc α → Prop
  | appendTest _ | appendWait _ | append _ | appendNotify | appendExit => True
  | takeTest | takeWait | popleft | takeNotify _ | takeExit _         => True
  | _                                                                 => False

-- What the thread has found out about the buffer, which stays as it is while the thread has the
-- mutex.
def Tested (size : ℕ) (buffer : List α) : Pc α → Prop
  | appendWait _ => buffer.length = size
  | append _     => buffer.length < size
  | takeWait     => buffer = []
  | popleft      => buffer ≠ []
  | raised       => False
  | _            => True

end Pc

variable {α : Type*} {n size : ℕ} {s s' : State α n} {i j : Fin n} {p : Pc α} {b : List α}
variable {q : Pc α} {d : α} {e : Option (BoundedBuffer.Event α)}

structure Inv (size : ℕ) (s : State α n) : Prop where
  mutex     : Owned s.pc Pc.HasMutex (s.mutex = true)
  tested    : ∀ i, (s.pc i).Tested size s.buffer
  length_le : s.buffer.length ≤ size

namespace Inv

theorem init : Inv size (init α n) where
  mutex     := ⟨⟨False.elim, False.elim⟩, by simp [MonitorProducerConsumer.init]⟩
  tested _  := trivial
  length_le := Nat.zero_le _

variable (inv : Inv size s)
include inv

theorem tested_of (hi : s.pc i = p) : p.Tested size s.buffer :=
  hi ▸ inv.tested i

theorem goto (hp : p.HasMutex ↔ (s.pc i).HasMutex) (ht : p.Tested size s.buffer) :
    Inv size (s.goto i p) where
  mutex     := inv.mutex.keep hp
  tested    := forall_update ht fun j _ => inv.tested j
  length_le := inv.length_le

theorem lock (hm : s.mutex = false) (hp : p.HasMutex) (ht : p.Tested size s.buffer) :
    Inv size ({ s with mutex := true }.goto i p) where
  mutex     := inv.mutex.take (by simp [hm]) hp rfl
  tested    := forall_update ht fun j _ => inv.tested j
  length_le := inv.length_le

theorem unlock (hi : (s.pc i).HasMutex) (hp : ¬p.HasMutex) (ht : p.Tested size s.buffer) :
    Inv size (unlock s i p) where
  mutex     := inv.mutex.free hi hp (by simp [MonitorProducerConsumer.unlock])
  tested    := forall_update ht fun j _ => inv.tested j
  length_le := inv.length_le

-- The other threads do not have the mutex, and so they have not tested the buffer.
theorem write (hi : (s.pc i).HasMutex) (hp : p.HasMutex) (ht : p.Tested size b)
    (hb : b.length ≤ size) : Inv size ({ s with buffer := b }.goto i p) where
  mutex     := inv.mutex.keep (by simp [hi, hp])
  length_le := hb
  tested    := forall_update ht fun j hj => by
    have hn := inv.mutex.not_of_ne hi hj
    have ht := inv.tested j
    cases hq : s.pc j <;> rw [hq] at hn ht <;> first
      | exact trivial
      | exact absurd trivial hn
      | exact absurd ht id

-- A thread which is woken does not have the mutex yet.
theorem notify (hi : (s.pc i).HasMutex) (hp : p.HasMutex) (ht : p.Tested size s.buffer)
    (hj : ¬(s.pc j).HasMutex) (hq : ¬q.HasMutex) (hr : q.Tested size s.buffer) :
    Inv size ((s.goto i p).goto j q) := by
  have hn : j ≠ i := fun hn => hj (hn ▸ hi)
  have h₁ := inv.goto (i := i) (by simp [hi, hp]) ht
  exact h₁.goto (by simp [hn, hj, hq]) hr

-- The buffer of the program is a bounded buffer: what happens to it is an event of the latter.
theorem step [DecidableEq α] (h : Step size s e s') :
    (BoundedBuffer.machine α size).Trace Machine.label s.buffer e.toList s'.buffer ∧
    Inv size s' := by
  cases h
  case callAppend hp | callTake hp => exact ⟨.refl, inv.goto (by simp [hp, Pc.HasMutex]) trivial⟩
  case appendLock hm | takeLock hm => exact ⟨.refl, inv.lock hm trivial trivial⟩
  case full hp hl | empty hp hl    => exact ⟨.refl, inv.goto (by simp [hp, Pc.HasMutex]) hl⟩
  case notEmpty hp hb              => exact ⟨.refl, inv.goto (by simp [hp, Pc.HasMutex]) hb⟩
  case notFull hp hl =>
    exact ⟨.refl, inv.goto (by simp [hp, Pc.HasMutex]) (inv.length_le.lt_of_ne hl)⟩
  case appendWait hp | appendExit hp | takeWait hp | takeExit hp =>
    exact ⟨.refl, inv.unlock (by rw [hp]; trivial) id trivial⟩
  case raise hp hb => exact absurd hb (inv.tested_of hp)
  case append i d hp =>
    have hl : s.buffer.length < size := inv.tested_of hp
    rw [Deque.append_of_lt hl]
    refine ⟨BoundedBuffer.trace_append hl, inv.write (by rw [hp]; trivial) trivial trivial ?_⟩
    rwa [List.length_append, List.length_singleton]
  case popleft i d b hp hb =>
    have hl := inv.length_le
    rw [hb, List.length_cons] at hl
    rw [hb]
    exact ⟨BoundedBuffer.trace_take, inv.write (by rw [hp]; trivial) trivial trivial (by omega)⟩
  case noConsumer hp _ | noProducer hp _ =>
    exact ⟨.refl, inv.goto (by simp [hp, Pc.HasMutex]) trivial⟩
  case notifyConsumer hp hj | notifyProducer hp hj =>
    exact ⟨.refl, inv.notify (by rw [hp]; trivial) trivial trivial (by rw [hj]; exact id) id trivial⟩

end Inv

theorem refines [DecidableEq α] : (machine α n size).Simulation bufferEvent
    (BoundedBuffer.machine α size) Machine.label fun s b => Inv size s ∧ s.buffer = b where
  init h := by
    obtain rfl := h
    exact ⟨_, rfl, .init, rfl⟩
  step h hs := by
    obtain ⟨inv, rfl⟩ := h
    have ⟨t, inv⟩ := inv.step (.of_step hs)
    exact ⟨_, t, inv, rfl⟩

end MonitorProducerConsumer
