import Concurrencia.Monitors.RwLock.Theorems.Exclusion
import Concurrencia.Threads.Basic

open Function Threads

namespace MonitorRwLock

namespace Pc

-- These threads will notify a reader, unless a writer comes first.
def AwakesReader (p : Pc) : Prop :=
  p = readerRelock ∨ p = readerTest ∨ p = add ∨ p = notifyReader ∨ p = clearNotifyReader

-- These threads will notify a writer, or become readers or a writer themselves.
def AwakesWriter : Pc → Prop
  | readerRelock | readerTest | add           => True
  | subTest | notifyWriter                    => True
  | writerRelock | writerTest | set           => True
  | clearNotifyReader | clearNotifyWriter     => True
  | _                                         => False

-- Makes the equations before the proofs below, many of which need them at the same time.
attribute [local grind =] AwakesWriter

def Waits (p : Pc) : Prop :=
  p = readerWaiting ∨ p = writerWaiting

end Pc

variable {n : ℕ} {s s' : State n} {i j : Fin n} {p : Pc} {c : Notify}

structure Attended (s : State n) : Prop where
  readers : Responsible s.pc (· = .readerWaiting) Pc.AwakesReader (s.writing = false)
  writers : Responsible s.pc (· = .writerWaiting) Pc.AwakesWriter
    (s.writing = false ∧ s.readers = 0)

namespace Attended

theorem init : Attended (init n) where
  readers := .of_none fun _ => by simp [MonitorRwLock.init]
  writers := .of_none fun _ => by simp [MonitorRwLock.init]

-- Nobody needs to be notified while a writer is inside.
theorem of_writing (h : s.writing = true) : Attended s where
  readers := .of_false (by simp [h])
  writers := .of_false (by simp [h])

variable (att : Attended s)
include att

theorem goto
    (hr : p.AwakesReader ∨ p ≠ .readerWaiting ∧ ¬(s.pc i).AwakesReader)
    (hw : p.AwakesWriter ∨ p ≠ .writerWaiting ∧ ¬(s.pc i).AwakesWriter) :
    Attended (s.goto i p) where
  readers := by
    cases hr
    case inl h => exact .of_mem h
    case inr h => exact att.readers.keep id (absurd · h.left) (absurd · h.right)
  writers := by
    cases hw
    case inl h => exact .of_mem h
    case inr h => exact att.writers.keep id (absurd · h.left) (absurd · h.right)

-- A writer does not need to be notified while a reader is inside.
theorem goto_of_readers
    (h : ¬(s.writing = false ∧ s.readers = 0)) (hr : p ≠ .readerWaiting ∧ ¬(s.pc i).AwakesReader) :
    Attended (s.goto i p) where
  readers := att.readers.keep id (absurd · hr.left) (absurd · hr.right)
  writers := .of_false h

theorem setMutex (m : Bool) : Attended { s with mutex := m } where
  readers := att.readers
  writers := att.writers

theorem notifyNone (hc : (s.pc i).notify = some c) (hn : ∀ j, s.pc j ≠ c.waiting) :
    Attended (s.goto i c.next) := by
  have hf {p : Pc} (h : ∀ j, s.pc j ≠ p) (hp : c.next ≠ p) (j : Fin n) :
      (s.goto i c.next).pc j ≠ p :=
    forall_update (P := (· ≠ p)) hp (fun j _ => h j) j
  obtain ⟨hp, rfl⟩ | ⟨hp, rfl⟩ | ⟨hp, rfl⟩ | ⟨hp, rfl⟩ := notify_cases hc
  case inl =>
    exact {
      readers := .of_none (hf hn (by simp [canRead]))
      writers := att.writers.keep id (by simp [canRead]) (by simp [hp, Pc.AwakesWriter])
    }
  case inr.inl =>
    exact {
      readers := att.readers.keep id (by simp [canWrite]) (by simp [hp, Pc.AwakesReader])
      writers := .of_none (hf hn (by simp [canWrite]))
    }
  case inr.inr.inl =>
    exact {
      readers := .of_none (hf hn (by simp [canRead]))
      writers := .of_mem trivial
    }
  case inr.inr.inr =>
    exact {
      readers := att.readers.keep id (by simp [canWrite]) (by simp [hp, Pc.AwakesReader])
      writers := .of_none (hf hn (by simp [canWrite]))
    }

theorem notify (hc : (s.pc i).notify = some c) (hj : s.pc j = c.waiting) :
    Attended ((s.goto i c.next).goto j c.relock) := by
  have hn := ne_of_waiting hc hj
  obtain ⟨hp, rfl⟩ | ⟨hp, rfl⟩ | ⟨hp, rfl⟩ | ⟨hp, rfl⟩ := notify_cases hc
  case inl | inr.inr.inl =>
    exact {
      readers := .of_mem (.inl rfl)
      writers := .of_mem trivial
    }
  case inr.inl | inr.inr.inr =>
    exact {
      readers := (att.readers.keep id (by simp [canWrite]) (by simp [hp, Pc.AwakesReader])).keep id
        (by simp [canWrite]) (by simp [hn, hj, canWrite, Pc.AwakesReader])
      writers := .of_mem trivial
    }

theorem step (inv : Inv s) (h : Step s s') : Attended s' := by
  cases h
  case callReader hp | callWriter hp | readerFree hp _ | readerLeave hp | last hp _ |
      writerFree hp _ _ | writerLeave hp =>
    apply att.goto
    all_goals simp [hp, Pc.AwakesReader, Pc.AwakesWriter]
  case subTake hp _ | clearTake hp _ | readerExit hp | subExit hp | writerExit hp | clearExit hp =>
    apply (att.setMutex _).goto
    all_goals simp [hp, Pc.AwakesReader, Pc.AwakesWriter]
  case readerTake hp _ | writerTake hp _ =>
    cases hp
    all_goals
      apply (att.setMutex _).goto
      all_goals simp [*, Pc.AwakesReader, Pc.AwakesWriter]
  case readerTaken hw => exact .of_writing hw
  case readerWait hp  => exact .of_writing (inv.tested_of hp)
  case set            => exact .of_writing rfl
  case notLast hp hr =>
    exact att.goto_of_readers (by simp [hr]) (by simp [hp, Pc.AwakesReader])
  case writerTaken hp hw =>
    exact att.goto_of_readers (by grind) (by simp [hp, Pc.AwakesReader])
  case writerWait hp =>
    have hw : s.writing = true ∨ s.readers ≠ 0 := inv.tested_of hp
    exact (att.setMutex _).goto_of_readers (by grind) (by simp [hp, Pc.AwakesReader])
  case add i hp =>
    have hr := inv.readers
    exact {
      readers := .of_mem (by simp [Pc.AwakesReader])
      writers := .of_false (by simp only [State.goto_readers]; omega)
    }
  case sub i hp =>
    exact {
      readers := att.readers.keep id (by simp) (by simp [hp, Pc.AwakesReader])
      writers := .of_mem trivial
    }
  case clear =>
    exact {
      readers := .of_mem (by simp [Pc.AwakesReader])
      writers := .of_mem trivial
    }
  case notifyNone hc hn => exact att.notifyNone hc hn
  case notify hc hj     => exact att.notify hc hj

end Attended

theorem attended_of_reachable (r : (machine n).Reachable s) : Attended s := by
  apply r.invariant
  case init =>
    intro _ h
    exact h ▸ .init
  case step =>
    intro _ _ _ r att h
    exact att.step (inv_of_reachable r) (.of_step h)

-- While the mutex is free, those who are responsible have been notified and take it again.
theorem notified_reader (inv : Inv s) (hm : s.mutex = false) (h : (s.pc j).AwakesReader) :
    s.pc j = .readerRelock := by
  have hn : ¬(s.pc j).HasMutex := inv.not_hasMutex hm j
  cases hp : s.pc j <;> simp_all [Pc.AwakesReader, Pc.HasMutex]

theorem notified_writer (inv : Inv s) (hm : s.mutex = false) (h : (s.pc j).AwakesWriter) :
    s.pc j = .writerRelock ∨ s.pc j = .readerRelock := by
  have hn : ¬(s.pc j).HasMutex := inv.not_hasMutex hm j
  cases hp : s.pc j <;> simp_all [Pc.AwakesWriter, Pc.HasMutex]

theorem Inv.writing_iff (inv : Inv s) : s.writing = true ↔ ∃ i, (s.pc i).Writes := by
  have hw := inv.writers
  constructor
  case mp =>
    intro h
    exact exists_of_count_pos (by simp [hw, h])
  case mpr =>
    rintro ⟨i, hi⟩
    have := count_pos (f := s.pc) (P := Pc.Writes) hi
    cases hb : s.writing
    case true  => rfl
    case false => simp [hw, hb] at this

theorem Inv.exists_reader (inv : Inv s) (h : s.readers ≠ 0) : ∃ i, (s.pc i).Reads := by
  have hr := inv.readers
  exact exists_of_count_pos (by omega)

-- Somebody is awake in one of the methods, or inside of the lock.
theorem awake (inv : Inv s) (att : Attended s) (h : (s.pc i).Waits) :
    ∃ j, (s.pc j).AwakesReader ∨ (s.pc j).AwakesWriter ∨ (s.pc j).Reads ∨ (s.pc j).Writes := by
  cases hw : s.writing
  case true =>
    have ⟨j, hj⟩ := inv.writing_iff.mp hw
    exact ⟨j, .inr <| .inr <| .inr hj⟩
  case false =>
    cases h
    case inl h =>
      have ⟨j, hj⟩ := att.readers hw i h
      exact ⟨j, .inl hj⟩
    case inr h =>
      by_cases hr : s.readers = 0
      case pos =>
        have ⟨j, hj⟩ := att.writers ⟨hw, hr⟩ i h
        exact ⟨j, .inr <| .inl hj⟩
      case neg =>
        have ⟨j, hj⟩ := inv.exists_reader hr
        exact ⟨j, .inr <| .inr <| .inl hj⟩

theorem no_wakeup_lost (r : (machine n).Reachable s) :
    (s.mutex = false →
      (s.writing = true → s.readers = 0) ∧ s.readers = count s.pc Pc.Reads ∧
      (s.writing = true ↔ ∃ i, (s.pc i).Writes) ∧ count s.pc Pc.Writes ≤ 1 ∧
      (∀ i, s.pc i = .readerWaiting → s.writing = false → ∃ j, s.pc j = .readerRelock) ∧
      ∀ i, s.pc i = .writerWaiting → s.writing = false → s.readers = 0 →
        ∃ j, s.pc j = .writerRelock ∨ s.pc j = .readerRelock) ∧
    ∀ i, (s.pc i).Waits → ∃ j, s.pc j ≠ .idle ∧ ¬(s.pc j).Waits := by
  have inv := inv_of_reachable r
  have att := attended_of_reachable r
  refine ⟨fun hm => ⟨inv.apart, inv.readers, inv.writing_iff, ?_, ?_, ?_⟩, ?_⟩
  · exact inv.writers ▸ s.writing.toNat_le
  · intro i hi hw
    have ⟨j, hj⟩ := att.readers hw i hi
    exact ⟨j, notified_reader inv hm hj⟩
  · intro i hi hw hr
    have ⟨j, hj⟩ := att.writers ⟨hw, hr⟩ i hi
    exact ⟨j, notified_writer inv hm hj⟩
  · intro i hi
    have ⟨j, hj⟩ := awake inv att hi
    refine ⟨j, ?_⟩
    cases hp : s.pc j <;>
      simp_all [Pc.AwakesReader, Pc.AwakesWriter, Pc.Reads, Pc.Writes, Pc.Waits]

-- Thread 0 has been writing and has notified thread 1, while thread 2 still waits.
theorem no_wakeup_lost_three :
    ∃ s : State 3, s.mutex = false ∧ s.writing = false ∧ s.pc 2 = .readerWaiting ∧
      (∃ j, s.pc j = .readerRelock) ∧ ∃ j, s.pc j ≠ .idle ∧ ¬(s.pc j).Waits :=
  have ⟨s, h, hm, hw, h₂⟩ : ∃ s, (machine 3).exec (init 3) (Machine.schedule
      [(1, .writerLock 0), (4, .thread 0), (1, .readerLock 1), (3, .thread 1), (1, .readerLock 2),
        (3, .thread 2), (3, .thread 0), (1, .notify 0 1), (2, .thread 0)]) = some s ∧
      s.mutex = false ∧ s.writing = false ∧ s.pc 2 = .readerWaiting :=
    ⟨_, rfl, rfl, rfl, rfl⟩
  have ⟨hf, ha⟩ := no_wakeup_lost (.of_exec rfl h)
  ⟨s, hm, hw, h₂, (hf hm).right.right.right.right.left 2 h₂ hw, ha 2 (.inl h₂)⟩

end MonitorRwLock
