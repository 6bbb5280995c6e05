import Concurrencia.Monitors.RwLock.Basic
import Concurrencia.Threads.Basic
import Concurrencia.Threads.Count
import Mathlib.Tactic.SplitIfs

open Function Threads

namespace MonitorRwLock

section Step

-- One constructor for each way through a statement.
inductive Step {n : ℕ} (s : State n) : State n → Prop
  | callReader : (s.pc i = .idle) → Step s (s.goto i .readerMutex)
  | callWriter : (s.pc i = .idle) → Step s (s.goto i .writerMutex)
  | readerTake : (s.pc i = .readerMutex ∨ s.pc i = .readerRelock) → (s.mutex = false) →
    Step s ({ s with mutex := true }.goto i .readerTest)
  | readerTaken : (s.pc i = .readerTest) → (s.writing = true) → Step s (s.goto i .readerWait)
  | readerFree : (s.pc i = .readerTest) → (s.writing = false) → Step s (s.goto i .add)
  | readerWait : (s.pc i = .readerWait) → Step s (freeMutex s i .readerWaiting)
  | add : (s.pc i = .add) → Step s ({ s with readers := s.readers + 1 }.goto i .notifyReader)
  | readerExit : (s.pc i = .readerExit) → Step s (freeMutex s i .reading)
  | readerLeave : (s.pc i = .reading) → Step s (s.goto i .subMutex)
  | subTake : (s.pc i = .subMutex) → (s.mutex = false) →
    Step s ({ s with mutex := true }.goto i .sub)
  | sub : (s.pc i = .sub) → Step s ({ s with readers := s.readers - 1 }.goto i .subTest)
  | last : (s.pc i = .subTest) → (s.readers = 0) → Step s (s.goto i .notifyWriter)
  | notLast : (s.pc i = .subTest) → (s.readers ≠ 0) → Step s (s.goto i .subExit)
  | subExit : (s.pc i = .subExit) → Step s (freeMutex s i .idle)
  | writerTake : (s.pc i = .writerMutex ∨ s.pc i = .writerRelock) → (s.mutex = false) →
    Step s ({ s with mutex := true }.goto i .writerTest)
  | writerTaken : (s.pc i = .writerTest) → (s.writing = true ∨ s.readers ≠ 0) →
    Step s (s.goto i .writerWait)
  | writerFree : (s.pc i = .writerTest) → (s.writing = false) → (s.readers = 0) →
    Step s (s.goto i .set)
  | writerWait : (s.pc i = .writerWait) → Step s (freeMutex s i .writerWaiting)
  | set : (s.pc i = .set) → Step s ({ s with writing := true }.goto i .writerExit)
  | writerExit : (s.pc i = .writerExit) → Step s (freeMutex s i .writing)
  | writerLeave : (s.pc i = .writing) → Step s (s.goto i .clearMutex)
  | clearTake : (s.pc i = .clearMutex) → (s.mutex = false) →
    Step s ({ s with mutex := true }.goto i .clear)
  | clear : (s.pc i = .clear) → Step s ({ s with writing := false }.goto i .clearNotifyReader)
  | clearExit : (s.pc i = .clearExit) → Step s (freeMutex s i .idle)
  | notifyNone : ((s.pc i).notify = some c) → (∀ j, s.pc j ≠ c.waiting) →
    Step s (s.goto i c.next)
  | notify : ((s.pc i).notify = some c) → (s.pc j = c.waiting) →
    Step s ((s.goto i c.next).goto j c.relock)

variable {n : ℕ} {s s' : State n} {i j : Fin n} {l : Label n}

theorem Step.of_notifyNobody (h : notifyNobody s i = some s') : Step s s' := by
  obtain ⟨c, hc, h⟩ := Option.bind_eq_some_iff.mp h
  split_ifs at h with hj
  cases h
  exact .notifyNone hc (not_exists.mp hj)

theorem Step.of_notify (h : notifyStep s i j = some s') : Step s s' := by
  obtain ⟨c, hc, h⟩ := Option.bind_eq_some_iff.mp h
  split_ifs at h with hj
  cases h
  exact .notify hc hj

theorem Step.of_thread (h : threadStep s i = some s') : Step s s' := by
  cases hp : s.pc i <;> simp only [threadStep, takeMutex, hp] at h
  case notifyReader | notifyWriter | clearNotifyReader | clearNotifyWriter =>
    exact .of_notifyNobody h
  case readerMutex =>
    split_ifs at h with hm
    cases h
    exact .readerTake (.inl hp) (Bool.not_eq_true _ ▸ hm)
  case readerRelock =>
    split_ifs at h with hm
    cases h
    exact .readerTake (.inr hp) (Bool.not_eq_true _ ▸ hm)
  case subMutex =>
    split_ifs at h with hm
    cases h
    exact .subTake hp (Bool.not_eq_true _ ▸ hm)
  case writerMutex =>
    split_ifs at h with hm
    cases h
    exact .writerTake (.inl hp) (Bool.not_eq_true _ ▸ hm)
  case writerRelock =>
    split_ifs at h with hm
    cases h
    exact .writerTake (.inr hp) (Bool.not_eq_true _ ▸ hm)
  case clearMutex =>
    split_ifs at h with hm
    cases h
    exact .clearTake hp (Bool.not_eq_true _ ▸ hm)
  case readerTest =>
    split_ifs at h with hw
    all_goals cases h
    · exact .readerTaken hp hw
    · exact .readerFree hp (Bool.not_eq_true _ ▸ hw)
  case subTest =>
    split_ifs at h with hr
    all_goals cases h
    · exact .last hp hr
    · exact .notLast hp hr
  case writerTest =>
    split_ifs at h with hw
    all_goals cases h
    · exact .writerTaken hp hw
    · have ⟨hw, hr⟩ := not_or.mp hw
      exact .writerFree hp (Bool.not_eq_true _ ▸ hw) (not_not.mp hr)
  all_goals cases h
  case readerWait => exact .readerWait hp
  case add        => exact .add hp
  case readerExit => exact .readerExit hp
  case reading    => exact .readerLeave hp
  case sub        => exact .sub hp
  case subExit    => exact .subExit hp
  case writerWait => exact .writerWait hp
  case set        => exact .set hp
  case writerExit => exact .writerExit hp
  case writing    => exact .writerLeave hp
  case clear      => exact .clear hp
  case clearExit  => exact .clearExit hp

theorem Step.of_step (h : step s l = some s') : Step s s' := by
  cases l <;> simp only [step, Option.ite_none_right_eq_some, Option.some.injEq] at h
  case thread     => exact .of_thread h
  case notify     => exact .of_notify h
  case readerLock => exact h.right ▸ .callReader h.left
  case writerLock => exact h.right ▸ .callWriter h.left

end Step

namespace Pc

def HasMutex : Pc → Prop
  | readerTest | readerWait | add | notifyReader | readerExit             => True
  | sub | subTest | notifyWriter | subExit                                => True
  | writerTest | writerWait | set | writerExit                            => True
  | clear | clearNotifyReader | clearNotifyWriter | clearExit             => True
  | idle | readerMutex | readerWaiting | readerRelock | reading | subMutex => False
  | writerMutex | writerWaiting | writerRelock | writing | clearMutex     => False

-- Between the two changes of `readers`.
def Reads (p : Pc) : Prop :=
  p = notifyReader ∨ p = readerExit ∨ p = reading ∨ p = subMutex ∨ p = sub

instance : DecidablePred Reads :=
  fun _ => inferInstanceAs <| Decidable (_ ∨ _)

-- Between the two changes of `writing`.
def Writes (p : Pc) : Prop :=
  p = writerExit ∨ p = writing ∨ p = clearMutex ∨ p = clear

instance : DecidablePred Writes :=
  fun _ => inferInstanceAs <| Decidable (_ ∨ _)

end Pc

variable {n : ℕ} {s s' : State n} {i j : Fin n} {p : Pc} {c : Notify}

-- What the test of a thread has found stays true while the thread has the mutex.
def Tested (s : State n) : Pc → Prop
  | .readerWait => s.writing = true
  | .add        => s.writing = false
  | .writerWait => s.writing = true ∨ s.readers ≠ 0
  | .set        => s.writing = false ∧ s.readers = 0
  | _           => True

-- Makes the equations before the proofs below, many of which need them at the same time.
attribute [local grind =] Pc.HasMutex Tested

structure Inv (s : State n) : Prop where
  mutex   : Exclusive s.pc Pc.HasMutex (s.mutex = true)
  readers : s.readers = count s.pc Pc.Reads
  writers : count s.pc Pc.Writes = s.writing.toNat
  apart   : s.writing = true → s.readers = 0
  tested  : ∀ i, Tested s (s.pc i)

theorem tested_of_not_hasMutex (h : ¬p.HasMutex) : Tested s p := by
  cases p
  case readerWait | add | writerWait | set => exact absurd trivial h
  all_goals trivial

theorem notify_cases (h : p.notify = some c) :
    p = .notifyReader ∧ c = canRead .readerExit ∨ p = .notifyWriter ∧ c = canWrite .subExit ∨
    p = .clearNotifyReader ∧ c = canRead .clearNotifyWriter ∨
    p = .clearNotifyWriter ∧ c = canWrite .clearExit := by
  cases p <;> simp_all [Pc.notify, eq_comm]

theorem ne_of_waiting (hc : (s.pc i).notify = some c) (hj : s.pc j = c.waiting) : j ≠ i := by
  intro hij
  obtain ⟨hp, rfl⟩ | ⟨hp, rfl⟩ | ⟨hp, rfl⟩ | ⟨hp, rfl⟩ := notify_cases hc
  all_goals simp [hij, hp, canRead, canWrite] at hj

namespace Inv

theorem init : Inv (init n) where
  mutex    := ⟨False.elim, False.elim⟩
  readers  := by simp [MonitorRwLock.init, count_eq_zero, Pc.Reads]
  writers  := by simp [MonitorRwLock.init, count_eq_zero, Pc.Writes]
  apart h  := by cases h
  tested _ := trivial

variable (inv : Inv s)
include inv

-- The steps which change nothing but the mutex.
theorem with_mutex {b : Bool} (hx : Exclusive (update s.pc i p) Pc.HasMutex (b = true))
    (hr : p.Reads ↔ (s.pc i).Reads) (hw : p.Writes ↔ (s.pc i).Writes) (ht : Tested s p) :
    Inv ({ s with mutex := b }.goto i p) where
  mutex := hx
  readers := by
    rw [State.goto_pc, count_keep hr]
    exact inv.readers
  writers := by
    rw [State.goto_pc, count_keep hw]
    exact inv.writers
  apart  := inv.apart
  tested := forall_update ht fun j _ => inv.tested j

theorem goto
    (hm : p.HasMutex ↔ (s.pc i).HasMutex) (hr : p.Reads ↔ (s.pc i).Reads)
    (hw : p.Writes ↔ (s.pc i).Writes) (ht : Tested s p) : Inv (s.goto i p) :=
  inv.with_mutex (inv.mutex.keep hm) hr hw ht

theorem take
    (hm : s.mutex = false) (hr : p.Reads ↔ (s.pc i).Reads) (hw : p.Writes ↔ (s.pc i).Writes)
    (ht : Tested s p) : Inv ({ s with mutex := true }.goto i p) :=
  inv.with_mutex (inv.mutex.take (by simp [hm]) rfl) hr hw ht

theorem free
    (hi : (s.pc i).HasMutex) (hp : ¬p.HasMutex) (hr : p.Reads ↔ (s.pc i).Reads)
    (hw : p.Writes ↔ (s.pc i).Writes) : Inv (freeMutex s i p) :=
  inv.with_mutex (inv.mutex.free hi hp) hr hw (tested_of_not_hasMutex hp)

-- The other threads do not have the mutex, and so they do not rely on what is written.
theorem others {t : State n} (hi : (s.pc i).HasMutex) (j : Fin n) (hj : j ≠ i) :
    Tested t (s.pc j) :=
  tested_of_not_hasMutex <| inv.mutex.not_of_ne hi hj

theorem not_hasMutex (hm : s.mutex = false) (j : Fin n) : ¬(s.pc j).HasMutex := by
  intro hj
  cases hm.symm.trans (inv.mutex.locked hj)

theorem tested_of (h : s.pc i = p) : Tested s p :=
  h ▸ inv.tested i

theorem add (hp : s.pc i = .add) :
    Inv ({ s with readers := s.readers + 1 }.goto i .notifyReader) where
  mutex := inv.mutex.keep (by simp [hp, Pc.HasMutex])
  readers := by
    rw [State.goto_pc, count_enter (by simp [hp, Pc.Reads]) (.inl rfl), State.goto_readers,
      inv.readers]
    rfl
  writers := by
    rw [State.goto_pc, count_keep (by simp [hp, Pc.Writes])]
    exact inv.writers
  apart h := by
    have hw : s.writing = false := inv.tested_of hp
    cases hw.symm.trans h
  tested := forall_update trivial <| inv.others (by simp [hp, Pc.HasMutex])

theorem sub (hp : s.pc i = .sub) :
    Inv ({ s with readers := s.readers - 1 }.goto i .subTest) := by
  have hc := count_leave (f := s.pc) (P := Pc.Reads) (i := i) (p := .subTest)
    (by simp [hp, Pc.Reads]) (by simp [Pc.Reads])
  have hr := inv.readers
  exact {
    mutex   := inv.mutex.keep (by simp [hp, Pc.HasMutex])
    readers := by
      rw [State.goto_pc, State.goto_readers]
      dsimp only
      omega
    writers := by
      rw [State.goto_pc, count_keep (by simp [hp, Pc.Writes])]
      exact inv.writers
    apart h := by
      have := inv.apart h
      omega
    tested  := forall_update trivial <| inv.others (by simp [hp, Pc.HasMutex])
  }

theorem set (hp : s.pc i = .set) : Inv ({ s with writing := true }.goto i .writerExit) := by
  have ⟨hw, hr⟩ : s.writing = false ∧ s.readers = 0 := inv.tested_of hp
  have hc := inv.writers
  exact {
    mutex   := inv.mutex.keep (by simp [hp, Pc.HasMutex])
    readers := by
      rw [State.goto_pc, count_keep (by simp [hp, Pc.Reads])]
      exact inv.readers
    writers := by
      rw [State.goto_pc, count_enter (by simp [hp, Pc.Writes]) (.inl rfl), hc, hw]
      rfl
    apart _ := hr
    tested  := forall_update trivial <| inv.others (by simp [hp, Pc.HasMutex])
  }

theorem clear (hp : s.pc i = .clear) :
    Inv ({ s with writing := false }.goto i .clearNotifyReader) := by
  have hl := count_leave (f := s.pc) (P := Pc.Writes) (i := i) (p := .clearNotifyReader)
    (by simp [hp, Pc.Writes]) (by simp [Pc.Writes])
  have hc := inv.writers
  have hb := s.writing.toNat_le
  exact {
    mutex   := inv.mutex.keep (by simp [hp, Pc.HasMutex])
    readers := by
      rw [State.goto_pc, count_keep (by simp [hp, Pc.Reads])]
      exact inv.readers
    writers := by
      rw [State.goto_pc, State.goto_writing, Bool.toNat_false]
      dsimp only
      omega
    apart h := by cases h
    tested  := forall_update trivial <| inv.others (by simp [hp, Pc.HasMutex])
  }

theorem notifyNone (hc : (s.pc i).notify = some c) : Inv (s.goto i c.next) := by
  obtain ⟨hp, rfl⟩ | ⟨hp, rfl⟩ | ⟨hp, rfl⟩ | ⟨hp, rfl⟩ := notify_cases hc
  all_goals apply inv.goto
  all_goals simp [hp, canRead, canWrite, Pc.HasMutex, Pc.Reads, Pc.Writes, Tested]

theorem notify (hc : (s.pc i).notify = some c) (hj : s.pc j = c.waiting) :
    Inv ((s.goto i c.next).goto j c.relock) := by
  have inv' := inv.notifyNone hc
  have hn := ne_of_waiting hc hj
  obtain ⟨hp, rfl⟩ | ⟨hp, rfl⟩ | ⟨hp, rfl⟩ | ⟨hp, rfl⟩ := notify_cases hc
  all_goals apply inv'.goto
  all_goals simp_all [canRead, canWrite, Pc.HasMutex, Pc.Reads, Pc.Writes, Tested]

theorem step (h : Step s s') : Inv s' := by
  cases h
  case callReader hp | callWriter hp | readerLeave hp | writerLeave hp | last hp _ | notLast hp _ =>
    apply inv.goto
    all_goals simp [hp, Pc.HasMutex, Pc.Reads, Pc.Writes, Tested]
  case readerTaken hp hw | readerFree hp hw | writerTaken hp hw =>
    apply inv.goto
    all_goals simp [hp, hw, Pc.HasMutex, Pc.Reads, Pc.Writes, Tested]
  case writerFree hp hw hr =>
    apply inv.goto
    all_goals simp [hp, hw, hr, Pc.HasMutex, Pc.Reads, Pc.Writes, Tested]
  case readerTake hp hm | writerTake hp hm =>
    cases hp
    all_goals
      apply inv.take hm
      all_goals simp [*, Pc.Reads, Pc.Writes, Tested]
  case subTake hp hm | clearTake hp hm =>
    apply inv.take hm
    all_goals simp [hp, Pc.Reads, Pc.Writes, Tested]
  case readerWait hp | readerExit hp | subExit hp | writerWait hp | writerExit hp | clearExit hp =>
    apply inv.free
    all_goals simp [hp, Pc.HasMutex, Pc.Reads, Pc.Writes]
  case add hp           => exact inv.add hp
  case sub hp           => exact inv.sub hp
  case set hp           => exact inv.set hp
  case clear hp         => exact inv.clear hp
  case notifyNone hc _  => exact inv.notifyNone hc
  case notify hc hj     => exact inv.notify hc hj

end Inv

theorem inv_of_reachable (r : (machine n).Reachable s) : Inv s := by
  apply r.invariant
  case init =>
    intro _ h
    exact h ▸ .init
  case step => exact fun _ _ _ _ inv h => inv.step (.of_step h)

end MonitorRwLock
