import Concurrencia.Monitors.ProducerConsumer.Theorems.Buffer
import Concurrencia.Threads.Count

open Function Threads

namespace MonitorProducerConsumer

namespace Pc

variable {α : Type*}

-- These threads take a value, or notify somebody who does.
def takes : Pc α → Bool
  | takeRelock | takeTest | popleft | appendNotify => true
  | _                                              => false

def appends : Pc α → Bool
  | appendRelock _ | appendTest _ | append _ | takeNotify _ => true
  | _                                                       => false

def AppendWaits : Pc α → Prop
  | appendWaiting _ => True
  | _               => False

end Pc

variable {α : Type*} {n size : ℕ} {s s' : State α n} {i j : Fin n} {p q : Pc α}
variable {e : Option (BoundedBuffer.Event α)}

-- For each value there is a thread on its way if a consumer waits, and for each place if a
-- producer waits.
structure Credited (size : ℕ) (s : State α n) : Prop where
  values : Covered s.pc (· = .takeWaiting) (·.takes = true) s.buffer.length
  places : Covered s.pc Pc.AppendWaits (·.appends = true) (size - s.buffer.length)

namespace Credited

theorem init : Credited size (init α n) where
  values := .of_none fun _ => by simp [MonitorProducerConsumer.init]
  places := .of_none fun _ => id

variable (cr : Credited size s)
include cr

theorem setMutex (m : Bool) : Credited size { s with mutex := m } where
  values := cr.values
  places := cr.places

theorem goto (hw : p = .takeWaiting → s.pc i = .takeWaiting)
    (hc : (s.pc i).takes = true → p.takes = true)
    (hv : p.AppendWaits → (s.pc i).AppendWaits)
    (hp : (s.pc i).appends = true → p.appends = true) : Credited size (s.goto i p) where
  values := cr.values.keep hw hc le_rfl
  places := cr.places.keep hv hp le_rfl

theorem step (inv : Inv size s) (h : Step size s e s') : Credited size s' := by
  cases h
  case callAppend hp | callTake hp | notFull hp _ | notEmpty hp _ =>
    apply cr.goto
    all_goals simp [hp, Pc.takes, Pc.appends, Pc.AppendWaits]
  case appendExit hp | takeExit hp =>
    apply (cr.setMutex false).goto
    all_goals simp [hp, Pc.takes, Pc.appends, Pc.AppendWaits]
  case appendLock hp _ | takeLock hp _ =>
    cases hp
    all_goals
      apply (cr.setMutex true).goto
      all_goals simp [*, Pc.takes, Pc.appends, Pc.AppendWaits]
  case full hp hl =>
    exact {
      values := cr.values.keep (by simp) (by simp [hp, Pc.takes]) le_rfl
      places := .of_zero (by simp [hl])
    }
  case appendWait hp =>
    have hl : s.buffer.length = size := inv.tested_of hp
    exact {
      values := cr.values.keep (by simp) (by simp [hp, Pc.takes]) le_rfl
      places := .of_zero (by simp [unlock, hl])
    }
  case empty hp hb =>
    exact {
      values := .of_zero (by simp [hb])
      places := cr.places.keep False.elim (by simp [hp, Pc.appends]) le_rfl
    }
  case takeWait hp =>
    have hb : s.buffer = [] := inv.tested_of hp
    exact {
      values := .of_zero (by simp [unlock, hb])
      places := cr.places.keep False.elim (by simp [hp, Pc.appends]) le_rfl
    }
  case raise hp hb => exact absurd hb (inv.tested_of hp)
  case append i d hp =>
    have hl : s.buffer.length < size := inv.tested_of hp
    rw [Deque.append_of_lt hl]
    exact {
      values := cr.values.step (by simp) (by simp [hp, Pc.takes])
      places := cr.places.step False.elim (by simp [hp, Pc.appends]; omega)
    }
  case popleft i d b hp hb =>
    have hl := inv.length_le
    have hv := cr.values
    have hpl := cr.places
    rw [hb, List.length_cons] at hl hv hpl
    exact {
      values := hv.step (by simp) (by simp [hp, Pc.takes])
      places := hpl.step False.elim (by simp [hp, Pc.appends]; omega)
    }
  case noConsumer i hp hn =>
    exact {
      values := .of_none (forall_update (P := (· ≠ Pc.takeWaiting)) (by simp) fun j _ => hn j)
      places := cr.places.keep False.elim (by simp [hp, Pc.appends]) le_rfl
    }
  case noProducer i d hp hn =>
    have hn (j : Fin n) : ¬(s.pc j).AppendWaits := by
      cases hj : s.pc j
      case appendWaiting x => exact absurd hj (hn j x)
      all_goals exact id
    exact {
      values := cr.values.keep (by simp) (by simp [hp, Pc.takes]) le_rfl
      places := .of_none (forall_update (P := (¬Pc.AppendWaits ·)) id fun j _ => hn j)
    }
  case notifyConsumer i j hp hj =>
    have hn : j ≠ i := fun hn => by simp [hn, hp] at hj
    have h₁ := cr.places.keep (i := i) (p := .appendExit) False.elim (by simp [hp, Pc.appends]) le_rfl
    exact {
      values := cr.values.wake (by simp [hp, Pc.takes]) (by simp) hn (by simp [hj, Pc.takes]) rfl
        (by simp)
      places := h₁.keep False.elim (by simp [hn, hj, Pc.appends]) le_rfl
    }
  case notifyProducer i d j x hp hj =>
    have hn : j ≠ i := fun hn => by simp [hn, hp] at hj
    have h₁ := cr.values.keep (i := i) (p := .takeExit d) (by simp) (by simp [hp, Pc.takes]) le_rfl
    exact {
      values := h₁.keep (by simp) (by simp [hn, hj, Pc.takes]) le_rfl
      places := cr.places.wake (by simp [hp, Pc.appends]) id hn (by simp [hj, Pc.appends]) rfl id
    }

end Credited

end MonitorProducerConsumer
