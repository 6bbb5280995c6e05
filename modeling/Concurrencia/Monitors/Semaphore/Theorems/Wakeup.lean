import Concurrencia.Monitors.Semaphore.Basic
import Concurrencia.Threads.Basic
import Concurrencia.Threads.Count
import Mathlib.Tactic.SplitIfs

open Function Threads

namespace MonitorSemaphore

section Step

open CountingSemaphore (Event)

-- One constructor for each way through a statement, with the event which it causes.
inductive Step {n : ℕ} (s : State n) : Option (Event (Fin n)) → State n → Prop
  | callP : (s.pc i = .idle) → Step s none (s.goto i .pLock)
  | callV : (s.pc i = .idle) → Step s none (s.goto i .vLock)
  | pLock : (s.pc i = .pLock ∨ s.pc i = .relock) → (s.mutex = false) →
    Step s none ({ s with mutex := true }.goto i .pTest)
  | zero : (s.pc i = .pTest) → (s.value = 0) → Step s none (s.goto i .wait)
  | notZero : (s.pc i = .pTest) → (s.value ≠ 0) → Step s none (s.goto i .decrement)
  | wait : (s.pc i = .wait) → Step s none (unlock s i .waiting)
  | decrement : (s.pc i = .decrement) →
    Step s (some (.wait i)) ({ s with value := s.value - 1 }.goto i .pUnlock)
  | vLock : (s.pc i = .vLock) → (s.mutex = false) →
    Step s none ({ s with mutex := true }.goto i .increment)
  | increment : (s.pc i = .increment) →
    Step s (some (.signal i)) ({ s with value := s.value + 1 }.goto i .signal)
  | nobody : (s.pc i = .signal) → (∀ j, s.pc j ≠ .waiting) → Step s none (s.goto i .vUnlock)
  | signal : (s.pc i = .signal) → (s.pc j = .waiting) →
    Step s none ((s.goto i .vUnlock).goto j .relock)
  | spurious : (s.pc j = .waiting) → Step s none (s.goto j .relock)
  | unlock : (s.pc i = .pUnlock ∨ s.pc i = .vUnlock) → Step s none (unlock s i .idle)

variable {n : ℕ} {s s' : State n} {i j : Fin n} {l : Label n} {p : Pc}

theorem lock_eq_some : lock s i p = some s' ↔
    s.mutex = false ∧ { s with mutex := true }.goto i p = s' := by
  simp [lock]

namespace Step

theorem of_thread (h : threadStep s i = some s') : Step s (event s (.thread i)) s' := by
  cases hp : s.pc i <;> simp only [threadStep, hp, lock_eq_some] at h <;> simp only [event, hp]
  case pLock  => exact h.right ▸ .pLock (.inl hp) h.left
  case relock => exact h.right ▸ .pLock (.inr hp) h.left
  case vLock  => exact h.right ▸ .vLock hp h.left
  case signal =>
    split_ifs at h with hn
    cases h
    exact .nobody hp hn
  all_goals cases h
  case pTest =>
    split_ifs with hv
    · exact .zero hp hv
    · exact .notZero hp hv
  case wait      => exact .wait hp
  case decrement => exact .decrement hp
  case increment => exact .increment hp
  case pUnlock   => exact .unlock (.inl hp)
  case vUnlock   => exact .unlock (.inr hp)

theorem of_step (h : step s l = some s') : Step s (event s l) s' := by
  cases l
  case thread => exact .of_thread h
  all_goals simp only [step, Option.ite_none_right_eq_some, Option.some.injEq] at h
  case p        => exact h.right ▸ .callP h.left
  case v        => exact h.right ▸ .callV h.left
  case signal   => exact h.right ▸ .signal h.left.left h.left.right
  case spurious => exact h.right ▸ .spurious h.left

end Step

end Step

open CountingSemaphore (Event waits signals)

namespace Pc

def HasMutex : Pc → Prop
  | pTest | wait | decrement | pUnlock | increment | signal | vUnlock => True
  | _                                                                 => False

-- What the thread has found out about the value.
def Tested (value : ℤ) : Pc → Prop
  | wait      => value = 0
  | decrement => 0 < value
  | _         => True

-- These threads take a permit, or wake a thread which does.
def takes : Pc → Bool
  | relock | pTest | decrement | signal => true
  | _                                   => false

end Pc

variable {n v : ℕ} {s s' : State n} {i j : Fin n} {p : Pc} {e : Option (Event (Fin n))} {t : ℕ}
variable {x : ℤ}

-- The value is the number of the permits. For each of them there is a thread on its way, if
-- somebody waits.
structure Refines (s : State n) (t : ℕ) : Prop where
  value  : s.value = t
  mutex  : Owned s.pc Pc.HasMutex (s.mutex = true)
  tested : ∀ i, (s.pc i).Tested s.value
  credit : Covered s.pc (· = .waiting) (·.takes = true) t

namespace Refines

theorem init : Refines (init n v) v where
  value    := rfl
  mutex    := ⟨⟨False.elim, False.elim⟩, by simp [MonitorSemaphore.init]⟩
  tested _ := trivial
  credit   := .of_none fun _ => by simp [MonitorSemaphore.init]

variable (h : Refines s t)
include h

theorem tested_of (hi : s.pc i = p) : p.Tested s.value :=
  hi ▸ h.tested i

-- A step which does not change the value.
theorem go {m : Bool} (hm : Owned (update s.pc i p) Pc.HasMutex (m = true))
    (ht : p.Tested s.value) (hc : Covered (update s.pc i p) (· = .waiting) (·.takes = true) t) :
    Refines ({ s with mutex := m }.goto i p) t where
  value  := h.value
  mutex  := hm
  tested := forall_update ht fun j _ => h.tested j
  credit := hc

theorem stay (hm : p.HasMutex ↔ (s.pc i).HasMutex) (ht : p.Tested s.value)
    (hw : p ≠ .waiting) (hc : (s.pc i).takes = true → p.takes = true) : Refines (s.goto i p) t :=
  h.go (h.mutex.keep hm) ht (h.credit.keep (absurd · hw) hc le_rfl)

-- The other threads have not tested the value.
theorem write {u : ℕ} (hi : (s.pc i).HasMutex) (hp : p.HasMutex) (ht : p.Tested x) (hx : x = u)
    (hc : Covered (update s.pc i p) (· = .waiting) (·.takes = true) u) :
    Refines ({ s with value := x }.goto i p) u where
  value  := hx
  mutex  := h.mutex.keep (by simp [hi, hp])
  credit := hc
  tested := forall_update ht fun j hj => by
    have hn := h.mutex.not_of_ne hi hj
    cases hq : s.pc j <;> rw [hq] at hn <;> first
      | exact trivial
      | exact absurd trivial hn

theorem step (hs : Step s e s') :
    ∃ t', (CountingSemaphore.machine (Fin n) v).Run t e.toList t' ∧ Refines s' t' := by
  have hv := h.value
  cases hs
  case callP hp | callV hp =>
    exact ⟨t, .refl, h.stay (by simp [hp, Pc.HasMutex]) trivial (by simp) (by simp [hp, Pc.takes])⟩
  case spurious hp =>
    exact ⟨t, .refl, h.stay (by simp [hp, Pc.HasMutex]) trivial (by simp) (by simp [hp, Pc.takes])⟩
  case pLock hp hm =>
    refine ⟨t, .refl, h.go (h.mutex.take (by simp [hm]) trivial rfl) trivial ?_⟩
    exact h.credit.keep (by simp) (fun _ => rfl) le_rfl
  case vLock hp hm =>
    refine ⟨t, .refl, h.go (h.mutex.take (by simp [hm]) trivial rfl) trivial ?_⟩
    exact h.credit.keep (by simp) (by simp [hp, Pc.takes]) le_rfl
  case unlock i hp =>
    have hi : (s.pc i).HasMutex ∧ (s.pc i).takes = false := by
      cases hp <;> simp_all [Pc.HasMutex, Pc.takes]
    refine ⟨t, .refl, h.go (h.mutex.free hi.left id (by simp)) trivial ?_⟩
    exact h.credit.keep (by simp) (by simp [hi.right]) le_rfl
  case zero hp h0 =>
    refine ⟨t, .refl, h.go (h.mutex.keep (by simp [hp, Pc.HasMutex])) h0 (.of_zero ?_)⟩
    omega
  case wait hp =>
    have h0 : s.value = 0 := h.tested_of hp
    refine ⟨t, .refl, h.go (h.mutex.free (by rw [hp]; trivial) id (by simp)) trivial (.of_zero ?_)⟩
    omega
  case notZero hp h0 =>
    refine ⟨t, .refl, h.stay (by simp [hp, Pc.HasMutex]) ?_ (by simp) (fun _ => rfl)⟩
    simp only [Pc.Tested]
    omega
  case decrement i hp =>
    have h0 : 0 < s.value := h.tested_of hp
    obtain ⟨u, rfl⟩ : ∃ u, t = u + 1 := Nat.exists_eq_succ_of_ne_zero (by omega)
    refine CountingSemaphore.run_of_step ⟨u, .wait, ?_⟩
    refine h.write (by rw [hp]; trivial) trivial trivial (by omega) ?_
    exact h.credit.step (by simp) (by simp [hp, Pc.takes])
  case increment i hp =>
    refine CountingSemaphore.run_of_step ⟨t + 1, .signal, ?_⟩
    refine h.write (by rw [hp]; trivial) trivial trivial (by omega) ?_
    exact h.credit.step (by simp) (by simp [hp, Pc.takes])
  case nobody i hp hn =>
    refine ⟨t, .refl, h.go (h.mutex.keep (by simp [hp, Pc.HasMutex])) trivial ?_⟩
    exact .of_none (forall_update (P := (· ≠ Pc.waiting)) (by simp) fun j _ => hn j)
  case signal i j hp hj =>
    have hn : j ≠ i := fun hn => by simp [hn, hp] at hj
    have hm := h.mutex.keep (i := i) (p := .vUnlock) (by simp [hp, Pc.HasMutex])
    have ht := forall_update (i := i) (p := .vUnlock) (P := (Pc.Tested s.value ·)) trivial
      fun j _ => h.tested j
    refine ⟨t, .refl, hv, hm.keep (by simp [hn, hj, Pc.HasMutex]), ?_, ?_⟩
    · exact forall_update trivial fun j _ => ht j
    · exact h.credit.wake (by simp [hp, Pc.takes]) (by simp) hn (by simp [hj, Pc.takes]) rfl
        (by simp)

end Refines

theorem refines_of_reachable {s : State n} {l : List (Event (Fin n))}
    (r : ((machine n v).logging event).Reachable (s, l)) :
    ∃ t, (CountingSemaphore.machine (Fin n) v).Run v l t ∧ Refines s t := by
  refine r.simulation (R := fun s _ t => Refines s t) ?init ?step
  case init =>
    intro s h
    obtain rfl := h
    exact .init
  case step => exact fun s a s' l t _ h hs => h.step (.of_step hs)

end MonitorSemaphore
