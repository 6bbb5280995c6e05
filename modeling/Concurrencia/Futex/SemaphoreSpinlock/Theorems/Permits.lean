import Concurrencia.Futex.SemaphoreSpinlock.Basic
import Concurrencia.Futex.Semaphore.Theorems.Permits
import Concurrencia.Threads.Basic
import Concurrencia.Threads.Count
import Mathlib.Tactic.SplitIfs

open Function Threads

namespace SemaphoreSpinlock

section Step

open CountingSemaphore (Event)

-- The schedulers under which a `FUTEX_WAIT` returns only because of a `FUTEX_WAKE`.
def Woken {n : ℕ} (_ : State n) : Label n → Prop
  | .wait _ | .signal _ | .thread _ | .wake _ _ => True
  | .spurious _                                 => False

instance {n : ℕ} (s : State n) : (l : Label n) → Decidable (Woken s l)
  | .wait _ | .signal _ | .thread _ | .wake _ _ => inferInstanceAs <| Decidable True
  | .spurious _                                 => inferInstanceAs <| Decidable False

-- One constructor for each way through a statement, with the event it causes.
inductive Step {n : ℕ} (s : State n) : Option (Event (Fin n)) → State n → Prop
  | callWait : (s.pc i = .idle) → Step s none (s.goto i .spinWait)
  | callSignal : (s.pc i = .idle) → Step s (some (.signal i)) (s.goto i .spinSignal)
  | spin : Step s none s
  | lockWait : (s.pc i = .spinWait) → (s.spinlock = false) →
    Step s none ({ s with spinlock := true }.goto i .testWait)
  | block : (s.pc i = .testWait) → (0 < s.waiters ∨ s.value = 0) →
    Step s none (s.goto i .incWaiters)
  | pass : (s.pc i = .testWait) → (s.waiters = 0) → (0 < s.value) →
    Step s none (s.goto i .decValue)
  | incWaiters : (s.pc i = .incWaiters) →
    Step s none ({ s with waiters := s.waiters + 1 }.goto i .unlockWait)
  | unlockWait : (s.pc i = .unlockWait) →
    Step s none ({ s with spinlock := false }.goto i .futexWait)
  | sleep : (s.pc i = .futexWait) → Step s none (s.goto i .asleep)
  | decValue : (s.pc i = .decValue) →
    Step s (some (.wait i)) ({ s with value := s.value - 1 }.goto i .unlockTaken)
  | unlock : (s.pc i = .unlockTaken ∨ s.pc i = .unlockSignal) →
    Step s none ({ s with spinlock := false }.goto i .idle)
  | lockSignal : (s.pc i = .spinSignal) → (s.spinlock = false) →
    Step s none ({ s with spinlock := true }.goto i .testSignal)
  | rouse : (s.pc i = .testSignal) → (0 < s.waiters) → Step s none (s.goto i .futexWake)
  | post : (s.pc i = .testSignal) → (s.waiters = 0) → Step s none (s.goto i .incValue)
  | retry : (s.pc i = .futexWake) → Step s none (s.goto i .futexWake)
  | wake : (s.pc i = .futexWake) → (s.pc j = .asleep) →
    Step s (some (.wait j)) ((s.goto i .decWaiters).goto j .idle)
  | decWaiters : (s.pc i = .decWaiters) →
    Step s none ({ s with waiters := s.waiters - 1 }.goto i .unlockSignal)
  | incValue : (s.pc i = .incValue) →
    Step s none ({ s with value := s.value + 1 }.goto i .unlockSignal)

variable {n : ℕ} {s s' : State n} {i : Fin n} {l : Label n}

theorem Step.of_thread (h : threadStep s i = some s') : Step s (event s (.thread i)) s' := by
  cases hp : s.pc i <;>
    simp only [threadStep, spinLock, spinUnlock, event, hp, reduceCtorEq, if_false, if_true] at h ⊢
  case spinWait =>
    split_ifs at h with hs
    all_goals cases h
    · exact .spin
    · exact .lockWait hp (Bool.not_eq_true _ ▸ hs)
  case spinSignal =>
    split_ifs at h with hs
    all_goals cases h
    · exact .spin
    · exact .lockSignal hp (Bool.not_eq_true _ ▸ hs)
  case testWait =>
    split_ifs at h with hw
    all_goals cases h
    · exact .block hp (hw.imp_right Nat.le_zero.mp)
    · exact .pass hp (by omega) (by omega)
  case testSignal =>
    split_ifs at h with hw
    all_goals cases h
    · exact .rouse hp hw
    · exact .post hp (by omega)
  case futexWake =>
    split_ifs at h with hj
    cases h
    exact .retry hp
  all_goals cases h
  case incWaiters   => exact .incWaiters hp
  case unlockWait   => exact .unlockWait hp
  case futexWait    => exact .sleep hp
  case decValue     => exact .decValue hp
  case unlockTaken  => exact .unlock (.inl hp)
  case decWaiters   => exact .decWaiters hp
  case incValue     => exact .incValue hp
  case unlockSignal => exact .unlock (.inr hp)

theorem Step.of_step (hl : Woken s l) (h : step s l = some s') : Step s (event s l) s' := by
  cases l <;> simp only [step, wakeStep, Option.ite_none_right_eq_some, Option.some.injEq] at h
  case thread   => exact .of_thread h
  case spurious => exact hl.elim
  case wait     => exact h.right ▸ .callWait h.left
  case signal   => exact h.right ▸ .callSignal h.left
  case wake     => exact h.right ▸ .wake h.left.left h.left.right

end Step

open CountingSemaphore (Event waits signals)

namespace Pc

def HasLock : Pc → Prop
  | testWait | incWaiters | unlockWait | decValue | unlockTaken => True
  | testSignal | futexWake | decWaiters | incValue | unlockSignal => True
  | _ => False

-- A waiter which is asleep or on its way from the registration to `FUTEX_WAIT`.
def Registered (p : Pc) : Prop :=
  p = unlockWait ∨ p = futexWait ∨ p = asleep

instance : DecidablePred Registered :=
  fun _ => inferInstanceAs <| Decidable (_ ∨ _)

-- In the loop around `FUTEX_WAKE`.
def Rouses (p : Pc) : Prop :=
  p = futexWake

instance : DecidablePred Rouses :=
  fun _ => inferInstanceAs <| Decidable (_ = _)

-- A waiter has been released, and `waiters` does not show it yet.
def Settles (p : Pc) : Prop :=
  p = decWaiters

instance : DecidablePred Settles :=
  fun _ => inferInstanceAs <| Decidable (_ = _)

-- The signal has begun and has not left its permit yet.
def Signals (p : Pc) : Prop :=
  p = spinSignal ∨ p = testSignal ∨ p = futexWake ∨ p = incValue

instance : DecidablePred Signals :=
  fun _ => inferInstanceAs <| Decidable (_ ∨ _)

-- What the thread which holds the spinlock has found out.
def Fits (p : Pc) (waiters value : ℕ) : Prop :=
  match p with
  | incWaiters => 0 < waiters ∨ value = 0
  | decValue   => waiters = 0 ∧ 0 < value
  | futexWake  => 0 < waiters
  | incValue   => waiters = 0
  | _          => True

theorem Fits.of_not_hasLock {p : Pc} (h : ¬p.HasLock) (w v : ℕ) : p.Fits w v := by
  cases p <;> first | trivial | exact absurd trivial h

end Pc

variable {n v t t' w x : ℕ} {s s' : State n} {i j : Fin n} {p : Pc} {e : Option (Event (Fin n))}
variable {l : List (Event (Fin n))}

structure Refines (s : State n) (t : ℕ) : Prop where
  lock    : Exclusive s.pc Pc.HasLock (s.spinlock = true)
  fits    : ∀ i, (s.pc i).Fits s.waiters s.value
  waiters : s.waiters = count s.pc Pc.Registered + count s.pc Pc.Settles
  permits : t = s.value + count s.pc Pc.Signals
  balance : 0 < s.value → s.waiters = 0

namespace Refines

theorem init : Refines (init n v) v where
  fits _    := trivial
  balance _ := rfl
  lock      := by constructor <;> simp [SemaphoreSpinlock.init, Pc.HasLock]
  waiters   := by
    simp [SemaphoreSpinlock.init, count_eq_zero, Pc.Registered, Pc.Settles]
  permits   := by
    simp [SemaphoreSpinlock.init, count_eq_zero, Pc.Signals]

variable (ref : Refines s t)
include ref

theorem fits_update (hf : p.Fits s.waiters s.value) :
    ∀ j, (update s.pc i p j).Fits s.waiters s.value :=
  forall_update (P := (Pc.Fits · s.waiters s.value)) hf fun j _ => ref.fits j

theorem waiters_update (hr : p.Registered ↔ (s.pc i).Registered)
    (hd : p.Settles ↔ (s.pc i).Settles) :
    s.waiters = count (update s.pc i p) Pc.Registered + count (update s.pc i p) Pc.Settles := by
  rw [count_keep hr, count_keep hd]
  exact ref.waiters

theorem permits_update (hs : p.Signals ↔ (s.pc i).Signals) :
    t = s.value + count (update s.pc i p) Pc.Signals := by
  rw [count_keep hs]
  exact ref.permits

-- The step of a thread which stays in each of the counts it is in.
theorem goto (hl : p.HasLock ↔ (s.pc i).HasLock) (hr : p.Registered ↔ (s.pc i).Registered)
    (hd : p.Settles ↔ (s.pc i).Settles) (hs : p.Signals ↔ (s.pc i).Signals)
    (hf : p.Fits s.waiters s.value) : Refines (s.goto i p) t where
  lock    := ref.lock.keep hl
  fits    := ref.fits_update hf
  waiters := ref.waiters_update hr hd
  permits := ref.permits_update hs
  balance := ref.balance

theorem callSignal (hi : s.pc i = .idle) : Refines (s.goto i .spinSignal) (t + 1) where
  lock    := ref.lock.keep (by simp [hi, Pc.HasLock])
  fits    := ref.fits_update trivial
  waiters := ref.waiters_update (by simp [hi, Pc.Registered]) (by simp [hi, Pc.Settles])
  balance := ref.balance
  permits := by
    have hp := ref.permits
    have hs := count_enter (f := s.pc) (P := Pc.Signals) (p := .spinSignal) (i := i)
      (by simp [hi, Pc.Signals]) (.inl rfl)
    rw [State.goto_pc, hs, State.goto_value]
    omega

theorem take (hl : s.spinlock = false) (hr : p.Registered ↔ (s.pc i).Registered)
    (hd : p.Settles ↔ (s.pc i).Settles) (hs : p.Signals ↔ (s.pc i).Signals)
    (hf : p.Fits s.waiters s.value) :
    Refines ({ s with spinlock := true }.goto i p) t where
  lock    := ref.lock.take (by simp [hl]) rfl
  fits    := ref.fits_update hf
  waiters := ref.waiters_update hr hd
  permits := ref.permits_update hs
  balance := ref.balance

theorem release (hi : (s.pc i).HasLock) (hp : ¬p.HasLock)
    (hr : p.Registered ↔ (s.pc i).Registered) (hd : p.Settles ↔ (s.pc i).Settles)
    (hs : p.Signals ↔ (s.pc i).Signals) :
    Refines ({ s with spinlock := false }.goto i p) t where
  lock    := ref.lock.free hi hp
  fits    := ref.fits_update (.of_not_hasLock hp ..)
  waiters := ref.waiters_update hr hd
  permits := ref.permits_update hs
  balance := ref.balance

-- Only the thread which holds the spinlock writes the counters.
theorem write (hi : (s.pc i).HasLock) (hp : p.HasLock) (hf : p.Fits w x)
    (hb : 0 < x → w = 0)
    (hw : w = count (update s.pc i p) Pc.Registered + count (update s.pc i p) Pc.Settles)
    (ht : t' = x + count (update s.pc i p) Pc.Signals) :
    Refines ({ s with waiters := w, value := x }.goto i p) t' where
  lock    := ref.lock.keep (iff_of_true hp hi)
  balance := hb
  waiters := hw
  permits := ht
  fits    := forall_update (P := (Pc.Fits · w x)) hf fun _ hj =>
    .of_not_hasLock (ref.lock.not_of_ne hi hj) ..

theorem incWaiters (hi : s.pc i = .incWaiters) :
    Refines ({ s with waiters := s.waiters + 1 }.goto i .unlockWait) t := by
  have hw := ref.waiters
  have hf : 0 < s.waiters ∨ s.value = 0 := by simpa [hi, Pc.Fits] using ref.fits i
  have hv : s.value = 0 := by
    by_contra hn
    exact hn <| hf.resolve_left (ref.balance (Nat.pos_of_ne_zero hn)).not_gt
  have hr := count_enter (f := s.pc) (P := Pc.Registered) (i := i) (p := .unlockWait)
    (by simp [hi, Pc.Registered]) (.inl rfl)
  refine ref.write (by simp [hi, Pc.HasLock]) trivial trivial (by simp [hv]) ?waiters ?permits
  case waiters =>
    rw [hr, count_keep (by simp [hi, Pc.Settles])]
    omega
  case permits => exact ref.permits_update (by simp [hi, Pc.Signals])

theorem decValue (hi : s.pc i = .decValue) :
    ∃ t', CountingSemaphore.Step t (.wait i) t' ∧
      Refines ({ s with value := s.value - 1 }.goto i .unlockTaken) t' := by
  have hp := ref.permits
  have hf : s.waiters = 0 ∧ 0 < s.value := by simpa [hi, Pc.Fits] using ref.fits i
  obtain ⟨t, rfl⟩ : ∃ t', t = t' + 1 := ⟨t - 1, by omega⟩
  refine ⟨t, .wait, ?_⟩
  refine ref.write (by simp [hi, Pc.HasLock]) trivial trivial (fun _ => hf.left) ?waiters ?permits
  case waiters => exact ref.waiters_update (by simp [hi, Pc.Registered]) (by simp [hi, Pc.Settles])
  case permits =>
    rw [count_keep (by simp [hi, Pc.Signals])]
    omega

theorem incValue (hi : s.pc i = .incValue) :
    Refines ({ s with value := s.value + 1 }.goto i .unlockSignal) t := by
  have hp := ref.permits
  have hf : s.waiters = 0 := by simpa [hi, Pc.Fits] using ref.fits i
  have hs := count_leave (f := s.pc) (P := Pc.Signals) (i := i) (p := .unlockSignal)
    (by simp [hi, Pc.Signals]) (by simp [Pc.Signals])
  refine ref.write (by simp [hi, Pc.HasLock]) trivial trivial (fun _ => hf) ?waiters ?permits
  case waiters => exact ref.waiters_update (by simp [hi, Pc.Registered]) (by simp [hi, Pc.Settles])
  case permits => omega

theorem decWaiters (hi : s.pc i = .decWaiters) :
    Refines ({ s with waiters := s.waiters - 1 }.goto i .unlockSignal) t := by
  have hw := ref.waiters
  have hd := count_leave (f := s.pc) (P := Pc.Settles) (i := i) (p := .unlockSignal)
    hi (by simp [Pc.Settles])
  refine ref.write (by simp [hi, Pc.HasLock]) trivial trivial ?balance ?waiters ?permits
  case balance =>
    intro hv
    rw [ref.balance hv]
  case waiters =>
    rw [count_keep (by simp [hi, Pc.Registered])]
    omega
  case permits => exact ref.permits_update (by simp [hi, Pc.Signals])

theorem wake (hi : s.pc i = .futexWake) (hj : s.pc j = .asleep) :
    ∃ t', CountingSemaphore.Step t (.wait j) t' ∧
      Refines ((s.goto i .decWaiters).goto j .idle) t' := by
  have hp := ref.permits
  have hw := ref.waiters
  have hn : j ≠ i := fun h => by simp [← h, hj] at hi
  have hj : (s.goto i .decWaiters).pc j = .asleep := by simpa [hn] using hj
  have hs := count_leave (f := s.pc) (P := Pc.Signals) (i := i) (p := .decWaiters)
    (by simp [hi, Pc.Signals]) (by simp [Pc.Signals])
  have hd := count_enter (f := s.pc) (P := Pc.Settles) (i := i) (p := .decWaiters)
    (by simp [hi, Pc.Settles]) rfl
  have hr := count_leave (f := (s.goto i .decWaiters).pc) (P := Pc.Registered) (i := j) (p := .idle)
    (.inr (.inr hj)) (by simp [Pc.Registered])
  rw [State.goto_pc, count_keep (f := s.pc) (by simp [hi, Pc.Registered])] at hr
  obtain ⟨t, rfl⟩ : ∃ t', t = t' + 1 := ⟨t - 1, by omega⟩
  refine ⟨t, .wait, ?_⟩
  exact {
    lock    := (ref.lock.keep (by simp [hi, Pc.HasLock])).drop (by simp [Pc.HasLock])
    balance := ref.balance
    fits k  := by
      by_cases hkj : k = j
      case pos => simp [hkj, Pc.Fits]
      case neg =>
        by_cases hki : k = i
        case pos => simp [hki, hn.symm, Pc.Fits]
        case neg => simpa [hkj, hki] using ref.fits k
    waiters := by
      rw [State.goto_pc, count_keep (P := Pc.Settles) (by simp [hj, Pc.Settles]), State.goto_pc]
      dsimp only [State.goto_waiters]
      omega
    permits := by
      rw [State.goto_pc, count_keep (P := Pc.Signals) (by simp [hj, Pc.Signals]), State.goto_pc]
      dsimp only [State.goto_value]
      omega
  }

-- Each step of the code is one of the specification, or none.
theorem step (h : Step s e s') :
    ∃ t', (CountingSemaphore.machine (Fin n) v).Run t e.toList t' ∧ Refines s' t' := by
  cases h <;> simp only [Option.toList]
  case spin           => exact ⟨t, .refl, ref⟩
  case callSignal hi  => exact CountingSemaphore.run_of_step ⟨_, .signal, ref.callSignal hi⟩
  case decValue hi    => exact CountingSemaphore.run_of_step <| ref.decValue hi
  case wake hi hj     => exact CountingSemaphore.run_of_step <| ref.wake hi hj
  case incWaiters hi  => exact ⟨t, .refl, ref.incWaiters hi⟩
  case decWaiters hi  => exact ⟨t, .refl, ref.decWaiters hi⟩
  case incValue hi    => exact ⟨t, .refl, ref.incValue hi⟩
  case lockWait hi hl | lockSignal hi hl =>
    refine ⟨t, .refl, ref.take hl ?_ ?_ ?_ trivial⟩
    all_goals simp [hi, Pc.Registered, Pc.Settles, Pc.Signals]
  case unlockWait hi =>
    refine ⟨t, .refl, ref.release ?_ ?_ ?_ ?_ ?_⟩
    all_goals simp [hi, Pc.HasLock, Pc.Registered, Pc.Settles, Pc.Signals]
  case unlock hi =>
    refine ⟨t, .refl, ref.release ?_ ?_ ?_ ?_ ?_⟩
    all_goals cases hi <;> simp [*, Pc.HasLock, Pc.Registered, Pc.Settles, Pc.Signals]
  case callWait hi | sleep hi =>
    refine ⟨t, .refl, ref.goto ?_ ?_ ?_ ?_ trivial⟩
    all_goals simp [hi, Pc.HasLock, Pc.Registered, Pc.Settles, Pc.Signals]
  case block hi hw =>
    refine ⟨t, .refl, ref.goto ?_ ?_ ?_ ?_ hw⟩
    all_goals simp [hi, Pc.HasLock, Pc.Registered, Pc.Settles, Pc.Signals]
  case pass hi hw hv =>
    refine ⟨t, .refl, ref.goto ?_ ?_ ?_ ?_ ⟨hw, hv⟩⟩
    all_goals simp [hi, Pc.HasLock, Pc.Registered, Pc.Settles, Pc.Signals]
  case rouse hi hw | post hi hw =>
    refine ⟨t, .refl, ref.goto ?_ ?_ ?_ ?_ hw⟩
    all_goals simp [hi, Pc.HasLock, Pc.Registered, Pc.Settles, Pc.Signals]
  case retry hi =>
    refine ⟨t, .refl, ref.goto ?_ ?_ ?_ ?_ (hi ▸ ref.fits _)⟩
    all_goals simp [hi, Pc.HasLock, Pc.Registered, Pc.Settles, Pc.Signals]

end Refines

theorem refines_of_reachable (r : (((machine n v).only Woken).logging event).Reachable (s, l)) :
    ∃ t, (CountingSemaphore.machine (Fin n) v).Run v l t ∧ Refines s t := by
  apply r.simulation (R := fun s _ t => Refines s t)
  case init =>
    intro s hs
    exact hs ▸ .init
  case step =>
    intro s a s' l t _ ref h
    have ⟨ha, h⟩ := Machine.only_step.mp h
    exact ref.step (.of_step ha h)

end SemaphoreSpinlock
