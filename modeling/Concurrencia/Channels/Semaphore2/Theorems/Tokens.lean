import Concurrencia.Channels.Semaphore2.Basic
import Concurrencia.Machine.Basic
import Concurrencia.Threads.Basic
import Concurrencia.Threads.Count
import Mathlib.Tactic.SplitIfs

open Function Threads

namespace ChannelSemaphore2

section Step

-- One constructor for each way through a statement.
inductive Step {n : ℕ} (s : State n) : Label n → State n → Prop
  | wait : (s.pc i = .idle) → Step s (.wait i) (s.goto i .receiveDecrement)
  | signal : (s.pc i = .idle) → Step s (.signal i) (s.goto i .receiveIncrement)
  | decrement : (s.pc i = .receiveDecrement) → (s.value = some v) →
    Step s (.goroutine i) ({ s with value := none }.goto i (.sendDecremented (v - 1)))
  | sendNegative : (s.pc i = .sendDecremented v) → (s.value = none) → (v < 0) →
    Step s (.goroutine i) ({ s with value := v }.goto i .receiveQueue)
  | sendPermit : (s.pc i = .sendDecremented v) → (s.value = none) → (0 ≤ v) →
    Step s (.goroutine i) ({ s with value := v }.goto i .waitReturn)
  | receiveQueue : (s.pc i = .receiveQueue) → (s.queue = true) →
    Step s (.goroutine i) ({ s with queue := false }.goto i .waitReturn)
  | waitReturn : (s.pc i = .waitReturn) → Step s (.goroutine i) (s.goto i .idle)
  | increment : (s.pc i = .receiveIncrement) → (s.value = some v) →
    Step s (.goroutine i) ({ s with value := none }.goto i (.sendIncremented (v + 1)))
  | sendOwed : (s.pc i = .sendIncremented v) → (s.value = none) → (v ≤ 0) →
    Step s (.goroutine i) ({ s with value := v }.goto i .sendQueue)
  | sendFree : (s.pc i = .sendIncremented v) → (s.value = none) → (0 < v) →
    Step s (.goroutine i) ({ s with value := v }.goto i .signalReturn)
  | sendQueue : (s.pc i = .sendQueue) → (s.queue = false) →
    Step s (.goroutine i) ({ s with queue := true }.goto i .signalReturn)
  | signalReturn : (s.pc i = .signalReturn) → Step s (.goroutine i) (s.goto i .idle)

variable {n : ℕ} {s s' : State n} {i : Fin n} {l : Label n} {v : ℤ} {p : Pc} {f : ℤ → Pc}

theorem receiveValue_cases (h : receiveValue s i f = some s') :
    ∃ v, s.value = some v ∧ s' = { s with value := none }.goto i (f v) := by
  obtain ⟨v, hv, rfl⟩ := Option.map_eq_some_iff.mp h
  exact ⟨v, hv, rfl⟩

theorem sendValue_cases (h : sendValue s i v p = some s') :
    s.value = none ∧ s' = { s with value := v }.goto i p := by
  rw [sendValue] at h
  split_ifs at h with hv
  cases h
  exact ⟨by simpa using hv, rfl⟩

theorem Step.of_goroutine (h : goroutineStep s i = some s') : Step s (.goroutine i) s' := by
  cases hp : s.pc i <;> simp only [goroutineStep, hp] at h
  case receiveDecrement =>
    obtain ⟨v, hv, rfl⟩ := receiveValue_cases h
    exact .decrement hp hv
  case receiveIncrement =>
    obtain ⟨v, hv, rfl⟩ := receiveValue_cases h
    exact .increment hp hv
  case sendDecremented v =>
    obtain ⟨hv, rfl⟩ := sendValue_cases h
    split_ifs with hn
    · exact .sendNegative hp hv hn
    · exact .sendPermit hp hv (not_lt.mp hn)
  case sendIncremented v =>
    obtain ⟨hv, rfl⟩ := sendValue_cases h
    split_ifs with hn
    · exact .sendOwed hp hv hn
    · exact .sendFree hp hv (not_le.mp hn)
  case receiveQueue =>
    split_ifs at h with hq
    cases h
    exact .receiveQueue hp hq
  case sendQueue =>
    split_ifs at h with hq
    cases h
    exact .sendQueue hp (Bool.not_eq_true _ ▸ hq)
  all_goals cases h
  case waitReturn   => exact .waitReturn hp
  case signalReturn => exact .signalReturn hp

theorem Step.of_step (h : step s l = some s') : Step s l s' := by
  cases l <;> simp only [step, Option.ite_none_right_eq_some, Option.some.injEq] at h
  case goroutine => exact .of_goroutine h
  case wait      => exact h.right ▸ .wait h.left
  case signal    => exact h.right ▸ .signal h.left

end Step

namespace Pc

-- Has received the element of `value`.
def HasValue : Pc → Prop
  | sendDecremented _ | sendIncremented _ => True
  | _                                     => False

-- Has decremented the value below zero and will receive from `queue`.
def Committed : Pc → Prop
  | sendDecremented v => v < 0
  | receiveQueue      => True
  | _                 => False

instance : DecidablePred Committed
  | sendDecremented v => inferInstanceAs <| Decidable (v < 0)
  | receiveQueue      => .isTrue trivial
  | idle | receiveDecrement | waitReturn | receiveIncrement | sendIncremented _ | sendQueue
  | signalReturn      => .isFalse id

-- Will send to `queue`.
def Owing : Pc → Prop
  | sendIncremented v => v ≤ 0
  | sendQueue         => True
  | _                 => False

instance : DecidablePred Owing
  | sendIncremented v => inferInstanceAs <| Decidable (v ≤ 0)
  | sendQueue         => .isTrue trivial
  | idle | receiveDecrement | sendDecremented _ | receiveQueue | waitReturn | receiveIncrement
  | signalReturn      => .isFalse id

-- Has decremented the value and is not complete yet.
def Decremented : Pc → Prop
  | sendDecremented _ | receiveQueue => True
  | _                                => False

instance : DecidablePred Decremented
  | sendDecremented _ | receiveQueue => .isTrue trivial
  | idle | receiveDecrement | waitReturn | receiveIncrement | sendIncremented _ | sendQueue
  | signalReturn                     => .isFalse id

end Pc

variable {n : ℕ} {v x y : ℤ} {s s' : State n} {i j : Fin n} {l : Label n} {p : Pc} {q : Bool}
variable {z : Option ℤ}

-- The goroutine which has received the element of `value` is the one which knows the value.
def Fits (x : ℤ) : Pc → Prop
  | .sendDecremented v => v = x
  | .sendIncremented v => v = x
  | _                  => True

theorem Fits.of_not_hasValue (h : ¬p.HasValue) : Fits x p := by
  cases p
  case sendDecremented | sendIncremented => exact absurd trivial h
  all_goals trivial

-- The value is `x`, wherever it is.
structure Inv (s : State n) (x : ℤ) : Prop where
  value  : ∀ y, s.value = some y → y = x
  fits   : ∀ i, Fits x (s.pc i)
  owned  : Owned s.pc Pc.HasValue (s.value = none)
  tokens : count s.pc Pc.Committed = count s.pc Pc.Owing + s.queue.toNat + (-x).toNat

namespace Inv

theorem init : Inv (newSemaphore n v) (if v < 0 then 0 else v) where
  value y h := (Option.some.inj h).symm
  fits _    := trivial
  owned     := ⟨⟨False.elim, False.elim⟩, by simp [newSemaphore]⟩
  tokens    := by
    have hc (i : Fin n) : ¬((newSemaphore n v).pc i).Committed := id
    have ho (i : Fin n) : ¬((newSemaphore n v).pc i).Owing := id
    rw [count_eq_zero hc, count_eq_zero ho]
    split_ifs
    · simp [newSemaphore]
    · simp only [newSemaphore, Bool.toNat_false]
      omega

variable (inv : Inv s x)
include inv

theorem not_hasValue (hv : s.value = some y) (j : Fin n) : ¬(s.pc j).HasValue :=
  inv.owned.not_of_free (by simp [hv]) j

-- The value stays where it is.
theorem move (hv : p.HasValue ↔ (s.pc i).HasValue) (hf : Fits x p)
    (ht : count (update s.pc i p) Pc.Committed =
      count (update s.pc i p) Pc.Owing + q.toNat + (-x).toNat) :
    Inv ({ s with queue := q }.goto i p) x where
  value  := inv.value
  fits   := forall_update hf fun j _ => inv.fits j
  owned  := inv.owned.keep hv
  tokens := ht

theorem goto (hv : p.HasValue ↔ (s.pc i).HasValue) (hf : Fits x p)
    (hc : p.Committed ↔ (s.pc i).Committed) (ho : p.Owing ↔ (s.pc i).Owing) :
    Inv (s.goto i p) x :=
  inv.move (q := s.queue) hv hf (by rw [count_keep hc, count_keep ho, inv.tokens])

-- A goroutine receives the value and changes it to `y`.
theorem receive (hv : s.value = some x) (hp : p.HasValue) (hf : Fits y p)
    (ht : count (update s.pc i p) Pc.Committed =
      count (update s.pc i p) Pc.Owing + s.queue.toNat + (-y).toNat) :
    Inv ({ s with value := none }.goto i p) y where
  value _ h := by cases h
  fits      := forall_update hf fun j _ => .of_not_hasValue (inv.not_hasValue hv j)
  owned     := inv.owned.take (by simp [hv]) hp rfl
  tokens    := ht

theorem send (hi : (s.pc i).HasValue) (hp : ¬p.HasValue) (hc : p.Committed ↔ (s.pc i).Committed)
    (ho : p.Owing ↔ (s.pc i).Owing) : Inv ({ s with value := x }.goto i p) x where
  value y h := (Option.some.inj h).symm
  fits      := forall_update (.of_not_hasValue hp) fun j _ => inv.fits j
  owned     := inv.owned.free hi hp (by simp)
  tokens    := by rw [State.goto_pc, count_keep hc, count_keep ho, inv.tokens]; rfl

theorem decrement (hp : s.pc i = .receiveDecrement) (hv : s.value = some x) :
    Inv ({ s with value := none }.goto i (.sendDecremented (x - 1))) (x - 1) := by
  have ht := inv.tokens
  have ho : count (update s.pc i (.sendDecremented (x - 1))) Pc.Owing = count s.pc Pc.Owing :=
    count_keep (by simp [hp, Pc.Owing])
  have hn : ¬(s.pc i).Committed := by simp [hp, Pc.Committed]
  refine inv.receive hv trivial rfl ?_
  by_cases hx : x - 1 < 0
  case pos =>
    have hc : count (update s.pc i (.sendDecremented (x - 1))) Pc.Committed = _ :=
      count_enter hn hx
    omega
  case neg =>
    have hc : count (update s.pc i (.sendDecremented (x - 1))) Pc.Committed = _ :=
      count_keep (iff_of_false hx hn)
    omega

theorem increment (hp : s.pc i = .receiveIncrement) (hv : s.value = some x) :
    Inv ({ s with value := none }.goto i (.sendIncremented (x + 1))) (x + 1) := by
  have ht := inv.tokens
  have hc : count (update s.pc i (.sendIncremented (x + 1))) Pc.Committed =
      count s.pc Pc.Committed := count_keep (by simp [hp, Pc.Committed])
  have hn : ¬(s.pc i).Owing := by simp [hp, Pc.Owing]
  refine inv.receive hv trivial rfl ?_
  by_cases hx : x + 1 ≤ 0
  case pos =>
    have ho : count (update s.pc i (.sendIncremented (x + 1))) Pc.Owing = _ := count_enter hn hx
    omega
  case neg =>
    have ho : count (update s.pc i (.sendIncremented (x + 1))) Pc.Owing = _ :=
      count_keep (iff_of_false hx hn)
    omega

theorem receiveQueue (hp : s.pc i = .receiveQueue) (hq : s.queue = true) :
    Inv ({ s with queue := false }.goto i .waitReturn) x := by
  have ht := inv.tokens
  have hc : count (update s.pc i .waitReturn) Pc.Committed + 1 = _ :=
    count_leave (by simp [hp, Pc.Committed]) id
  have ho : count (update s.pc i .waitReturn) Pc.Owing = _ := count_keep (by simp [hp, Pc.Owing])
  refine inv.move (by simp [hp, Pc.HasValue]) trivial ?_
  simp only [hq, Bool.toNat_true] at ht
  simp only [Bool.toNat_false]
  omega

theorem sendQueue (hp : s.pc i = .sendQueue) (hq : s.queue = false) :
    Inv ({ s with queue := true }.goto i .signalReturn) x := by
  have ht := inv.tokens
  have ho : count (update s.pc i .signalReturn) Pc.Owing + 1 = _ :=
    count_leave (by simp [hp, Pc.Owing]) id
  have hc : count (update s.pc i .signalReturn) Pc.Committed = _ :=
    count_keep (by simp [hp, Pc.Committed])
  refine inv.move (by simp [hp, Pc.HasValue]) trivial ?_
  simp only [hq, Bool.toNat_false] at ht
  simp only [Bool.toNat_true]
  omega

end Inv

-- What a step does to the value.
def after (s : State n) (x : ℤ) : Label n → ℤ
  | .goroutine i =>
    match s.pc i with
    | .receiveDecrement => x - 1
    | .receiveIncrement => x + 1
    | _                 => x
  | _ => x

theorem Inv.fits_of (inv : Inv s x) (hp : s.pc i = p) : Fits x p :=
  hp ▸ inv.fits i

theorem Inv.step (inv : Inv s x) (h : Step s l s') : Inv s' (after s x l) := by
  cases h
  case decrement hp hv =>
    obtain rfl := inv.value _ hv
    simpa [after, hp] using inv.decrement hp hv
  case increment hp hv =>
    obtain rfl := inv.value _ hv
    simpa [after, hp] using inv.increment hp hv
  case receiveQueue hp hq => simpa [after, hp] using inv.receiveQueue hp hq
  case sendQueue hp hq    => simpa [after, hp] using inv.sendQueue hp hq
  case sendNegative i v hp _ hn | sendPermit i v hp _ hn =>
    have hv : v = x := inv.fits_of hp
    have ha : after s x (.goroutine i) = x := by simp [after, hp]
    rw [ha, hv]
    exact inv.send (by simp [hp, Pc.HasValue]) id (by simp [hp, Pc.Committed, hn])
      (by simp [hp, Pc.Owing])
  case sendOwed i v hp _ hn | sendFree i v hp _ hn =>
    have hv : v = x := inv.fits_of hp
    have ha : after s x (.goroutine i) = x := by simp [after, hp]
    rw [ha, hv]
    exact inv.send (by simp [hp, Pc.HasValue]) id (by simp [hp, Pc.Committed])
      (by simp [hp, Pc.Owing, hn])
  case wait i hp | signal i hp =>
    exact inv.goto (by simp [hp, Pc.HasValue]) trivial (by simp [hp, Pc.Committed])
      (by simp [hp, Pc.Owing])
  case waitReturn i hp | signalReturn i hp =>
    have ha : after s x (.goroutine i) = x := by simp [after, hp]
    rw [ha]
    exact inv.goto (by simp [hp, Pc.HasValue]) trivial (by simp [hp, Pc.Committed])
      (by simp [hp, Pc.Owing])

end ChannelSemaphore2
