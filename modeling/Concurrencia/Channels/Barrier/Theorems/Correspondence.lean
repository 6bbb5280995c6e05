import Concurrencia.Channels.Barrier.Basic
import Concurrencia.Machine.Calls
import Concurrencia.Semaphores.Barrier.Theorems.Refinement
import Mathlib.Tactic.SplitIfs

open Function Threads

namespace ChannelBarrier

section Step

-- One constructor for each way through a statement.
inductive Step {m : ℕ} (n : ℤ) (s : State m) (i : Fin m) : State m → Prop
  | call : (s.pc i = .idle) → Step n s i (s.goto i .receiveArrival)
  | arrive : (s.pc i = .receiveArrival) → (s.arrival = some v) → (1 < v) →
    Step n s i ({ s with arrival := none }.goto i (.sendArrival (v - 1)))
  | arriveLast : (s.pc i = .receiveArrival) → (s.arrival = some v) → (v ≤ 1) →
    Step n s i ({ s with arrival := none }.goto i .sendDeparture)
  | sendArrival : (s.pc i = .sendArrival v) → (s.arrival = none) →
    Step n s i ({ s with arrival := some v }.goto i .receiveDeparture)
  | sendDeparture : (s.pc i = .sendDeparture) → (s.departure = none) →
    Step n s i ({ s with departure := some n }.goto i .receiveDeparture)
  | depart : (s.pc i = .receiveDeparture) → (s.departure = some v) → (1 < v) →
    Step n s i ({ s with departure := none }.goto i (.resendDeparture (v - 1)))
  | departLast : (s.pc i = .receiveDeparture) → (s.departure = some v) → (v ≤ 1) →
    Step n s i ({ s with departure := none }.goto i .resendArrival)
  | resendDeparture : (s.pc i = .resendDeparture v) → (s.departure = none) →
    Step n s i ({ s with departure := some v }.goto i .idle)
  | resendArrival : (s.pc i = .resendArrival) → (s.arrival = none) →
    Step n s i ({ s with arrival := some n }.goto i .idle)

variable {m : ℕ} {n : ℤ} {s s' : State m} {i : Fin m}

theorem Step.of_step (h : step n s i = some s') : Step n s i s' := by
  cases hp : s.pc i <;> simp only [step, send, receive, hp, Option.map_map,
    Option.map_eq_some_iff, comp_apply, Option.ite_none_left_eq_some, Option.some.injEq,
    Bool.not_eq_true, Option.isSome_eq_false_iff, Option.isNone_iff_eq_none] at h
  case idle => exact h ▸ .call hp
  case receiveArrival =>
    obtain ⟨v, hv, rfl⟩ := h
    split_ifs with hn
    · exact .arrive hp hv hn
    · exact .arriveLast hp hv (not_lt.mp hn)
  case receiveDeparture =>
    obtain ⟨v, hv, rfl⟩ := h
    split_ifs with hn
    · exact .depart hp hv hn
    · exact .departLast hp hv (not_lt.mp hn)
  case sendArrival v =>
    obtain ⟨_, ⟨hv, rfl⟩, rfl⟩ := h
    exact .sendArrival hp hv
  case sendDeparture =>
    obtain ⟨_, ⟨hv, rfl⟩, rfl⟩ := h
    exact .sendDeparture hp hv
  case resendDeparture v =>
    obtain ⟨_, ⟨hv, rfl⟩, rfl⟩ := h
    exact .resendDeparture hp hv
  case resendArrival =>
    obtain ⟨_, ⟨hv, rfl⟩, rfl⟩ := h
    exact .resendArrival hp hv

theorem Step.step_eq (h : Step n s i s') : step n s i = some s' := by
  cases h
  case call hp                                 => simp [step, hp]
  case arrive hp hv hn | depart hp hv hn       => simp [step, receive, hp, hv, hn]
  case arriveLast hp hv hn | departLast hp hv hn =>
    simp [step, receive, hp, hv, not_lt.mpr hn]
  case sendArrival hp hv | sendDeparture hp hv => simp [step, send, hp, hv]
  case resendDeparture hp hv                   => simp [step, send, hp, hv]
  case resendArrival hp hv                     => simp [step, send, hp, hv]

end Step

variable {m : ℕ} {n c v : ℤ} {s s' : SemaphoreBarrier.State m} {t t' : State m} {i j : Fin m}
variable {p : SemaphoreBarrier.Pc} {q : Pc}

-- Where the two barriers are at the same time. A goroutine knows what it will send as soon as it
-- has received, and a thread only after its test.
def Matches : SemaphoreBarrier.Pc → Pc → Prop
  | .idle, .idle                                                        => True
  | .waitArrival, .receiveArrival | .waitDeparture, .receiveDeparture   => True
  | .lockIncrement, .sendArrival _ | .lockIncrement, .sendDeparture     => True
  | .increment, .sendArrival _ | .increment, .sendDeparture             => True
  | .unlockIncrement, .sendArrival _ | .unlockIncrement, .sendDeparture => True
  | .testIncrement, .sendArrival _ | .testIncrement, .sendDeparture     => True
  | .postArrival, .sendArrival _ | .postDeparture, .sendDeparture       => True
  | .lockDecrement, .resendDeparture _ | .lockDecrement, .resendArrival => True
  | .decrement, .resendDeparture _ | .decrement, .resendArrival         => True
  | .unlockDecrement, .resendDeparture _ | .unlockDecrement, .resendArrival => True
  | .testDecrement, .resendDeparture _ | .testDecrement, .resendArrival => True
  | .repostDeparture, .resendDeparture _ | .repostArrival, .resendArrival => True
  | _, _                                                                => False

-- What the thread will still add to the counter.
def ahead : SemaphoreBarrier.Pc → ℤ
  | .lockIncrement | .increment => 1
  | .lockDecrement | .decrement => -1
  | _                           => 0

-- The counter when the element is sent.
def Pc.counter (n : ℤ) : Pc → ℤ
  | sendArrival v     => n - v
  | sendDeparture     => max n 1
  | resendDeparture v => v
  | _                 => 0

-- An element which is not the first one of its round.
def Pc.Valid (n : ℤ) : Pc → Prop
  | sendArrival v | resendDeparture v => 1 ≤ v ∧ v < n
  | _                                 => True

structure Fits (n c : ℤ) (p : SemaphoreBarrier.Pc) (q : Pc) : Prop where
  pc      : Matches p q
  valid   : q.Valid n
  counter : p.Holds → c + ahead p = q.counter n

theorem Fits.of_not_holds (h : Fits n c p q) (hp : ¬p.Holds) : Fits n v p q where
  pc      := h.pc
  valid   := h.valid
  counter := fun hn => absurd hn hp

theorem Fits.move {p' : SemaphoreBarrier.Pc} (h : Fits n c p q) (hp : p.Holds)
    (hm : Matches p q → Matches p' q) (hc : v + ahead p' = c + ahead p) : Fits n v p' q where
  pc        := hm h.pc
  valid     := h.valid
  counter _ := hc.trans (h.counter hp)

-- The test of the counter finds what the test of the element has found.
theorem Fits.testIncrement (h : Fits n c .testIncrement q) :
    Fits n c (if c < n then .postArrival else .postDeparture) q := by
  have hm := h.pc
  have hv := h.valid
  have hc := h.counter (by decide)
  cases q <;> simp only [Pc.Valid, Pc.counter, ahead, add_zero] at hv hc
  case sendArrival v =>
    rw [if_pos (by omega)]
    exact h.move (by decide) id rfl
  case sendDeparture =>
    rw [if_neg (by omega)]
    exact h.move (by decide) id rfl
  all_goals exact absurd hm id

theorem Fits.testDecrement (h : Fits n c .testDecrement q) :
    Fits n c (if c > 0 then .repostDeparture else .repostArrival) q := by
  have hm := h.pc
  have hv := h.valid
  have hc := h.counter (by decide)
  cases q <;> simp only [Pc.Valid, Pc.counter, ahead, add_zero] at hv hc
  case resendDeparture v =>
    rw [if_pos (by omega)]
    exact h.move (by decide) id rfl
  case resendArrival =>
    rw [if_neg (by omega)]
    exact h.move (by decide) id rfl
  all_goals exact absurd hm id

def InMutex : SemaphoreBarrier.Pc → Prop
  | .increment | .unlockIncrement | .decrement | .unlockDecrement => True
  | _                                                             => False

theorem holds_of_inMutex (h : InMutex p) : p.Holds := by
  cases p
  case increment | unlockIncrement | decrement | unlockDecrement => decide
  all_goals exact absurd h id

-- The element `v` in `arrival` is the permit of `arrival` with `n - v` threads counted, and the
-- one in `departure` is the permit of `departure` with `v` threads counted. If `n` is not
-- positive, the elements are all `n`, and stand for 1.
structure Corresponds (n : ℤ) (s : SemaphoreBarrier.State m) (t : State m) : Prop where
  fits      : ∀ i, Fits n s.counter (s.pc i) (t.pc i)
  token     : s.arrival + s.departure + count s.pc SemaphoreBarrier.Pc.Holds = 1
  mutex     : Owned s.pc InMutex (s.mutex = true)
  arrival   : s.arrival = t.arrival.isSome.toNat
  departure : s.departure = t.departure.isSome.toNat
  arrived   : ∀ v, t.arrival = some v →
    s.counter = max n 1 - max v 1 ∧ v ≤ n ∧ (1 ≤ n → 1 ≤ v)
  departing : ∀ v, t.departure = some v → s.counter = max v 1 ∧ v ≤ n ∧ (1 ≤ n → 1 ≤ v)

namespace Corresponds

theorem init : Corresponds n (SemaphoreBarrier.init m) (newBarrier m n) where
  fits _ := ⟨trivial, trivial, fun h => absurd rfl h.left⟩
  token  := by
    have hn (i : Fin m) : ¬((SemaphoreBarrier.init m).pc i).Holds := fun h => h.left rfl
    rw [count_eq_zero hn]
    rfl
  mutex       := ⟨⟨False.elim, False.elim⟩, by simp [SemaphoreBarrier.init]⟩
  arrival     := rfl
  departure   := rfl
  departing v h := by cases h
  arrived v h := by
    obtain rfl := Option.some.inj h
    simp [SemaphoreBarrier.init]

variable (h : Corresponds n s t)
include h

theorem alone (hi : (s.pc i).Holds) (hj : j ≠ i) : ¬(s.pc j).Holds := by
  intro hn
  exact hj <| eq_of_count_le_one (by have := h.token; omega) hn hi

theorem arrival_eq_none (hn : s.arrival = 0) : t.arrival = none := by
  have ha := h.arrival
  cases hv : t.arrival
  case none   => rfl
  case some v => simp [hv, hn] at ha

theorem departure_eq_none (hn : s.departure = 0) : t.departure = none := by
  have hd := h.departure
  cases hv : t.departure
  case none   => rfl
  case some v => simp [hv, hn] at hd

theorem no_permit (hi : (s.pc i).Holds) :
    s.arrival = 0 ∧ s.departure = 0 ∧ t.arrival = none ∧ t.departure = none := by
  have hk := h.token
  have hc := count_pos (f := s.pc) hi
  have ha : s.arrival = 0 := by omega
  have hd : s.departure = 0 := by omega
  exact ⟨ha, hd, h.arrival_eq_none ha, h.departure_eq_none hd⟩

-- There is one permit at most.
theorem of_arrival (hv : t.arrival = some v) :
    s.arrival = 1 ∧ s.departure = 0 ∧ t.departure = none := by
  have ha : s.arrival = 1 := by simp [h.arrival, hv]
  have hk := h.token
  have hd : s.departure = 0 := by omega
  exact ⟨ha, hd, h.departure_eq_none hd⟩

theorem of_departure (hv : t.departure = some v) :
    s.departure = 1 ∧ s.arrival = 0 ∧ t.arrival = none := by
  have hd : s.departure = 1 := by simp [h.departure, hv]
  have hk := h.token
  have ha : s.arrival = 0 := by omega
  exact ⟨hd, ha, h.arrival_eq_none ha⟩

theorem fits_update (hn : ∀ j ≠ i, ¬(s.pc j).Holds) (hf : Fits n c p q) (j : Fin m) :
    Fits n c (update s.pc i p j) (update t.pc i q j) := by
  by_cases hj : j = i
  case pos => simpa [hj]
  case neg => simpa [hj] using (h.fits j).of_not_holds (hn j hj)

-- The thread with the permit keeps it.
theorem hold (hi : (s.pc i).Holds) (hp : p.Holds) (hs : s'.pc = update s.pc i p)
    (ha : s'.arrival = s.arrival) (hd : s'.departure = s.departure)
    (hf : Fits n s'.counter p (t.pc i)) (hm : Owned (update s.pc i p) InMutex (s'.mutex = true)) :
    Corresponds n s' t := by
  have ⟨_, _, hta, htd⟩ := h.no_permit hi
  constructor
  case fits =>
    intro j
    simpa [hs] using h.fits_update (fun _ hj => h.alone hi hj) hf j
  case token       => rw [ha, hd, hs, count_keep (by simp [hi, hp]), h.token]
  case mutex       => rwa [hs]
  case arrival     => rw [ha, h.arrival]
  case departure   => rw [hd, h.departure]
  case arrived     => simp [hta]
  case departing   => simp [htd]

-- A thread takes the permit.
theorem take (hi : ¬(s.pc i).Holds) (hk : s.arrival + s.departure = 1) (hp : p.Holds)
    (hm : ¬InMutex p) (hs : s'.pc = update s.pc i p) (ha : s'.arrival = 0) (hd : s'.departure = 0)
    (hx : s'.mutex = s.mutex) (hf : Fits n s'.counter p q) (ht : t'.pc = update t.pc i q)
    (hta : t'.arrival = none) (htd : t'.departure = none) : Corresponds n s' t' := by
  have hn (j : Fin m) : ¬(s.pc j).Holds := by
    intro hj
    have := count_pos (f := s.pc) hj
    have := h.token
    omega
  constructor
  case fits =>
    intro j
    rw [hs, ht]
    exact h.fits_update (fun j _ => hn j) hf j
  case token =>
    have hc := count_enter (f := s.pc) hi hp
    have := h.token
    rw [ha, hd, hs]
    omega
  case mutex =>
    rw [hs, hx]
    exact h.mutex.keep (iff_of_false hm fun hm => hi (holds_of_inMutex hm))
  case arrival     => rw [ha, hta]; rfl
  case departure   => rw [hd, htd]; rfl
  case arrived     => simp [hta]
  case departing   => simp [htd]

-- It gives the permit back.
theorem give (hi : (s.pc i).Holds) (hm : ¬InMutex (s.pc i)) (hp : ¬p.Holds)
    (hs : s'.pc = update s.pc i p) (hx : s'.mutex = s.mutex) (hk : s'.arrival + s'.departure = 1)
    (ht : t'.pc = update t.pc i q) (hf : Fits n s'.counter p q)
    (ha : s'.arrival = t'.arrival.isSome.toNat) (hd : s'.departure = t'.departure.isSome.toNat)
    (harr : ∀ v, t'.arrival = some v → s'.counter = max n 1 - max v 1 ∧ v ≤ n ∧ (1 ≤ n → 1 ≤ v))
    (hdep : ∀ v, t'.departure = some v → s'.counter = max v 1 ∧ v ≤ n ∧ (1 ≤ n → 1 ≤ v)) :
    Corresponds n s' t' where
  fits j := by
    rw [hs, ht]
    exact h.fits_update (fun _ hj => h.alone hi hj) hf j
  token := by
    have hc := count_leave (f := s.pc) hi hp
    have := h.token
    have := h.no_permit hi
    rw [hs]
    omega
  mutex := by
    rw [hs, hx]
    exact h.mutex.keep (iff_of_false (fun hm => hp (holds_of_inMutex hm)) hm)
  arrival   := ha
  departure := hd
  arrived   := harr
  departing := hdep

theorem mutex_free (hi : (s.pc i).Holds) (hm : ¬InMutex (s.pc i)) : s.mutex = false := by
  cases hx : s.mutex
  case false => rfl
  case true =>
    have ⟨j, hj⟩ := h.mutex.owner hx
    by_cases hji : j = i
    case pos => exact absurd (hji ▸ hj) hm
    case neg => exact absurd (holds_of_inMutex hj) (h.alone hi hji)

end Corresponds

end ChannelBarrier
