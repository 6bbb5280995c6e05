import Concurrencia.Channels.Barrier.Theorems.Correspondence

open Function Threads

namespace ChannelBarrier

variable {m : ℕ} {n c v : ℤ} {s s' : SemaphoreBarrier.State m} {t t' : State m} {i j : Fin m}
variable {p : SemaphoreBarrier.Pc} {q : Pc}

-- How many statements there are before the post.
def rank : SemaphoreBarrier.Pc → ℕ
  | .lockIncrement | .lockDecrement     => 4
  | .increment | .decrement             => 3
  | .unlockIncrement | .unlockDecrement => 2
  | .testIncrement | .testDecrement     => 1
  | _                                   => 0

-- The statements which are steps of both.
inductive Both : SemaphoreBarrier.Pc → Pc → Prop
  | call : Both .idle .idle
  | arrive : Both .waitArrival .receiveArrival
  | postArrival : Both .postArrival (.sendArrival w)
  | postDeparture : Both .postDeparture .sendDeparture
  | depart : Both .waitDeparture .receiveDeparture
  | repostDeparture : Both .repostDeparture (.resendDeparture w)
  | repostArrival : Both .repostArrival .resendArrival

theorem Both.of_matches (hm : Matches p q) (hr : rank p = 0) : Both p q := by
  cases p <;> cases q <;> first
    | constructor
    | exact absurd hm id
    | exact absurd hr (Nat.succ_ne_zero _)

namespace Corresponds

variable (h : Corresponds n s t)
include h

theorem fits_of (hp : s.pc i = p) : Fits n s.counter p (t.pc i) :=
  hp ▸ h.fits i

theorem inner_of (hs : SemaphoreBarrier.step n s i = some s') (hi : (s.pc i).Holds) (hp : p.Holds)
    (hpc : s'.pc = update s.pc i p) (ha : s'.arrival = s.arrival) (hd : s'.departure = s.departure)
    (hf : Fits n s'.counter p (t.pc i)) (hm : Owned (update s.pc i p) InMutex (s'.mutex = true))
    (hr : rank p < rank (s.pc i)) :
    ∃ s', SemaphoreBarrier.step n s i = some s' ∧ Corresponds n s' t ∧
      rank (s'.pc i) < rank (s.pc i) :=
  ⟨s', hs, h.hold hi hp hpc ha hd hf hm, by simpa [hpc]⟩

-- The statements of a thread with the permit which change neither of the semaphores.
theorem inner (hr : 0 < rank (s.pc i)) :
    ∃ s', SemaphoreBarrier.step n s i = some s' ∧ Corresponds n s' t ∧
      rank (s'.pc i) < rank (s.pc i) := by
  cases hp : s.pc i <;> simp only [rank, hp] at hr
  case idle | waitArrival | postArrival | postDeparture | waitDeparture | repostDeparture
      | repostArrival => exact absurd hr (Nat.lt_irrefl 0)
  all_goals
    rw [← hp]
    have hi : (s.pc i).Holds := by
      rw [hp]
      decide
    have hf := h.fits_of hp
  case lockIncrement =>
    have hx := h.mutex_free hi (by simp [hp, InMutex])
    have hs : SemaphoreBarrier.step n s i = some ({ s with mutex := true }.goto i .increment) := by
      simp [SemaphoreBarrier.step, SemaphoreBarrier.lock, hp, hx]
    refine h.inner_of hs hi (p := .increment) (by decide) rfl rfl rfl ?_ ?_ (by simp [hp, rank])
    · exact hf.move (by decide) (by cases t.pc i <;> exact id) rfl
    · exact h.mutex.take (by simp [hx]) trivial rfl
  case lockDecrement =>
    have hx := h.mutex_free hi (by simp [hp, InMutex])
    have hs : SemaphoreBarrier.step n s i = some ({ s with mutex := true }.goto i .decrement) := by
      simp [SemaphoreBarrier.step, SemaphoreBarrier.lock, hp, hx]
    refine h.inner_of hs hi (p := .decrement) (by decide) rfl rfl rfl ?_ ?_ (by simp [hp, rank])
    · exact hf.move (by decide) (by cases t.pc i <;> exact id) rfl
    · exact h.mutex.take (by simp [hx]) trivial rfl
  case increment =>
    have hs : SemaphoreBarrier.step n s i =
        some ({ s with counter := s.counter + 1 }.goto i .unlockIncrement) := by
      simp [SemaphoreBarrier.step, hp]
    refine h.inner_of hs hi (p := .unlockIncrement) (by decide) rfl rfl rfl ?_ ?_
      (by simp [hp, rank])
    · exact hf.move (by decide) (by cases t.pc i <;> exact id) (by simp [ahead])
    · exact h.mutex.keep (by simp [hp, InMutex])
  case decrement =>
    have hs : SemaphoreBarrier.step n s i =
        some ({ s with counter := s.counter - 1 }.goto i .unlockDecrement) := by
      simp [SemaphoreBarrier.step, hp]
    refine h.inner_of hs hi (p := .unlockDecrement) (by decide) rfl rfl rfl ?_ ?_
      (by simp [hp, rank])
    · exact hf.move (by decide) (by cases t.pc i <;> exact id) (by simp [ahead]; omega)
    · exact h.mutex.keep (by simp [hp, InMutex])
  case unlockIncrement =>
    have hs : SemaphoreBarrier.step n s i =
        some ({ s with mutex := false }.goto i .testIncrement) := by
      simp [SemaphoreBarrier.step, SemaphoreBarrier.unlock, hp]
    refine h.inner_of hs hi (p := .testIncrement) (by decide) rfl rfl rfl ?_ ?_
      (by simp [hp, rank])
    · exact hf.move (by decide) (by cases t.pc i <;> exact id) rfl
    · exact h.mutex.free (by simp [hp, InMutex]) id (by simp)
  case unlockDecrement =>
    have hs : SemaphoreBarrier.step n s i =
        some ({ s with mutex := false }.goto i .testDecrement) := by
      simp [SemaphoreBarrier.step, SemaphoreBarrier.unlock, hp]
    refine h.inner_of hs hi (p := .testDecrement) (by decide) rfl rfl rfl ?_ ?_
      (by simp [hp, rank])
    · exact hf.move (by decide) (by cases t.pc i <;> exact id) rfl
    · exact h.mutex.free (by simp [hp, InMutex]) id (by simp)
  case testIncrement =>
    have hs : SemaphoreBarrier.step n s i =
        some (s.goto i (if s.counter < n then .postArrival else .postDeparture)) := by
      simp [SemaphoreBarrier.step, hp]
    refine h.inner_of hs hi ?_ rfl rfl rfl hf.testIncrement (h.mutex.keep ?_) ?_
    · split_ifs <;> decide
    · split_ifs <;> simp [hp, InMutex]
    · split_ifs <;> simp [hp, rank]
  case testDecrement =>
    have hs : SemaphoreBarrier.step n s i =
        some (s.goto i (if s.counter > 0 then .repostDeparture else .repostArrival)) := by
      simp [SemaphoreBarrier.step, hp]
    refine h.inner_of hs hi ?_ rfl rfl rfl hf.testDecrement (h.mutex.keep ?_) ?_
    · split_ifs <;> decide
    · split_ifs <;> simp [hp, InMutex]
    · split_ifs <;> simp [hp, rank]

end Corresponds

-- A thread with the permit can go on until it posts.
theorem Corresponds.settle (h : Corresponds n s t) :
    ∃ s', (SemaphoreBarrier.machine m n).Works (fun s i => s.pc i = .idle) i s s' ∧
      Corresponds n s' t ∧ rank (s'.pc i) = 0 := by
  induction hr : rank (s.pc i) using Nat.strong_induction_on generalizing s
  case h r hi =>
    cases r
    case zero => exact ⟨s, .refl, h, hr⟩
    case succ r =>
      have ⟨s₁, hs, h₁, hl⟩ := h.inner (i := i) (by omega)
      have ⟨s₂, w, h₂, hz⟩ := hi _ (hr ▸ hl) h₁ rfl
      refine ⟨s₂, .step ?_ hs w, h₂, hz⟩
      intro hn
      simp [hn, rank] at hr

namespace Corresponds

variable (h : Corresponds n s t)
include h

theorem call (hp : s.pc i = .idle) :
    Corresponds n (s.goto i .waitArrival) (t.goto i .receiveArrival) where
  fits j := by
    by_cases hj : j = i
    case pos =>
      simp only [hj, SemaphoreBarrier.State.goto_pc, State.goto_pc, update_self]
      exact ⟨trivial, trivial, fun hn => absurd rfl hn.right.left⟩
    case neg => simpa [hj] using h.fits j
  token := by
    rw [SemaphoreBarrier.State.goto_pc, count_keep (by simp [hp, SemaphoreBarrier.Pc.Holds])]
    exact h.token
  mutex     := h.mutex.keep (by simp [hp, InMutex])
  arrival   := h.arrival
  departure := h.departure
  arrived   := h.arrived
  departing := h.departing

theorem arrive (hp : s.pc i = .waitArrival) (hv : t.arrival = some v) :
    Corresponds n ({ s with arrival := s.arrival - 1 }.goto i .lockIncrement)
      ({ t with arrival := none }.goto i
        (if v > 1 then .sendArrival (v - 1) else .sendDeparture)) := by
  have ⟨ha, hd, htd⟩ := h.of_arrival hv
  have ⟨hc, hn, _⟩ := h.arrived v hv
  refine h.take (i := i) (p := .lockIncrement) (by simp [hp, SemaphoreBarrier.Pc.Holds]) (by omega)
    (by decide) id rfl (by simp [ha]) hd rfl ?_ rfl rfl htd
  split_ifs with h1
  · exact ⟨trivial, by simp only [Pc.Valid]; omega, fun _ => by simp [ahead, Pc.counter]; omega⟩
  · exact ⟨trivial, trivial, fun _ => by simp [ahead, Pc.counter]; omega⟩

theorem depart (hp : s.pc i = .waitDeparture) (hv : t.departure = some v) :
    Corresponds n ({ s with departure := s.departure - 1 }.goto i .lockDecrement)
      ({ t with departure := none }.goto i
        (if v > 1 then .resendDeparture (v - 1) else .resendArrival)) := by
  have ⟨hd, ha, hta⟩ := h.of_departure hv
  have ⟨hc, hn, _⟩ := h.departing v hv
  refine h.take (i := i) (p := .lockDecrement) (by simp [hp, SemaphoreBarrier.Pc.Holds]) (by omega)
    (by decide) id rfl ha (by simp [hd]) rfl ?_ rfl hta rfl
  split_ifs with h1
  · exact ⟨trivial, by simp only [Pc.Valid]; omega, fun _ => by simp [ahead, Pc.counter]; omega⟩
  · exact ⟨trivial, trivial, fun _ => by simp [ahead, Pc.counter]; omega⟩

theorem giveArrival (hi : (s.pc i).Holds) (hm : ¬InMutex (s.pc i)) (hp : ¬p.Holds)
    (hf : Fits n s.counter p q)
    (hv : s.counter = max n 1 - max v 1 ∧ v ≤ n ∧ (1 ≤ n → 1 ≤ v)) :
    Corresponds n ({ s with arrival := s.arrival + 1 }.goto i p)
      ({ t with arrival := some v }.goto i q) := by
  have ⟨ha, hd, _, htd⟩ := h.no_permit hi
  refine h.give hi hm hp rfl rfl (by simp [ha, hd]) rfl hf (by simp [ha]) (by simp [hd, htd]) ?_ ?_
  · simpa using hv
  · simp [htd]

theorem giveDeparture (hi : (s.pc i).Holds) (hm : ¬InMutex (s.pc i)) (hp : ¬p.Holds)
    (hf : Fits n s.counter p q) (hv : s.counter = max v 1 ∧ v ≤ n ∧ (1 ≤ n → 1 ≤ v)) :
    Corresponds n ({ s with departure := s.departure + 1 }.goto i p)
      ({ t with departure := some v }.goto i q) := by
  have ⟨ha, hd, hta, _⟩ := h.no_permit hi
  refine h.give hi hm hp rfl rfl (by simp [ha, hd]) rfl hf (by simp [ha, hta]) (by simp [hd]) ?_ ?_
  · simp [hta]
  · simpa using hv

omit h in
theorem fits_outside (hp : ¬p.Holds) (hm : Matches p q) (hv : q.Valid n) : Fits n c p q :=
  ⟨hm, hv, fun hn => absurd hn hp⟩

-- A thread and its goroutine are both blocked, or they take their steps at the same time.
theorem sync (hb : Both (s.pc i) (t.pc i))
    (hx : (SemaphoreBarrier.step n s i).isSome ∨ (step n t i).isSome) :
    ∃ s' t', SemaphoreBarrier.step n s i = some s' ∧ step n t i = some t' ∧
      Corresponds n s' t' := by
  have hv := (h.fits i).valid
  have hc := (h.fits i).counter
  generalize hp : s.pc i = p at hb hc
  generalize hq : t.pc i = q at hb hv hc
  cases hb
  case call => exact ⟨_, _, by simp [SemaphoreBarrier.step, hp], by simp [step, hq], h.call hp⟩
  case arrive =>
    obtain ⟨v, hv⟩ : ∃ v, t.arrival = some v := by
      apply Option.isSome_iff_exists.mp
      cases ha : t.arrival <;> simp_all [SemaphoreBarrier.step, step, receive, h.arrival]
    obtain ⟨ha, _⟩ := h.of_arrival hv
    exact ⟨_, _, by simp [SemaphoreBarrier.step, hp, ha], by simp [step, receive, hq, hv],
      h.arrive hp hv⟩
  case depart =>
    obtain ⟨v, hv⟩ : ∃ v, t.departure = some v := by
      apply Option.isSome_iff_exists.mp
      cases hd : t.departure <;> simp_all [SemaphoreBarrier.step, step, receive, h.departure]
    obtain ⟨hd, _⟩ := h.of_departure hv
    exact ⟨_, _, by simp [SemaphoreBarrier.step, hp, hd], by simp [step, receive, hq, hv],
      h.depart hp hv⟩
  case postArrival v =>
    have hi : (s.pc i).Holds := by rw [hp]; decide
    obtain ⟨_, _, hta, _⟩ := h.no_permit hi
    have hc := hc (by decide)
    simp only [Pc.Valid, Pc.counter, ahead] at hv hc
    exact ⟨_, _, by simp [SemaphoreBarrier.step, hp], by simp [step, send, hq, hta],
      h.giveArrival (p := .waitDeparture) (q := .receiveDeparture) (v := v) hi
        (by simp [hp, InMutex]) (by decide) (fits_outside (by decide) trivial trivial) (by omega)⟩
  case postDeparture =>
    have hi : (s.pc i).Holds := by rw [hp]; decide
    obtain ⟨_, _, _, htd⟩ := h.no_permit hi
    have hc := hc (by decide)
    simp only [Pc.counter, ahead] at hc
    exact ⟨_, _, by simp [SemaphoreBarrier.step, hp], by simp [step, send, hq, htd],
      h.giveDeparture (p := .waitDeparture) (q := .receiveDeparture) (v := n) hi
        (by simp [hp, InMutex]) (by decide) (fits_outside (by decide) trivial trivial) (by omega)⟩
  case repostDeparture v =>
    have hi : (s.pc i).Holds := by rw [hp]; decide
    obtain ⟨_, _, _, htd⟩ := h.no_permit hi
    have hc := hc (by decide)
    simp only [Pc.Valid, Pc.counter, ahead] at hv hc
    exact ⟨_, _, by simp [SemaphoreBarrier.step, hp], by simp [step, send, hq, htd],
      h.giveDeparture (p := .idle) (q := .idle) (v := v) hi
        (by simp [hp, InMutex]) (by decide) (fits_outside (by decide) trivial trivial) (by omega)⟩
  case repostArrival =>
    have hi : (s.pc i).Holds := by rw [hp]; decide
    obtain ⟨_, _, hta, _⟩ := h.no_permit hi
    have hc := hc (by decide)
    simp only [Pc.counter, ahead] at hc
    exact ⟨_, _, by simp [SemaphoreBarrier.step, hp], by simp [step, send, hq, hta],
      h.giveArrival (p := .idle) (q := .idle) (v := n) hi
        (by simp [hp, InMutex]) (by decide) (fits_outside (by decide) trivial trivial) (by omega)⟩

theorem idle_iff : s.pc i = .idle ↔ t.pc i = .idle := by
  have hm := (h.fits i).pc
  constructor
  case mp =>
    intro hp
    rw [hp] at hm
    cases hq : t.pc i <;> rw [hq] at hm
    all_goals exact absurd hm id
  case mpr =>
    intro hq
    rw [hq] at hm
    cases hp : s.pc i <;> rw [hp] at hm
    all_goals exact absurd hm id

theorem both_of_rank (hr : rank (s.pc i) = 0) : Both (s.pc i) (t.pc i) :=
  .of_matches (h.fits i).pc hr

end Corresponds

end ChannelBarrier
