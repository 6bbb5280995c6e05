import Concurrencia.Channels.Barrier.Theorems.Agreement

open Function Threads

namespace ChannelBarrier

variable {m : ℕ} {n k v : ℤ} {s s' : SemaphoreBarrier.State m} {t : State m} {i : Fin m}

def Idle (t : State m) (i : Fin m) : Prop :=
  t.pc i = .idle

instance (t : State m) (i : Fin m) : Decidable (Idle t i) :=
  inferInstanceAs <| Decidable (_ = _)

-- No call of `barrier` has begun, or it is about to return.
def ThreadIdle (s : SemaphoreBarrier.State m) (i : Fin m) : Prop :=
  s.pc i = .idle

instance (s : SemaphoreBarrier.State m) (i : Fin m) : Decidable (ThreadIdle s i) :=
  inferInstanceAs <| Decidable (_ = _)

-- The goroutines are as fast as the threads.
theorem of_semaphores : Machine.CallSimulation (SemaphoreBarrier.machine m n) ThreadIdle
    (machine m n) Idle (Corresponds n) where
  init h := by
    obtain rfl := h
    exact ⟨_, rfl, .init⟩
  idle_iff h := h.idle_iff
  call {s s' t i} h hi hs := by
    have hr : rank (s.pc i) = 0 := by
      rw [hi]
      rfl
    have ⟨s₁, t', hs₁, ht, hc⟩ := h.sync (h.both_of_rank hr) (.inl (Option.isSome_of_eq_some hs))
    cases hs.symm.trans hs₁
    exact ⟨t', ht, hc⟩
  work {s s' t i} h hi hs := by
    cases hr : rank (s.pc i)
    case zero =>
      have ⟨s₁, t', hs₁, ht, hc⟩ := h.sync (h.both_of_rank hr) (.inl (Option.isSome_of_eq_some hs))
      cases hs.symm.trans hs₁
      exact ⟨t', .single (fun hq => hi (h.idle_iff.mpr hq)) ht, hc⟩
    case succ r =>
      have ⟨s₁, hs₁, hc, _⟩ := h.inner (i := i) (by omega)
      cases hs.symm.trans hs₁
      exact ⟨t, .refl, hc⟩

theorem of_channels : Machine.CallSimulation (machine m n) Idle (SemaphoreBarrier.machine m n)
    ThreadIdle fun t s => Corresponds n s t where
  init h := by
    obtain rfl := h
    exact ⟨_, rfl, .init⟩
  idle_iff h := h.idle_iff.symm
  call {t t' s i} h hi ht := by
    have hr : rank (s.pc i) = 0 := by
      rw [h.idle_iff.mpr hi]
      rfl
    have ⟨s', t₁, hs, ht₁, hc⟩ := h.sync (h.both_of_rank hr) (.inr (Option.isSome_of_eq_some ht))
    cases ht.symm.trans ht₁
    exact ⟨s', hs, hc⟩
  work {t t' s i} h hi ht := by
    have ⟨s₁, w, h₁, hr⟩ := h.settle (i := i)
    have ⟨s', t₁, hs, ht₁, hc⟩ := h₁.sync (h₁.both_of_rank hr) (.inr (Option.isSome_of_eq_some ht))
    cases ht.symm.trans ht₁
    exact ⟨s', w.trans (.single (fun hp => hi (h₁.idle_iff.mp hp)) hs), hc⟩

-- For `n` and for 1 the test finds the same, if `n` is at most 1.
theorem step_eq_one (h : Corresponds k s t) (hk : k ≤ 1) (hn : n ≤ 1) :
    SemaphoreBarrier.step n s i = SemaphoreBarrier.step 1 s i := by
  cases hp : s.pc i <;> simp only [SemaphoreBarrier.step, hp]
  case testIncrement =>
    have hf := h.fits i
    have hm := hf.pc
    have hv := hf.valid
    have hc := hf.counter (by rw [hp]; decide)
    rw [hp] at hm hc
    cases hq : t.pc i <;> simp only [hq, Pc.Valid, Pc.counter, ahead] at hm hv hc
    case sendArrival => omega
    case sendDeparture => rw [if_neg (by omega), if_neg (by omega)]
    all_goals exact absurd hm id

-- All `n` up to 1 are the same for the threads.
theorem of_le_one (hk : k ≤ 1) (hn : n ≤ 1) : Machine.CallSimulation
    (SemaphoreBarrier.machine m k) ThreadIdle (SemaphoreBarrier.machine m n) ThreadIdle
    fun s s' => s = s' ∧ ∃ t, Corresponds k s t where
  init h := by
    obtain rfl := h
    exact ⟨_, rfl, rfl, _, .init⟩
  idle_iff h := h.left ▸ Iff.rfl
  call {s s' t i} h hi hs := by
    obtain ⟨rfl, u, hu⟩ := h
    have ⟨u', _, hu'⟩ := of_semaphores.call hu hi hs
    refine ⟨s', ?_, rfl, u', hu'⟩
    exact (step_eq_one hu hk hn).trans ((step_eq_one hu hk hk).symm.trans hs)
  work {s s' t i} h hi hs := by
    obtain ⟨rfl, u, hu⟩ := h
    have ⟨u', _, hu'⟩ := of_semaphores.work hu hi hs
    refine ⟨s', .single hi ?_, rfl, u', hu'⟩
    exact (step_eq_one hu hk hn).trans ((step_eq_one hu hk hk).symm.trans hs)

-- The calls and returns of the two programs.
def History (m : ℕ) (n : ℤ) (l : List (Machine.CallEvent (Fin m))) : Prop :=
  ((machine m n).callers Idle).History Machine.callEvent l

def ThreadHistory (m : ℕ) (n : ℤ) (l : List (Machine.CallEvent (Fin m))) : Prop :=
  ((SemaphoreBarrier.machine m n).callers ThreadIdle).History Machine.callEvent l

theorem history_iff {l : List (Machine.CallEvent (Fin m))} :
    History m n l ↔ ThreadHistory m n l :=
  ⟨of_channels.simulation.history, of_semaphores.simulation.history⟩

theorem threadHistory_iff_one {l : List (Machine.CallEvent (Fin m))} (hn : n ≤ 1) :
    ThreadHistory m n l ↔ ThreadHistory m 1 l :=
  ⟨(of_le_one hn le_rfl).simulation.history, (of_le_one le_rfl hn).simulation.history⟩

namespace Corresponds

variable (h : Corresponds n s t)
include h

theorem arrival_iff (hn : 1 ≤ n) : t.arrival = some v ↔ s.arrival = 1 ∧ s.counter = n - v := by
  constructor
  case mp =>
    intro hv
    have ⟨hc, _, h1⟩ := h.arrived v hv
    have := h1 hn
    exact ⟨(h.of_arrival hv).left, by omega⟩
  case mpr =>
    rintro ⟨ha, hc⟩
    cases hv : t.arrival
    case none => simp [h.arrival, hv] at ha
    case some w =>
      have ⟨hc', _, h1⟩ := h.arrived w hv
      have := h1 hn
      rw [Option.some.injEq]
      omega

theorem departure_iff (hn : 1 ≤ n) : t.departure = some v ↔ s.departure = 1 ∧ s.counter = v := by
  constructor
  case mp =>
    intro hv
    have ⟨hc, _, h1⟩ := h.departing v hv
    have := h1 hn
    exact ⟨(h.of_departure hv).left, by omega⟩
  case mpr =>
    rintro ⟨hd, hc⟩
    cases hv : t.departure
    case none => simp [h.departure, hv] at hd
    case some w =>
      have ⟨hc', _, h1⟩ := h.departing w hv
      have := h1 hn
      rw [Option.some.injEq]
      omega

end Corresponds

-- Sends to one of the channels.
def Pc.Sends : Pc → Prop
  | sendArrival _ | sendDeparture | resendDeparture _ | resendArrival => True
  | _                                                                => False

theorem Corresponds.channels_empty (h : Corresponds n s t) (hi : (t.pc i).Sends) :
    t.arrival = none ∧ t.departure = none := by
  have hm := (h.fits i).pc
  have hs : (s.pc i).Holds := by
    cases hp : s.pc i <;> cases hq : t.pc i <;> rw [hp, hq] at hm <;> rw [hq] at hi <;> first
      | exact absurd hm id
      | exact absurd hi id
      | decide
  exact (h.no_permit hs).right.right

theorem barriers_agree (m : ℕ) (n : ℤ) :
    (∀ l, History m n l ↔ ThreadHistory m n l) ∧
    (1 ≤ n → ∃ R : SemaphoreBarrier.State m → State m → Prop,
      Machine.CallSimulation (SemaphoreBarrier.machine m n) ThreadIdle (machine m n) Idle R ∧
      Machine.CallSimulation (machine m n) Idle (SemaphoreBarrier.machine m n) ThreadIdle (flip R) ∧
      ∀ s t, R s t → ∀ v, (t.arrival = some v ↔ s.arrival = 1 ∧ s.counter = n - v) ∧
        (t.departure = some v ↔ s.departure = 1 ∧ s.counter = v)) ∧
    (n ≤ 0 → ∀ l, (History m n l ↔ History m 1 l) ∧ (ThreadHistory m n l ↔ ThreadHistory m 1 l)) ∧
    ∀ t i, (machine m n).Reachable t → (t.pc i).Sends → t.arrival = none ∧ t.departure = none := by
  refine ⟨fun l => history_iff, ?_, ?_, ?_⟩
  · intro hn
    refine ⟨Corresponds n, of_semaphores, of_channels, ?_⟩
    exact fun s t h v => ⟨h.arrival_iff hn, h.departure_iff hn⟩
  · intro hn l
    have hn : n ≤ 1 := by omega
    have ht := threadHistory_iff_one (l := l) hn
    exact ⟨history_iff.trans (ht.trans history_iff.symm), ht⟩
  · intro t i r hi
    have ⟨s, h⟩ := of_channels.related r
    exact h.channels_empty hi

end ChannelBarrier
