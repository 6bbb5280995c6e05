import Concurrencia.Monitors.Barrier.Theorems.Rounds
import Mathlib

open Function Threads Finset

namespace MonitorBarrier

open CyclicBarrier (Event)

section Turn

variable {n : ℕ} {s s' : State n} {i : Fin n} {p : Pc} {e : Option (Event (Fin n))}

-- Somebody has the mutex while it is taken, and the last thread to arrive takes the turn.
structure Turning (s : State n) : Prop where
  owned : Owned s.pc Pc.HasMutex (s.mutex = true)
  full  : 0 < n → s.arrived = n → ∃ i, s.pc i = .test ∨ s.pc i = .reset

namespace Turning

theorem init : Turning (init n) where
  owned    := ⟨⟨False.elim, False.elim⟩, nofun⟩
  full h e := absurd e h.ne

variable (h : Turning s)
include h

-- The step of a thread which does not find that it is the last one.
theorem move (hs : s'.pc = update s.pc i p) (ha : s'.arrived = s.arrived)
    (ho : Owned s'.pc Pc.HasMutex (s'.mutex = true))
    (hi : s.pc i = .test ∨ s.pc i = .reset → s.arrived = n → p = .reset) : Turning s' where
  owned := ho
  full hn he := by
    rw [ha] at he
    have ⟨j, hj⟩ := h.full hn he
    refine ⟨j, ?_⟩
    rw [hs]
    by_cases hji : j = i
    case pos =>
      subst hji
      exact .inr (by simpa using hi hj he)
    case neg => simpa [hji] using hj

theorem step (inv : Inv s) (hs : Step s e s') : Turning s' := by
  cases hs
  case call hp =>
    exact h.move rfl rfl (h.owned.keep (by simp [hp, Pc.HasMutex])) (by simp [hp])
  case last hp _ =>
    exact h.move rfl rfl (h.owned.keep (by simp [hp, Pc.HasMutex])) fun _ _ => rfl
  case early hp hn =>
    exact h.move rfl rfl (h.owned.keep (by simp [hp, Pc.HasMutex])) fun _ h => absurd h hn
  case lockMutex hp hm | relock hp hm =>
    exact h.move rfl rfl (h.owned.take (by simp [hm]) trivial rfl) (by simp [hp])
  case wait hp | leave hp =>
    exact h.move rfl rfl (h.owned.free (by simp [hp, Pc.HasMutex]) id (by simp)) (by simp [hp])
  case arrive i hp =>
    exact ⟨h.owned.keep (by simp [hp, Pc.HasMutex]), fun _ _ => ⟨i, .inl (update_self ..)⟩⟩
  case reset hp =>
    exact ⟨h.owned.keep (by simp [hp, Pc.HasMutex]), fun hn h => absurd h hn.ne⟩
  case broadcast i hp =>
    refine ⟨⟨(inv.broadcast hp).mutex, fun _ => ⟨i, ?_⟩⟩, fun hn h => ?_⟩
    · simp [Pc.HasMutex]
    · exact absurd ((inv.last i hp).left.symm.trans h) hn.ne

end Turning

end Turn

-- The threads of the program call `barrier` `k` times, and print in between. `calls` counts the calls
-- of each of them.
structure Program (n : ℕ) where
  barrier : State n
  calls   : Fin n → ℕ

namespace Program

variable {n k : ℕ}

def step (k : ℕ) (s : Program n) (i : Fin n) : Option (Program n) :=
  if s.barrier.pc i = .idle then
    if s.calls i < k then
      (threadStep s.barrier i).map fun b => ⟨b, update s.calls i (s.calls i + 1)⟩
    else none
  else (threadStep s.barrier i).map fun b => ⟨b, s.calls⟩

def machine (n k : ℕ) : Machine (Program n) (Fin n) where
  init s := s = ⟨init n, fun _ => 0⟩
  step   := step k

def Finished (k : ℕ) (s : Program n) : Prop :=
  ∀ i, s.barrier.pc i = .idle ∧ s.calls i = k

-- The calls from which a thread has returned.
def returns (s : Program n) (i : Fin n) : ℕ :=
  s.calls i - if s.barrier.pc i = .idle then 0 else 1

variable {s s' : Program n} {i j : Fin n}

-- A step of the program is one of the barrier, and may begin a call.
theorem step_cases (h : step k s i = some s') :
    threadStep s.barrier i = some s'.barrier ∧
    (s.barrier.pc i = .idle ∧ s.calls i < k ∧ s'.calls = update s.calls i (s.calls i + 1) ∨
      s.barrier.pc i ≠ .idle ∧ s'.calls = s.calls) := by
  unfold step at h
  split_ifs at h with hp hk
  · obtain ⟨b, hb, rfl⟩ := Option.map_eq_some_iff.mp h
    exact ⟨hb, .inl ⟨hp, hk, rfl⟩⟩
  · obtain ⟨b, hb, rfl⟩ := Option.map_eq_some_iff.mp h
    exact ⟨hb, .inr ⟨hp, rfl⟩⟩

theorem isSome_step (hi : s.barrier.pc i ≠ .idle) (hw : s.barrier.pc i ≠ .waiting)
    (hm : s.barrier.mutex = false ∨ (s.barrier.pc i).HasMutex) : (step k s i).isSome := by
  rw [step, if_neg hi]
  cases hp : s.barrier.pc i <;> simp_all [threadStep, takeMutex, Pc.HasMutex]

theorem isSome_call (hi : s.barrier.pc i = .idle) (hk : s.calls i < k) : (step k s i).isSome := by
  simp [step, threadStep, hi, hk]

structure Inv (k : ℕ) (s : Program n) : Prop where
  barrier  : ∃ l, (((MonitorBarrier.machine n).only Notified).logging event).Reachable (s.barrier, l) ∧
    ∀ i, l.count (.call i) = s.calls i
  turning  : Turning s.barrier
  calls_le : ∀ i, s.calls i ≤ k

namespace Inv

theorem init : Inv k ⟨MonitorBarrier.init n, fun _ => 0⟩ where
  barrier    := ⟨[], .init ⟨rfl, rfl⟩, fun _ => rfl⟩
  turning    := .init
  calls_le _ := Nat.zero_le k

variable (h : Inv k s)
include h

theorem reachable : ((MonitorBarrier.machine n).only Notified).Reachable s.barrier :=
  have ⟨_, r, _⟩ := h.barrier
  r.of_logging

theorem step (hs : step k s i = some s') : Inv k s' := by
  have ⟨hb, hc⟩ := step_cases hs
  have hm : ((MonitorBarrier.machine n).only Notified).step s.barrier (.thread i) = some s'.barrier :=
    Machine.only_step.mpr ⟨trivial, hb⟩
  have inv := inv_of_reachable h.reachable
  have ⟨l, r, hl⟩ := h.barrier
  constructor
  case turning => exact h.turning.step inv (.of_thread hb)
  case barrier =>
    refine ⟨_, r.step (Machine.logging_step.mpr ⟨hm, rfl⟩), fun j => ?_⟩
    rw [List.count_append, hl]
    obtain ⟨hp, _, hc⟩ | ⟨hp, hc⟩ := hc
    · by_cases hj : j = i
      · simp [event, hp, hc, hj]
      · simp [event, hp, hc, hj, Ne.symm hj]
    · rw [hc]
      cases hq : s.barrier.pc i <;> simp [event, hq] at hp ⊢
  case calls_le =>
    intro j
    obtain ⟨_, hk, hc⟩ | ⟨_, hc⟩ := hc
    · rw [hc]
      by_cases hj : j = i
      · rw [hj, update_self]
        exact hk
      · simpa [hj] using h.calls_le j
    · rw [hc]
      exact h.calls_le j

end Inv

theorem inv_of_reachable (r : (machine n k).Reachable s) : Inv k s := by
  apply r.invariant
  case init =>
    rintro _ rfl
    exact .init
  case step => exact fun _ _ _ _ inv h => inv.step h

namespace Inv

variable (inv : Inv k s)
include inv

-- A thread which waits is one call ahead of those which have returned.
theorem calls_of_waiting (hi : s.barrier.pc i = .waiting) (hj : s.barrier.pc j = .idle) :
    s.calls i = s.calls j + 1 := by
  have ⟨l, r, hl⟩ := inv.barrier
  have ti := CyclicBarrier.tally_of_run (run_of_reachable r) i
  have tj := CyclicBarrier.tally_of_run (run_of_reachable r) j
  have ⟨hci, hti, _⟩ := ti
  have ⟨hcj, htj, _⟩ := tj
  simp [CyclicBarrier.init, State.stages, hi, hj, Pc.stage] at hci hti hcj htj
  rw [← hl, ← hl]
  omega

-- Not all threads wait.
theorem exists_not_waiting (i : Fin n) : ∃ j, s.barrier.pc j ≠ .waiting := by
  by_contra hn
  have hw (j : Fin n) : s.barrier.pc j = .waiting := by_contra fun h => hn ⟨j, h⟩
  have hb := MonitorBarrier.inv_of_reachable inv.reachable
  have hc := hb.counted fun j => by simp [hw]
  have ha : s.barrier.arrived = n := by
    by_contra hne
    have hlt : count s.barrier.pc Pc.Arrived < Fintype.card (Fin n) :=
      lt_of_le_of_ne count_le_card (by rwa [← hc, Fintype.card_fin])
    obtain ⟨j, hj⟩ := exists_of_count_lt hlt
    simp [hw, Pc.Arrived, Pc.stage] at hj
  obtain ⟨j, hj⟩ := inv.turning.full (Fin.pos i) ha
  simp [hw] at hj

-- If no thread can go on, the mutex is free, and so all of them wait or have returned. Those which
-- have returned have made their last call, and one which waits would have made one more.
theorem live (hf : ¬Finished k s) : (machine n k).Live s := by
  by_contra hl
  have stuck (i : Fin n) : ¬(Program.step k s i).isSome := fun h => hl ⟨i, h⟩
  have hm : s.barrier.mutex = false := by
    by_contra hm
    obtain ⟨j, hj⟩ := inv.turning.owned.owner (by simpa using hm)
    refine stuck j (isSome_step ?_ ?_ (.inr hj))
    all_goals
      intro hp
      simp [hp, Pc.HasMutex] at hj
  have hp (i : Fin n) (hi : s.barrier.pc i ≠ .waiting) : s.barrier.pc i = .idle ∧ s.calls i = k := by
    have hi : s.barrier.pc i = .idle := by
      by_contra hn
      exact stuck i (isSome_step hn hi (.inl hm))
    refine ⟨hi, (inv.calls_le i).antisymm ?_⟩
    by_contra hk
    exact stuck i (isSome_call hi (not_le.mp hk))
  obtain ⟨i, hi⟩ : ∃ i, s.barrier.pc i = .waiting := by
    by_contra hw
    exact hf fun i => hp i fun h => hw ⟨i, h⟩
  obtain ⟨j, hj⟩ := inv.exists_not_waiting i
  obtain ⟨hj, hk⟩ := hp j hj
  have := inv.calls_of_waiting hi hj
  have := inv.calls_le i
  omega

end Inv

end Program

namespace Pc

-- The steps which are left in the call.
def rank : Pc → ℕ
  | idle        => 0
  | lockMutex   => 9
  | arrive      => 8
  | test        => 7
  | reset       => 6
  | broadcast   => 5
  | wait        => 4
  | waiting     => 3
  | relock      => 2
  | unlockMutex => 1

theorem rank_notified (p : Pc) : p.notified.rank ≤ p.rank := by
  cases p <;> decide

end Pc

section Rank

variable {n : ℕ} {s s' : State n} {i j : Fin n}

theorem rank_of_other (h : threadStep s i = some s') (hj : j ≠ i) : (s'.pc j).rank ≤ (s.pc j).rank := by
  cases hp : s.pc i <;> simp only [threadStep, takeMutex, hp, reduceCtorEq] at h
  case lockMutex | relock =>
    split_ifs at h
    cases h
    simp [hj]
  all_goals cases h
  case broadcast => simpa [hj, State.notifyAll] using (s.pc j).rank_notified
  all_goals simp [hj]

theorem rank_lt (h : threadStep s i = some s') (hi : s.pc i ≠ .idle) :
    (s'.pc i).rank < (s.pc i).rank := by
  cases hp : s.pc i <;> simp only [threadStep, takeMutex, hp, reduceCtorEq] at h
  case lockMutex | relock =>
    split_ifs at h
    cases h
    simp [Pc.rank]
  case test =>
    cases h
    rw [State.goto_pc, update_self]
    split_ifs <;> simp [Pc.rank]
  case idle => exact absurd hp hi
  all_goals
    cases h
    simp [Pc.rank]

end Rank

namespace Program

variable {n k : ℕ} {s s' : Program n} {i j : Fin n}

def left (k : ℕ) (s : Program n) (i : Fin n) : ℕ :=
  (k - s.calls i) * 10 + (s.barrier.pc i).rank

theorem left_lt_self (h : step k s i = some s') : left k s' i < left k s i := by
  have ⟨hb, hc⟩ := step_cases h
  obtain ⟨hi, hk, hc⟩ | ⟨hi, hc⟩ := hc
  · have hp : s'.barrier.pc i = .lockMutex := by
      simp only [threadStep, hi, Option.some.injEq] at hb
      simp [← hb]
    simp only [left, hc, update_self, hi, hp, Pc.rank]
    omega
  · have hr := rank_lt hb hi
    simp only [left, hc]
    omega

theorem left_le_of_ne (h : step k s i = some s') (hj : j ≠ i) : left k s' j ≤ left k s j := by
  have ⟨hb, hc⟩ := step_cases h
  have hr := rank_of_other hb hj
  obtain ⟨_, _, hc⟩ | ⟨_, hc⟩ := hc
  all_goals simp only [left, hc, update_of_ne hj]
  all_goals omega

theorem left_lt (h : step k s i = some s') : ∑ j, left k s' j < ∑ j, left k s j := by
  refine sum_lt_sum (fun j _ => ?_) ⟨i, mem_univ i, left_lt_self h⟩
  by_cases hj : j = i
  case pos => exact hj ▸ (left_lt_self h).le
  case neg => exact left_le_of_ne h hj

theorem run_length_le {as : List (Fin n)} (hi : (machine n k).init s)
    (r : (machine n k).Run s as s') : as.length ≤ n * (k * 10) := by
  have hl := r.length_add_le (μ := fun s => ∑ i, left k s i) fun h => left_lt h
  obtain rfl := hi
  simp [left, MonitorBarrier.init, Pc.rank] at hl
  omega

theorem Inv.returns_le (inv : Inv k s) (i j : Fin n) : s.returns i ≤ s.calls j := by
  have ⟨l, r, hl⟩ := inv.barrier
  have ⟨hc, _, ht⟩ := CyclicBarrier.tally_of_run (run_of_reachable r) i
  have := notified_rounds r i j
  rw [hl] at this
  rw [hl] at hc
  refine le_trans ?_ this
  cases hp : s.barrier.pc i
  all_goals simp [CyclicBarrier.init, State.stages, hp, Pc.stage] at hc ht
  all_goals simp [returns, hp]
  all_goals omega

end Program

-- No thread ends a phase before all of them have begun it. The program goes on until all threads
-- have made their calls, and it does so in a bounded number of steps.
theorem phases_and_end (n k : ℕ) :
    (∀ s, (Program.machine n k).Reachable s →
      (∀ i j, s.returns i ≤ s.calls j) ∧ (s.Finished k ∨ (Program.machine n k).Live s)) ∧
    ∀ s as s', (Program.machine n k).init s → (Program.machine n k).Run s as s' →
      as.length ≤ n * (k * 10) := by
  refine ⟨fun s r => ?_, fun _ _ _ => Program.run_length_le⟩
  have inv := Program.inv_of_reachable r
  exact ⟨inv.returns_le, or_iff_not_imp_left.mpr inv.live⟩

end MonitorBarrier
