import Concurrencia.Futex.Drepper.Theorems.Exclusion
import Concurrencia.LockClient.Basic
import Mathlib

open Function

namespace Drepper

variable {n : ℕ} {s s' : State n} {i j : Fin n} {l : Label n} {p : Pc}

-- A thread which is awake inside of `lock`.
def Pc.Contends : Pc → Prop
  | compareExchange | exchange | wait => True
  | _                                 => False

-- Inside of `unlock`, with the call of `FUTEX_WAKE` (or the decision to leave it out) ahead.
def Pc.Unlocks : Pc → Prop
  | fetchSub | store | wake => True
  | _                       => False

-- These threads care for the sleepers: the first two will wake one, the third one leaves the mutex
-- marked as contended, whether it gets it or not.
def Pc.Rouses : Pc → Prop
  | store | wake | exchange => True
  | _                       => False

def Attended (s : State n) : Prop :=
  ∀ i, s.pc i = .asleep → s.futex = 2 ∨ ∃ j, (s.pc j).Rouses

namespace Attended

theorem of_rouses (h : (s.pc i).Rouses) : Attended s :=
  fun _ _ => .inr ⟨i, h⟩

-- The step of a thread which does not care for the sleepers and does not become one of them.
theorem keep (h : Attended s) (hp : s'.pc = update s.pc i p) (hi : ¬(s.pc i).Rouses)
    (hn : p ≠ .asleep) (hf : s.futex = 2 → s'.futex = 2) : Attended s' := by
  intro j hj
  have hji : j ≠ i := by
    intro hji
    simp [hp, hji, hn] at hj
  refine (h j <| by simpa [hp, hji] using hj).imp hf fun ⟨k, hk⟩ => ⟨k, ?_⟩
  have hki : k ≠ i := fun hki => hi (hki ▸ hk)
  simpa [hp, hki] using hk

theorem step (h : Attended s) (hs : Step s l s') : Attended s' := by
  cases hs
  case call hp       => exact h.keep rfl (by simp [hp, Pc.Rouses]) (by simp) id
  case acquire hp hf => exact h.keep rfl (by simp [hp, Pc.Rouses]) (by simp) (by simp [hf])
  case leave hp      => exact h.keep rfl (by simp [hp, Pc.Rouses]) (by simp) id
  case release hp hf => exact h.keep rfl (by simp [hp, Pc.Rouses]) (by simp) (by simp [hf])
  case contend hp _ hq =>
    exact h.keep rfl (by simp [hp, Pc.Rouses]) (by cases hq <;> simp_all) id
  case obtain        => exact fun _ _ => .inl rfl
  case exchange      => exact fun _ _ => .inl rfl
  case sleep hf      => exact fun _ _ => .inl hf
  case retry i _ _   => exact .of_rouses (i := i) (by simp [Pc.Rouses])
  case fetchSub i _ _ => exact .of_rouses (i := i) (by simp [Pc.Rouses])
  case store i _     => exact .of_rouses (i := i) (by simp [Pc.Rouses])
  case wake j _ _    => exact .of_rouses (i := j) (by simp [Pc.Rouses])
  case spurious i _  => exact .of_rouses (i := i) (by simp [Pc.Rouses])
  case wakeNone i hi hn =>
    intro j hj
    by_cases hji : j = i
    case pos => simp [hji] at hj
    case neg => exact absurd (by simpa [hji] using hj) (hn j)

end Attended

theorem attended_of_reachable (r : (machine n).Reachable s) : Attended s := by
  apply r.invariant
  case init =>
    intro _ h _ hi
    simp [show _ = Drepper.init n from h, Drepper.init] at hi
  case step =>
    intro _ _ _ _ h hs
    exact h.step (.of_step hs)

theorem Pc.Rouses.cases (h : p.Rouses) : p = .store ∨ p = .wake ∨ p = .exchange := by
  cases p <;> simp_all [Pc.Rouses]

theorem Pc.Holds.cases (h : p.Holds) : p = .critical ∨ p.Unlocks := by
  cases p <;> simp_all [Pc.Holds, Pc.Unlocks]

theorem no_lost_wakeup (r : (machine n).Reachable s) (hs : s.pc i = .asleep) :
    (∃ j, s.pc j = .critical ∨ (s.pc j).Unlocks ∨ (s.pc j).Contends) ∧
    (s.futex = 2 ∨ ∃ j, s.pc j = .store ∨ s.pc j = .wake ∨ s.pc j = .exchange) := by
  cases attended_of_reachable r i hs
  case inl hf =>
    have ⟨j, hj⟩ := (inv_of_reachable r).held (by simp [hf])
    exact ⟨⟨j, ((hj j).mpr rfl).cases.imp_right .inl⟩, .inl hf⟩
  case inr h =>
    have ⟨j, hj⟩ := h
    refine ⟨⟨j, .inr ?_⟩, .inr ⟨j, hj.cases⟩⟩
    rcases hj.cases with hp | hp | hp <;> simp [hp, Pc.Unlocks, Pc.Contends]

-- Thread 1 sleeps, and before its wake-up call comes thread 2 takes the mutex without marking it.
theorem no_lost_wakeup_three :
    ∃ s : State 3, s.pc 1 = .asleep ∧ s.futex = 1 ∧ s.pc 2 = .critical ∧
      (∃ j, s.pc j = .critical ∨ (s.pc j).Unlocks ∨ (s.pc j).Contends) ∧
      (s.futex = 2 ∨ ∃ j, s.pc j = .store ∨ s.pc j = .wake ∨ s.pc j = .exchange) :=
  have ⟨s, h, hs, hf, hp⟩ : ∃ s, (machine 3).exec (init 3) (Machine.schedule
      [(2, .thread 0), (4, .thread 1), (3, .thread 0), (2, .thread 2)]) = some s ∧
      s.pc 1 = .asleep ∧ s.futex = 1 ∧ s.pc 2 = .critical :=
    ⟨_, rfl, rfl, rfl, rfl⟩
  ⟨s, hs, hf, hp, no_lost_wakeup (.of_exec rfl h) hs⟩

section Client

open LockClient (Stage Lock Live single)

-- The futex wakes nobody for no reason.
abbrev strict (n : ℕ) : Machine (State n) (Label n) :=
  (machine n).only fun _ a => ∀ i, a ≠ .spurious i

def Pc.stage : Pc → Stage
  | idle                                       => .idle
  | compareExchange | exchange | wait | asleep => .locking
  | critical                                   => .inside
  | fetchSub | store | wake                    => .unlocking

@[simp] theorem Pc.stage_idle : idle.stage = .idle := rfl
@[simp] theorem Pc.stage_critical : critical.stage = .inside := rfl
@[simp] theorem Pc.stage_exchange : exchange.stage = .locking := rfl

def stage (s : State n) (i : Fin n) : Stage :=
  (s.pc i).stage

theorem next_update (h : Stage.Next (s.pc i).stage p.stage) (hp : s'.pc = update s.pc i p)
    (j : Fin n) : Stage.Next (stage s j) (stage s' j) := by
  rw [stage, stage, hp]
  exact h.update j

theorem Step.next (h : Step s l s') (j : Fin n) : Stage.Next (stage s j) (stage s' j) := by
  cases h
  case call hp                  => exact next_update (hp ▸ .lock) rfl j
  case acquire hp _             => exact next_update (hp ▸ .enter) rfl j
  case obtain hp _              => exact next_update (hp ▸ .enter) rfl j
  case leave hp                 => exact next_update (hp ▸ .unlock) rfl j
  case release hp _             => exact next_update (hp ▸ .leave) rfl j
  case wakeNone hp _            => exact next_update (hp ▸ .leave) rfl j
  case contend hp _ hq          => exact next_update (by obtain rfl | rfl := hq <;> exact hp ▸ .stay) rfl j
  case spurious hp              => exact next_update (by obtain hp | hp := hp <;> exact hp ▸ .stay) rfl j
  case exchange hp _ | sleep hp _ | retry hp _ | fetchSub hp _ | store hp =>
    exact next_update (hp ▸ .stay) rfl j
  case wake i k hi hk =>
    have hn : k ≠ i := by
      rintro rfl
      simp [hk] at hi
    by_cases hji : j = i
    case pos =>
      rw [stage, stage, hji, State.goto_pc_of_ne hn.symm, State.goto_pc_self, hi]
      exact .leave
    case neg =>
      by_cases hjk : j = k
      case pos =>
        rw [stage, stage, hjk, State.goto_pc_self, hk]
        exact .stay
      case neg =>
        rw [stage, stage, State.goto_pc_of_ne hjk, State.goto_pc_of_ne hji]
        exact .stay

theorem lock : Lock (strict n) stage where
  init h := by
    cases h
    rfl
  step hs := (Step.of_step (Machine.only_step.mp hs).right).next _
  unique r hi hj := by
    have holds {p : Pc} (h : p.stage = .inside) : p.Holds := by
      cases p <;> cases h
      trivial
    exact (inv_of_reachable r.of_only).eq_of_holds (holds hi) (holds hj)

-- The statements which a thread has before it in `unlock`, or before it has looked at the futex.
def Pc.rank : Pc → ℕ
  | fetchSub => 2
  | store    => 1
  | wait     => 1
  | _        => 0

theorem rank_lt (h : p.rank < (s.pc i).rank) (hp : s'.pc = update s.pc i p) :
    ∑ j, (s'.pc j).rank < ∑ j, (s.pc j).rank := by
  have hs := Threads.sum_update (f := s.pc) (i := i) (p := p) (g := Pc.rank)
  rw [hp]
  omega

-- The way of a thread when nobody is inside.
structure Advances (s s' : State n) (i : Fin n) : Prop where
  stage : stage s i = .locking ∨ stage s i = .unlocking
  frame : ∀ j ≠ i, Drepper.stage s' j = Drepper.stage s j
  rank : Drepper.stage s' i = Drepper.stage s i → ∑ j, (s'.pc j).rank < ∑ j, (s.pc j).rank

theorem strict_thread (h : threadStep s i = some s') : (strict n).step s (.thread i) = some s' :=
  Machine.only_step.mpr ⟨fun _ => by simp, h⟩

theorem advances_goto (hg : (s.pc i).stage = .locking ∨ (s.pc i).stage = .unlocking)
    (hp : s'.pc = update s.pc i p) (hr : p.stage = (s.pc i).stage → p.rank < (s.pc i).rank) :
    Advances s s' i where
  stage := hg
  frame j hj := by rw [stage, stage, hp, update_of_ne hj]
  rank h := rank_lt (hr (by rwa [stage, stage, hp, update_self] at h)) hp

theorem exists_thread (h : threadStep s i = some s') (ha : Advances s s' i) :
    ∃ a s', (strict n).step s a = some s' ∧ Advances s s' i :=
  ⟨.thread i, s', strict_thread h, ha⟩

theorem exists_unlocks (hi : (s.pc i).stage = .unlocking) :
    ∃ a s', (strict n).step s a = some s' ∧ Advances s s' i := by
  cases hp : s.pc i <;> simp only [hp, Pc.stage, reduceCtorEq] at hi
  case fetchSub =>
    refine exists_thread (by rw [threadStep, hp]) (advances_goto (by simp [hp, Pc.stage]) rfl ?_)
    rw [hp]
    split_ifs <;> simp [Pc.stage, Pc.rank]
  case store =>
    exact exists_thread (by rw [threadStep, hp])
      (advances_goto (by simp [hp, Pc.stage]) rfl (by simp [hp, Pc.rank]))
  case wake =>
    by_cases hs : ∃ j, s.pc j = .asleep
    case neg =>
      exact exists_thread (by rw [threadStep, hp]; exact if_neg hs)
        (advances_goto (by simp [hp, Pc.stage]) rfl (by simp [hp, Pc.stage]))
    case pos =>
      obtain ⟨j, hj⟩ := hs
      have hji : j ≠ i := by
        rintro rfl
        simp [hj] at hp
      refine ⟨.wake i j, (s.goto i .idle).goto j .exchange, Machine.only_step.mpr ⟨fun _ => by simp, ?_⟩, ?_⟩
      · simp [machine, step, wakeStep, hp, hj]
      constructor
      case stage => exact .inr (by rw [stage, hp]; rfl)
      case rank  => exact fun h => by simp [stage, hp, hji.symm, Pc.stage] at h
      case frame =>
        intro k hk
        by_cases hkj : k = j
        case pos => simp [stage, hkj, hj, Pc.stage]
        case neg => simp [stage, hk, hkj]

theorem exists_locks (hf : s.futex = 0) (hi : (s.pc i).stage = .locking) (ha : s.pc i ≠ .asleep) :
    ∃ a s', (strict n).step s a = some s' ∧ Advances s s' i := by
  cases hp : s.pc i <;> simp only [hp, Pc.stage, reduceCtorEq] at hi
  case asleep => exact absurd hp ha
  case compareExchange =>
    exact exists_thread (by rw [threadStep, hp]; exact if_pos hf)
      (advances_goto (by simp [hp, Pc.stage]) rfl (by simp [hp, Pc.stage]))
  case exchange =>
    refine exists_thread (by rw [threadStep, hp]) (advances_goto (by simp [hp, Pc.stage]) rfl ?_)
    simp [hp, hf, Pc.stage]
  case wait =>
    refine exists_thread (by rw [threadStep, hp]) (advances_goto (by simp [hp, Pc.stage]) rfl ?_)
    simp [hp, hf, Pc.rank]

theorem live : Live (strict n) stage where
  call {s t} _ ht := by
    cases hp : s.pc t <;> simp only [stage, hp, Pc.stage, reduceCtorEq, or_self, or_true, true_or] at ht
    all_goals
      refine ⟨.thread t, _, strict_thread (by rw [threadStep, hp]), fun u => ?_⟩
      by_cases hu : u = t
      case pos => simp [stage, hu, hp, Pc.stage]
      case neg => simp [stage, hu]
  work := by
    refine LockClient.work_of_decreasing (fun s => ∑ j, (s.pc j).rank) fun s r hn ht => ?_
    obtain ⟨t, ht⟩ := ht
    suffices h : ∃ i a s', (strict n).step s a = some s' ∧ Advances s s' i by
      obtain ⟨i, a, s', hs, h⟩ := h
      exact ⟨a, s', i, hs, h.stage, h.frame, h.rank⟩
    by_cases hu : ∃ i, (s.pc i).stage = .unlocking
    case pos => exact hu.imp fun _ => exists_unlocks
    case neg =>
      have hl {i : Fin n} (hi : s.pc i ≠ .idle) : (s.pc i).stage = .locking := by
        have hn := hn i
        have hu := not_exists.mp hu i
        cases hp : s.pc i <;> simp_all [stage, Pc.stage]
      have hf : s.futex = 0 := by
        by_contra hf
        obtain ⟨i, hi⟩ := (inv_of_reachable r.of_only).held hf
        have hh := (hi i).mpr rfl
        have := @hl i (by rintro hp; simp [hp, Pc.Holds] at hh)
        cases hp : s.pc i <;> simp [hp, Pc.Holds, Pc.stage] at hh this
      by_cases ha : s.pc t = .asleep
      case neg => exact ⟨t, exists_locks hf (hl fun hp => ht (by rw [stage, hp]; rfl)) ha⟩
      case pos =>
        -- Some thread is on its way to wake this one or to leave the mutex marked.
        obtain ⟨j, hj⟩ := (attended_of_reachable r.of_only t ha).resolve_left (by simp [hf])
        have hlj := @hl j (by rintro hp; simp [hp, Pc.Rouses] at hj)
        exact ⟨j, exists_locks hf hlj (by rintro hp; simp [hp, Pc.Rouses] at hj)⟩

end Client

end Drepper
