import Concurrencia.Futex.SimpleMutex.Basic
import Concurrencia.Threads.Basic
import Concurrencia.Threads.Count
import Mathlib.Tactic.SplitIfs

open Function Threads

namespace SimpleMutex

section Step

-- One constructor for each way through a statement.
inductive Step {n : ℕ} (s : State n) : Label n → State n → Prop
  | call : (s.pc i = .idle) → Step s (.thread i) (s.goto i .exchange)
  | acquire : (s.pc i = .exchange) → (s.locked = 0) →
    Step s (.thread i) ({ s with locked := 1 }.goto i .critical)
  | contend : (s.pc i = .exchange) → (s.locked ≠ 0) →
    Step s (.thread i) ({ s with locked := 1 }.goto i .fetchAdd)
  | fetchAdd : (s.pc i = .fetchAdd) →
    Step s (.thread i) ({ s with waiters := s.waiters + 1 }.goto i .wait)
  | sleep : (s.pc i = .wait) → (s.locked = 1) → Step s (.thread i) (s.goto i .asleep)
  | retry : (s.pc i = .wait) → (s.locked ≠ 1) → Step s (.thread i) (s.goto i .fetchSub)
  | fetchSub : (s.pc i = .fetchSub) →
    Step s (.thread i) ({ s with waiters := s.waiters - 1 }.goto i .exchange)
  | leave : (s.pc i = .critical) → Step s (.thread i) (s.goto i .store)
  | store : (s.pc i = .store) → Step s (.thread i) ({ s with locked := 0 }.goto i .loadWaiters)
  | waiting : (s.pc i = .loadWaiters) → (0 < s.waiters) → Step s (.thread i) (s.goto i .wake)
  | alone : (s.pc i = .loadWaiters) → (s.waiters ≤ 0) → Step s (.thread i) (s.goto i .idle)
  | lateWaiting : (s.pc i = .lateStore w) → (0 < w) →
    Step s (.thread i) ({ s with locked := 0 }.goto i .wake)
  | lateAlone : (s.pc i = .lateStore w) → (w ≤ 0) →
    Step s (.thread i) ({ s with locked := 0 }.goto i .idle)
  | wakeNone : (s.pc i = .wake) → (∀ j, s.pc j ≠ .asleep) → Step s (.thread i) (s.goto i .idle)
  | early : (s.pc i = .store) → Step s (.early i) (s.goto i (.lateStore s.waiters))
  | wake : (s.pc i = .wake) → (s.pc j = .asleep) →
    Step s (.wake i j) ((s.goto i .idle).goto j .fetchSub)
  | spurious : (s.pc i = .wait ∨ s.pc i = .asleep) → Step s (.spurious i) (s.goto i .fetchSub)

variable {n : ℕ} {s s' : State n} {i : Fin n} {l : Label n}

theorem Step.of_thread (h : threadStep s i = some s') : Step s (.thread i) s' := by
  cases hp : s.pc i <;> simp only [threadStep, hp] at h
  case exchange =>
    split_ifs at h with hl
    all_goals cases h
    · exact .acquire hp hl
    · exact .contend hp hl
  case wait =>
    split_ifs at h with hl
    all_goals cases h
    · exact .sleep hp hl
    · exact .retry hp hl
  case loadWaiters =>
    split_ifs at h with hw
    all_goals cases h
    · exact .waiting hp hw
    · exact .alone hp (not_lt.mp hw)
  case lateStore w =>
    split_ifs at h with hw
    all_goals cases h
    · exact .lateWaiting hp hw
    · exact .lateAlone hp (not_lt.mp hw)
  case wake =>
    split_ifs at h with hj
    cases h
    exact .wakeNone hp (not_exists.mp hj)
  all_goals cases h
  case idle     => exact .call hp
  case fetchAdd => exact .fetchAdd hp
  case fetchSub => exact .fetchSub hp
  case critical => exact .leave hp
  case store    => exact .store hp

theorem Step.of_step (h : step s l = some s') : Step s l s' := by
  cases l <;> simp only [step, earlyStep, wakeStep, spuriousStep] at h
  case thread => exact .of_thread h
  case early =>
    split_ifs at h with hp
    cases h
    exact .early hp
  case wake =>
    split_ifs at h with hp
    cases h
    exact .wake hp.left hp.right
  case spurious =>
    split_ifs at h with hp
    cases h
    exact .spurious hp

end Step

namespace Pc

-- Between `lock` and the store of `unlock`.
def Holds : Pc → Prop
  | critical | store | lateStore _ => True
  | _                              => False

-- Between the two updates of `waiters`.
def Registered (p : Pc) : Prop :=
  p = wait ∨ p = asleep ∨ p = fetchSub

instance : DecidablePred Registered :=
  fun _ => inferInstanceAs <| Decidable (_ ∨ _)

end Pc

variable {n : ℕ} {s s' : State n} {i j : Fin n} {l : Label n} {p : Pc}

structure Inv (s : State n) : Prop where
  range     : s.locked = 0 ∨ s.locked = 1
  exclusive : Exclusive s.pc Pc.Holds (s.locked = 1)
  held      : s.locked = 1 → ∃ i, (s.pc i).Holds
  waiters   : s.waiters = count s.pc Pc.Registered

namespace Inv

theorem init : Inv (init n) where
  range     := .inl rfl
  exclusive := ⟨False.elim, False.elim⟩
  held h    := by simp [SimpleMutex.init] at h
  waiters   := by simp [SimpleMutex.init, count_eq_zero, Pc.Registered]

variable (inv : Inv s)
include inv

-- The step of a thread which stays on its side of each of the two counts.
theorem goto (hh : p.Holds ↔ (s.pc i).Holds) (hr : p.Registered ↔ (s.pc i).Registered) :
    Inv (s.goto i p) where
  range     := inv.range
  exclusive := inv.exclusive.keep hh
  waiters   := by rw [State.goto_pc, count_keep hr, ← inv.waiters, State.goto_waiters]
  held h    :=
    have ⟨k, hk⟩ := inv.held h
    ⟨k, (update_iff hh k).mpr hk⟩

theorem acquire (hi : s.pc i = .exchange) (hl : s.locked = 0) :
    Inv ({ s with locked := 1 }.goto i .critical) where
  range     := .inr rfl
  exclusive := inv.exclusive.take (by simp [hl]) rfl
  held _    := ⟨i, by simp [Pc.Holds]⟩
  waiters   := by
    rw [State.goto_pc, count_keep (by simp [hi, Pc.Registered])]
    exact inv.waiters

theorem release (hi : (s.pc i).Holds) (hp : ¬p.Holds)
    (hr : p.Registered ↔ (s.pc i).Registered) : Inv ({ s with locked := 0 }.goto i p) where
  range     := .inl rfl
  exclusive := inv.exclusive.free hi hp
  held h    := by simp at h
  waiters   := by
    rw [State.goto_pc, count_keep hr]
    exact inv.waiters

theorem register (hi : s.pc i = .fetchAdd) :
    Inv ({ s with waiters := s.waiters + 1 }.goto i .wait) where
  range     := inv.range
  exclusive := inv.exclusive.keep (by simp [hi, Pc.Holds])
  waiters   := by
    rw [State.goto_pc, count_enter (by simp [hi, Pc.Registered]) (by simp [Pc.Registered])]
    simp [inv.waiters]
  held h    :=
    have ⟨k, hk⟩ := inv.held h
    ⟨k, (update_iff (by simp [hi, Pc.Holds]) k).mpr hk⟩

theorem unregister (hi : s.pc i = .fetchSub) :
    Inv ({ s with waiters := s.waiters - 1 }.goto i .exchange) where
  range     := inv.range
  exclusive := inv.exclusive.keep (by simp [hi, Pc.Holds])
  waiters   := by
    have hc := count_leave (f := s.pc) (P := Pc.Registered) (i := i) (p := .exchange)
      (by simp [hi, Pc.Registered]) (by simp [Pc.Registered])
    have hw := inv.waiters
    simp only [State.goto_pc, State.goto_waiters]
    omega
  held h    :=
    have ⟨k, hk⟩ := inv.held h
    ⟨k, (update_iff (by simp [hi, Pc.Holds]) k).mpr hk⟩

theorem step (h : Step s l s') : Inv s' := by
  cases h
  case call hp | retry hp _ | sleep hp _ | leave hp | waiting hp _ | alone hp _ | wakeNone hp _
      | early hp =>
    exact inv.goto (by simp [hp, Pc.Holds]) (by simp [hp, Pc.Registered])
  case spurious hp =>
    cases hp
    case inl hp | inr hp => exact inv.goto (by simp [hp, Pc.Holds]) (by simp [hp, Pc.Registered])
  case wake i j hi hj =>
    have hn : j ≠ i := fun h => by simp [← h, hj] at hi
    have inv := inv.goto (i := i) (p := .idle) (by simp [hi, Pc.Holds])
      (by simp [hi, Pc.Registered])
    exact inv.goto (by simp [hn, hj, Pc.Holds]) (by simp [hn, hj, Pc.Registered])
  case acquire hp hl => exact inv.acquire hp hl
  case contend hp hl =>
    rw [show { s with locked := 1 } = s by rw [← inv.range.resolve_left hl]]
    exact inv.goto (by simp [hp, Pc.Holds]) (by simp [hp, Pc.Registered])
  case fetchAdd hp => exact inv.register hp
  case fetchSub hp => exact inv.unregister hp
  case store hp | lateWaiting hp _ | lateAlone hp _ =>
    exact inv.release (by simp [hp, Pc.Holds]) (by simp [Pc.Holds]) (by simp [hp, Pc.Registered])

theorem not_holds (h : s.locked = 0) (i : Fin n) : ¬(s.pc i).Holds := by
  intro hi
  simp [inv.exclusive.locked hi] at h

theorem pos_of_asleep (h : s.pc i = .asleep) : 0 < s.waiters := by
  have hc := count_pos (f := s.pc) (P := Pc.Registered) (i := i) (by simp [h, Pc.Registered])
  have hw := inv.waiters
  omega

end Inv

theorem inv_of_reachable (r : (machine n).Reachable s) : Inv s := by
  apply r.invariant
  case init =>
    intro _ h
    exact h ▸ .init
  case step =>
    intro _ _ _ _ inv h
    exact inv.step (.of_step h)

end SimpleMutex
