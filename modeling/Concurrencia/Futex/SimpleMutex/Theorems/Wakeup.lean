import Concurrencia.Futex.SimpleMutex.Theorems.Exclusion

open Function Threads

namespace SimpleMutex

namespace Pc

-- A thread which is awake inside of `lock`.
def Contends : Pc → Prop
  | exchange | fetchAdd | wait | fetchSub => True
  | _                                     => False

-- A thread inside of `unlock` which is about to free the mutex.
def Releases : Pc → Prop
  | store | lateStore _ => True
  | _                   => False

-- Inside of `unlock` with a call of `FUTEX_WAKE` ahead, given the value of `waiters`.
def Wakes (waiters : ℤ) : Pc → Prop
  | store | loadWaiters => 0 < waiters
  | lateStore w         => 0 < w
  | wake                => True
  | _                   => False

-- The load has overtaken the store and has not seen any waiter.
def Missed : Pc → Prop
  | lateStore w => w ≤ 0
  | _           => False

instance : DecidablePred Missed
  | idle | exchange | fetchAdd | wait | asleep   => inferInstanceAs <| Decidable False
  | fetchSub | critical | store | loadWaiters    => inferInstanceAs <| Decidable False
  | wake                                         => inferInstanceAs <| Decidable False
  | lateStore w                                  => inferInstanceAs <| Decidable (w ≤ 0)

-- These threads care for the sleepers: they will wake one, or they will take the mutex and then
-- wake one, or they will sleep themselves while another thread cares.
def Cares (p : Pc) : Prop :=
  p ≠ idle ∧ p ≠ asleep ∧ ¬p.Missed

end Pc

-- The schedulers which let nobody fall asleep while the store of an `unlock` is outstanding whose
-- load has missed the waiters.
def Timely {n : ℕ} (s : State n) : Label n → Prop
  | .thread i                         => s.pc i = .wait → s.locked = 1 → ∀ j, ¬(s.pc j).Missed
  | .early _ | .wake _ _ | .spurious _ => True

instance {n : ℕ} (s : State n) : (l : Label n) → Decidable (Timely s l)
  | .thread i                         =>
    inferInstanceAs <| Decidable (s.pc i = .wait → s.locked = 1 → ∀ j, ¬(s.pc j).Missed)
  | .early _ | .wake _ _ | .spurious _ => inferInstanceAs <| Decidable True

variable {n : ℕ} {s s' : State n} {i j : Fin n} {l : Label n} {p : Pc}

def Attended (s : State n) : Prop :=
  ∀ i, s.pc i = .asleep → ∃ j, (s.pc j).Cares

namespace Attended

theorem of_cares (hp : s'.pc = update s.pc i p) (h : p.Cares) : Attended s' :=
  fun _ _ => ⟨i, by simpa [hp] using h⟩

-- The step of a thread which stops to care for the sleepers.
theorem of_none (h : ∀ i, s.pc i ≠ .asleep) (hp : s'.pc = update s.pc i p) (hn : p ≠ .asleep) :
    Attended s' := by
  intro j hj
  by_cases hji : j = i
  case pos => simp [hp, hji, hn] at hj
  case neg => exact absurd (by simpa [hp, hji] using hj) (h j)

theorem keep (h : Attended s) (hp : s'.pc = update s.pc i p) (hi : ¬(s.pc i).Cares)
    (hn : p ≠ .asleep) : Attended s' := by
  intro j hj
  have hji : j ≠ i := by
    intro hji
    simp [hp, hji, hn] at hj
  have ⟨k, hk⟩ := h j <| by simpa [hp, hji] using hj
  have hki : k ≠ i := fun hki => hi (hki ▸ hk)
  exact ⟨k, by simpa [hp, hki] using hk⟩

theorem step (h : Attended s) (inv : Inv s) (ht : Timely s l) (hs : Step s l s') :
    Attended s' := by
  have nobody (hw : s.waiters ≤ 0) (i : Fin n) : s.pc i ≠ .asleep :=
    fun hi => absurd (inv.pos_of_asleep hi) (not_lt.mpr hw)
  cases hs
  case call | acquire | contend | fetchAdd | retry | fetchSub | leave | store | waiting
      | spurious | lateWaiting =>
    exact .of_cares rfl (by simp [Pc.Cares, Pc.Missed])
  case wake => exact .of_cares rfl (by simp [Pc.Cares, Pc.Missed])
  case sleep i hp hl =>
    have ⟨k, hk⟩ := inv.held hl
    have hki : k ≠ i := fun h => by simp [h, hp, Pc.Holds] at hk
    refine fun _ _ => ⟨k, ?_⟩
    have hm := ht hp hl k
    rw [State.goto_pc, update_of_ne hki]
    refine ⟨?_, ?_, hm⟩
    all_goals
      intro h
      simp [h, Pc.Holds] at hk
  case alone hp hw        => exact .of_none (nobody hw) rfl (by simp)
  case lateAlone hp hw    => exact h.keep rfl (by simp [hp, Pc.Cares, Pc.Missed, hw]) (by simp)
  case wakeNone hp hn     => exact .of_none hn rfl (by simp)
  case early i hp         =>
    by_cases hw : 0 < s.waiters
    case pos => exact .of_cares rfl (by simpa [Pc.Cares, Pc.Missed] using hw)
    case neg => exact .of_none (nobody (not_lt.mp hw)) rfl (by simp)

end Attended

theorem attended_of_reachable (r : ((machine n).only Timely).Reachable s) : Attended s := by
  apply r.invariant
  case init =>
    intro _ h _ hi
    simp [show _ = SimpleMutex.init n from h, SimpleMutex.init] at hi
  case step =>
    intro _ _ _ r h hs
    obtain ⟨ht, hs⟩ := Machine.only_step.mp hs
    exact h.step (inv_of_reachable r.of_only) ht (.of_step hs)

theorem Inv.contends_or_wakes (inv : Inv s) (hw : 0 < s.waiters)
    (hl : s.locked = 0 ∨ ∃ j, (s.pc j).Releases) (hj : (s.pc j).Cares) :
    ∃ j, (s.pc j).Contends ∨ (s.pc j).Wakes s.waiters := by
  cases hp : s.pc j <;> rw [hp] at hj
  case idle | asleep => simp [Pc.Cares] at hj
  case exchange | fetchAdd | wait | fetchSub => exact ⟨j, .inl <| by simp [hp, Pc.Contends]⟩
  case store | loadWaiters => exact ⟨j, .inr <| by simpa [hp, Pc.Wakes] using hw⟩
  case wake => exact ⟨j, .inr <| by simp [hp, Pc.Wakes]⟩
  case lateStore => exact ⟨j, .inr <| by simpa [hp, Pc.Wakes, Pc.Cares, Pc.Missed] using hj⟩
  case critical =>
    have hh : (s.pc j).Holds := by simp [hp, Pc.Holds]
    cases hl
    case inl hl => exact absurd hh (inv.not_holds hl j)
    case inr hl =>
      obtain ⟨k, hk⟩ := hl
      have hkh : (s.pc k).Holds := by cases hp : s.pc k <;> simp_all [Pc.Releases, Pc.Holds]
      rw [inv.exclusive.unique hkh hh, hp] at hk
      exact hk.elim

theorem timely_wakeup (r : ((machine n).only Timely).Reachable s) (hs : s.pc i = .asleep)
    (hl : s.locked = 0 ∨ ∃ j, (s.pc j).Releases) :
    ∃ j, (s.pc j).Contends ∨ (s.pc j).Wakes s.waiters :=
  have inv := inv_of_reachable r.of_only
  have ⟨_, hj⟩ := attended_of_reachable r i hs
  inv.contends_or_wakes (inv.pos_of_asleep hs) hl hj

-- Thread 1 sleeps while thread 0 frees the mutex and has read `waiters` after the store.
theorem timely_wakeup_two :
    ∃ s : State 2, s.pc 1 = .asleep ∧ s.locked = 0 ∧
      ∃ j, (s.pc j).Contends ∨ (s.pc j).Wakes s.waiters :=
  have ⟨s, h, hs, hl⟩ : ∃ s, ((machine 2).only Timely).exec (init 2)
      (Machine.schedule [(3, .thread 0), (4, .thread 1), (2, .thread 0)]) = some s ∧
      s.pc 1 = .asleep ∧ s.locked = 0 :=
    ⟨_, rfl, rfl, rfl⟩
  ⟨s, hs, hl, timely_wakeup (.of_exec rfl h) hs (.inl hl)⟩

-- Thread 0 reads `waiters` before its store, and thread 1 falls asleep between the two.
theorem late_store_leaves_sleeper :
    ∃ s : State 2, (machine 2).Reachable s ∧ s.pc 0 = .idle ∧ s.pc 1 = .asleep ∧ s.locked = 0 ∧
      ¬∃ j, (s.pc j).Contends ∨ (s.pc j).Wakes s.waiters := by
  have ⟨s, h, h₀, h₁, hl⟩ : ∃ s, (machine 2).exec (init 2) (Machine.schedule
      [(3, .thread 0), (1, .early 0), (4, .thread 1), (1, .thread 0)]) = some s ∧
      s.pc 0 = .idle ∧ s.pc 1 = .asleep ∧ s.locked = 0 :=
    ⟨_, rfl, rfl, rfl, rfl⟩
  refine ⟨s, .of_exec rfl h, h₀, h₁, hl, ?_⟩
  intro ⟨j, hj⟩
  match j with
  | 0 => simp [h₀, Pc.Contends, Pc.Wakes] at hj
  | 1 => simp [h₁, Pc.Contends, Pc.Wakes] at hj

end SimpleMutex
