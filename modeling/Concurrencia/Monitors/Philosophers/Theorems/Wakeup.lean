import Concurrencia.Monitors.Philosophers.Theorems.Forks

open Function Threads

namespace MonitorPhilosophers

-- Philosopher `i` has returned a fork of philosopher `j` and has not looked after it yet.
def Awakes {n : ℕ} (v : Version) (i j : Fin n) : Pc → Prop
  | .putRight                 => j = left v i
  | .testLeft | .notifyLeft   => j = left v i ∨ j = right v i
  | .testRight | .notifyRight => j = right v i
  | _                         => False

variable {v : Version} {n eatCount : ℕ} {s s' : State n} {i j : Fin n} {p : Pc}

structure Attended (v : Version) (s : State n) : Prop where
  tested  : ∀ i, s.pc i = .wait → s.forks i ≠ 2
  noticed : ∀ j, s.pc j = .waiting → s.forks j = 2 → ∃ i, Awakes v i j (s.pc i)

theorem hasMutex_of_awakes (h : Awakes v i j p) : p.HasMutex := by
  cases p <;> simp_all [Awakes, Pc.HasMutex]

namespace Attended

theorem init : Attended v (init n) where
  tested _ h    := by simp [MonitorPhilosophers.init] at h
  noticed _ h _ := by simp [MonitorPhilosophers.init] at h

variable (att : Attended v s)
include att

-- A philosopher has to notice each entry which gets full while its owner waits.
theorem act {t : State n} (hp : t.pc = update s.pc i p)
    (ht : p = .wait → t.forks i ≠ 2) (ho : ∀ j ≠ i, s.pc j = .wait → t.forks j = s.forks j)
    (hw : p = .waiting → t.forks i ≠ 2)
    (hn : ∀ j ≠ i, s.pc j = .waiting → t.forks j = 2 →
      Awakes v i j p ∨ s.forks j = 2 ∧ ¬Awakes v i j (s.pc i)) : Attended v t where
  tested j hj := by
    by_cases hji : j = i
    case pos => exact hji ▸ ht (by simpa [hp, hji] using hj)
    case neg =>
      have hj : s.pc j = .wait := by simpa [hp, hji] using hj
      exact ho j hji hj ▸ att.tested j hj
  noticed j hj hf := by
    by_cases hji : j = i
    case pos => exact absurd hf (hji ▸ hw (by simpa [hp, hji] using hj))
    case neg =>
      have hj : s.pc j = .waiting := by simpa [hp, hji] using hj
      cases hn j hji hj hf
      case inl h => exact ⟨i, by simpa [hp] using h⟩
      case inr h =>
        have ⟨k, hk⟩ := att.noticed j hj h.left
        have hki : k ≠ i := fun hki => h.right (hki ▸ hk)
        exact ⟨k, by simpa [hp, hki] using hk⟩

-- The steps which leave the entries alone.
theorem move {t : State n} (hp : t.pc = update s.pc i p) (hf : t.forks = s.forks)
    (ht : p = .wait ∨ p = .waiting → s.forks i ≠ 2)
    (hn : ∀ j, s.forks j = 2 → Awakes v i j (s.pc i) → Awakes v i j p) : Attended v t := by
  apply att.act hp
  case ht => exact fun h => hf ▸ ht (.inl h)
  case ho => exact fun _ _ _ => by rw [hf]
  case hw => exact fun h => hf ▸ ht (.inr h)
  case hn =>
    intro j _ _ hj
    rw [hf] at hj
    by_cases ha : Awakes v i j (s.pc i)
    case pos => exact .inl (hn j hj ha)
    case neg => exact .inr ⟨hj, ha⟩

-- The change of an entry by the owner of the mutex.
theorem add {d : ℤ} (inv : Inv v s) (hi : (s.pc i).HasMutex) (hp : p ≠ .wait ∧ p ≠ .waiting)
    (hn : ∀ k ≠ i, s.pc k = .waiting → update s.forks j (s.forks j + d) k = 2 →
      Awakes v i k p ∨ s.forks k = 2 ∧ ¬Awakes v i k (s.pc i)) :
    Attended v ((addForks s j d).goto i p) := by
  apply att.act (i := i) rfl
  case ht => exact fun h => absurd h hp.left
  case ho =>
    intro k hk hw
    exact absurd (hw ▸ trivial) (inv.lock.not_of_ne hi hk)
  case hw => exact fun h => absurd h hp.right
  case hn => exact hn

theorem take {k : Fin n} (inv : Inv v s) (hi : (s.pc i).HasMutex) (hp : p ≠ .wait ∧ p ≠ .waiting)
    (ha : ∀ k, ¬Awakes v i k (s.pc i)) : Attended v ((addForks s k (-1)).goto i p) := by
  apply att.add inv hi hp
  intro j _ _ hf
  have := (inv.forks_range j).right
  by_cases hj : j = k
  case pos =>
    subst hj
    rw [update_self] at hf
    omega
  case neg => exact .inr ⟨by simpa [hj] using hf, ha j⟩

theorem notify (j : Fin n) : Attended v (notify s j) := by
  rw [MonitorPhilosophers.notify]
  split_ifs with hp
  case pos =>
    refine att.move (i := j) rfl rfl ?_ ?_
    all_goals simp [hp, Awakes]
  case neg => exact att

theorem step (inv : Inv v s) (h : Step v eatCount s s') : Attended v s' := by
  cases h
  case again i hp _ | stop i hp _ | think i hp | pickExit i hp | free i hp _ | eat i hp |
      leftFree i hp _ | rightFree i hp _ | releaseTake i hp _ | releaseExit i hp | spurious i hp |
      throwTake i hp _ =>
    refine att.move (i := i) rfl rfl ?_ ?_
    all_goals simp [hp, Awakes]
  case pickTake i hp _ =>
    refine att.move (i := i) rfl rfl ?_ ?_
    case refine_1 => simp
    case refine_2 => cases hp <;> simp [*, Awakes]
  case taken i hp hf =>
    refine att.move (i := i) rfl rfl (fun _ => hf) ?_
    simp [hp, Awakes]
  case wait i hp =>
    refine att.move (i := i) rfl rfl (fun _ => att.tested i hp) ?_
    simp [hp, Awakes]
  case leftTaken i hp hf =>
    refine att.move (i := i) rfl rfl (by simp) fun j hj ha => ?_
    have ha : j = left v i ∨ j = right v i := by simpa [hp, Awakes] using ha
    exact ha.resolve_left fun h => hf (h ▸ hj)
  case rightTaken i hp hf =>
    refine att.move (i := i) rfl rfl (by simp) fun j hj ha => ?_
    have ha : j = right v i := by simpa [hp, Awakes] using ha
    exact absurd (ha ▸ hj) hf
  case takeLeft i hp | takeRight i hp =>
    exact att.take inv (by simp [hp, Pc.HasMutex]) (by simp) (by simp [hp, Awakes])
  case putLeft i hp =>
    apply att.add inv (by simp [hp, Pc.HasMutex]) (by simp)
    intro k _ _ hf
    by_cases hk : k = left v i
    case pos => exact .inl hk
    case neg => exact .inr ⟨by simpa [hk] using hf, by simp [hp, Awakes]⟩
  case putRight i hp =>
    apply att.add inv (by simp [hp, Pc.HasMutex]) (by simp)
    intro k _ _ hf
    by_cases hk : k = left v i ∨ k = right v i
    case pos => exact .inl hk
    case neg =>
      obtain ⟨hl, hr⟩ := not_or.mp hk
      exact .inr ⟨by simpa [hr] using hf, by simp [hp, Awakes, hl]⟩
  case notifyLeft i hp =>
    have hp (j : Fin n) := (notify_pc (j := j) (by simp [hp])).trans hp
    apply (att.notify (left v i)).act (i := i) rfl
    case hn =>
      intro j _ hj hf
      have hl := (notify_waiting hj).right
      by_cases hr : j = right v i
      case pos => exact .inl hr
      case neg => exact .inr ⟨hf, by simp [hp, Awakes, hl, hr]⟩
    all_goals simp
  case notifyRight i hp =>
    have hp (j : Fin n) := (notify_pc (j := j) (by simp [hp])).trans hp
    apply (att.notify (right v i)).act (i := i) rfl
    case hn =>
      intro j _ hj hf
      exact .inr ⟨hf, by simp [hp, Awakes, (notify_waiting hj).right]⟩
    all_goals simp

end Attended

theorem attended_of_reachable (hn : 2 ≤ n)
    (r : ((machine v n eatCount).only Uninterrupted).Reachable s) : Attended v s := by
  apply r.invariant
  case init =>
    intro _ h
    exact h ▸ .init
  case step =>
    intro _ _ _ r att h
    have ⟨hl, h⟩ := Machine.only_step.mp h
    exact att.step (inv_of_reachable hn r) (.of_step hl h)

-- A philosopher who waits is not ready to eat.
theorem Attended.not_ready (att : Attended v s) (inv : Inv v s) (hm : s.mutex = false)
    (hi : s.pc i = .waiting) : s.forks i ≠ 2 := by
  intro hf
  have ⟨j, hj⟩ := att.noticed i hi hf
  exact inv.lock.not_of_free (by simp [hm]) j (hasMutex_of_awakes hj)

theorem live_of_philosopher (h : (philosopherStep v eatCount s i).isSome) :
    (machine v n eatCount).Live s :=
  ⟨.philosopher i, h⟩

-- The owner of the mutex does not wait for anybody.
theorem live_of_hasMutex (h : (s.pc i).HasMutex) : (machine v n eatCount).Live s := by
  apply live_of_philosopher (i := i)
  cases hp : s.pc i <;> simp_all [philosopherStep, Pc.HasMutex]

theorem live_of_between (hm : s.mutex = false) (h : (s.pc i).Between) :
    (machine v n eatCount).Live s := by
  apply live_of_philosopher (i := i)
  cases hp : s.pc i <;> simp_all [philosopherStep, takeMutex, Pc.Between]

theorem Attended.live (att : Attended v s) (inv : Inv v s) (hp : s.pc i ≠ .finished) :
    (machine v n eatCount).Live s := by
  cases hm : s.mutex
  case true =>
    have ⟨j, hj⟩ := inv.lock.owner hm
    exact live_of_hasMutex hj
  case false =>
    cases hi : s.pc i
    case finished => exact absurd hi hp
    case waiting =>
      have ⟨j, _, hj⟩ := inv.exists_between hm (att.not_ready inv hm hi)
      exact live_of_between hm hj
    case loop | think | pickMutex | relock | relockThrow | eat | releaseMutex =>
      exact live_of_philosopher (i := i) (by simp [philosopherStep, takeMutex, hi, hm])
    all_goals exact live_of_hasMutex (i := i) (by simp [hi, Pc.HasMutex])

theorem forks_exact (hn : 3 ≤ n) (r : (machine .python n eatCount).Reachable s) :
    (s.mutex = false →
      (∀ i, s.forks i = 2 - (neighbours s i).card) ∧
      (∀ i j, RoundTable.Adjacent i j → (s.pc i).Between → ¬(s.pc j).Between) ∧
      ∀ i, s.pc i = .waiting → s.forks i ≠ 2) ∧
    ∀ i, s.pc i ≠ .finished → (machine .python n eatCount).Live s := by
  have r := r.only fun _ _ _ => uninterrupted_of_python
  have inv := inv_of_reachable (Nat.le_of_succ_le hn) r
  have att := attended_of_reachable (Nat.le_of_succ_le hn) r
  exact ⟨fun hm => ⟨fun _ => inv.forks_eq hn hm, fun _ _ => inv.apart_of_free hm,
    fun _ => att.not_ready inv hm⟩, fun _ => att.live inv⟩

-- Philosopher 0 eats, and philosopher 1 waits for its fork.
theorem forks_exact_three :
    ∃ s : State 3, s.mutex = false ∧ s.pc 0 = .eat ∧ s.pc 1 = .waiting ∧ s.forks 1 ≠ 2 ∧
      s.forks 1 = 2 - (neighbours s 1).card ∧ (machine .python 3 100).Live s :=
  have ⟨s, h, hm, h₀, h₁⟩ : ∃ s, (machine .python 3 100).exec (init 3) (Machine.schedule
      [(7, .philosopher 0), (5, .philosopher 1)]) = some s ∧ s.mutex = false ∧ s.pc 0 = .eat ∧
      s.pc 1 = .waiting :=
    ⟨_, rfl, rfl, rfl, rfl⟩
  have ⟨hf, hl⟩ := forks_exact (by decide) (.of_exec rfl h)
  have ⟨he, _, hr⟩ := hf hm
  ⟨s, hm, h₀, h₁, hr 1 h₁, he 1, hl 0 (by simp [h₀])⟩

end MonitorPhilosophers
