import Concurrencia.Monitors.Philosophers.Basic
import Concurrencia.RoundTable.Basic
import Concurrencia.Threads.Basic
import Mathlib.Tactic.SplitIfs

open Function Threads

namespace MonitorPhilosophers

section Step

-- No wait throws.
def Uninterrupted {n : ℕ} (_ : State n) : Label n → Prop
  | .interrupt _                  => False
  | .philosopher _ | .spurious _ => True

instance {n : ℕ} (s : State n) : (l : Label n) → Decidable (Uninterrupted s l)
  | .interrupt _                  => inferInstanceAs <| Decidable False
  | .philosopher _ | .spurious _ => inferInstanceAs <| Decidable True

-- One constructor for each way through a statement, unless it is left by the exception.
inductive Step {n : ℕ} (v : Version) (eatCount : ℕ) (s : State n) : State n → Prop
  | again : (s.pc i = .loop) → (s.meals i < eatCount) → Step v eatCount s (s.goto i .think)
  | stop : (s.pc i = .loop) → (¬s.meals i < eatCount) → Step v eatCount s (s.goto i .finished)
  | think : (s.pc i = .think) → Step v eatCount s (s.goto i .pickMutex)
  | pickTake : (s.pc i = .pickMutex ∨ s.pc i = .relock) → (s.mutex = false) →
    Step v eatCount s ({ s with mutex := true }.goto i .test)
  | throwTake : (s.pc i = .relockThrow) → (s.mutex = false) →
    Step v eatCount s ({ s with mutex := true }.goto i .pickExit)
  | taken : (s.pc i = .test) → (s.forks i ≠ 2) → Step v eatCount s (s.goto i .wait)
  | free : (s.pc i = .test) → (s.forks i = 2) → Step v eatCount s (s.goto i .takeLeft)
  | wait : (s.pc i = .wait) → Step v eatCount s ({ s with mutex := false }.goto i .waiting)
  | takeLeft : (s.pc i = .takeLeft) →
    Step v eatCount s ((addForks s (left v i) (-1)).goto i .takeRight)
  | takeRight : (s.pc i = .takeRight) →
    Step v eatCount s ((addForks s (right v i) (-1)).goto i .pickExit)
  | pickExit : (s.pc i = .pickExit) → Step v eatCount s ({ s with mutex := false }.goto i .eat)
  | eat : (s.pc i = .eat) → Step v eatCount s (s.goto i .releaseMutex)
  | releaseTake : (s.pc i = .releaseMutex) → (s.mutex = false) →
    Step v eatCount s ({ s with mutex := true }.goto i .putLeft)
  | putLeft : (s.pc i = .putLeft) →
    Step v eatCount s ((addForks s (left v i) 1).goto i .putRight)
  | putRight : (s.pc i = .putRight) →
    Step v eatCount s ((addForks s (right v i) 1).goto i .testLeft)
  | leftFree : (s.pc i = .testLeft) → (s.forks (left v i) = 2) →
    Step v eatCount s (s.goto i .notifyLeft)
  | leftTaken : (s.pc i = .testLeft) → (s.forks (left v i) ≠ 2) →
    Step v eatCount s (s.goto i .testRight)
  | notifyLeft : (s.pc i = .notifyLeft) →
    Step v eatCount s ((notify s (left v i)).goto i .testRight)
  | rightFree : (s.pc i = .testRight) → (s.forks (right v i) = 2) →
    Step v eatCount s (s.goto i .notifyRight)
  | rightTaken : (s.pc i = .testRight) → (s.forks (right v i) ≠ 2) →
    Step v eatCount s (s.goto i .releaseExit)
  | notifyRight : (s.pc i = .notifyRight) →
    Step v eatCount s ((notify s (right v i)).goto i .releaseExit)
  | releaseExit : (s.pc i = .releaseExit) →
    Step v eatCount s ({ countMeal s i with mutex := false }.goto i .loop)
  | spurious : (s.pc i = .waiting) → Step v eatCount s (s.goto i .relock)

variable {v : Version} {n eatCount : ℕ} {s s' : State n} {i : Fin n} {l : Label n}

theorem Step.of_philosopher (h : philosopherStep v eatCount s i = some s') :
    Step v eatCount s s' := by
  cases hp : s.pc i <;> simp only [philosopherStep, takeMutex, hp] at h
  case loop =>
    split_ifs at h with hm
    all_goals cases h
    · exact .again hp hm
    · exact .stop hp hm
  case pickMutex =>
    split_ifs at h with hm
    cases h
    exact .pickTake (.inl hp) (Bool.not_eq_true _ ▸ hm)
  case relock =>
    split_ifs at h with hm
    cases h
    exact .pickTake (.inr hp) (Bool.not_eq_true _ ▸ hm)
  case relockThrow =>
    split_ifs at h with hm
    cases h
    exact .throwTake hp (Bool.not_eq_true _ ▸ hm)
  case releaseMutex =>
    split_ifs at h with hm
    cases h
    exact .releaseTake hp (Bool.not_eq_true _ ▸ hm)
  case test =>
    split_ifs at h with hf
    all_goals cases h
    · exact .taken hp hf
    · exact .free hp (not_not.mp hf)
  case testLeft =>
    split_ifs at h with hf
    all_goals cases h
    · exact .leftFree hp hf
    · exact .leftTaken hp hf
  case testRight =>
    split_ifs at h with hf
    all_goals cases h
    · exact .rightFree hp hf
    · exact .rightTaken hp hf
  all_goals cases h
  case think       => exact .think hp
  case wait        => exact .wait hp
  case takeLeft    => exact .takeLeft hp
  case takeRight   => exact .takeRight hp
  case pickExit    => exact .pickExit hp
  case eat         => exact .eat hp
  case putLeft     => exact .putLeft hp
  case putRight    => exact .putRight hp
  case notifyLeft  => exact .notifyLeft hp
  case notifyRight => exact .notifyRight hp
  case releaseExit => exact .releaseExit hp

theorem Step.of_step (hl : Uninterrupted s l) (h : step v eatCount s l = some s') :
    Step v eatCount s s' := by
  cases l <;> simp only [step] at h
  case philosopher => exact .of_philosopher h
  case spurious =>
    rw [spuriousStep] at h
    split_ifs at h with hp
    cases h
    exact .spurious hp.right
  case interrupt => exact hl.elim

-- There are no exceptions in Python.
theorem uninterrupted_of_python (h : step .python eatCount s l = some s') :
    Uninterrupted s l := by
  cases l
  case interrupt => cases h
  all_goals trivial

end Step

namespace Pc

def HasMutex : Pc → Prop
  | test | wait | takeLeft | takeRight | pickExit                                => True
  | putLeft | putRight | testLeft | notifyLeft | testRight | notifyRight         => True
  | releaseExit                                                                  => True
  | loop | think | pickMutex | waiting | relock | relockThrow | eat | releaseMutex => False
  | finished                                                                     => False

-- Between the two changes of the entry on the left, and of the one on the right.
def TookLeft (p : Pc) : Prop :=
  p = takeRight ∨ p = pickExit ∨ p = eat ∨ p = releaseMutex ∨ p = putLeft

def TookRight (p : Pc) : Prop :=
  p = pickExit ∨ p = eat ∨ p = releaseMutex ∨ p = putLeft ∨ p = putRight

-- From the test of `pick` to the end of the changes in `release`.
def Holds (p : Pc) : Prop :=
  p = takeLeft ∨ p.TookLeft ∨ p = putRight

-- Between `pick` and the end of `release`.
def Between (p : Pc) : Prop :=
  p = eat ∨ p = releaseMutex ∨ p = putLeft ∨ p = putRight ∨ p = testLeft ∨ p = notifyLeft ∨
  p = testRight ∨ p = notifyRight ∨ p = releaseExit

instance : DecidablePred TookLeft :=
  fun _ => inferInstanceAs <| Decidable (_ ∨ _)

instance : DecidablePred TookRight :=
  fun _ => inferInstanceAs <| Decidable (_ ∨ _)

instance : DecidablePred Between :=
  fun _ => inferInstanceAs <| Decidable (_ ∨ _)

end Pc

variable {v : Version} {n eatCount : ℕ} {s s' : State n} {i j : Fin n} {p : Pc} {d : ℤ}

@[simp] theorem left_right : left v (right v i) = i := by
  cases v <;> simp [left, right]

@[simp] theorem right_left : right v (left v i) = i := by
  cases v <;> simp [left, right]

theorem adjacent_iff : RoundTable.Adjacent i j ↔ j = left v i ∨ j = right v i := by
  cases v
  case python => rfl
  case java   => exact or_comm

theorem notify_pc (hi : s.pc i ≠ .waiting) : (notify s j).pc i = s.pc i := by
  rw [notify]
  split_ifs with hj
  case pos =>
    have hij : i ≠ j := fun h => hi (h ▸ hj)
    simp [hij]
  case neg => rfl

theorem notify_waiting (h : (notify s j).pc i = .waiting) : s.pc i = .waiting ∧ i ≠ j := by
  rw [notify] at h
  split_ifs at h with hp
  case pos =>
    have hij : i ≠ j := fun hij => by simp [hij] at h
    exact ⟨by simpa [hij] using h, hij⟩
  case neg => exact ⟨h, fun hij => hp (hij ▸ h)⟩

-- The entry of a philosopher is what its neighbours have left of the two forks.
structure Inv (v : Version) (s : State n) : Prop where
  lock     : Owned s.pc Pc.HasMutex (s.mutex = true)
  forks    : ∀ j, s.forks j = 2 - (if (s.pc (right v j)).TookLeft then 1 else 0) -
    if (s.pc (left v j)).TookRight then 1 else 0
  apart    : ∀ {i j}, RoundTable.Adjacent i j → (s.pc i).Holds → ¬(s.pc j).Holds
  unthrown : ∀ i, s.pc i ≠ .relockThrow

namespace Inv

theorem init : Inv v (init n) where
  lock       := ⟨⟨False.elim, False.elim⟩, fun h => by cases h⟩
  forks _    := by simp [MonitorPhilosophers.init, Pc.TookLeft, Pc.TookRight]
  apart _ h  := by simp [MonitorPhilosophers.init, Pc.TookLeft, Pc.Holds] at h
  unthrown _ := by simp [MonitorPhilosophers.init]

variable (inv : Inv v s)
include inv

theorem apart_update (hp : p.Holds → (s.pc i).Holds) {j k : Fin n} (ha : RoundTable.Adjacent j k)
    (hj : (update s.pc i p j).Holds) : ¬(update s.pc i p k).Holds := by
  have old {m : Fin n} (h : (update s.pc i p m).Holds) : (s.pc m).Holds := by
    by_cases hm : m = i
    case pos => exact hm ▸ hp (by simpa [hm] using h)
    case neg => simpa [hm] using h
  exact fun hk => inv.apart ha (old hj) (old hk)

-- The step of a philosopher who leaves the entries alone.
theorem move {t : State n} (hp : t.pc = update s.pc i p) (hf : t.forks = s.forks)
    (lock : Owned t.pc Pc.HasMutex (t.mutex = true))
    (hl : p.TookLeft ↔ (s.pc i).TookLeft) (hr : p.TookRight ↔ (s.pc i).TookRight)
    (hh : p.Holds → (s.pc i).Holds) (ht : p ≠ .relockThrow) : Inv v t where
  lock := lock
  forks j := by
    simp only [hp, hf, update_iff hl, update_iff hr]
    exact inv.forks j
  apart := by
    rw [hp]
    exact inv.apart_update hh
  unthrown := by
    rw [hp]
    exact forall_update (P := (· ≠ Pc.relockThrow)) ht fun j _ => inv.unthrown j

-- The change of the entry on the left.
theorem addLeft (lock : Owned (update s.pc i p) Pc.HasMutex (s.mutex = true))
    (hl : (if p.TookLeft then 1 else 0) = (if (s.pc i).TookLeft then 1 else 0) - d)
    (hr : p.TookRight ↔ (s.pc i).TookRight) (hh : p.Holds → (s.pc i).Holds)
    (ht : p ≠ .relockThrow) : Inv v ((addForks s (left v i) d).goto i p) where
  lock := lock
  forks j := by
    have hj := inv.forks j
    by_cases hji : j = left v i
    case pos =>
      subst hji
      simp only [State.goto_forks, addForks_forks, update_self, State.goto_pc, addForks_pc,
        right_left, update_iff hr, hl]
      rw [right_left] at hj
      omega
    case neg =>
      have hn : right v j ≠ i := fun h => hji (by simp [← h])
      simpa [hji, hn, update_iff hr] using hj
  apart    := inv.apart_update hh
  unthrown := forall_update (P := (· ≠ Pc.relockThrow)) ht fun j _ => inv.unthrown j

theorem addRight (lock : Owned (update s.pc i p) Pc.HasMutex (s.mutex = true))
    (hl : p.TookLeft ↔ (s.pc i).TookLeft)
    (hr : (if p.TookRight then 1 else 0) = (if (s.pc i).TookRight then 1 else 0) - d)
    (hh : p.Holds → (s.pc i).Holds) (ht : p ≠ .relockThrow) :
    Inv v ((addForks s (right v i) d).goto i p) where
  lock := lock
  forks j := by
    have hj := inv.forks j
    by_cases hji : j = right v i
    case pos =>
      subst hji
      simp only [State.goto_forks, addForks_forks, update_self, State.goto_pc, addForks_pc,
        left_right, update_iff hl, hr]
      rw [left_right] at hj
      omega
    case neg =>
      have hn : left v j ≠ i := fun h => hji (by simp [← h])
      simpa [hji, hn, update_iff hl] using hj
  apart    := inv.apart_update hh
  unthrown := forall_update (P := (· ≠ Pc.relockThrow)) ht fun j _ => inv.unthrown j

theorem notify (j : Fin n) : Inv v (notify s j) := by
  rw [MonitorPhilosophers.notify]
  split_ifs with hp
  case pos =>
    refine inv.move (i := j) rfl rfl ?lock ?_ ?_ ?_ ?_
    case lock => exact inv.lock.keep (by simp [hp, Pc.HasMutex])
    all_goals simp [hp, Pc.TookLeft, Pc.TookRight, Pc.Holds]
  case neg => exact inv

-- A philosopher with two forks has no neighbour who holds one. The neighbours do not have the
-- mutex, so they have changed both entries or none.
theorem not_holds (hi : (s.pc i).HasMutex) (hf : s.forks i = 2) (hn : 2 ≤ n)
    (ha : RoundTable.Adjacent i j) : ¬(s.pc j).Holds := by
  intro hj
  have hm := inv.lock.not_of_ne hi (ha.ne hn)
  have ⟨hl, hr⟩ : (s.pc j).TookLeft ∧ (s.pc j).TookRight := by
    cases hp : s.pc j <;> simp_all [Pc.Holds, Pc.HasMutex, Pc.TookLeft, Pc.TookRight]
  have := inv.forks i
  cases adjacent_iff.mp ha
  case inl ha =>
    rw [ha] at hr
    rw [if_pos hr] at this
    split_ifs at this
    all_goals omega
  case inr ha =>
    rw [ha] at hl
    rw [if_pos hl] at this
    split_ifs at this
    all_goals omega

theorem free (hn : 2 ≤ n) (hp : s.pc i = .test) (hf : s.forks i = 2) :
    Inv v (s.goto i .takeLeft) where
  lock := inv.lock.keep (by simp [hp, Pc.HasMutex])
  forks j := by
    simpa [update_iff (P := Pc.TookLeft) (f := s.pc) (i := i) (p := .takeLeft)
      (by simp [hp, Pc.TookLeft]), update_iff (P := Pc.TookRight) (f := s.pc) (i := i)
      (p := .takeLeft) (by simp [hp, Pc.TookRight])] using inv.forks j
  apart {j k} ha hj hk := by
    have hm : (s.pc i).HasMutex := by simp [hp, Pc.HasMutex]
    by_cases hji : j = i
    case pos =>
      subst hji
      have hkj := ha.ne hn
      exact inv.not_holds hm hf hn ha (by simpa [hkj] using hk)
    case neg =>
      have hj : (s.pc j).Holds := by simpa [hji] using hj
      by_cases hki : k = i
      case pos => exact inv.not_holds hm hf hn (hki ▸ ha.symm) hj
      case neg => exact inv.apart ha hj (by simpa [hki] using hk)
  unthrown := forall_update (P := (· ≠ Pc.relockThrow)) (by simp) fun j _ => inv.unthrown j

theorem step (hn : 2 ≤ n) (h : Step v eatCount s s') : Inv v s' := by
  cases h
  case throwTake i hp _ => exact absurd hp (inv.unthrown i)
  case free hp hf       => exact inv.free hn hp hf
  case again i hp _ | stop i hp _ | think i hp | taken i hp _ | eat i hp | leftFree i hp _ |
      leftTaken i hp _ | rightFree i hp _ | rightTaken i hp _ | spurious i hp =>
    refine inv.move (i := i) rfl rfl ?lock ?_ ?_ ?_ ?_
    case lock => exact inv.lock.keep (by simp [hp, Pc.HasMutex])
    all_goals simp [hp, Pc.TookLeft, Pc.TookRight, Pc.Holds]
  case pickTake i hp hm =>
    cases hp
    all_goals
      refine inv.move (i := i) rfl rfl ?lock ?_ ?_ ?_ ?_
      case lock => exact inv.lock.take (by simp [hm]) trivial rfl
      all_goals simp [*, Pc.TookLeft, Pc.TookRight, Pc.Holds]
  case releaseTake i hp hm =>
    refine inv.move (i := i) rfl rfl ?lock ?_ ?_ ?_ ?_
    case lock => exact inv.lock.take (by simp [hm]) trivial rfl
    all_goals simp [hp, Pc.TookLeft, Pc.TookRight, Pc.Holds]
  case wait i hp | pickExit i hp | releaseExit i hp =>
    refine inv.move (i := i) rfl rfl ?lock ?_ ?_ ?_ ?_
    case lock => exact inv.lock.free (by simp [hp, Pc.HasMutex]) id (by simp)
    all_goals simp [hp, Pc.TookLeft, Pc.TookRight, Pc.Holds]
  case takeLeft hp | putLeft hp =>
    apply inv.addLeft (inv.lock.keep (by simp [hp, Pc.HasMutex]))
    all_goals simp [hp, Pc.TookLeft, Pc.TookRight, Pc.Holds]
  case takeRight hp | putRight hp =>
    apply inv.addRight (inv.lock.keep (by simp [hp, Pc.HasMutex]))
    all_goals simp [hp, Pc.TookLeft, Pc.TookRight, Pc.Holds]
  case notifyLeft i hp | notifyRight i hp =>
    have hp (j : Fin n) := (notify_pc (j := j) (by simp [hp])).trans hp
    refine (inv.notify _).move (i := i) rfl rfl ?lock ?_ ?_ ?_ ?_
    case lock => exact (inv.notify _).lock.keep (by simp [hp, Pc.HasMutex])
    all_goals simp [hp, Pc.TookLeft, Pc.TookRight, Pc.Holds]

end Inv

theorem inv_of_reachable (hn : 2 ≤ n)
    (r : ((machine v n eatCount).only Uninterrupted).Reachable s) : Inv v s := by
  apply r.invariant
  case init =>
    intro _ h
    exact h ▸ .init
  case step =>
    intro _ _ _ _ inv h
    have ⟨hl, h⟩ := Machine.only_step.mp h
    exact inv.step hn (.of_step hl h)

-- The neighbours who have returned from `pick` and not completed `release`.
def neighbours (s : State n) (i : Fin n) : Finset (Fin n) :=
  Finset.univ.filter fun j => RoundTable.Adjacent i j ∧ (s.pc j).Between

-- Outside of the monitor a philosopher has changed both entries or none.
theorem tookLeft_iff (h : ¬p.HasMutex) : p.TookLeft ↔ p.Between := by
  cases p <;> simp_all [Pc.HasMutex, Pc.TookLeft, Pc.Between]

theorem tookRight_iff (h : ¬p.HasMutex) : p.TookRight ↔ p.Between := by
  cases p <;> simp_all [Pc.HasMutex, Pc.TookRight, Pc.Between]

namespace Inv

variable (inv : Inv v s)
include inv

theorem forks_range (i : Fin n) : 0 ≤ s.forks i ∧ s.forks i ≤ 2 := by
  rw [inv.forks]
  split_ifs
  all_goals simp

theorem not_hasMutex (hm : s.mutex = false) (i : Fin n) : ¬(s.pc i).HasMutex :=
  inv.lock.not_of_free (by simp [hm]) i

theorem forks_eq_between (hm : s.mutex = false) (i : Fin n) :
    s.forks i = 2 - (if (s.pc (right v i)).Between then 1 else 0) -
      if (s.pc (left v i)).Between then 1 else 0 := by
  simp only [inv.forks i, tookLeft_iff (inv.not_hasMutex hm _),
    tookRight_iff (inv.not_hasMutex hm _)]

theorem forks_eq (hn : 3 ≤ n) (hm : s.mutex = false) :
    s.forks i = 2 - (neighbours s i).card := by
  rw [neighbours, RoundTable.card_adjacent hn, inv.forks_eq_between hm]
  by_cases ha : (s.pc (RoundTable.after i)).Between
  all_goals
    by_cases hb : (s.pc (RoundTable.before i)).Between
    all_goals cases v <;> simp [left, right, ha, hb]

theorem apart_of_free (hm : s.mutex = false) (ha : RoundTable.Adjacent i j)
    (hi : (s.pc i).Between) : ¬(s.pc j).Between := by
  have holds {k : Fin n} (hk : (s.pc k).Between) : (s.pc k).Holds :=
    .inr <| .inl <| (tookLeft_iff (inv.not_hasMutex hm k)).mpr hk
  exact fun hj => inv.apart ha (holds hi) (holds hj)

theorem exists_between (hm : s.mutex = false) (hi : s.forks i ≠ 2) :
    ∃ j, RoundTable.Adjacent i j ∧ (s.pc j).Between := by
  have hf := inv.forks_eq_between hm i
  by_cases hl : (s.pc (left v i)).Between
  case pos => exact ⟨_, adjacent_iff.mpr (.inl rfl), hl⟩
  case neg =>
    by_cases hr : (s.pc (right v i)).Between
    case pos => exact ⟨_, adjacent_iff.mpr (.inr rfl), hr⟩
    case neg => exact absurd (by simpa [hl, hr] using hf) hi

end Inv

-- As long as no wait throws, the entries are exact, inside of the monitor up to the changes which
-- are still ahead.
theorem uninterrupted_table (hn : 3 ≤ n)
    (r : ((machine .java n eatCount).only Uninterrupted).Reachable s) :
    (s.mutex = false → ∀ i, s.forks i = 2 - (neighbours s i).card) ∧
    (∀ i, s.forks i = 2 - (if (s.pc (right .java i)).TookLeft then 1 else 0) -
      if (s.pc (left .java i)).TookRight then 1 else 0) ∧
    (∀ i, 0 ≤ s.forks i ∧ s.forks i ≤ 2) ∧
    ∀ i j, RoundTable.Adjacent i j → s.pc i = .eat → s.pc j ≠ .eat := by
  have inv := inv_of_reachable (Nat.le_of_succ_le hn) r
  refine ⟨fun hm _ => inv.forks_eq hn hm, inv.forks, inv.forks_range, ?_⟩
  intro i j ha hi hj
  exact inv.apart ha (hi ▸ by simp [Pc.Holds, Pc.TookLeft]) (hj ▸ by simp [Pc.Holds, Pc.TookLeft])

-- Philosopher 0 eats, and philosopher 1 waits.
theorem uninterrupted_table_three :
    ∃ s : State 3, s.mutex = false ∧ s.pc 0 = .eat ∧ s.forks 1 = 1 ∧
      s.forks 1 = 2 - (neighbours s 1).card ∧ s.pc 1 ≠ .eat :=
  have ⟨s, h, hm, h₀, h₁⟩ : ∃ s, ((machine .java 3 100).only Uninterrupted).exec (init 3)
      (Machine.schedule [(7, .philosopher 0), (5, .philosopher 1)]) = some s ∧ s.mutex = false ∧
      s.pc 0 = .eat ∧ s.forks 1 = 1 :=
    ⟨_, rfl, rfl, rfl, rfl⟩
  have ⟨hf, _, _, ha⟩ := uninterrupted_table (by decide) (.of_exec rfl h)
  ⟨s, hm, h₀, h₁, hf hm 1, ha 0 1 (by decide) h₀⟩

-- Philosopher 1 waits for philosopher 0 and is interrupted. It eats with its neighbour, and when
-- both have returned their forks there are more of them than before.
theorem interrupted_meal :
    (∃ s : State 3, (machine .java 3 100).Reachable s ∧ RoundTable.Adjacent (0 : Fin 3) 1 ∧
      s.pc 0 = .eat ∧ s.pc 1 = .eat) ∧
    ∃ s : State 3, (machine .java 3 100).Reachable s ∧ s.mutex = false ∧ s.forks 0 = 3 ∧
      s.forks 0 ≠ 2 - (neighbours s 0).card := by
  have ⟨s, h, h₀, h₁⟩ : ∃ s, (machine .java 3 100).exec (init 3) (Machine.schedule
      [(7, .philosopher 0), (5, .philosopher 1), (1, .interrupt 1), (2, .philosopher 1)]) =
      some s ∧ s.pc 0 = .eat ∧ s.pc 1 = .eat :=
    ⟨_, rfl, rfl, rfl⟩
  have ⟨t, ht, hm, hf, hc⟩ : ∃ s, (machine .java 3 100).exec (init 3) (Machine.schedule
      [(7, .philosopher 0), (5, .philosopher 1), (1, .interrupt 1), (2, .philosopher 1),
        (9, .philosopher 0), (7, .philosopher 1)]) = some s ∧ s.mutex = false ∧ s.forks 0 = 3 ∧
      (neighbours s 0).card = 0 :=
    ⟨_, rfl, rfl, rfl, rfl⟩
  exact ⟨⟨s, .of_exec rfl h, by decide, h₀, h₁⟩, t, .of_exec rfl ht, hm, hf, by simp [hf, hc]⟩

end MonitorPhilosophers
