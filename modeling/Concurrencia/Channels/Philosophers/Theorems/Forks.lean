import Concurrencia.Channels.Philosophers.Basic
import Concurrencia.OrderedResources.Basic
import Concurrencia.Threads.Basic
import Concurrencia.Threads.Count
import Mathlib.Tactic.SplitIfs

open Function Threads OrderedResources

namespace Philosophers

section Step

-- One constructor for each way through a statement.
inductive Step {n : ℕ} (v : Version) (eatCount : ℕ) (s : State n) : State n → Prop
  | again : (s.pc i = .loop) → (s.meals i < eatCount) → Step v eatCount s (s.goto i .think)
  | stop : (s.pc i = .loop) → (¬s.meals i < eatCount) → Step v eatCount s (s.goto i .done)
  | think : (s.pc i = .think) → Step v eatCount s (s.goto i .pickFirst)
  | pickFirst : (s.pc i = .pickFirst) → (s.forks (firstFork i) = true) →
    Step v eatCount s ({ s with forks := update s.forks (firstFork i) false }.goto i .pickSecond)
  | pickSecond : (s.pc i = .pickSecond) → (s.forks (secondFork i) = true) →
    Step v eatCount s ({ s with forks := update s.forks (secondFork i) false }.goto i .eat)
  | eat : (s.pc i = .eat) → Step v eatCount s (s.goto i .releaseOwn)
  | releaseOwn : (s.pc i = .releaseOwn) → (s.forks i = false) →
    Step v eatCount s ({ s with forks := update s.forks i true }.goto i .releaseRight)
  | releaseRight : (s.pc i = .releaseRight) → (s.forks (right i) = false) →
    Step v eatCount s
      ({ countMeal s i with forks := update s.forks (right i) true }.goto i .loop)
  | send : (v = .channels) → (s.pc i = .done) → (s.done.send () = some d) →
    Step v eatCount s ({ s with done := d }.goto i .finished)
  | finish : (v = .semaphores) → (s.pc i = .done) → Step v eatCount s (s.goto i .finished)
  | receive : (v = .channels) → (s.done.receive n = some d) →
    Step v eatCount s { s with done := d }

variable {v : Version} {n eatCount : ℕ} {s s' : State n} {i : Fin n} {l : Label n}

theorem Step.of_philosopher (h : philosopherStep v eatCount s i = some s') :
    Step v eatCount s s' := by
  cases hp : s.pc i <;> simp only [philosopherStep, Philosophers.take, put, hp] at h
  case loop =>
    split_ifs at h with hm
    all_goals cases h
    · exact .again hp hm
    · exact .stop hp hm
  case pickFirst =>
    split_ifs at h with hf
    cases h
    exact .pickFirst hp hf
  case pickSecond =>
    split_ifs at h with hf
    cases h
    exact .pickSecond hp hf
  case releaseOwn =>
    split_ifs at h with hf
    cases h
    exact .releaseOwn hp (Bool.not_eq_true _ ▸ hf)
  case releaseRight =>
    split_ifs at h with hf
    cases h
    exact .releaseRight hp (Bool.not_eq_true _ ▸ hf)
  case done =>
    cases v <;> simp only [Philosophers.finish] at h
    case channels =>
      have ⟨_, hd, h⟩ := Option.map_eq_some_iff.mp h
      exact h ▸ .send rfl hp hd
    case semaphores =>
      cases h
      exact .finish rfl hp
  all_goals cases h
  case think => exact .think hp
  case eat   => exact .eat hp

theorem Step.of_step (h : step v eatCount s l = some s') : Step v eatCount s s' := by
  cases l <;> simp only [step] at h
  case philosopher => exact .of_philosopher h
  case main =>
    cases v <;> simp only [mainStep] at h
    case channels =>
      have ⟨_, hd, h⟩ := Option.map_eq_some_iff.mp h
      exact h ▸ .receive rfl hd
    case semaphores => cases h

end Step

-- The forks which philosopher `i` has in its hands.
def Holds {n : ℕ} (i f : Fin n) : Pc → Prop
  | .pickSecond                                => f = firstFork i
  | .eat | .releaseOwn                         => f = i ∨ f = right i
  | .releaseRight                              => f = right i
  | .loop | .think | .pickFirst | .done | .finished => False

-- The fork which a philosopher is about to take.
def Wants {n : ℕ} (i f : Fin n) : Pc → Prop
  | .pickFirst  => f = firstFork i
  | .pickSecond => f = secondFork i
  | _           => False

variable {v : Version} {n eatCount : ℕ} {s s' : State n} {i j f : Fin n} {p : Pc}
variable {d : DoneChannel Unit}

theorem firstFork_lt (hn : 2 ≤ n) : firstFork i < secondFork i := by
  have hne : right i ≠ i := RoundTable.after_ne hn
  rw [firstFork, secondFork]
  split_ifs with h
  · exact h
  · exact lt_of_le_of_ne (not_lt.mp h) hne

theorem eq_firstFork_or : f = firstFork i ∨ f = secondFork i ↔ f = i ∨ f = right i := by
  rw [firstFork, secondFork]
  split_ifs
  · rfl
  · exact or_comm

def State.Holds (s : State n) (i f : Fin n) : Prop :=
  Philosophers.Holds i f (s.pc i)

def State.Wants (s : State n) (i f : Fin n) : Prop :=
  Philosophers.Wants i f (s.pc i)

theorem holds_own (h : s.Holds i f) : f = i ∨ f = right i := by
  cases hp : s.pc i <;> simp only [State.Holds, Holds, hp] at h
  case pickSecond            => exact eq_firstFork_or.mp (.inl h)
  case eat | releaseOwn      => exact h
  case releaseRight          => exact .inr h

structure Inv (v : Version) (s : State n) : Prop where
  forks : Allocated s.Holds s.forks
  done  : v = .channels → s.done.Counts (count s.pc (· = .finished))

namespace Inv

theorem init : Inv v (init n) where
  forks := {
    taken    := False.elim
    unique   := False.elim
    holder h := by cases h
  }
  done _ := by
    rw [count_eq_zero (by simp [Philosophers.init])]
    exact .empty

theorem count_finished (hp : s.pc i = .done) :
    count (update s.pc i .finished) (· = .finished) = count s.pc (· = .finished) + 1 :=
  count_enter (by simp [hp]) rfl

variable (inv : Inv v s)
include inv

theorem done_goto (hi : s.pc i ≠ .finished) (hp : p ≠ .finished) (h : v = .channels) :
    s.done.Counts (count (update s.pc i p) (· = .finished)) := by
  rw [count_keep (by simp [hi, hp])]
  exact inv.done h

-- The step of a philosopher who keeps its hands still.
theorem goto
    (hi : s.pc i ≠ .finished) (hp : p ≠ .finished)
    (hh : ∀ f, Holds i f p ↔ Holds i f (s.pc i)) : Inv v (s.goto i p) where
  forks := inv.forks.congr fun j f => by
    by_cases hj : j = i
    case pos => simpa [State.Holds, hj] using hh f
    case neg => simp [State.Holds, hj]
  done := inv.done_goto hi hp

theorem take
    (hi : s.pc i ≠ .finished) (hp : p ≠ .finished) (hf : s.forks f = true)
    (hh : ∀ g, Holds i g p ↔ Holds i g (s.pc i) ∨ g = f) :
    Inv v ({ s with forks := update s.forks f false }.goto i p) where
  forks := inv.forks.take (i := i) hf fun j g => by
    by_cases hj : j = i
    case pos => simpa [State.Holds, hj] using hh g
    case neg => simp [State.Holds, hj]
  done := inv.done_goto hi hp

theorem put
    (hi : s.pc i ≠ .finished) (hp : p ≠ .finished) (hf : s.Holds i f)
    (hh : ∀ g, Holds i g p ↔ Holds i g (s.pc i) ∧ g ≠ f) :
    Inv v ({ s with forks := update s.forks f true }.goto i p) where
  forks := inv.forks.put hf fun j g => by
    by_cases hj : j = i
    case pos => simpa [State.Holds, hj] using hh g
    case neg => simp [State.Holds, hj]
  done := inv.done_goto hi hp

theorem countMeal : Inv v (countMeal s i) where
  forks := inv.forks
  done  := inv.done

-- In the end the hands of a philosopher are empty.
theorem forks_finished (hp : s.pc i = .done) :
    Allocated (s.goto i .finished).Holds s.forks :=
  inv.forks.congr fun j f => by
    by_cases hj : j = i
    case pos => simp [State.Holds, hj, hp, Holds]
    case neg => simp [State.Holds, hj]

theorem send (hp : s.pc i = .done) (hd : s.done.send () = some d) :
    Inv v ({ s with done := d }.goto i .finished) where
  forks := inv.forks_finished hp
  done h := by
    rw [State.goto_pc, count_finished hp]
    exact (inv.done h).send hd

theorem finish (hv : v = .semaphores) (hp : s.pc i = .done) : Inv v (s.goto i .finished) where
  forks  := inv.forks_finished hp
  done h := by cases hv.symm.trans h

theorem receive (hd : s.done.receive n = some d) : Inv v { s with done := d } where
  forks  := inv.forks
  done h := (inv.done h).receive hd

theorem step (hn : 2 ≤ n) (h : Step v eatCount s s') : Inv v s' := by
  have hne {i : Fin n} : right i ≠ i := RoundTable.after_ne hn
  cases h
  case again hp _ | stop hp _ | think hp | eat hp =>
    exact inv.goto (by simp [hp]) (by simp) (by simp [hp, Holds])
  case pickFirst hp hf =>
    exact inv.take (by simp [hp]) (by simp) hf (by simp [hp, Holds])
  case pickSecond hp hf =>
    exact inv.take (by simp [hp]) (by simp) hf (by simp [hp, Holds, eq_firstFork_or])
  case releaseOwn hp hf =>
    apply inv.put (by simp [hp]) (by simp) (by simp [State.Holds, Holds, hp])
    intro g
    simp only [hp, Holds]
    grind
  case releaseRight hp hf =>
    apply (inv.countMeal).put (by simp [hp, Philosophers.countMeal]) (by simp)
      (by simp [State.Holds, Holds, hp, Philosophers.countMeal])
    simp [hp, Holds, Philosophers.countMeal]
  case send _ hp hd    => exact inv.send hp hd
  case finish hv hp    => exact inv.finish hv hp
  case receive _ hd    => exact inv.receive hd

end Inv

theorem inv_of_reachable (hn : 2 ≤ n) (r : (machine v n eatCount).Reachable s) : Inv v s := by
  apply r.invariant
  case init =>
    intro _ h
    exact h ▸ .init
  case step => exact fun _ _ _ _ inv h => inv.step hn (.of_step h)

-- The forks are taken in their order.
theorem ordered (hn : 2 ≤ n) (h : s.Holds i f) (hw : s.Wants i g) : f < g := by
  cases hp : s.pc i <;> simp only [State.Holds, Holds, State.Wants, Wants, hp] at h hw
  case pickSecond =>
    rw [h, hw]
    exact firstFork_lt hn

namespace Inv

variable (inv : Inv v s)
include inv

theorem on_table (h : ¬Held s.Holds f) : s.forks f = true := by
  by_contra hf
  exact h <| inv.forks.holder (Bool.not_eq_true _ ▸ hf)

theorem wants_on_table (h : ¬Blocked s.Holds s.Wants i) (hw : s.Wants i f) : s.forks f = true :=
  inv.on_table fun hf => h ⟨f, hw, hf⟩

omit inv in
theorem live_of_philosopher (h : (philosopherStep v eatCount s i).isSome) :
    (machine v n eatCount).Live s :=
  ⟨.philosopher i, h⟩

-- If the channel `done` is full, then `main` still expects an element.
theorem live_of_done (hp : s.pc i = .done) : (machine v n eatCount).Live s := by
  cases v
  case semaphores =>
    exact live_of_philosopher (i := i) (by simp [philosopherStep, hp, Philosophers.finish])
  case channels =>
    have hl := count_lt_card (f := s.pc) (P := (· = .finished)) (i := i) (by simp [hp])
    rw [Fintype.card_fin] at hl
    cases (inv.done rfl).live hl ()
    case inl hd =>
      exact live_of_philosopher (i := i) (by simp [philosopherStep, hp, Philosophers.finish, hd])
    case inr hd => exact ⟨.main, by simpa [machine, Philosophers.step, mainStep] using hd⟩

theorem releaseOwn (hp : s.pc i = .releaseOwn) : s.forks i = false :=
  inv.forks.taken (i := i) (by simp [State.Holds, Holds, hp])

theorem releaseRight (hp : s.pc i = .releaseRight) : s.forks (right i) = false :=
  inv.forks.taken (i := i) (by simp [State.Holds, Holds, hp])

theorem release_isSome (hp : s.pc i = .releaseOwn ∨ s.pc i = .releaseRight) :
    (philosopherStep v eatCount s i).isSome := by
  cases hp
  case inl hp => simp [philosopherStep, Philosophers.put, hp, inv.releaseOwn hp]
  case inr hp =>
    simp [philosopherStep, Philosophers.put, Philosophers.countMeal, hp, inv.releaseRight hp]

theorem live_of_not_blocked (hp : s.pc i ≠ .finished) (h : ¬Blocked s.Holds s.Wants i) :
    (machine v n eatCount).Live s := by
  cases hi : s.pc i
  case finished => exact absurd hi hp
  case done     => exact inv.live_of_done hi
  case loop | think | eat => exact live_of_philosopher (i := i) (by simp [philosopherStep, hi])
  case pickFirst =>
    have hf := inv.wants_on_table h (f := firstFork i) (by simp [State.Wants, Wants, hi])
    exact live_of_philosopher (i := i) (by simp [philosopherStep, Philosophers.take, hi, hf])
  case pickSecond =>
    have hf := inv.wants_on_table h (f := secondFork i) (by simp [State.Wants, Wants, hi])
    exact live_of_philosopher (i := i) (by simp [philosopherStep, Philosophers.take, hi, hf])
  case releaseOwn   => exact live_of_philosopher (inv.release_isSome (.inl hi))
  case releaseRight => exact live_of_philosopher (inv.release_isSome (.inr hi))

theorem live (hn : 2 ≤ n) (hp : s.pc i ≠ .finished) : (machine v n eatCount).Live s := by
  by_cases hb : Blocked s.Holds s.Wants i
  case neg => exact inv.live_of_not_blocked hp hb
  case pos =>
    have ⟨_, _, hf⟩ := hb
    have ho (i f g : Fin n) (hf : s.Holds i f) (hg : s.Wants i g) : f < g := ordered hn hf hg
    have ⟨j, ⟨f, hj⟩, hb⟩ := exists_not_blocked ho hf
    apply inv.live_of_not_blocked ?_ hb
    intro hp
    simp [State.Holds, hp, Holds] at hj

end Inv

-- Each fork is on the table or in the hand of one of its two philosophers.
theorem forks_in_order (hn : 2 ≤ n) (r : (machine v n eatCount).Reachable s) :
    (∀ f, s.forks f = true ∧ (∀ i, ¬s.Holds i f) ∨
      s.forks f = false ∧ ∃ i, (f = i ∨ f = right i) ∧ ∀ j, s.Holds j f ↔ j = i) ∧
    (∀ i, s.pc i = .eat → s.pc (right i) ≠ .eat) ∧
    (∀ i, s.pc i = .releaseOwn → s.forks i = false) ∧
    (∀ i, s.pc i = .releaseRight → s.forks (right i) = false) ∧
    (∀ i, s.pc i = .releaseOwn ∨ s.pc i = .releaseRight →
      (step v eatCount s (.philosopher i)).isSome) ∧
    ∀ i, s.pc i ≠ .finished → (machine v n eatCount).Live s := by
  have inv := inv_of_reachable hn r
  refine ⟨?_, ?_, fun _ => inv.releaseOwn, fun _ => inv.releaseRight, fun _ => inv.release_isSome,
    fun _ => inv.live hn⟩
  · intro f
    cases hf : s.forks f
    case true => exact .inl ⟨rfl, fun i hi => by cases hf.symm.trans (inv.forks.taken hi)⟩
    case false =>
      have ⟨i, hi⟩ := inv.forks.holder hf
      refine .inr ⟨rfl, i, holds_own hi, fun j => ?_⟩
      constructor
      · exact fun hj => inv.forks.unique hj hi
      · exact fun hj => hj ▸ hi
  · intro i hi hr
    have h : right i = i := inv.forks.unique (r := right i) (by simp [State.Holds, hr, Holds])
      (by simp [State.Holds, hi, Holds])
    exact RoundTable.after_ne hn h

-- Philosopher 1 of two has picked no fork and waits, while philosopher 0 eats.
theorem forks_in_order_two :
    ∃ s : State 2, s.pc 0 = .eat ∧ s.pc 1 = .pickFirst ∧ s.forks (firstFork 1) = false ∧
      s.pc (right 0) ≠ .eat ∧ (machine .channels 2 100).Live s :=
  have ⟨s, h, h₀, h₁, hf⟩ : ∃ s, (machine .channels 2 100).exec (init 2) (Machine.schedule
      [(2, .philosopher 0), (2, .philosopher 1), (2, .philosopher 0)]) = some s ∧ s.pc 0 = .eat ∧
      s.pc 1 = .pickFirst ∧ s.forks (firstFork 1) = false :=
    ⟨_, rfl, rfl, rfl, rfl⟩
  have ⟨_, he, _, _, _, hl⟩ := forks_in_order (by decide) (.of_exec rfl h)
  ⟨s, h₀, h₁, hf, he 0 h₀, hl 0 (by simp [h₀])⟩

end Philosophers
