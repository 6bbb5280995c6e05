import Concurrencia.Futex.FairMutex.Basic
import Concurrencia.FifoLock.Tickets
import Mathlib.Tactic.SplitIfs

open Function

namespace FairMutex

section Step

open FifoLock (Event)

-- One constructor for each way through a statement, with the event it causes.
inductive Step {n : ℕ} (s : State n) : Option (Event (Fin n)) → State n → Prop
  | call : (s.pc i = .idle) → Step s none (s.goto i .fetchAdd)
  | fetchAdd : (s.pc i = .fetchAdd) →
    Step s (some (.enqueue i)) ({ s with number := s.number + 1 }.goto i (.loadTurn s.number))
  | enter : (s.pc i = .loadTurn s.turn) → Step s (some (.enter i)) (s.goto i .critical)
  | early : (s.pc i = .loadTurn v) → (v ≠ s.turn) → Step s none (s.goto i (.wait v s.turn))
  | sleep : (s.pc i = .wait v s.turn) → Step s none (s.goto i (.asleep v))
  | retry : (s.pc i = .wait v t ∨ s.pc i = .asleep v) → Step s none (s.goto i (.loadTurn v))
  | leave : (s.pc i = .critical) → Step s none (s.goto i .addFetch)
  | addFetch : (s.pc i = .addFetch) →
    Step s (some (.leave i)) ({ s with turn := s.turn + 1 }.goto i (.test (s.turn + 1).toInt))
  | rouse : (s.pc i = .test c) → (s.number ≥ .ofInt 32 c) → Step s none (s.goto i (.wake c))
  | done : (s.pc i = .test c) → (¬s.number ≥ .ofInt 32 c) → Step s none (s.goto i .idle)
  | wake : (s.pc i = .wake c) →
    Step s none ({ s with pc := fun j => (s.pc j).woken }.goto i .idle)

variable {n : ℕ} {s s' : State n} {i : Fin n} {l : Label n}

theorem Step.of_thread (h : threadStep s i = some s') : Step s (event s (.thread i)) s' := by
  cases hp : s.pc i <;> simp only [threadStep, event, hp] at h ⊢
  case loadTurn v =>
    split_ifs at h with hv
    all_goals cases h
    · rw [if_neg hv]
      exact .early hp hv
    · obtain rfl := not_not.mp hv
      rw [if_pos rfl]
      exact .enter hp
  case wait v t =>
    split_ifs at h with ht
    all_goals cases h
    · exact .sleep (ht ▸ hp)
    · exact .retry (.inl hp)
  case test c =>
    split_ifs at h with hc
    all_goals cases h
    · exact .rouse hp hc
    · exact .done hp hc
  all_goals cases h
  case idle     => exact .call hp
  case fetchAdd => exact .fetchAdd hp
  case critical => exact .leave hp
  case addFetch => exact .addFetch hp
  case wake     => exact .wake hp

theorem Step.of_step (h : step s l = some s') : Step s (event s l) s' := by
  cases l <;> simp only [step] at h
  case thread => exact .of_thread h
  case spurious i =>
    cases hp : s.pc i <;> simp only [spuriousStep, hp] at h
    case wait =>
      cases h
      exact .retry (.inl hp)
    case asleep =>
      cases h
      exact .retry (t := 0) (.inr hp)
    all_goals cases h

end Step

open FifoLock (Event Stage Counted)

namespace Pc

def stage : Pc → Stage (BitVec 32)
  | idle | fetchAdd | test _ | wake _   => .outside
  | loadTurn v | wait v _ | asleep v    => .waiting v
  | critical | addFetch                 => .inside

-- Between `lock` and the step of `unlock` which hands the mutex over.
def Inside (p : Pc) : Prop :=
  p = critical ∨ p = addFetch

theorem stage_inside {p : Pc} : p.stage = .inside ↔ p.Inside := by
  cases p <;> simp [stage, Inside]

theorem stage_woken {p : Pc} : p.woken.stage = p.stage := by
  cases p <;> rfl

end Pc

variable {n : ℕ} {s s' : State n} {i j : Fin n} {p : Pc} {v u : BitVec 32}
variable {t : FifoLock.State (Fin n)} {l : List (Event (Fin n))}

structure Refines (s : State n) (t : FifoLock.State (Fin n)) : Prop where
  counted : Counted (Pc.stage ∘ s.pc) s.turn s.number t
  waits   : ∀ {i v u}, s.pc i = .wait v u → v ≠ u

namespace Refines

theorem init : Refines (init n) (FifoLock.init (Fin n)) where
  counted := .init
  waits h := by simp [FairMutex.init] at h

variable (ref : Refines s t)
include ref

theorem waits_update (hp : ∀ v u, p = .wait v u → v ≠ u) (h : update s.pc i p j = .wait v u) :
    v ≠ u := by
  by_cases hj : j = i
  case pos => exact hp v u (by simpa [hj] using h)
  case neg => exact ref.waits (by simpa [hj] using h)

theorem goto (hs : p.stage = (s.pc i).stage) (hp : ∀ v u, p = .wait v u → v ≠ u) :
    Refines (s.goto i p) t where
  counted := ref.counted.keep hs
  waits   := ref.waits_update hp

theorem woken : Refines { s with pc := fun j => (s.pc j).woken } t where
  counted := by
    have hc : (Pc.stage ∘ fun j => (s.pc j).woken) = Pc.stage ∘ s.pc :=
      funext fun _ => Pc.stage_woken
    exact hc ▸ ref.counted
  waits {i v u} h := by
    cases hp : s.pc i <;> simp only [hp, Pc.woken, reduceCtorEq] at h
    case wait => exact ref.waits (h ▸ hp)

-- Each step of the mutex is one of the specification, or none.
theorem step {e : Option (Event (Fin n))} (hn : n ≤ 2 ^ 32) (h : Step s e s') :
    ∃ t', (FifoLock.machine (Fin n)).Run t e.toList t' ∧ Refines s' t' := by
  cases h <;> simp only [Option.toList]
  case call hp | sleep hp | leave hp | rouse hp _ | done hp _ =>
    exact ⟨t, .refl, ref.goto (by simp [hp, Pc.stage]) (by simp)⟩
  case early hp hv =>
    refine ⟨t, .refl, ref.goto (by simp [hp, Pc.stage]) ?_⟩
    intro v u h
    cases h
    exact hv
  case retry hp =>
    refine ⟨t, .refl, ref.goto ?_ (by simp)⟩
    cases hp <;> simp [*, Pc.stage]
  case wake hp =>
    exact ⟨t, .refl, ref.woken.goto (by simp [hp, Pc.woken, Pc.stage]) (by simp)⟩
  case fetchAdd i hp =>
    have ⟨ht, hc⟩ := ref.counted.draw (i := i) (p := .loadTurn s.number)
      (by simp [hp, Pc.stage]) rfl
    exact FifoLock.run_of_step ⟨_, ht, hc, ref.waits_update (by simp)⟩
  case enter i hp =>
    have hd := ref.counted.distinct (by simpa)
    have ⟨ht, hc⟩ := ref.counted.enter (i := i) (p := .critical) hd (by simp [hp, Pc.stage]) rfl
    exact FifoLock.run_of_step ⟨_, ht, hc, ref.waits_update (by simp)⟩
  case addFetch i hp =>
    have ⟨_, _, ht, hc⟩ := ref.counted.leave (i := i) (p := .test (s.turn + 1).toInt)
      (by simp [hp, Pc.stage]) rfl
    exact FifoLock.run_of_step ⟨_, ht, hc, ref.waits_update (by simp)⟩

end Refines

theorem refines_of_reachable (hn : n ≤ 2 ^ 32) (r : ((machine n).logging event).Reachable (s, l)) :
    ∃ t, (FifoLock.machine (Fin n)).Run (FifoLock.init (Fin n)) l t ∧ Refines s t := by
  apply r.simulation (R := fun s _ t => Refines s t)
  case init =>
    intro s hs
    exact hs ▸ .init
  case step =>
    intro s a s' l t _ ref h
    exact ref.step hn (.of_step h)

theorem exists_refines (hn : n ≤ 2 ^ 32) (r : (machine n).Reachable s) : ∃ t, Refines s t := by
  obtain ⟨_, r⟩ : ∃ l, ((machine n).logging event).Reachable (s, l) := r.exists_logging
  have ⟨t, _, ref⟩ := refines_of_reachable hn r
  exact ⟨t, ref⟩

-- The mutex is fair, whether or not the counters have wrapped.
theorem served_in_order (hn : n ≤ 2 ^ 32) (r : ((machine n).logging event).Reachable (s, l)) :
    (∀ i j, (s.pc i).Inside → (s.pc j).Inside → i = j) ∧
    FifoLock.entered l <+: FifoLock.enqueued l := by
  have ⟨t, run, ref⟩ := refines_of_reachable hn r
  refine ⟨?_, FifoLock.entered_enqueued run⟩
  intro i j hi hj
  exact ref.counted.serves.unique (Pc.stage_inside.mpr hi) (Pc.stage_inside.mpr hj)

end FairMutex
