import Concurrencia.FifoLock.Tickets
import Concurrencia.LockClient.Basic
import Concurrencia.Spinlocks.TicketLock.Basic
import Mathlib.Tactic.SplitIfs

open Function

namespace TicketLock

open FifoLock (Event Stage Serves Counted turns)

-- One constructor for each way through a statement, with the event it causes.
inductive Step {n w : ℕ} (first : BitVec w) (s : State n w) :
    Option (Event (Fin n)) → State n w → Prop
  | call : (s.pc i = .idle) → Step first s none (s.goto i .addNumber)
  | addNumber : (s.pc i = .addNumber) →
    Step first s (some (.enqueue i))
      ({ s with number := s.number + 1 }.goto i (.spin (s.number + first)))
  | spin : (s.pc i = .spin v) → Step first s none (s.goto i (.spin v))
  | enter : (s.pc i = .spin s.turn) → Step first s (some (.enter i)) (s.goto i .critical)
  | leave : (s.pc i = .critical) → Step first s none (s.goto i .addTurn)
  | addTurn : (s.pc i = .addTurn) →
    Step first s (some (.leave i)) ({ s with turn := s.turn + 1 }.goto i .idle)

namespace Pc

variable {w : ℕ}

def stage : Pc w → Stage (BitVec w)
  | idle | addNumber   => .outside
  | spin v             => .waiting v
  | critical | addTurn => .inside

-- Between `lock` and the end of `unlock`.
def Inside (p : Pc w) : Prop :=
  p = critical ∨ p = addTurn

theorem stage_inside {p : Pc w} : p.stage = .inside ↔ p.Inside := by
  cases p <;> simp [stage, Inside]

theorem stage_waiting {p : Pc w} {v : BitVec w} : p.stage = .waiting v ↔ p = .spin v := by
  cases p <;> simp [stage]

end Pc

variable {n w : ℕ} {first : BitVec w} {s s' : State n w} {i j : Fin n} {p : Pc w}
variable {t : FifoLock.State (Fin n)} {l : List (Event (Fin n))}

theorem Step.of_step (h : step first s i = some s') : Step first s (event s i) s' := by
  cases hp : s.pc i <;> simp only [step, event, hp] at h ⊢
  case spin v =>
    split_ifs at h with hv
    all_goals cases h
    · rw [if_neg hv]
      exact .spin hp
    · obtain rfl := not_not.mp hv
      rw [if_pos rfl]
      exact .enter hp
  all_goals cases h
  case idle      => exact .call hp
  case addNumber => exact .addNumber hp
  case critical  => exact .leave hp
  case addTurn   => exact .addTurn hp

structure Refines (first : BitVec w) (s : State n w) (t : FifoLock.State (Fin n)) : Prop where
  serves : Serves (Pc.stage ∘ s.pc) (turns s.turn) t
  number : s.number + first = turns s.turn t.queue.length

namespace Refines

theorem of_counted (h : Counted (Pc.stage ∘ s.pc) s.turn (s.number + first) t) :
    Refines first s t where
  serves := h.serves
  number := h.number

theorem init : Refines first (init n first) (FifoLock.init (Fin n)) where
  serves := .init
  number := by simp [TicketLock.init, FifoLock.init, turns]

variable (ref : Refines first s t)
include ref

theorem counted : Counted (Pc.stage ∘ s.pc) s.turn (s.number + first) t :=
  ⟨ref.serves, ref.number⟩

theorem stay (hp : p.stage = (s.pc i).stage) : Refines first (s.goto i p) t where
  serves := ref.serves.keep hp
  number := ref.number

-- Each step of the lock is one of the specification, or none.
theorem step {e : Option (Event (Fin n))} (hn : n ≤ 2 ^ w) (h : Step first s e s') :
    ∃ t', (FifoLock.machine (Fin n)).Run t e.toList t' ∧ Refines first s' t' := by
  cases h <;> simp only [Option.toList]
  case call hp | spin hp | leave hp => exact ⟨t, .refl, ref.stay (by simp [hp, Pc.stage])⟩
  case addNumber i hp =>
    have ⟨ht, hc⟩ := ref.counted.draw (i := i) (p := .spin (s.number + first))
      (by simp [hp, Pc.stage]) rfl
    have hf : s.number + first + 1 = s.number + 1 + first := by ac_rfl
    exact FifoLock.run_of_step ⟨_, ht, .of_counted (hf ▸ hc)⟩
  case enter i hp =>
    have hd := ref.counted.distinct (by simpa)
    have ⟨ht, hc⟩ := ref.counted.enter (i := i) (p := .critical) hd (by simp [hp, Pc.stage]) rfl
    exact FifoLock.run_of_step ⟨_, ht, .of_counted hc⟩
  case addTurn i hp =>
    have ⟨_, _, ht, hc⟩ := ref.counted.leave (i := i) (p := .idle) (by simp [hp, Pc.stage]) rfl
    exact FifoLock.run_of_step ⟨_, ht, .of_counted hc⟩

end Refines

theorem refines_of_reachable (hn : n ≤ 2 ^ w)
    (r : ((machine n first).logging event).Reachable (s, l)) :
    ∃ t, (FifoLock.machine (Fin n)).Run (FifoLock.init (Fin n)) l t ∧ Refines first s t := by
  apply r.simulation (R := fun s _ t => Refines first s t)
  case init =>
    intro s hs
    exact hs ▸ .init
  case step =>
    intro s i s' l t _ ref h
    exact ref.step hn (.of_step h)

theorem tickets_served (hn : n ≤ 2 ^ w)
    (r : ((machine n first).logging event).Reachable (s, l)) :
    (∀ i j, (s.pc i).Inside → (s.pc j).Inside → i = j) ∧
    FifoLock.entered l <+: FifoLock.enqueued l ∧
    ((∃ i v, s.pc i = .spin v) → (∀ i, ¬(s.pc i).Inside) → ∃! i, s.pc i = .spin s.turn) := by
  have ⟨t, run, ref⟩ := refines_of_reachable hn r
  refine ⟨?_, FifoLock.entered_enqueued run, ?_⟩
  · intro i j hi hj
    exact ref.serves.unique (Pc.stage_inside.mpr hi) (Pc.stage_inside.mpr hj)
  · intro ⟨i, v, hi⟩ hj
    have := ref.serves.exists_unique_turn (ref.counted.distinct (by simpa))
      (fun j h => hj j (Pc.stage_inside.mp h)) (Pc.stage_waiting.mpr hi)
    simpa [Pc.stage_waiting, FifoLock.turns_zero] using this

-- Two threads and counters of one bit: thread 0 waits with ticket 0 while thread 1, which has
-- ticket 1, is about to wrap `turn`.
theorem tickets_served_two :
    ∃ (s : State 2 1) (l : List (Event (Fin 2))),
      s.pc 0 = .spin 0 ∧ s.pc 1 = .addTurn ∧ s.turn = 1 ∧ s.number = 1 ∧
      (∀ i j, (s.pc i).Inside → (s.pc j).Inside → i = j) ∧
      FifoLock.entered l <+: FifoLock.enqueued l ∧
      ((∃ i v, s.pc i = .spin v) → (∀ i, ¬(s.pc i).Inside) → ∃! i, s.pc i = .spin s.turn) :=
  have ⟨s, l, h, h₀, h₁, ht, hn⟩ : ∃ s l, ((machine 2 (0 : BitVec 1)).logging event).exec
      (init 2 0, []) (Machine.schedule [(5, 0), (3, 1), (2, 0), (1, 1)]) = some (s, l) ∧
      s.pc 0 = .spin 0 ∧ s.pc 1 = .addTurn ∧ s.turn = 1 ∧ s.number = 1 :=
    ⟨_, _, rfl, rfl, rfl, rfl, rfl⟩
  ⟨s, l, h₀, h₁, ht, hn, tickets_served (by decide) (.of_exec (by exact ⟨rfl, rfl⟩) h)⟩

section Client

open LockClient (Lock Live)

def Pc.phase : Pc w → LockClient.Stage
  | idle               => .idle
  | addNumber | spin _ => .locking
  | critical           => .inside
  | addTurn            => .unlocking

def phase (s : State n w) (i : Fin n) : LockClient.Stage :=
  (s.pc i).phase

theorem Step.moves {e : Option (Event (Fin n))} (h : Step first s e s') :
    ∃ i p, s'.pc = update s.pc i p ∧ LockClient.Stage.Next (s.pc i).phase p.phase := by
  cases h
  case call hp      => exact ⟨_, _, rfl, hp ▸ .lock⟩
  case addNumber hp => exact ⟨_, _, rfl, hp ▸ .stay⟩
  case spin hp      => exact ⟨_, _, rfl, hp ▸ .stay⟩
  case enter hp     => exact ⟨_, _, rfl, hp ▸ .enter⟩
  case leave hp     => exact ⟨_, _, rfl, hp ▸ .unlock⟩
  case addTurn hp   => exact ⟨_, _, rfl, hp ▸ .leave⟩

theorem exists_refines (hn : n ≤ 2 ^ w) (r : (machine n first).Reachable s) :
    ∃ t, Refines first s t :=
  have ⟨_, r⟩ := r.exists_logging
  have ⟨t, _, ref⟩ := refines_of_reachable hn r
  ⟨t, ref⟩

theorem lock (hn : n ≤ 2 ^ w) : Lock (machine n first) phase := by
  apply Lock.of_moves
  case init =>
    rintro s t rfl
    rfl
  case step => exact fun hs => (Step.of_step hs).moves
  case unique =>
    intro s i j r hi hj
    have ⟨_, ref⟩ := exists_refines hn r
    have inside {p : Pc w} (h : p.phase = .inside) : p.stage = .inside := by
      cases p <;> cases h
      rfl
    exact ref.serves.unique (inside hi) (inside hj)

-- A thread draws its ticket before it waits.
def Pc.rank : Pc w → ℕ
  | addNumber => 1
  | _         => 0

theorem moves (h : step first s i = some s') (hp : s'.pc = update s.pc i p) :
    LockClient.Moves (machine n first) State.pc s i p :=
  ⟨i, s', h, hp⟩

theorem live (hn : n ≤ 2 ^ w) : Live (machine n first) phase := by
  apply Live.of_moves Pc.rank
  case call =>
    intro s t _ ht
    cases hp : s.pc t <;> simp only [hp, Pc.phase, reduceCtorEq, or_self, or_true, true_or] at ht
    case idle     => exact ⟨.addNumber, moves (by rw [step, hp]) rfl, by simp [Pc.phase]⟩
    case critical => exact ⟨.addTurn, moves (by rw [step, hp]) rfl, by simp [Pc.phase]⟩
  case work =>
    intro s r hi ⟨t, ht⟩
    by_cases hu : ∃ j, s.pc j = .addTurn ∨ s.pc j = .addNumber
    case pos =>
      obtain ⟨j, hp | hp⟩ := hu
      · exact ⟨j, .idle, moves (by rw [step, hp]) rfl, by simp [hp, Pc.phase]⟩
      · exact ⟨j, .spin _, moves (by rw [step, hp]) rfl, by simp [hp, Pc.phase, Pc.rank]⟩
    case neg =>
      -- All the others wait for their turns, and one of them has it.
      have ⟨_, ref⟩ := exists_refines hn r
      have hs (j : Fin n) : (s.pc j).stage ≠ .inside := by
        have hi := hi j
        have hu := not_exists.mp hu j
        cases hp : s.pc j <;> simp_all [Pc.phase, Pc.stage]
      obtain ⟨v, hv⟩ : ∃ v, (s.pc t).stage = .waiting v := by
        have hi := hi t
        have hu := not_exists.mp hu t
        cases hp : s.pc t <;> simp_all [Pc.phase, Pc.stage]
      have ⟨j, hj, _⟩ := ref.serves.exists_unique_turn (ref.counted.distinct (by simpa)) hs hv
      have hp : s.pc j = .spin s.turn := by simpa [Pc.stage_waiting, FifoLock.turns_zero] using hj
      have he : step first s j = some (s.goto j .critical) := by simp [step, hp]
      exact ⟨j, .critical, moves he rfl, by simp [hp, Pc.phase]⟩

end Client

end TicketLock
