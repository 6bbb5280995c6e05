import Concurrencia.Futex.FairMutexSpin.Basic
import Concurrencia.FifoLock.Tickets
import Concurrencia.Threads.Basic
import Mathlib.Tactic.SplitIfs

open Function

namespace FairMutexSpin

section Step

open FifoLock (Event)

-- One constructor for each way through a statement, with the event it causes.
inductive Step {n : ℕ} (s : State n) : Option (Event (Fin n)) → State n → Prop
  | call : (s.pc i = .idle) → Step s none (s.goto i .fetchAdd)
  | fetchAdd : (s.pc i = .fetchAdd) →
    Step s (some (.enqueue i)) ({ s with number := s.number + 1 }.goto i (.spin s.number 0))
  | spin : (s.pc i = .spin v k) → Step s none (s.goto i (.spin v (k + 1)))
  | spun : (s.pc i = .spin v k) → Step s none (s.goto i (.loadTurn v))
  | enter : (s.pc i = .loadTurn s.turn) →
    Step s (some (.enter i)) (s.goto i (.storeCurrent s.turn))
  | early : (s.pc i = .loadTurn v) → (v ≠ s.turn) → Step s none (s.goto i (.wait v s.turn))
  | sleep : (s.pc i = .wait v s.turn) → Step s none (s.goto i (.asleep v))
  | retry : (s.pc i = .wait v t ∨ s.pc i = .asleep v) → Step s none (s.goto i (.loadTurn v))
  | storeCurrent : (s.pc i = .storeCurrent v) →
    Step s none ({ s with current := v }.goto i .critical)
  | leave : (s.pc i = .critical) → Step s none (s.goto i .addFetch)
  | addFetch : (s.pc i = .addFetch) →
    Step s (some (.leave i))
      ({ s with turn := s.turn + 1 }.goto i (.spinCurrent (s.turn + 1).toInt 0))
  | spinCurrent : (s.pc i = .spinCurrent c k) → Step s none (s.goto i (.spinCurrent c (k + 1)))
  | spunCurrent : (s.pc i = .spinCurrent c k) → Step s none (s.goto i (.test c))
  | rouse : (s.pc i = .test c) → (.ofInt 32 c > s.current) → Step s none (s.goto i (.wake c))
  | done : (s.pc i = .test c) → (¬.ofInt 32 c > s.current) → Step s none (s.goto i .idle)
  | wake : (s.pc i = .wake c) →
    Step s none ({ s with pc := fun j => (s.pc j).woken }.goto i .idle)

variable {n : ℕ} {s s' : State n} {i : Fin n} {l : Label n}

theorem Step.of_thread (h : threadStep s i = some s') : Step s (event s (.thread i)) s' := by
  cases hp : s.pc i <;> simp only [threadStep, event, hp] at h ⊢
  case spin v k =>
    split_ifs at h
    all_goals cases h
    · exact .spin hp
    · exact .spun hp
  case loadTurn v =>
    split_ifs at h with hv
    all_goals cases h
    · rw [if_neg hv]
      exact .early hp hv
    · obtain rfl := not_not.mp hv
      rw [if_pos rfl]
      exact .enter hp
  case wait v t =>
    split_ifs at h with ht
    all_goals cases h
    · exact .sleep (ht ▸ hp)
    · exact .retry (.inl hp)
  case spinCurrent c k =>
    split_ifs at h
    all_goals cases h
    · exact .spinCurrent hp
    · exact .spunCurrent hp
  case test c =>
    split_ifs at h with hc
    all_goals cases h
    · exact .rouse hp hc
    · exact .done hp hc
  all_goals cases h
  case idle         => exact .call hp
  case fetchAdd     => exact .fetchAdd hp
  case storeCurrent => exact .storeCurrent hp
  case critical     => exact .leave hp
  case addFetch     => exact .addFetch hp
  case wake         => exact .wake hp

theorem Step.of_step (h : step s l = some s') : Step s (event s l) s' := by
  cases l <;> simp only [step] at h
  case thread => exact .of_thread h
  case spurious i =>
    cases hp : s.pc i <;> simp only [spuriousStep, hp] at h
    case wait =>
      cases h
      exact .retry (.inl hp)
    case asleep =>
      cases h
      exact .retry (t := 0) (.inr hp)
    all_goals cases h

end Step

open FifoLock (Event Stage Distinct Counted turns)

namespace Pc

def stage : Pc → Stage (BitVec 32)
  | idle | fetchAdd | spinCurrent _ _ | test _ | wake _ => .outside
  | spin v _ | loadTurn v | wait v _ | asleep v         => .waiting v
  | storeCurrent _ | critical | addFetch                => .inside

-- Between the end of the loop in `lock` and the step of `unlock` which hands the mutex over.
def Inside : Pc → Prop
  | storeCurrent _ | critical | addFetch                => True
  | idle | fetchAdd | spinCurrent _ _ | test _ | wake _ => False
  | spin _ _ | loadTurn _ | wait _ _ | asleep _         => False

-- The owner of the mutex has stored its ticket in `current`.
def Stored (p : Pc) : Prop :=
  p = critical ∨ p = addFetch

theorem stage_inside {p : Pc} : p.stage = .inside ↔ p.Inside := by
  cases p <;> simp [stage, Inside]

theorem stage_woken {p : Pc} : p.woken.stage = p.stage := by
  cases p <;> rfl

theorem stored_woken {p : Pc} : p.woken.Stored ↔ p.Stored := by
  cases p <;> simp [woken, Stored]

-- What the local variables tell about the state of the mutex.
def Fits (turn : BitVec 32) : Pc → Prop
  | wait v u                                            => v ≠ u
  | storeCurrent v                                      => v = turn
  | spin _ _ | loadTurn _ | asleep _                    => True
  | idle | fetchAdd | spinCurrent _ _ | test _ | wake _ => True
  | critical | addFetch                                 => True

theorem fits_woken {p : Pc} {turn : BitVec 32} (h : p.Fits turn) : p.woken.Fits turn := by
  cases p <;> exact h

-- A thread which is not inside does not depend on the turn.
theorem Fits.of_not_inside {p : Pc} {turn turn' : BitVec 32} (h : p.Fits turn) (hp : ¬p.Inside) :
    p.Fits turn' := by
  cases p <;> first | exact h | exact absurd trivial hp

end Pc

variable {n : ℕ} {s s' : State n} {i j : Fin n} {p : Pc} {v u : BitVec 32}
variable {t : FifoLock.State (Fin n)} {l : List (Event (Fin n))} {e : Option (Event (Fin n))}

structure Refines (s : State n) (l : List (Event (Fin n))) (t : FifoLock.State (Fin n)) : Prop where
  counted : Counted (Pc.stage ∘ s.pc) s.turn s.number t
  fits    : ∀ i, (s.pc i).Fits s.turn
  turn    : s.turn.toNat = (FifoLock.left l).length
  current : s.current ≤ s.turn
  late    : (∀ i, ¬(s.pc i).Stored) → FifoLock.left l ≠ [] → s.current < s.turn

namespace Refines

theorem init : Refines (init n) [] (FifoLock.init (Fin n)) where
  counted   := .init
  fits _    := trivial
  turn      := rfl
  current   := BitVec.le_refl _
  late _ hl := absurd rfl hl

variable (ref : Refines s l t)
include ref

theorem inside_unique (hi : (s.pc i).Inside) (hj : (s.pc j).Inside) : i = j :=
  ref.counted.serves.unique (Pc.stage_inside.mpr hi) (Pc.stage_inside.mpr hj)

theorem waits (hi : s.pc i = .wait v u) : v ≠ u := by
  simpa [hi, Pc.Fits] using ref.fits i

theorem stores (hi : s.pc i = .storeCurrent v) : v = s.turn := by
  simpa [hi, Pc.Fits] using ref.fits i

theorem fits_update (hf : p.Fits s.turn) : ∀ j, (update s.pc i p j).Fits s.turn :=
  Threads.forall_update (P := Pc.Fits s.turn) hf fun j _ => ref.fits j

theorem late_update (hp : p.Stored ↔ (s.pc i).Stored) (hn : ∀ j, ¬(update s.pc i p j).Stored)
    (hl : FifoLock.left l ≠ []) : s.current < s.turn :=
  ref.late (fun j hj => hn j <| (Threads.update_iff hp j).mpr hj) hl

theorem goto (hs : p.stage = (s.pc i).stage) (hf : p.Fits s.turn)
    (hp : p.Stored ↔ (s.pc i).Stored) : Refines (s.goto i p) l t where
  counted := ref.counted.keep hs
  fits    := ref.fits_update hf
  turn    := ref.turn
  current := ref.current
  late    := ref.late_update hp

theorem woken : Refines { s with pc := fun j => (s.pc j).woken } l t where
  fits i  := Pc.fits_woken (ref.fits i)
  turn    := ref.turn
  current := ref.current
  late hn := ref.late fun j hj => hn j <| Pc.stored_woken.mpr hj
  counted := by
    have hc : (Pc.stage ∘ fun j => (s.pc j).woken) = Pc.stage ∘ s.pc :=
      funext fun _ => Pc.stage_woken
    exact hc ▸ ref.counted

theorem storeCurrent (hi : s.pc i = .storeCurrent v) :
    Refines ({ s with current := v }.goto i .critical) l t where
  counted   := ref.counted.keep (by simp [hi, Pc.stage])
  fits      := ref.fits_update trivial
  turn      := ref.turn
  late hn   := absurd (.inl (update_self ..)) (hn i)
  current   := ref.stores hi ▸ BitVec.le_refl _

theorem fetchAdd (hi : s.pc i = .fetchAdd) :
    ∃ t', FifoLock.Step t (.enqueue i) t' ∧
      Refines ({ s with number := s.number + 1 }.goto i (.spin s.number 0)) (l ++ [.enqueue i])
        t' := by
  have ⟨ht, hc⟩ := ref.counted.draw (i := i) (p := .spin s.number 0) (by simp [hi, Pc.stage]) rfl
  have hl : FifoLock.left (l ++ [.enqueue i]) = FifoLock.left l := by
    simp [FifoLock.left_append, Event.left]
  exact ⟨_, ht, hc, ref.fits_update trivial, hl ▸ ref.turn, ref.current,
    hl ▸ ref.late_update (by simp [hi, Pc.Stored])⟩

theorem enter (hq : t.queue.length < 2 ^ 32) (hi : s.pc i = .loadTurn s.turn) :
    ∃ t', FifoLock.Step t (.enter i) t' ∧
      Refines (s.goto i (.storeCurrent s.turn)) (l ++ [.enter i]) t' := by
  have hd : Distinct (turns s.turn) t := FifoLock.distinct_turns hq.le
  have ⟨ht, hc⟩ := ref.counted.enter (i := i) (p := .storeCurrent s.turn) hd
    (by simp [hi, Pc.stage]) rfl
  have hl : FifoLock.left (l ++ [.enter i]) = FifoLock.left l := by
    simp [FifoLock.left_append, Event.left]
  exact ⟨_, ht, hc, ref.fits_update rfl, hl ▸ ref.turn, ref.current,
    hl ▸ ref.late_update (by simp [hi, Pc.Stored])⟩

theorem addFetch (hq : (FifoLock.left l).length + t.queue.length < 2 ^ 32)
    (hi : s.pc i = .addFetch) :
    ∃ t', FifoLock.Step t (.leave i) t' ∧
      Refines ({ s with turn := s.turn + 1 }.goto i (.spinCurrent (s.turn + 1).toInt 0))
        (l ++ [.leave i]) t' := by
  have ⟨q, hc, ht, hr⟩ := ref.counted.leave (i := i) (p := .spinCurrent (s.turn + 1).toInt 0)
    (by simp [hi, Pc.stage]) rfl
  have hs : (s.turn + 1).toNat = s.turn.toNat + 1 := by
    apply BitVec.toNat_add_of_lt
    rw [hc, List.length_cons] at hq
    have ht := ref.turn
    change s.turn.toNat + 1 < 2 ^ 32
    omega
  have hlt : s.current < s.turn + 1 := by
    rw [BitVec.lt_def, hs]
    exact Nat.lt_succ_of_le ref.current
  refine ⟨_, ht, hr, ?fits, ?turn, BitVec.le_of_lt hlt, fun _ _ => hlt⟩
  case fits =>
    refine Threads.forall_update (P := Pc.Fits _) trivial fun j hj => ?_
    exact (ref.fits j).of_not_inside fun h => hj <| ref.inside_unique h (by simp [hi, Pc.Inside])
  case turn =>
    rw [State.goto_turn, hs, ref.turn]
    simp [FifoLock.left_append, Event.left]

-- Each step of the mutex is one of the specification, or none.
theorem step (hq : (FifoLock.left l).length + t.queue.length < 2 ^ 32) (h : Step s e s') :
    ∃ t', (FifoLock.machine (Fin n)).Run t e.toList t' ∧ Refines s' (l ++ e.toList) t' := by
  cases h <;> simp only [Option.toList, List.append_nil]
  case fetchAdd hp     => exact FifoLock.run_of_step <| ref.fetchAdd hp
  case enter hp        => exact FifoLock.run_of_step <| ref.enter ((Nat.le_add_left ..).trans_lt hq) hp
  case addFetch hp     => exact FifoLock.run_of_step <| ref.addFetch hq hp
  case storeCurrent hp => exact ⟨t, .refl, ref.storeCurrent hp⟩
  case early hp hv     =>
    exact ⟨t, .refl, ref.goto (by simp [hp, Pc.stage]) hv (by simp [hp, Pc.Stored])⟩
  case retry hp        =>
    refine ⟨t, .refl, ref.goto ?_ trivial ?_⟩
    all_goals cases hp <;> simp [*, Pc.stage, Pc.Stored]
  case wake hp         =>
    exact ⟨t, .refl, ref.woken.goto (by simp [hp, Pc.woken, Pc.stage]) trivial
      (by simp [hp, Pc.woken, Pc.Stored])⟩
  case call hp | spin hp | spun hp | sleep hp | leave hp | spinCurrent hp | spunCurrent hp
      | rouse hp _ | done hp _ =>
    exact ⟨t, .refl, ref.goto (by simp [hp, Pc.stage]) trivial (by simp [hp, Pc.Stored])⟩

end Refines

theorem refines_of_reachable (r : ((machine n).logging event).Reachable (s, l))
    (hl : (FifoLock.enqueued l).length < 2 ^ 32) :
    ∃ t, (FifoLock.machine (Fin n)).Run (FifoLock.init (Fin n)) l t ∧ Refines s l t := by
  apply FifoLock.simulation_below r hl
  case start =>
    intro s hs
    obtain rfl : s = FairMutexSpin.init n := hs
    exact .init
  case step => exact fun s a s' l t ref hq h => ref.step hq (.of_step h)

end FairMutexSpin
