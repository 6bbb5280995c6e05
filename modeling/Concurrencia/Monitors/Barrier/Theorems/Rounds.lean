import Concurrencia.Monitors.Barrier.Basic
import Concurrencia.Threads.Basic
import Concurrencia.Threads.Count
import Mathlib.Tactic.SplitIfs

open Function Threads

namespace MonitorBarrier

open CyclicBarrier (Event Stage)

-- The schedulers which resume a thread from its wait only when it has been notified.
def Notified {n : ℕ} (_ : State n) : Label n → Prop
  | .thread _                  => True
  | .spurious _ | .interrupt _ => False

instance {n : ℕ} (s : State n) : (l : Label n) → Decidable (Notified s l)
  | .thread _                  => inferInstanceAs <| Decidable True
  | .spurious _ | .interrupt _ => inferInstanceAs <| Decidable False

-- One constructor for each way through a statement, with the event it causes.
inductive Step {n : ℕ} (s : State n) : Option (Event (Fin n)) → State n → Prop
  | call : (s.pc i = .idle) → Step s (some (.call i)) (s.goto i .lockMutex)
  | lockMutex : (s.pc i = .lockMutex) → (s.mutex = false) →
    Step s none ({ s with mutex := true }.goto i .arrive)
  | arrive : (s.pc i = .arrive) →
    Step s (some (.arrive i)) ({ s with arrived := s.arrived + 1 }.goto i .test)
  | last : (s.pc i = .test) → (s.arrived = n) → Step s none (s.goto i .reset)
  | early : (s.pc i = .test) → (s.arrived ≠ n) → Step s none (s.goto i .wait)
  | reset : (s.pc i = .reset) → Step s none ({ s with arrived := 0 }.goto i .broadcast)
  | broadcast : (s.pc i = .broadcast) → Step s (some .turn) (s.notifyAll.goto i .unlockMutex)
  | wait : (s.pc i = .wait) → Step s none ({ s with mutex := false }.goto i .waiting)
  | relock : (s.pc i = .relock) → (s.mutex = false) →
    Step s none ({ s with mutex := true }.goto i .unlockMutex)
  | leave : (s.pc i = .unlockMutex) →
    Step s (some (.leave i)) ({ s with mutex := false }.goto i .idle)

variable {n : ℕ} {s s' : State n} {i j : Fin n} {a : Label n} {p : Pc}
variable {e : Option (Event (Fin n))} {l : List (Event (Fin n))}

theorem Step.of_thread (h : threadStep s i = some s') : Step s (event s (.thread i)) s' := by
  cases hp : s.pc i <;> simp only [threadStep, takeMutex, event, hp] at h ⊢
  case lockMutex =>
    split_ifs at h with hm
    cases h
    exact .lockMutex hp (Bool.not_eq_true _ ▸ hm)
  case relock =>
    split_ifs at h with hm
    cases h
    exact .relock hp (Bool.not_eq_true _ ▸ hm)
  case test =>
    split_ifs at h with ha
    all_goals cases h
    · exact .last hp ha
    · exact .early hp ha
  all_goals cases h
  case idle        => exact .call hp
  case arrive      => exact .arrive hp
  case reset       => exact .reset hp
  case broadcast   => exact .broadcast hp
  case wait        => exact .wait hp
  case unlockMutex => exact .leave hp

theorem Step.of_step (ha : Notified s a) (h : step s a = some s') : Step s (event s a) s' := by
  cases a
  case thread => exact .of_thread h
  case spurious | interrupt => exact ha.elim

namespace Pc

-- How far a thread is in its call.
def stage : Pc → Stage
  | idle                                     => .outside
  | lockMutex | arrive                       => .calling
  | test | reset | broadcast | wait | waiting => .arrived
  | relock | unlockMutex                     => .released

def Arrived (p : Pc) : Prop :=
  p.stage = .arrived

instance : DecidablePred Arrived :=
  fun _ => inferInstanceAs <| Decidable (_ = _)

def HasMutex : Pc → Prop
  | arrive | test | reset | broadcast | wait | unlockMutex => True
  | idle | lockMutex | waiting | relock                    => False

end Pc

structure Inv (s : State n) : Prop where
  mutex   : Exclusive s.pc Pc.HasMutex (s.mutex = true)
  counted : (∀ i, s.pc i ≠ .broadcast) → s.arrived = count s.pc Pc.Arrived
  full    : ∀ i, s.pc i = .reset → s.arrived = n
  last    : ∀ i, s.pc i = .broadcast → s.arrived = 0 ∧ count s.pc Pc.Arrived = n

namespace Inv

theorem init : Inv (init n) where
  mutex     := ⟨False.elim, False.elim⟩
  counted _ := (count_eq_zero fun _ => by simp [MonitorBarrier.init, Pc.Arrived, Pc.stage]).symm
  full _ h  := by simp [MonitorBarrier.init] at h
  last _ h  := by simp [MonitorBarrier.init] at h

variable (inv : Inv s)
include inv

theorem not_broadcast (hi : (s.pc i).HasMutex) (hn : s.pc i ≠ .broadcast) (j : Fin n) :
    s.pc j ≠ .broadcast := by
  intro hj
  have hij : i = j := inv.mutex.unique hi (by simp [hj, Pc.HasMutex])
  exact hn (hij ▸ hj)

-- The step of a thread which does not arrive.
theorem move (hs : s'.pc = update s.pc i p) (ha : s'.arrived = s.arrived)
    (hm : Exclusive s'.pc Pc.HasMutex (s'.mutex = true)) (hi : s.pc i ≠ .broadcast)
    (hp : p ≠ .broadcast) (hA : p.Arrived ↔ (s.pc i).Arrived)
    (hr : p = .reset → s.arrived = n) : Inv s' where
  mutex := hm
  counted h := by
    rw [ha, hs, count_keep hA]
    refine inv.counted fun j => ?_
    by_cases hj : j = i
    case pos => exact hj ▸ hi
    case neg => simpa [hs, hj] using h j
  full j hj := by
    rw [ha]
    by_cases hji : j = i
    case pos => exact hr (by simpa [hs, hji] using hj)
    case neg => exact inv.full j (by simpa [hs, hji] using hj)
  last j hj := by
    rw [ha, hs, count_keep hA]
    by_cases hji : j = i
    case pos => exact absurd (by simpa [hs, hji] using hj) hp
    case neg => exact inv.last j (by simpa [hs, hji] using hj)

theorem arrive (hi : s.pc i = .arrive) :
    Inv ({ s with arrived := s.arrived + 1 }.goto i .test) where
  mutex     := inv.mutex.keep (by simp [hi, Pc.HasMutex])
  counted _ := by
    have hb := inv.not_broadcast (i := i) (by simp [hi, Pc.HasMutex]) (by simp [hi])
    have hc := count_enter (f := s.pc) (P := Pc.Arrived) (i := i) (p := .test)
      (by simp [hi, Pc.Arrived, Pc.stage]) rfl
    simp only [State.goto_pc, State.goto_arrived, hc, inv.counted hb]
  full j hj := by
    have hji : j ≠ i := fun h => by simp [h] at hj
    have hj : s.pc j = .reset := by simpa [hji] using hj
    exact absurd (inv.mutex.unique (by simp [hj, Pc.HasMutex]) (by simp [hi, Pc.HasMutex])) hji
  last j hj := by
    have hji : j ≠ i := fun h => by simp [h] at hj
    have hb := inv.not_broadcast (i := i) (by simp [hi, Pc.HasMutex]) (by simp [hi]) j
    exact absurd (by simpa [hji] using hj) hb

theorem reset (hi : s.pc i = .reset) : Inv ({ s with arrived := 0 }.goto i .broadcast) where
  mutex     := inv.mutex.keep (by simp [hi, Pc.HasMutex])
  counted h := absurd (update_self ..) (h i)
  last j _  := by
    have hb := inv.not_broadcast (i := i) (by simp [hi, Pc.HasMutex]) (by simp [hi])
    rw [State.goto_pc, count_keep (by simp [hi, Pc.Arrived, Pc.stage]), ← inv.counted hb]
    exact ⟨rfl, inv.full i hi⟩
  full j hj := by
    have hji : j ≠ i := fun h => by simp [h] at hj
    have hj : s.pc j = .reset := by simpa [hji] using hj
    exact absurd (inv.mutex.unique (by simp [hj, Pc.HasMutex]) (by simp [hi, Pc.HasMutex])) hji

-- Everybody has arrived, and all but the last one wait.
theorem arrived (hi : s.pc i = .broadcast) (j : Fin n) : (s.pc j).stage = .arrived := by
  by_contra hj
  have hc := count_lt_card (f := s.pc) (P := Pc.Arrived) hj
  rw [(inv.last i hi).right, Fintype.card_fin] at hc
  exact absurd hc (lt_irrefl n)

theorem waiting (hi : s.pc i = .broadcast) (hj : j ≠ i) : s.pc j = .waiting := by
  have ha := inv.arrived hi j
  have hm : ¬(s.pc j).HasMutex :=
    inv.mutex.not_of_ne (by simp [hi, Pc.HasMutex]) hj
  cases hp : s.pc j <;> simp_all [Pc.stage, Pc.HasMutex]

theorem broadcast_pc (hi : s.pc i = .broadcast) (j : Fin n) :
    (s.notifyAll.goto i .unlockMutex).pc j = if j = i then .unlockMutex else .relock := by
  by_cases hj : j = i
  case pos => simp [hj]
  case neg => simp [hj, State.notifyAll, inv.waiting hi hj, Pc.notified]

theorem broadcast (hi : s.pc i = .broadcast) : Inv (s.notifyAll.goto i .unlockMutex) where
  mutex     := by
    have hm (j : Fin n) (h : ((s.notifyAll.goto i .unlockMutex).pc j).HasMutex) : j = i := by
      by_contra hj
      simp [inv.broadcast_pc hi, hj, Pc.HasMutex] at h
    refine ⟨fun {j k} hj hk => (hm j hj).trans (hm k hk).symm, fun _ => ?_⟩
    exact inv.mutex.locked (i := i) (by simp [hi, Pc.HasMutex])
  counted _ := by
    refine (inv.last i hi).left.trans (count_eq_zero fun j => ?_).symm
    rw [inv.broadcast_pc hi]
    split <;> simp [Pc.Arrived, Pc.stage]
  full j hj := by
    rw [inv.broadcast_pc hi] at hj
    split at hj <;> cases hj
  last j hj := by
    rw [inv.broadcast_pc hi] at hj
    split at hj <;> cases hj

theorem step (h : Step s e s') : Inv s' := by
  cases h
  case call hp =>
    exact inv.move rfl rfl (inv.mutex.keep (by simp [hp, Pc.HasMutex])) (by simp [hp]) (by simp)
      (by simp [hp, Pc.Arrived, Pc.stage]) (by simp)
  case last hp ha =>
    exact inv.move rfl rfl (inv.mutex.keep (by simp [hp, Pc.HasMutex])) (by simp [hp]) (by simp)
      (by simp [hp, Pc.Arrived, Pc.stage]) fun _ => ha
  case early hp _ =>
    exact inv.move rfl rfl (inv.mutex.keep (by simp [hp, Pc.HasMutex])) (by simp [hp]) (by simp)
      (by simp [hp, Pc.Arrived, Pc.stage]) (by simp)
  case lockMutex hp hm | relock hp hm =>
    exact inv.move rfl rfl (inv.mutex.take (by simp [hm]) rfl) (by simp [hp]) (by simp)
      (by simp [hp, Pc.Arrived, Pc.stage]) (by simp)
  case wait hp | leave hp =>
    exact inv.move rfl rfl (inv.mutex.free (by simp [hp, Pc.HasMutex]) id) (by simp [hp]) (by simp)
      (by simp [hp, Pc.Arrived, Pc.stage]) (by simp)
  case arrive hp    => exact inv.arrive hp
  case reset hp     => exact inv.reset hp
  case broadcast hp => exact inv.broadcast hp

end Inv

def State.stages (s : State n) : Fin n → Stage :=
  Pc.stage ∘ s.pc

theorem stages_update (h : s'.pc = update s.pc i p) :
    s'.stages = update s.stages i p.stage := by
  rw [State.stages, h, comp_update]
  rfl

-- Each step of the barrier is one of the specification, or none.
theorem Inv.refines (inv : Inv s) (h : Step s e s') :
    (CyclicBarrier.machine (Fin n)).Run s.stages e.toList s'.stages := by
  have stay {i : Fin n} {p : Pc} (hs : s'.pc = update s.pc i p) (hp : p.stage = (s.pc i).stage) :
      (CyclicBarrier.machine (Fin n)).Run s.stages [] s'.stages := by
    have hp : update s.stages i p.stage = s.stages := hp ▸ update_eq_self i s.stages
    rw [stages_update hs, hp]
    exact .refl
  have run {e : Event (Fin n)} {i : Fin n} {p : Pc} (hs : s'.pc = update s.pc i p)
      (h : CyclicBarrier.Step s.stages e (update s.stages i p.stage)) :
      (CyclicBarrier.machine (Fin n)).Run s.stages [e] s'.stages := by
    rw [stages_update hs]
    exact .single <| CyclicBarrier.step_iff.mpr h
  cases h <;> simp only [Option.toList]
  case call hp   => exact run rfl <| .call (by simp [State.stages, hp, Pc.stage])
  case arrive hp => exact run rfl <| .arrive (by simp [State.stages, hp, Pc.stage])
  case leave hp  => exact run rfl <| .leave (by simp [State.stages, hp, Pc.stage])
  case broadcast i hp =>
    have hs : (s.notifyAll.goto i .unlockMutex).stages = fun _ => .released := by
      funext j
      rw [State.stages, comp_apply, inv.broadcast_pc hp]
      split <;> rfl
    rw [hs]
    exact .single <| CyclicBarrier.step_iff.mpr <| .turn (inv.arrived hp)
  case lockMutex hp _ | last hp _ | early hp _ | reset hp | wait hp | relock hp _ =>
    exact stay rfl (by simp [hp, Pc.stage])

theorem inv_of_reachable (r : ((machine n).only Notified).Reachable s) : Inv s := by
  apply r.invariant
  case init =>
    intro _ h
    exact h ▸ .init
  case step =>
    intro _ _ _ _ inv h
    have ⟨ha, h⟩ := Machine.only_step.mp h
    exact inv.step (.of_step ha h)

theorem run_of_reachable (r : (((machine n).only Notified).logging event).Reachable (s, l)) :
    (CyclicBarrier.machine (Fin n)).Run (CyclicBarrier.init (Fin n)) l s.stages := by
  have ⟨_, run, ht⟩ : ∃ t, (CyclicBarrier.machine (Fin n)).Run (CyclicBarrier.init (Fin n)) l t ∧
      t = s.stages := by
    apply r.simulation (R := fun s _ t => t = s.stages)
    case init =>
      intro s hs
      rw [show s = MonitorBarrier.init n from hs]
      rfl
    case step =>
      intro s a s' l t r ht h
      subst ht
      have ⟨ha, h⟩ := Machine.only_step.mp h
      exact ⟨_, (inv_of_reachable r).refines (.of_step ha h), rfl⟩
  exact ht ▸ run

theorem notified_rounds (r : (((machine n).only Notified).logging event).Reachable (s, l))
    (i j : Fin n) : l.count (.leave i) ≤ l.count (.call j) :=
  CyclicBarrier.leave_le_call (run_of_reachable r) i j

-- Thread 1 has left the barrier and is back at its mutex while thread 0 is not awake yet.
theorem notified_rounds_two :
    ∃ (s : State 2) (l : List (Event (Fin 2))),
      s.pc 0 = .relock ∧ s.pc 1 = .lockMutex ∧ l.count (.leave 1) ≤ l.count (.call 0) :=
  have ⟨s, l, h, h₀, h₁⟩ : ∃ s l, (((machine 2).only Notified).logging event).exec (init 2, [])
      (Machine.schedule [(5, .thread 0), (8, .thread 1)]) = some (s, l) ∧
      s.pc 0 = .relock ∧ s.pc 1 = .lockMutex :=
    ⟨_, _, rfl, rfl, rfl⟩
  ⟨s, l, h₀, h₁, notified_rounds (.of_exec (by exact ⟨rfl, rfl⟩) h) 1 0⟩

-- Thread 0 returns from its first call before thread 1 has made its own: in the first run its wait
-- returns for no reason, in the second one it is interrupted.
theorem resumed_early :
    (∃ s l, ((machine 2).logging event).exec (init 2, [])
      (Machine.schedule [(5, .thread 0), (1, .spurious 0), (2, .thread 0)]) = some (s, l) ∧
      l.count (.call 1) < l.count (.leave 0)) ∧
    ∃ s l, ((machine 2).logging event).exec (init 2, [])
      (Machine.schedule [(5, .thread 0), (1, .interrupt 0), (2, .thread 0)]) = some (s, l) ∧
      l.count (.call 1) < l.count (.leave 0) :=
  ⟨⟨_, _, rfl, by decide⟩, ⟨_, _, rfl, by decide⟩⟩

end MonitorBarrier
