import Concurrencia.Futex.Barrier.Theorems.Lock
import Concurrencia.Threads.Basic
import Concurrencia.Threads.Count

open Function

namespace Barrier

open CyclicBarrier (Event Stage)

variable {n : ℕ} {s s' : State n} {i j : Fin n} {e : Option (Event (Fin n))} {p : Pc} {v φ : UInt32}

namespace Pc

-- How far a thread is in its call, when the barrier is in phase `φ`.
def stage (φ : UInt32) : Pc → Stage
  | idle                                                 => .outside
  | lock | loadArrive | storeArrive _                    => .calling
  | testArrive | loadPhase | readPhase | writePhase _    => .arrived
  | unlock p | wait p | asleep p | testPhase p           => if p = φ then .arrived else .released
  | resetArrive | wakeAll | unlockLast                   => .released

-- The last thread to arrive, up to the write which starts the next round.
def Ends : Pc → Prop
  | testArrive | readPhase | writePhase _ | resetArrive  => True
  | idle | lock | loadArrive | storeArrive _ | loadPhase => False
  | unlock _ | unlockLast | wait _ | asleep _            => False
  | testPhase _ | wakeAll                                => False

-- The phase has changed and `FUTEX_WAKE` is still ahead.
def Rouses : Pc → Prop
  | resetArrive | wakeAll                                             => True
  | idle | lock | loadArrive | storeArrive _ | testArrive | loadPhase => False
  | unlock _ | unlockLast | wait _ | asleep _ | testPhase _           => False
  | readPhase | writePhase _                                          => False

theorem Ends.inside (h : p.Ends) : p.Inside := by
  cases p <;> trivial

theorem Rouses.inside (h : p.Rouses) : p.Inside := by
  cases p <;> trivial

theorem stage_woken : p.woken.stage φ = p.stage φ := by
  cases p <;> rfl

theorem stage_succ (h : p.stage φ = .arrived) (hp : ¬p.Inside) : p.stage (φ + 1) = .released := by
  cases p <;> simp_all [stage, Inside]

end Pc

def State.stages (s : State n) (i : Fin n) : Stage :=
  (s.pc i).stage s.phase

theorem stages_goto : (s.goto i p).stages = update s.stages i (p.stage s.phase) := by
  funext j
  by_cases hj : j = i
  case pos => simp [hj, State.stages]
  case neg => simp [hj, State.stages]

-- A thread which is woken has not left its round by that.
theorem stages_wakeAll (hi : s.pc i = .wakeAll) :
    ({ s with pc := fun j => (s.pc j).woken }.goto i .unlockLast).stages = s.stages := by
  funext j
  by_cases hj : j = i
  case pos => simp [hj, State.stages, hi, Pc.stage]
  case neg => simp [hj, State.stages, Pc.stage_woken]

-- What the program point of a thread says about the shared variables.
def Fits (s : State n) : Pc → Prop
  | .storeArrive v => v = s.toArrive
  | .readPhase     => s.toArrive = 0
  | .writePhase v  => v = s.phase ∧ s.toArrive = 0
  | .resetArrive   => ∀ i, s.stages i ≠ .arrived
  | .asleep p      => s.phase = p ∨ s.phase = p + 1 ∧ ∃ i, (s.pc i).Rouses
  | .idle | .lock | .loadArrive | .testArrive | .loadPhase | .unlock _ | .unlockLast => True
  | .wait _ | .testPhase _ | .wakeAll                                                => True

theorem Fits.outside
    (h : Fits s p) (hp : ¬p.Inside) (hs : s'.phase = s.phase)
    (hr : ∀ {i}, (s.pc i).Rouses → ∃ j, (s'.pc j).Rouses) : Fits s' p := by
  cases p
  case asleep => exact h.imp hs.trans fun ⟨hp, _, hi⟩ => ⟨hs.trans hp, hr hi⟩
  all_goals first | trivial | exact absurd trivial hp

structure Inv (s : State n) : Prop where
  coupled   : Coupled s
  processes : s.processes.toNat = n
  fits      : ∀ i, Fits s (s.pc i)
  count     : (∀ i, s.pc i ≠ .resetArrive) →
    s.toArrive.toNat + Threads.count s.stages (· = .arrived) = n
  ends      : s.toArrive = 0 → ∃ i, (s.pc i).Ends

namespace Inv

theorem init (h₀ : 0 < n) (hn : n < 2 ^ 32) : Inv (init n) where
  coupled   := .init
  processes := by simp [Barrier.init]; omega
  fits _    := trivial
  count _   := by
    rw [Threads.count_eq_zero fun _ => by simp [State.stages, Barrier.init, Pc.stage]]
    simp [Barrier.init]
    omega
  ends h    := by
    have : (UInt32.ofNat n).toNat = 0 := by rw [show UInt32.ofNat n = 0 from h]; rfl
    simp at this
    omega

variable (inv : Inv s)
include inv

theorem not_inside (hi : (s.pc i).Inside) (hj : j ≠ i) : ¬(s.pc j).Inside :=
  inv.coupled.not_inside hi hj

theorem fits_of (hi : s.pc i = p) : Fits s p :=
  hi ▸ inv.fits i

-- As long as somebody has not arrived there is somebody to wait for.
theorem toArrive_ne_zero (hi : s.stages i ≠ .arrived) (hr : ∀ i, s.pc i ≠ .resetArrive) :
    s.toArrive ≠ 0 := by
  intro h
  have hc := inv.count hr
  have hl := Threads.count_lt_card (f := s.stages) (P := (· = .arrived)) hi
  simp only [h, UInt32.toNat_zero, Fintype.card_fin] at hc hl
  omega

-- The step of one thread which leaves the shared variables as they are.
theorem goto
    (ha : p.Agrees (s.lock.pc i))
    (hs : p.stage s.phase = .arrived ↔ s.stages i = .arrived)
    (hf : Fits s p) (hr : p ≠ .resetArrive ∧ ¬(s.pc i).Rouses)
    (he : (s.pc i).Ends → p.Ends ∨ s.toArrive ≠ 0) : Inv (s.goto i p) := by
  have hst := stages_goto (s := s) (i := i) (p := p)
  have hreset {j : Fin n} : (s.goto i p).pc j = .resetArrive ↔ s.pc j = .resetArrive := by
    apply Threads.update_iff (P := (· = Pc.resetArrive))
    exact iff_of_false hr.left fun h => hr.right (h ▸ trivial)
  have hrouses {j : Fin n} (hj : (s.pc j).Rouses) : ((s.goto i p).pc j).Rouses := by
    rwa [State.goto_pc_of_ne]
    exact fun h => hr.right (h ▸ hj)
  have hfits {q : Pc} (hq : Fits s q) : Fits (s.goto i p) q := by
    cases q
    case resetArrive =>
      intro j
      rw [hst, Ne, Threads.update_iff (f := s.stages) (P := (· = Stage.arrived)) hs]
      exact hq j
    case asleep => exact hq.imp_right fun ⟨h, j, hj⟩ => ⟨h, j, hrouses hj⟩
    all_goals exact hq
  constructor
  case coupled   => exact inv.coupled.goto ha rfl rfl
  case processes => exact inv.processes
  case fits =>
    intro j
    by_cases hj : j = i
    case pos => simpa [hj] using hfits hf
    case neg => simpa [hj] using hfits (inv.fits j)
  case count =>
    intro h
    rw [hst, Threads.count_keep (f := s.stages) (P := (· = Stage.arrived)) hs]
    exact inv.count fun j => hreset.not.mp (h j)
  case ends =>
    intro h
    have ⟨j, hj⟩ := inv.ends h
    by_cases hji : j = i
    case neg => exact ⟨j, by simpa [hji]⟩
    case pos =>
      cases he (hji ▸ hj)
      case inl hp => exact ⟨i, by simpa⟩
      case inr hz => exact absurd h hz

theorem inner {l : Drepper.Label n} {m : Drepper.State n}
    (hl : Locking s l) (hm : Drepper.Step s.lock l m) : Inv { s with lock := m } where
  coupled   := inv.coupled.inner hl hm
  processes := inv.processes
  count     := inv.count
  ends      := inv.ends
  fits i    := by
    have h := inv.fits i
    show Fits _ (s.pc i)
    cases hp : s.pc i <;> rw [hp] at h <;> exact h

-- There is nobody else between the two calls of the inner lock, ...
theorem pc_ne (hi : (s.pc i).Inside) (hp : p.Inside) (hn : s.pc i ≠ p) (j : Fin n) :
    s.pc j ≠ p := by
  rintro rfl
  exact hn <| inv.coupled.unique hi hp ▸ rfl

-- ... so that the others look at `phase` and at whether they will be woken.
theorem fits_goto
    (hi : (s.pc i).Inside) (hs : s'.phase = s.phase) (hp : s'.pc = update s.pc i p)
    (hr : (s.pc i).Rouses → p.Rouses) (hf : Fits s' p) (j : Fin n) : Fits s' (s'.pc j) := by
  by_cases hj : j = i
  case pos => simpa [hp, hj]
  case neg =>
    rw [show s'.pc j = s.pc j by simp [hp, hj]]
    apply (inv.fits j).outside (inv.not_inside hi hj) hs
    intro k hk
    have hki := inv.coupled.unique hk.inside hi
    exact ⟨i, by simpa [hp] using hr (hki ▸ hk)⟩

theorem storeArrive_ne_zero (hi : s.pc i = .storeArrive v) : v ≠ 0 := by
  rw [show v = s.toArrive from inv.fits_of hi]
  apply inv.toArrive_ne_zero (i := i)
  · simp [State.stages, hi, Pc.stage]
  · exact inv.pc_ne (i := i) (hi ▸ trivial) trivial (by simp [hi])

theorem storeArrive (hi : s.pc i = .storeArrive v) :
    Inv ({ s with toArrive := v - 1 }.goto i .testArrive) := by
  have hin : (s.pc i).Inside := hi ▸ trivial
  have hv : v = s.toArrive := inv.fits_of hi
  have hst : ({ s with toArrive := v - 1 }.goto i .testArrive).stages =
      update s.stages i .arrived := stages_goto
  have ha := (inv.coupled.agrees i).critical hin
  constructor
  case coupled   => exact inv.coupled.goto (p := .testArrive) ha rfl rfl
  case processes => exact inv.processes
  case fits      => exact inv.fits_goto hin rfl rfl (by simp [hi, Pc.Rouses]) trivial
  case ends      => exact fun _ => ⟨i, by simp [Pc.Ends]⟩
  case count =>
    intro _
    have hc := inv.count <| inv.pc_ne hin trivial (by simp [hi])
    have hlt : (1 : UInt32) ≤ v := by
      have := inv.storeArrive_ne_zero hi
      grind
    have hsub := UInt32.toNat_sub_of_le _ _ hlt
    have hpos : 1 ≤ v.toNat := by simpa using UInt32.le_iff_toNat_le.mp hlt
    rw [hst, Threads.count_enter (f := s.stages) (P := (· = Stage.arrived)) ?_ rfl]
    · simp only [State.goto_toArrive, hsub, UInt32.toNat_one]
      rw [← hv] at hc
      omega
    · simp [State.stages, hi, Pc.stage]

-- When the phase is about to change everybody has arrived, ...
theorem arrived (hi : s.pc i = .writePhase v) (j : Fin n) : s.stages j = .arrived := by
  by_contra hj
  apply inv.toArrive_ne_zero hj
  · exact inv.pc_ne (i := i) (hi ▸ trivial) trivial (by simp [hi])
  · exact (inv.fits_of hi).right

-- ... and once it has nobody is left from the last round.
theorem released (hi : s.pc i = .writePhase v) (j : Fin n) :
    ({ s with phase := v + 1 }.goto i .resetArrive).stages j = .released := by
  by_cases hj : j = i
  case pos => simp [hj, State.stages, Pc.stage]
  case neg =>
    have hv : v = s.phase := (inv.fits_of hi).left
    have hn := inv.not_inside (i := i) (hi ▸ trivial) hj
    simpa [hj, State.stages, hv] using Pc.stage_succ (inv.arrived hi j) hn

theorem writePhase (hi : s.pc i = .writePhase v) :
    Inv ({ s with phase := v + 1 }.goto i .resetArrive) := by
  have hin : (s.pc i).Inside := hi ▸ trivial
  have ⟨hv, _⟩ : v = s.phase ∧ s.toArrive = 0 := inv.fits_of hi
  have ha := (inv.coupled.agrees i).critical hin
  constructor
  case coupled   => exact inv.coupled.goto (p := .resetArrive) ha rfl rfl
  case processes => exact inv.processes
  case count     => exact fun h => absurd State.goto_pc_self (h i)
  case ends      => exact fun _ => ⟨i, by simp [Pc.Ends]⟩
  case fits =>
    intro j
    by_cases hj : j = i
    case pos =>
      rw [hj, State.goto_pc_self]
      intro k
      simp [inv.released hi k]
    case neg =>
      have hn := inv.not_inside hin hj
      have hs := inv.arrived hi j
      rw [State.goto_pc_of_ne hj]
      show Fits _ (s.pc j)
      cases hp : s.pc j
      case asleep p =>
        have hp : p = s.phase := by simpa [State.stages, hp, Pc.stage] using hs
        exact .inr ⟨by simp [hp, hv], i, by simp [Pc.Rouses]⟩
      all_goals first | trivial | simp [hp, Pc.Inside] at hn

theorem resetArrive (h₀ : 0 < n) (hi : s.pc i = .resetArrive) :
    Inv ({ s with toArrive := s.processes }.goto i .wakeAll) := by
  have hin : (s.pc i).Inside := hi ▸ trivial
  have ha := (inv.coupled.agrees i).critical hin
  have hst : ({ s with toArrive := s.processes }.goto i .wakeAll).stages =
      update s.stages i .released := stages_goto
  constructor
  case coupled   => exact inv.coupled.goto (p := .wakeAll) ha rfl rfl
  case processes => exact inv.processes
  case fits      => exact inv.fits_goto hin rfl rfl (fun _ => trivial) trivial
  case count =>
    intro _
    have hr : ∀ j, s.stages j ≠ .arrived := inv.fits_of hi
    have hs : Stage.released = .arrived ↔ s.stages i = .arrived := by simp [hr i]
    rw [hst, Threads.count_keep (f := s.stages) (P := (· = Stage.arrived)) hs,
      Threads.count_eq_zero hr]
    exact inv.processes
  case ends =>
    intro h
    have hz : s.processes.toNat = 0 := congrArg UInt32.toNat (show s.processes = 0 from h)
    exact absurd (inv.processes.symm.trans hz) h₀.ne'

theorem wakeAll (hi : s.pc i = .wakeAll) :
    Inv ({ s with pc := fun j => (s.pc j).woken }.goto i .unlockLast) := by
  have hin : (s.pc i).Inside := hi ▸ trivial
  have ha := (inv.coupled.agrees i).critical hin
  have hpc {j : Fin n} (hj : j ≠ i) :
      ({ s with pc := fun j => (s.pc j).woken }.goto i .unlockLast).pc j = (s.pc j).woken :=
    State.goto_pc_of_ne hj
  constructor
  case coupled =>
    refine ⟨inv.coupled.mutex, fun j => ?_⟩
    by_cases hj : j = i
    case pos =>
      rw [hj, State.goto_pc_self]
      exact .inl ha
    case neg =>
      rw [hpc hj]
      exact (inv.coupled.agrees j).woken
  case processes => exact inv.processes
  case fits =>
    intro j
    by_cases hj : j = i
    case pos => simp [hj, Fits]
    case neg =>
      have hn := inv.not_inside hin hj
      rw [hpc hj]
      cases hp : s.pc j <;> first | trivial | simp [hp, Pc.Inside] at hn
  case count =>
    intro h
    rw [stages_wakeAll hi]
    exact inv.count <| inv.pc_ne hin trivial (by simp [hi])
  case ends =>
    intro h
    have ⟨j, hj⟩ := inv.ends h
    have hji := inv.coupled.unique hj.inside hin
    rw [hji, hi] at hj
    cases hj

attribute [local simp] State.stages Pc.stage Pc.Agrees Fits Pc.Rouses Pc.Ends in
theorem step (h₀ : 0 < n) (h : Step s e s') : Inv s' := by
  have critical {i : Fin n} {p : Pc} (hi : s.pc i = p) (hp : p.Inside) :
      s.lock.pc i = .critical :=
    (inv.coupled.agrees i).critical (hi ▸ hp)
  have idle {i : Fin n} {p : Pc} (hi : s.pc i = p) : p.Agrees (s.lock.pc i) :=
    hi ▸ inv.coupled.agrees i
  have fits {i : Fin n} {p : Pc} (hi : s.pc i = p) : Fits s p := inv.fits_of hi
  cases h
  case inner hl hm     => exact inv.inner hl hm
  case storeArrive hi  => exact inv.storeArrive hi
  case writePhase hi   => exact inv.writePhase hi
  case resetArrive hi  => exact inv.resetArrive h₀ hi
  case wakeAll hi      => exact inv.wakeAll hi
  case call i hi =>
    have ha : s.lock.pc i = .idle := idle hi
    apply inv.goto <;> simp [hi, ha, Drepper.Pc.Unlocks]
  case locked i hi hl =>
    apply inv.goto <;> simp [hi, hl]
  case loadArrive i hi =>
    have ha := critical hi trivial
    apply inv.goto <;> simp [hi, ha]
  case early i hi hz =>
    have ha := critical hi trivial
    apply inv.goto <;> simp [hi, ha, hz]
  case last i hi hz =>
    have ha := critical hi trivial
    apply inv.goto <;> simp [hi, ha, hz]
  case loadPhase i hi =>
    have ha := critical hi trivial
    apply inv.goto <;> simp [hi, ha]
  case unlocked i p hi hl =>
    apply inv.goto <;> simp [hi, hl]
  case sleep i p hi hs =>
    have ha : s.lock.pc i = .idle := idle hi
    apply inv.goto <;> simp [hi, ha, hs]
  case wake i p hi =>
    cases hi
    all_goals
      rename s.pc i = _ => hi
      have ha : s.lock.pc i = .idle := idle hi
      apply inv.goto <;> simp [hi, ha]
  case again i p hi hs =>
    have ha : s.lock.pc i = .idle := idle hi
    apply inv.goto <;> simp [hi, ha, hs]
  case leave i p hi hs =>
    have ha : s.lock.pc i = .idle := idle hi
    apply inv.goto <;> simp [hi, ha, Ne.symm hs]
  case readPhase i hi =>
    have ha := critical hi trivial
    have hz : s.toArrive = 0 := fits hi
    apply inv.goto <;> simp [hi, ha, hz]
  case leaveLast i hi hl =>
    apply inv.goto <;> simp [hi, hl]

end Inv

end Barrier

namespace Barrier

open CyclicBarrier (Event Stage)

variable {n : ℕ} {s s' : State n} {i j : Fin n} {e : Option (Event (Fin n))} {p : Pc}

-- Each step of the barrier is one of the specification, or none.
theorem Inv.refines (inv : Inv s) (h : Step s e s') :
    (CyclicBarrier.machine (Fin n)).Run s.stages e.toList s'.stages := by
  have stay {i : Fin n} {p : Pc} (hp : p.stage s.phase = s.stages i) :
      (CyclicBarrier.machine (Fin n)).Run s.stages [] (s.goto i p).stages := by
    rw [stages_goto, hp, update_eq_self]
    exact .refl
  cases h
  case call i hi =>
    rw [stages_goto]
    exact .single <| CyclicBarrier.step_iff.mpr <| .call (by simp [State.stages, hi, Pc.stage])
  case storeArrive i v hi =>
    rw [stages_goto]
    exact .single <| CyclicBarrier.step_iff.mpr <| .arrive (by simp [State.stages, hi, Pc.stage])
  case writePhase i v hi =>
    rw [funext (inv.released hi)]
    exact .single <| CyclicBarrier.step_iff.mpr <| .turn (inv.arrived hi)
  case leave i p hi hs =>
    rw [stages_goto]
    exact .single <| CyclicBarrier.step_iff.mpr <|
      .leave (by simp [State.stages, hi, Pc.stage, Ne.symm hs])
  case leaveLast i hi _ =>
    rw [stages_goto]
    exact .single <| CyclicBarrier.step_iff.mpr <| .leave (by simp [State.stages, hi, Pc.stage])
  case inner => exact .refl
  case wakeAll i hi =>
    rw [stages_wakeAll hi]
    exact .refl
  case wake i p hi =>
    apply stay
    cases hi <;> simp [State.stages, Pc.stage, *]
  all_goals exact stay (by simp [State.stages, Pc.stage, *])

section Reachable

variable (h₀ : 0 < n) (hn : n < 2 ^ 32)
include h₀ hn

theorem inv_of_reachable (r : (machine n).Reachable s) : Inv s := by
  apply r.invariant
  case init =>
    intro _ h
    exact h ▸ .init h₀ hn
  case step =>
    intro _ _ _ _ inv h
    exact inv.step h₀ (.of_step h)

theorem run_of_reachable {l : List (Event (Fin n))}
    (r : ((machine n).logging event).Reachable (s, l)) :
    (CyclicBarrier.machine (Fin n)).Run (CyclicBarrier.init (Fin n)) l s.stages := by
  have ⟨_, run, ht⟩ : ∃ t, (CyclicBarrier.machine (Fin n)).Run (CyclicBarrier.init (Fin n)) l t ∧
      t = s.stages := by
    apply r.simulation (R := fun s _ t => t = s.stages)
    case init =>
      intro s hs
      rw [show s = Barrier.init n from hs]
      rfl
    case step =>
      intro s a s' l t r ht h
      subst ht
      exact ⟨_, (inv_of_reachable h₀ hn r).refines (.of_step h), rfl⟩
  exact ht ▸ run

theorem rounds_separated {l : List (Event (Fin n))}
    (r : ((machine n).logging event).Reachable (s, l)) :
    (∀ i j, l.count (.leave i) ≤ l.count (.call j)) ∧
    ((∀ i, s.lock.pc i ≠ .critical) → 1 ≤ s.toArrive.toNat ∧ s.toArrive.toNat ≤ n) ∧
    (∀ i v, s.pc i = .storeArrive v → v ≠ 0) ∧
    ∀ i p, s.pc i = .asleep p →
      s.phase = p ∨ s.phase = p + 1 ∧ ∃ j, s.pc j = .resetArrive ∨ s.pc j = .wakeAll := by
  have inv := inv_of_reachable h₀ hn r.of_logging
  refine ⟨CyclicBarrier.leave_le_call (run_of_reachable h₀ hn r), ?_, ?_, ?_⟩
  · intro hl
    have outside (i : Fin n) : ¬(s.pc i).Inside :=
      fun hi => hl i <| (inv.coupled.agrees i).critical hi
    have hc := inv.count fun i hi => outside i (hi ▸ trivial)
    have hz : s.toArrive.toNat ≠ 0 := by
      intro h
      have ⟨i, hi⟩ := inv.ends (UInt32.toNat_inj.mp h)
      exact outside i hi.inside
    omega
  · exact fun _ _ hi => inv.storeArrive_ne_zero hi
  · intro i p hi
    refine (inv.fits_of hi).imp_right fun ⟨hs, j, hj⟩ => ⟨hs, j, ?_⟩
    cases hp : s.pc j <;> simp_all [Pc.Rouses]

end Reachable

-- Thread 0 sleeps when thread 1 ends the round: the phase has changed and the wake-up call is ahead.
theorem rounds_separated_two :
    ∃ (s : State 2) (l : List (Event (Fin 2))),
      s.pc 0 = .asleep 0 ∧ s.phase = 1 ∧ l = [.call 0, .arrive 0, .call 1, .arrive 1, .turn] ∧
      (∀ i j, l.count (.leave i) ≤ l.count (.call j)) ∧
      ((∀ i, s.lock.pc i ≠ .critical) → 1 ≤ s.toArrive.toNat ∧ s.toArrive.toNat ≤ 2) ∧
      (∀ i v, s.pc i = .storeArrive v → v ≠ 0) ∧
      ∀ i p, s.pc i = .asleep p →
        s.phase = p ∨ s.phase = p + 1 ∧ ∃ j, s.pc j = .resetArrive ∨ s.pc j = .wakeAll :=
  have ⟨s, l, h, hp, hs, hl⟩ : ∃ s l, ((machine 2).logging event).exec (init 2, [])
      (Machine.schedule [(12, .thread 0), (9, .thread 1)]) = some (s, l) ∧ s.pc 0 = .asleep 0 ∧
      s.phase = 1 ∧ l = [.call 0, .arrive 0, .call 1, .arrive 1, .turn] :=
    ⟨_, _, rfl, rfl, rfl, rfl⟩
  ⟨s, l, hp, hs, hl,
    rounds_separated (by decide) (by decide) (.of_exec (by exact ⟨rfl, rfl⟩) h)⟩

end Barrier
