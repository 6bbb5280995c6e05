import Concurrencia.Futex.Barrier.Basic
import Concurrencia.Futex.Drepper.Theorems.Exclusion
import Concurrencia.Futex.Drepper.Theorems.Wakeup

open Function

namespace Barrier

section Step

open CyclicBarrier (Event)

namespace Pc

-- Inside of the unlock function of the inner lock, or on the way there.
def Unlocks : Pc → Prop
  | unlock _ | unlockLast                                            => True
  | idle | lock | loadArrive | storeArrive _ | testArrive            => False
  | loadPhase | wait _ | asleep _ | testPhase _                      => False
  | readPhase | writePhase _ | resetArrive | wakeAll                 => False

end Pc

-- Who takes a step of the inner lock.
def Locking {n : ℕ} (s : State n) : Drepper.Label n → Prop
  | .thread i => s.pc i = .lock ∧ s.lock.pc i ≠ .critical ∨ (s.pc i).Unlocks ∧ s.lock.pc i ≠ .idle
  | _         => True

-- One constructor for each way through a statement, with the event it causes.
inductive Step {n : ℕ} (s : State n) : Option (Event (Fin n)) → State n → Prop
  | call : (s.pc i = .idle) → Step s (some (.call i)) (s.goto i .lock)
  | inner : (Locking s l) → (Drepper.Step s.lock l m) → Step s none { s with lock := m }
  | locked : (s.pc i = .lock) → (s.lock.pc i = .critical) → Step s none (s.goto i .loadArrive)
  | loadArrive : (s.pc i = .loadArrive) → Step s none (s.goto i (.storeArrive s.toArrive))
  | storeArrive : (s.pc i = .storeArrive v) →
    Step s (some (.arrive i)) ({ s with toArrive := v - 1 }.goto i .testArrive)
  | early : (s.pc i = .testArrive) → (s.toArrive ≠ 0) → Step s none (s.goto i .loadPhase)
  | last : (s.pc i = .testArrive) → (s.toArrive = 0) → Step s none (s.goto i .readPhase)
  | loadPhase : (s.pc i = .loadPhase) → Step s none (s.goto i (.unlock s.phase))
  | unlocked : (s.pc i = .unlock p) → (s.lock.pc i = .idle) → Step s none (s.goto i (.wait p))
  | sleep : (s.pc i = .wait p) → (s.phase = p) → Step s none (s.goto i (.asleep p))
  | wake : (s.pc i = .wait p ∨ s.pc i = .asleep p) → Step s none (s.goto i (.testPhase p))
  | again : (s.pc i = .testPhase p) → (s.phase = p) → Step s none (s.goto i (.wait p))
  | leave : (s.pc i = .testPhase p) → (s.phase ≠ p) →
    Step s (some (.leave i)) (s.goto i .idle)
  | readPhase : (s.pc i = .readPhase) → Step s none (s.goto i (.writePhase s.phase))
  | writePhase : (s.pc i = .writePhase v) →
    Step s (some .turn) ({ s with phase := v + 1 }.goto i .resetArrive)
  | resetArrive : (s.pc i = .resetArrive) →
    Step s none ({ s with toArrive := s.processes }.goto i .wakeAll)
  | wakeAll : (s.pc i = .wakeAll) →
    Step s none ({ s with pc := fun j => (s.pc j).woken }.goto i .unlockLast)
  | leaveLast : (s.pc i = .unlockLast) → (s.lock.pc i = .idle) →
    Step s (some (.leave i)) (s.goto i .idle)

variable {n : ℕ} {s s' : State n} {i : Fin n} {l : Label n}

theorem Step.of_lockStep {l : Drepper.Label n} (h : lockStep s l = some s') (hl : Locking s l) :
    Step s none s' := by
  have ⟨_, hm, h⟩ := Option.map_eq_some_iff.mp h
  exact h ▸ .inner hl (.of_step hm)

theorem Step.of_thread (h : threadStep s i = some s') : Step s (event s (.thread i)) s' := by
  cases hp : s.pc i <;> simp only [threadStep, event, hp] at h ⊢
  case lock =>
    split_ifs at h with hl
    · cases h
      exact .locked hp hl
    · exact .of_lockStep h <| .inl ⟨hp, hl⟩
  case testArrive =>
    split_ifs at h with ha
    all_goals cases h
    · exact .early hp (by rintro h; simp [h] at ha)
    · exact .last hp (by simpa using ha)
  case unlock p =>
    split_ifs at h with hl
    · cases h
      exact .unlocked hp hl
    · exact .of_lockStep h <| .inr ⟨hp ▸ trivial, hl⟩
  case wait p =>
    split_ifs at h with hs
    all_goals cases h
    · exact .sleep hp hs
    · exact .wake (.inl hp)
  case testPhase p =>
    split_ifs at h ⊢ with hs
    all_goals cases h
    · exact .again hp hs
    · exact .leave hp hs
  case unlockLast =>
    split_ifs at h ⊢ with hl
    · cases h
      exact .leaveLast hp hl
    · exact .of_lockStep h <| .inr ⟨hp ▸ trivial, hl⟩
  all_goals cases h
  case idle        => exact .call hp
  case loadArrive  => exact .loadArrive hp
  case storeArrive => exact .storeArrive hp
  case loadPhase   => exact .loadPhase hp
  case readPhase   => exact .readPhase hp
  case writePhase  => exact .writePhase hp
  case resetArrive => exact .resetArrive hp
  case wakeAll     => exact .wakeAll hp

theorem Step.of_step (h : step s l = some s') : Step s (event s l) s' := by
  cases l <;> simp only [step, event] at h ⊢
  case thread => exact .of_thread h
  case wake   => exact .of_lockStep h trivial
  case spurious i =>
    cases hp : s.pc i <;> simp only [spuriousStep, hp] at h
    case wait =>
      cases h
      exact .wake (.inl hp)
    case asleep =>
      cases h
      exact .wake (.inr hp)
    all_goals exact .of_lockStep h trivial

end Step

open CyclicBarrier (Event)

variable {n : ℕ} {s s' : State n} {i j : Fin n} {l : Drepper.Label n} {m : Drepper.State n}
variable {e : Option (Event (Fin n))} {p : Pc} {q : Drepper.Pc}

namespace Pc

-- Between the two calls of the inner lock.
def Inside : Pc → Prop
  | loadArrive | storeArrive _ | testArrive | loadPhase => True
  | readPhase | writePhase _ | resetArrive | wakeAll    => True
  | idle | lock | unlock _ | unlockLast                 => False
  | wait _ | asleep _ | testPhase _                     => False

-- Where a thread can be in the inner lock.
def Agrees : Pc → Drepper.Pc → Prop
  | lock, q                                                        => ¬q.Unlocks
  | unlock _, q | unlockLast, q                                    =>
    q = .critical ∨ q.Unlocks ∨ q = .idle
  | idle, q | wait _, q | asleep _, q | testPhase _, q             => q = .idle
  | loadArrive, q | storeArrive _, q | testArrive, q | loadPhase, q => q = .critical
  | readPhase, q | writePhase _, q | resetArrive, q | wakeAll, q    => q = .critical

theorem Agrees.woken (h : p.Agrees q) : p.woken.Agrees q := by
  cases p <;> exact h

theorem Agrees.critical (h : p.Agrees q) (hp : p.Inside) : q = .critical := by
  cases p <;> first | exact h | cases hp

theorem Agrees.locks (h : p.Agrees q) (hq : q.Contends ∨ q = .asleep) : p = .lock := by
  cases p <;> cases q <;> simp_all [Agrees, Drepper.Pc.Contends, Drepper.Pc.Unlocks]

theorem Agrees.unlocks (h : p.Agrees q) (hq : q.Unlocks) : p.Unlocks := by
  cases p <;> cases q <;> simp_all [Agrees, Unlocks, Drepper.Pc.Unlocks]

theorem Unlocks.agrees (h : p.Unlocks) (hq : q.Unlocks ∨ q = .idle) : p.Agrees q := by
  cases p <;> first | exact .inr hq | cases h

end Pc

-- Each thread is in the inner lock where its program point says.
structure Coupled (s : State n) : Prop where
  mutex  : Drepper.Inv s.lock
  agrees : ∀ i, (s.pc i).Agrees (s.lock.pc i)

namespace Coupled

theorem init : Coupled (init n) where
  mutex    := .init
  agrees _ := rfl

variable (h : Coupled s)
include h

theorem unique (hi : (s.pc i).Inside) (hj : (s.pc j).Inside) : i = j := by
  apply h.mutex.eq_of_holds
  · simp [(h.agrees i).critical hi, Drepper.Pc.Holds]
  · simp [(h.agrees j).critical hj, Drepper.Pc.Holds]

theorem not_inside (hi : (s.pc i).Inside) (hj : j ≠ i) : ¬(s.pc j).Inside :=
  fun hn => hj (h.unique hn hi)

theorem goto (hp : p.Agrees (s.lock.pc i)) (hl : s'.lock = s.lock) (hs : s'.pc = update s.pc i p) :
    Coupled s' where
  mutex := hl ▸ h.mutex
  agrees j := by
    rw [hl, hs]
    by_cases hj : j = i
    case pos => simpa [hj]
    case neg => simpa [hj] using h.agrees j

theorem agrees_goto (hq : (s.pc i).Agrees q) (j : Fin n) :
    (s.pc j).Agrees ((s.lock.goto i q).pc j) := by
  by_cases hj : j = i
  case pos => simpa [hj]
  case neg => simpa [hj] using h.agrees j

-- A step of the inner lock.
theorem inner (hl : Locking s l) (hs : Drepper.Step s.lock l m) : Coupled { s with lock := m } where
  mutex := h.mutex.step hs
  agrees := by
    have enter {i : Fin n} {q : Drepper.Pc} (hi : s.pc i = .lock) (hq : ¬q.Unlocks) (j : Fin n) :
        (s.pc j).Agrees ((s.lock.goto i q).pc j) :=
      h.agrees_goto (by rwa [hi]) j
    have locks {i : Fin n} (hi : (s.lock.pc i).Contends ∨ s.lock.pc i = .asleep) :=
      (h.agrees i).locks hi
    have leave {i : Fin n} {q : Drepper.Pc} (hi : (s.lock.pc i).Unlocks)
        (hq : q.Unlocks ∨ q = .idle) (j : Fin n) :
        (s.pc j).Agrees ((s.lock.goto i q).pc j) :=
      h.agrees_goto (((h.agrees i).unlocks hi).agrees hq) j
    cases hs
    case call i hp =>
      cases hl
      case inl hl => exact enter hl.left id
      case inr hl => exact absurd hp hl.right
    case leave i hp =>
      cases hl
      case inl hl => exact absurd hp hl.right
      case inr hl => exact h.agrees_goto (hl.left.agrees <| .inl trivial)
    case acquire hp _       => exact enter (locks <| .inl <| hp ▸ trivial) id
    case contend hp _ hq    =>
      apply enter (locks <| .inl <| hp ▸ trivial)
      cases hq <;> simp_all [Drepper.Pc.Unlocks]
    case obtain hp _        => exact enter (locks <| .inl <| hp ▸ trivial) id
    case exchange hp _      => exact enter (locks <| .inl <| hp ▸ trivial) id
    case sleep hp _         => exact enter (locks <| .inl <| hp ▸ trivial) id
    case retry hp _         => exact enter (locks <| .inl <| hp ▸ trivial) id
    case spurious hp        => exact enter (locks <| hp.elim (fun hp => .inl <| hp ▸ trivial) .inr) id
    case release hp _       => exact leave (hp ▸ trivial) (.inr rfl)
    case fetchSub hp _      => exact leave (hp ▸ trivial) (.inl trivial)
    case store hp           => exact leave (hp ▸ trivial) (.inl trivial)
    case wakeNone hp _      => exact leave (hp ▸ trivial) (.inr rfl)
    case wake i k hi hk =>
      intro j
      by_cases hj : j = k
      case pos =>
        rw [hj, Drepper.State.goto_pc_self, locks (.inr hk)]
        exact id
      case neg =>
        rw [Drepper.State.goto_pc_of_ne hj]
        exact leave (hi ▸ trivial) (.inr rfl) j

end Coupled

end Barrier
