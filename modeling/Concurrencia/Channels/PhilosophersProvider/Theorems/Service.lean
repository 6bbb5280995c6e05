import Concurrencia.Channels.PhilosophersProvider.Basic
import Concurrencia.DiningTable.Basic
import Concurrencia.Threads.Basic
import Concurrencia.Threads.Count
import Mathlib.Tactic.SplitIfs

open Function Threads DiningTable

namespace PhilosophersProvider

section Step

def MayEat {n : ℕ} (s : State n) (i : Fin n) : Prop :=
  s.status i = .hungry ∧ s.status (left i) ≠ .eating ∧ s.status (right i) ≠ .eating

-- One constructor for each way through a statement.
inductive Step {n : ℕ} (eatCount : ℕ) (s : State n) : State n → Prop
  | again : (s.pc i = .loop) → (s.meals i < eatCount) → Step eatCount s (s.goto i .think)
  | stop : (s.pc i = .loop) → (¬s.meals i < eatCount) → Step eatCount s (s.goto i .done)
  | think : (s.pc i = .think) → Step eatCount s (s.goto i .request)
  | eat : (s.pc i = .eat) → Step eatCount s (s.goto i .release)
  | finish : (s.pc i = .done) → (s.done.send () = some d) →
    Step eatCount s ({ s with done := d }.goto i .finished)
  | request : (s.provider = .receive) → (s.pc i = .request) →
    Step eatCount s ((receive s i .hungry).goto i .receive)
  | release : (s.provider = .receive) → (s.pc i = .release) →
    Step eatCount s ((receive (countMeal s i) i .thinking).goto i .loop)
  | mayEat : (s.provider = .canEat i cs) → (MayEat s i) →
    Step eatCount s { s with status := update s.status i .eating, provider := .send i cs }
  | mayNotEat : (s.provider = .canEat i cs) → (¬MayEat s i) →
    Step eatCount s { s with provider := .next cs }
  | grant : (s.provider = .send i cs) → (s.channel i = some j) → (s.pc j = .receive) →
    Step eatCount s ({ s with provider := .next cs }.goto j .eat)
  | main : (s.done.receive n = some d) → Step eatCount s { s with done := d }

variable {n eatCount : ℕ} {s s' : State n} {i : Fin n} {l : Label n}

theorem Step.of_philosopher (h : philosopherStep eatCount s i = some s') : Step eatCount s s' := by
  cases hp : s.pc i <;> simp only [philosopherStep, hp] at h
  case loop =>
    split_ifs at h with hm
    all_goals cases h
    · exact .again hp hm
    · exact .stop hp hm
  case done =>
    have ⟨_, hd, h⟩ := Option.map_eq_some_iff.mp h
    exact h ▸ .finish hp hd
  all_goals cases h
  case think => exact .think hp
  case eat   => exact .eat hp

theorem Step.of_request (h : requestStep s i = some s') : Step eatCount s s' := by
  cases hs : s.provider <;> cases hp : s.pc i <;> simp only [requestStep, hs, hp] at h
  all_goals cases h
  case receive.request => exact .request hs hp
  case receive.release => exact .release hs hp

theorem Step.of_provider (h : providerStep s = some s') : Step eatCount s s' := by
  cases hs : s.provider <;> simp only [providerStep, hs] at h
  case canEat =>
    split_ifs at h with hc
    all_goals cases h
    · exact .mayEat hs hc
    · exact .mayNotEat hs hc
  all_goals cases h

theorem Step.of_grant (h : grantStep s = some s') : Step eatCount s s' := by
  cases hs : s.provider <;> simp only [grantStep, hs] at h
  case send =>
    obtain ⟨j, hc, h⟩ := Option.bind_eq_some_iff.mp h
    split_ifs at h with hp
    cases h
    exact .grant hs hc hp
  all_goals cases h

theorem Step.of_step (h : step eatCount s l = some s') : Step eatCount s s' := by
  cases l <;> simp only [step] at h
  case philosopher => exact .of_philosopher h
  case request     => exact .of_request h
  case provider    => exact .of_provider h
  case grant       => exact .of_grant h
  case main =>
    have ⟨_, hd, h⟩ := Option.map_eq_some_iff.mp h
    exact h ▸ .main hd

end Step

namespace Provider

variable {n : ℕ} {i : Fin n} {cs : List (Fin n)}

-- The philosophers whom the provider will look after before it receives again.
def pending : Provider n → List (Fin n)
  | .receive     => []
  | .canEat i cs => i :: cs
  | .send _ cs   => cs

def Grants (i : Fin n) (p : Provider n) : Prop :=
  ∃ cs, p = .send i cs

@[simp] theorem pending_receive : (Provider.receive : Provider n).pending = [] := rfl
@[simp] theorem pending_canEat : (Provider.canEat i cs).pending = i :: cs := rfl
@[simp] theorem pending_send : (Provider.send i cs).pending = cs := rfl

@[simp] theorem pending_next : (next cs).pending = cs := by
  cases cs <;> rfl

@[simp] theorem not_grants_receive : ¬(Provider.receive).Grants i :=
  fun ⟨_, h⟩ => by cases h

@[simp] theorem not_grants_canEat {j : Fin n} : ¬(Provider.canEat j cs).Grants i :=
  fun ⟨_, h⟩ => by cases h

@[simp] theorem grants_send {j : Fin n} : (Provider.send j cs).Grants i ↔ j = i := by
  simp [Grants]

@[simp] theorem not_grants_next : ¬(next cs).Grants i := by
  cases cs <;> simp [next]

end Provider

-- What the array says about philosopher `i`, whose element may be on its way.
def Agrees {n : ℕ} (i : Fin n) (granted : Prop) (status : Status) (channel : Option (Fin n)) :
    Pc → Prop
  | .receive        =>
    channel = some i ∧ (granted ∧ status = .eating ∨ ¬granted ∧ status = .hungry)
  | .eat | .release => ¬granted ∧ status = .eating
  | .loop | .think | .request | .done | .finished => ¬granted ∧ status = .thinking

def State.Agrees {n : ℕ} (s : State n) (i : Fin n) : Prop :=
  PhilosophersProvider.Agrees i (s.provider.Grants i) (s.status i) (s.channel i) (s.pc i)

variable {n eatCount : ℕ} {hn : 2 ≤ n} {s s' : State n} {i j : Fin n} {p : Pc}
variable {cs : List (Fin n)} {d : DoneChannel Unit}

theorem mayEat_iff : MayEat s i ↔ CanEat (RoundTable.graph hn) s.status i :=
  RoundTable.canEat_iff.symm

structure Inv (hn : 2 ≤ n) (s : State n) : Prop where
  served : Served (RoundTable.graph hn) s.status (· ∈ s.provider.pending)
  agrees : ∀ i, s.Agrees i
  done   : s.done.Counts (count s.pc (· = .finished))

namespace Inv

theorem init : Inv hn (init n) where
  served := {
    apart _ h  := by cases h
    timely h _ := by cases h
  }
  agrees _ := ⟨Provider.not_grants_receive, rfl⟩
  done := by
    rw [count_eq_zero (by simp [PhilosophersProvider.init])]
    exact .empty

variable (inv : Inv hn s)
include inv

theorem done_goto (hi : s.pc i ≠ .finished) (hp : p ≠ .finished) :
    s.done.Counts (count (update s.pc i p) (· = .finished)) := by
  rw [count_keep (by simp [hi, hp])]
  exact inv.done

theorem agrees_of (h : s.pc i = p) :
    Agrees i (s.provider.Grants i) (s.status i) (s.channel i) p :=
  h ▸ inv.agrees i

-- The others do not notice what philosopher `i` and its entry in the array do, unless an element
-- was on its way to one of them.
theorem agrees_update {t : State n}
    (hp : ∀ j ≠ i, t.pc j = s.pc j) (hs : ∀ j ≠ i, t.status j = s.status j)
    (hc : ∀ j ≠ i, t.channel j = s.channel j)
    (hg : ∀ j ≠ i, t.provider.Grants j ↔ s.provider.Grants j) (hi : t.Agrees i) (j : Fin n) :
    t.Agrees j := by
  by_cases hj : j = i
  case pos => exact hj ▸ hi
  case neg =>
    rw [State.Agrees, hp j hj, hs j hj, hc j hj, propext (hg j hj)]
    exact inv.agrees j

-- The step of a philosopher on its own.
theorem goto
    (hi : s.pc i ≠ .finished) (hp : p ≠ .finished)
    (ha : ∀ {g t c}, PhilosophersProvider.Agrees i g t c (s.pc i) →
      PhilosophersProvider.Agrees i g t c p) : Inv hn (s.goto i p) where
  served := inv.served
  agrees := by
    apply inv.agrees_update (i := i)
    case hi => simpa [State.Agrees] using ha (inv.agrees i)
    all_goals simp +contextual
  done := inv.done_goto hi hp

theorem finish (hp : s.pc i = .done) (hd : s.done.send () = some d) :
    Inv hn ({ s with done := d }.goto i .finished) where
  served := inv.served
  agrees := by
    apply inv.agrees_update (i := i)
    case hi => simpa [State.Agrees, PhilosophersProvider.Agrees] using inv.agrees_of hp
    all_goals simp +contextual
  done := by
    have hc : count (update s.pc i .finished) (· = .finished) = count s.pc (· = .finished) + 1 :=
      count_enter (by simp [hp]) rfl
    rw [State.goto_pc, hc]
    exact inv.done.send hd

theorem request (hs : s.provider = .receive) (hp : s.pc i = .request) :
    Inv hn ((receive s i .hungry).goto i .receive) where
  served := by
    have ht : s.status i = .thinking := (inv.agrees_of hp).right
    apply (inv.served.hungry ht).mono
    simp [receive, calls, hs]
  agrees := by
    apply inv.agrees_update (i := i)
    case hi => simp [State.Agrees, PhilosophersProvider.Agrees, receive]
    all_goals simp +contextual [receive, hs]
  done := inv.done_goto (by simp [hp]) (by simp)

theorem release (hs : s.provider = .receive) (hp : s.pc i = .release) :
    Inv hn ((receive (countMeal s i) i .thinking).goto i .loop) where
  served := by
    apply (inv.served.leave (i := i)).mono
    intro j hj
    cases hj
    case inl hj => simp [hs] at hj
    case inr hj =>
      simp only [receive, calls, State.goto_provider, Provider.pending_next]
      cases hj
      case inl hj => simp [hj, right]
      case inr hj => simp [hj, left]
  agrees := by
    apply inv.agrees_update (i := i)
    case hi => simp [State.Agrees, PhilosophersProvider.Agrees, receive]
    all_goals simp +contextual [receive, countMeal, hs]
  done := inv.done_goto (by simp [hp]) (by simp)

theorem mayEat (hs : s.provider = .canEat i cs) (hc : MayEat s i) :
    Inv hn { s with status := update s.status i .eating, provider := .send i cs } where
  served := by
    apply (inv.served.grant (mayEat_iff.mp hc)).mono
    intro j ⟨hj, hn⟩
    simpa [hs, hn] using hj
  agrees := by
    apply inv.agrees_update (i := i)
    case hi =>
      have ha := inv.agrees i
      cases hp : s.pc i <;> simp_all [State.Agrees, PhilosophersProvider.Agrees, hc.left]
    all_goals simp +contextual [hs, eq_comm]
  done := inv.done

theorem mayNotEat (hs : s.provider = .canEat i cs) (hc : ¬MayEat s i) :
    Inv hn { s with provider := .next cs } where
  served := by
    apply (inv.served.pass (mt mayEat_iff.mpr hc)).mono
    intro j ⟨hj, hn⟩
    simpa [hs, hn] using hj
  agrees := by
    apply inv.agrees_update (i := i)
    case hi => simpa [State.Agrees, hs] using inv.agrees i
    all_goals simp +contextual [hs]
  done := inv.done

-- The philosopher of the entry is the one who receives.
theorem sending (hs : s.provider = .send i cs) :
    s.pc i = .receive ∧ s.channel i = some i ∧ s.status i = .eating := by
  have ha := inv.agrees i
  cases hp : s.pc i <;> simp_all [State.Agrees, PhilosophersProvider.Agrees]

theorem grant (hs : s.provider = .send i cs) (hc : s.channel i = some j) (hp : s.pc j = .receive) :
    Inv hn ({ s with provider := .next cs }.goto j .eat) := by
  have ⟨_, hi, he⟩ := inv.sending hs
  obtain rfl : i = j := Option.some.inj (hi.symm.trans hc)
  exact {
    served := by
      apply inv.served.mono
      simp [hs]
    agrees := by
      apply inv.agrees_update (i := i)
      case hi => simp [State.Agrees, PhilosophersProvider.Agrees, he]
      all_goals simp +contextual [hs, eq_comm]
    done := inv.done_goto (by simp [hp]) (by simp)
  }

theorem step (h : Step eatCount s s') : Inv hn s' := by
  cases h
  case again hp _ | stop hp _ | think hp | eat hp =>
    exact inv.goto (by simp [hp]) (by simp) (by simp [hp, PhilosophersProvider.Agrees])
  case finish hp hd     => exact inv.finish hp hd
  case request hs hp    => exact inv.request hs hp
  case release hs hp    => exact inv.release hs hp
  case mayEat hs hc     => exact inv.mayEat hs hc
  case mayNotEat hs hc  => exact inv.mayNotEat hs hc
  case grant hs hc hp   => exact inv.grant hs hc hp
  case main hd =>
    exact {
      served := inv.served
      agrees := inv.agrees
      done   := inv.done.receive hd
    }

end Inv

theorem inv_of_reachable (hn : 2 ≤ n) (r : (machine n eatCount).Reachable s) : Inv hn s := by
  apply r.invariant
  case init =>
    intro _ h
    exact h ▸ .init
  case step => exact fun _ _ _ _ inv h => inv.step (.of_step h)

namespace Inv

variable (inv : Inv hn s)
include inv

theorem eating_iff (hs : s.provider = .receive) :
    s.status i = .eating ↔ s.pc i = .eat ∨ s.pc i = .release := by
  have ha := inv.agrees i
  cases hp : s.pc i <;> simp_all [State.Agrees, PhilosophersProvider.Agrees]

theorem eating_next (hs : s.provider = .receive) (hi : s.status i = .hungry) :
    s.status (left i) = .eating ∨ s.status (right i) = .eating := by
  have ⟨j, ha, hj⟩ := inv.served.timely hi (by simp [hs])
  obtain rfl | rfl : j = right i ∨ j = left i := ha
  case inl => exact .inr hj
  case inr => exact .inl hj

theorem grant_isSome (hs : s.provider = .send i cs) : (grantStep s).isSome := by
  have ⟨hp, hc, _⟩ := inv.sending hs
  simp [grantStep, hs, hc, hp]

omit inv in
theorem live_of_philosopher (h : (philosopherStep eatCount s i).isSome) :
    (machine n eatCount).Live s :=
  ⟨.philosopher i, h⟩

omit inv in
theorem live_of_request (h : (requestStep s i).isSome) : (machine n eatCount).Live s :=
  ⟨.request i, h⟩

theorem live_of_done (hp : s.pc i = .done) : (machine n eatCount).Live s := by
  have hl := count_lt_card (f := s.pc) (P := (· = .finished)) (i := i) (by simp [hp])
  rw [Fintype.card_fin] at hl
  cases inv.done.live hl ()
  case inl hd => exact live_of_philosopher (i := i) (by simp [philosopherStep, hp, hd])
  case inr hd => exact ⟨.main, by simpa [machine, PhilosophersProvider.step] using hd⟩

-- A philosopher who waits has a neighbour who eats.
theorem live_of_receive (hs : s.provider = .receive) (hp : s.pc i ≠ .finished) :
    (machine n eatCount).Live s := by
  have eats {j : Fin n} (hj : s.status j = .eating) : (machine n eatCount).Live s := by
    cases (inv.eating_iff hs).mp hj
    case inl hj => exact live_of_philosopher (i := j) (by simp [philosopherStep, hj])
    case inr hj => exact live_of_request (i := j) (by simp [requestStep, hs, hj])
  cases hi : s.pc i
  case finished            => exact absurd hi hp
  case done                => exact inv.live_of_done hi
  case loop | think | eat  => exact live_of_philosopher (i := i) (by simp [philosopherStep, hi])
  case request | release   => exact live_of_request (i := i) (by simp [requestStep, hs, hi])
  case receive =>
    have ha := inv.agrees_of hi
    simp only [PhilosophersProvider.Agrees, hs, Provider.not_grants_receive, false_and,
      not_false_eq_true, true_and, false_or] at ha
    cases inv.eating_next hs ha.right
    case inl hj => exact eats hj
    case inr hj => exact eats hj

theorem live (hp : s.pc i ≠ .finished) : (machine n eatCount).Live s := by
  cases hs : s.provider
  case receive => exact inv.live_of_receive hs hp
  case send    => exact ⟨.grant, inv.grant_isSome hs⟩
  case canEat  =>
    refine ⟨.provider, ?_⟩
    simp only [machine, PhilosophersProvider.step, providerStep, hs]
    split_ifs <;> rfl

end Inv

theorem served_in_time (hn : 2 ≤ n) (r : (machine n eatCount).Reachable s) :
    (s.provider = .receive →
      (∀ i, s.status i = .eating → s.status (left i) ≠ .eating ∧ s.status (right i) ≠ .eating) ∧
      (∀ i, s.status i = .hungry → s.status (left i) = .eating ∨ s.status (right i) = .eating) ∧
      ∀ i, s.status i = .eating ↔ s.pc i = .eat ∨ s.pc i = .release) ∧
    (∀ i cs, s.provider = .send i cs →
      s.channel i = some i ∧ s.pc i = .receive ∧ (step eatCount s .grant).isSome) ∧
    ∀ i, s.pc i ≠ .finished → (machine n eatCount).Live s := by
  have inv := inv_of_reachable hn r
  refine ⟨fun hs => ⟨?_, fun _ => inv.eating_next hs, fun _ => inv.eating_iff hs⟩, ?_,
    fun _ => inv.live⟩
  · intro i hi
    exact ⟨inv.served.apart (.inr rfl) hi, inv.served.apart (.inl rfl) hi⟩
  · intro i cs hs
    have ⟨hp, hc, _⟩ := inv.sending hs
    exact ⟨hc, hp, inv.grant_isSome hs⟩

-- Philosopher 0 eats, and philosopher 1 waits for it.
theorem served_in_time_three :
    ∃ s : State 3, s.provider = .receive ∧ s.status 0 = .eating ∧ s.status 1 = .hungry ∧
      (s.status (left 1) = .eating ∨ s.status (right 1) = .eating) ∧
      (machine 3 100).Live s :=
  have ⟨s, h, hs, h₀, h₁⟩ : ∃ s, (machine 3 100).exec (init 3)
      [.philosopher 0, .philosopher 0, .request 0, .provider, .grant, .philosopher 1,
        .philosopher 1, .request 1, .provider] = some s ∧ s.provider = .receive ∧
      s.status 0 = .eating ∧ s.status 1 = .hungry :=
    ⟨_, rfl, rfl, rfl, rfl⟩
  have ⟨hf, _, hl⟩ := served_in_time (by decide) (.of_exec rfl h)
  ⟨s, hs, h₀, h₁, (hf hs).right.left 1 h₁, hl 0 fun hp => by
    cases ((hf hs).right.right 0).mp h₀ <;> simp_all⟩

end PhilosophersProvider
