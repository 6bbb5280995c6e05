import Concurrencia.Machine.History
import Mathlib.Logic.Function.Basic

open Function

-- The threads of a machine run an operation time and again. Its first step is the call, and a
-- thread which is idle again has returned, or it is about to return.
namespace Machine

inductive CallLabel (ι : Type*)
  | call (i : ι)
  | work (i : ι)
  | ret (i : ι)
  deriving DecidableEq

inductive CallEvent (ι : Type*)
  | call (i : ι)
  | ret (i : ι)
  deriving DecidableEq

variable {σ τ ι : Type*} [DecidableEq ι]

-- The second component tells which threads have been called and have not returned.
def callers (m : Machine σ ι) (idle : σ → ι → Prop) [∀ s i, Decidable (idle s i)] :
    Machine (σ × (ι → Bool)) (CallLabel ι) where
  init s := m.init s.fst ∧ s.snd = fun _ => false
  step s
    | .call i   =>
      if idle s.fst i ∧ s.snd i = false then
        (m.step s.fst i).map fun s' => (s', update s.snd i true)
      else none
    | .work i   => if idle s.fst i then none else (m.step s.fst i).map fun s' => (s', s.snd)
    | .ret i =>
      if idle s.fst i ∧ s.snd i = true then some (s.fst, update s.snd i false) else none

def callEvent (_ : σ × (ι → Bool)) : CallLabel ι → Option (CallEvent ι)
  | .call i   => some (.call i)
  | .work _   => none
  | .ret i => some (.ret i)

-- Thread `i` takes some steps within its call.
inductive Works (m : Machine σ ι) (idle : σ → ι → Prop) (i : ι) : σ → σ → Prop
  | refl : Works m idle i s s
  | step : (¬idle s₁ i) → (m.step s₁ i = some s₂) → (Works m idle i s₂ s₃) → Works m idle i s₁ s₃

variable {m : Machine σ ι} {m' : Machine τ ι} {idle : σ → ι → Prop} {idle' : τ → ι → Prop}
variable {s s₁ s₂ s₃ : σ} {t : τ} {i : ι} {b : ι → Bool} {R : σ → τ → Prop}

omit [DecidableEq ι] in
theorem Works.single (hi : ¬idle s₁ i) (h : m.step s₁ i = some s₂) : m.Works idle i s₁ s₂ :=
  .step hi h .refl

omit [DecidableEq ι] in
theorem Works.trans (w₁ : m.Works idle i s₁ s₂) (w₂ : m.Works idle i s₂ s₃) :
    m.Works idle i s₁ s₃ := by
  induction w₁
  case refl           => exact w₂
  case step hn h _ hi => exact .step hn h (hi w₂)

-- Each step of a thread of `m` is matched by steps of the same thread of `m'`.
structure CallSimulation (m : Machine σ ι) (idle : σ → ι → Prop) (m' : Machine τ ι)
    (idle' : τ → ι → Prop) (R : σ → τ → Prop) : Prop where
  init : ∀ {s}, m.init s → ∃ t, m'.init t ∧ R s t
  idle_iff : ∀ {s t i}, R s t → (idle s i ↔ idle' t i)
  call : ∀ {s s' t i}, R s t → idle s i → m.step s i = some s' →
    ∃ t', m'.step t i = some t' ∧ R s' t'
  work : ∀ {s s' t i}, R s t → ¬idle s i → m.step s i = some s' →
    ∃ t', m'.Works idle' i t t' ∧ R s' t'

omit [DecidableEq ι] in
theorem CallSimulation.related (sim : CallSimulation m idle m' idle' R) (r : m.Reachable s) :
    ∃ t, R s t := by
  refine r.invariant (I := fun s => ∃ t, R s t) ?init ?step
  case init =>
    intro s h
    have ⟨t, _, hr⟩ := sim.init h
    exact ⟨t, hr⟩
  case step =>
    intro s₁ i s₂ _ ht h
    have ⟨t, hr⟩ := ht
    cases Classical.em (idle s₁ i)
    case inl hi =>
      have ⟨t', _, hr⟩ := sim.call hr hi h
      exact ⟨t', hr⟩
    case inr hi =>
      have ⟨t', _, hr⟩ := sim.work hr hi h
      exact ⟨t', hr⟩

variable [∀ s i, Decidable (idle s i)] [∀ s i, Decidable (idle' s i)]

theorem Works.trace (w : m.Works idle i s₁ s₂) :
    (m.callers idle).Trace callEvent (s₁, b) [] (s₂, b) := by
  induction w
  case refl           => exact .refl
  case step hn h _ hi => exact .silent (a := .work i) (by simp [callers, hn, h]) rfl hi

theorem CallSimulation.simulation (sim : CallSimulation m idle m' idle' R) :
    Simulation (m.callers idle) callEvent (m'.callers idle') callEvent
      fun s t => R s.fst t.fst ∧ s.snd = t.snd where
  init h := by
    have ⟨t, ht, hr⟩ := sim.init h.left
    exact ⟨(t, _), ⟨ht, rfl⟩, hr, h.right⟩
  step {s a s' t} h hs := by
    obtain ⟨hr, hb⟩ := h
    cases a <;> simp only [callers] at hs
    case call i =>
      simp only [Option.ite_none_right_eq_some, Option.map_eq_some_iff] at hs
      obtain ⟨⟨hi, hf⟩, s₁, hs, rfl⟩ := hs
      obtain ⟨t₁, ht, hr'⟩ := sim.call hr hi hs
      have hc : (m'.callers idle').step t (.call i) = some (t₁, update t.snd i true) := by
        simp [callers, (sim.idle_iff hr).mp hi, ← hb, hf, ht]
      exact ⟨_, .single hc, hr', by rw [hb]⟩
    case work i =>
      simp only [Option.ite_none_left_eq_some, Option.map_eq_some_iff] at hs
      obtain ⟨hi, s₁, hs, rfl⟩ := hs
      obtain ⟨t₁, w, hr'⟩ := sim.work hr hi hs
      exact ⟨(t₁, t.snd), w.trace, hr', hb⟩
    case ret i =>
      simp only [Option.ite_none_right_eq_some, Option.some.injEq] at hs
      obtain ⟨⟨hi, hf⟩, rfl⟩ := hs
      have hc : (m'.callers idle').step t (.ret i) = some (t.fst, update t.snd i false) := by
        simp [callers, (sim.idle_iff hr).mp hi, ← hb, hf]
      exact ⟨_, .single hc, hr, by rw [hb]⟩

end Machine
