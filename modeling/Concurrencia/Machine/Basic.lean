import Mathlib.Data.List.Basic
import Mathlib.Logic.Basic
import Mathlib.Order.WellFounded

-- A machine takes its steps one at a time. The label of a step names the process that acts (and
-- whatever else the scheduler chooses), and `step` is `none` when that process is blocked.
structure Machine (σ α : Type*) where
  init : σ → Prop
  step : σ → α → Option σ

namespace Machine

variable {σ α ε : Type*}

inductive Reachable (m : Machine σ α) : σ → Prop
  | init : (m.init s) → Reachable m s
  | step : (Reachable m s₁) → (m.step s₁ a = some s₂) → Reachable m s₂

inductive Run (m : Machine σ α) : σ → List α → σ → Prop
  | refl : Run m s [] s
  | step : (m.step s₁ a = some s₂) → (Run m s₂ as s₃) → Run m s₁ (a :: as) s₃

-- Some process can take a step.
def Live (m : Machine σ α) (s : σ) : Prop :=
  ∃ a, (m.step s a).isSome

def exec (m : Machine σ α) : σ → List α → Option σ
  | s, []      => some s
  | s, a :: as => m.step s a >>= (m.exec · as)

-- Each process takes the given number of steps in its turn.
def schedule (turns : List (ℕ × α)) : List α :=
  turns.flatMap fun t => .replicate t.fst t.snd

variable {m : Machine σ α} {I P : σ → Prop} {s s₁ s₂ s₃ : σ} {a : α} {as as₁ as₂ : List α}

theorem not_live_step (h : ¬m.Live s) (a : α) : m.step s a = none := by
  by_contra hn
  exact h ⟨a, Option.isSome_iff_ne_none.mpr hn⟩

-- The induction rule for invariants: the step may use that its source is reachable, and so every
-- invariant that is already known.
theorem Reachable.invariant
    (r : m.Reachable s) (init : ∀ s, m.init s → I s)
    (step : ∀ s₁ a s₂, m.Reachable s₁ → I s₁ → m.step s₁ a = some s₂ → I s₂) : I s := by
  induction r
  case init h      => exact init _ h
  case step r h hi => exact step _ _ _ r hi h

namespace Run

theorem trans (r₁ : m.Run s₁ as₁ s₂) (r₂ : m.Run s₂ as₂ s₃) : m.Run s₁ (as₁ ++ as₂) s₃ := by
  induction r₁
  case refl        => exact r₂
  case step h _ hi => exact .step h (hi r₂)

theorem of_append (r : m.Run s₁ (as₁ ++ as₂) s₃) : ∃ s₂, m.Run s₁ as₁ s₂ ∧ m.Run s₂ as₂ s₃ := by
  induction as₁ generalizing s₁
  case nil => exact ⟨s₁, .refl, r⟩
  case cons a as hi =>
    cases r
    case step h r =>
      have ⟨s₂, r₁, r₂⟩ := hi r
      exact ⟨s₂, .step h r₁, r₂⟩

theorem reachable (r : m.Run s₁ as s₂) (h : m.Reachable s₁) : m.Reachable s₂ := by
  induction r
  case refl         => exact h
  case step hs _ hi => exact hi (h.step hs)

-- What holds at the start of a run and is preserved by its steps holds at its end.
theorem invariant
    (r : m.Run s₁ as s₂) (start : I s₁) (step : ∀ s a s', I s → m.step s a = some s' → I s') :
    I s₂ := by
  induction r
  case refl        => exact start
  case step h _ hi => exact hi (step _ _ _ start h)

-- A measure which grows in each step bounds the length of a run.
theorem length_le {M : σ → ℕ → Prop} {n : ℕ}
    (r : m.Run s₁ as s₂) (start : M s₁ n)
    (step : ∀ s n a s', M s n → m.step s a = some s' → ∃ n', n < n' ∧ M s' n') :
    ∃ n', n + as.length ≤ n' ∧ M s₂ n' := by
  induction r generalizing n
  case refl => exact ⟨n, Nat.le_refl _, start⟩
  case step h _ hi =>
    have ⟨k, hk, hm⟩ := step _ _ _ _ start h
    have ⟨n', hl, hn⟩ := hi hm
    refine ⟨n', ?_, hn⟩
    rw [List.length_cons]
    omega

-- Where each step adds to the work which is done, it bounds the length of a run.
theorem length_add_le_work (work : σ → ℕ) (r : m.Run s₁ as s₂) (h : m.Reachable s₁)
    (step : ∀ s a s', m.Reachable s → m.step s a = some s' → work s < work s') :
    work s₁ + as.length ≤ work s₂ := by
  have ⟨n, hl, _, hn⟩ := r.length_le (M := fun s n => m.Reachable s ∧ n = work s) ⟨h, rfl⟩
    fun s n a s' ⟨hr, hn⟩ hs => ⟨work s', hn ▸ step s a s' hr hs, hr.step hs, rfl⟩
  exact hn ▸ hl

theorem iff_exec : m.Run s₁ as s₂ ↔ m.exec s₁ as = some s₂ := by
  constructor
  case mp =>
    intro r
    induction r
    case refl        => rfl
    case step h _ hi => simp [exec, h, hi]
  case mpr =>
    intro h
    induction as generalizing s₁
    case nil =>
      obtain rfl : s₁ = s₂ := by simpa [exec] using h
      exact .refl
    case cons a as hi =>
      obtain ⟨s, hs, h⟩ := Option.bind_eq_some_iff.mp h
      exact .step hs (hi h)

end Run

theorem Reachable.of_exec (h : m.init s₁) (he : m.exec s₁ as = some s₂) : m.Reachable s₂ :=
  (Run.iff_exec.mpr he).reachable (.init h)

-- Steps which decrease a measure until the goal is reached make up a run which ends there.
theorem Run.of_decreasing {β : Type*} [LT β] [WellFoundedLT β] (μ : σ → β)
    (step : ∀ s, I s → ¬P s → ∃ a s', m.step s a = some s' ∧ (P s' ∨ I s' ∧ μ s' < μ s))
    (h : I s) : ∃ as s', m.Run s as s' ∧ P s' := by
  induction s using (InvImage.wf μ wellFounded_lt).induction
  case h s hi =>
    by_cases hp : P s
    case pos => exact ⟨[], s, .refl, hp⟩
    case neg =>
      have ⟨a, s', hs, hn⟩ := step s h hp
      cases hn
      case inl hp => exact ⟨[a], s', .step hs .refl, hp⟩
      case inr hn =>
        have ⟨as, t, r, ht⟩ := hi s' hn.right hn.left
        exact ⟨a :: as, t, .step hs r, ht⟩

section Decreasing

variable {μ : σ → ℕ} (h : ∀ {s a s'}, m.step s a = some s' → μ s' < μ s)
include h

-- Where each step decreases a measure, it bounds the length of a run.
theorem Run.length_add_le (r : m.Run s₁ as s₂) : as.length + μ s₂ ≤ μ s₁ := by
  induction r
  case refl => simp
  case step hs _ hi =>
    have := h hs
    rw [List.length_cons]
    omega

-- Every run can be continued until no step is left.
theorem Reachable.exists_stuck (r : m.Reachable s) : ∃ s', m.Reachable s' ∧ ¬m.Live s' := by
  have next (s : σ) (r : m.Reachable s) (hl : ¬¬m.Live s) : ∃ a s', m.step s a = some s' ∧
      (¬m.Live s' ∨ m.Reachable s' ∧ μ s' < μ s) := by
    obtain ⟨a, ha⟩ := not_not.mp hl
    obtain ⟨s', hs⟩ := Option.isSome_iff_exists.mp ha
    exact ⟨a, s', hs, .inr ⟨r.step hs, h hs⟩⟩
  have ⟨_, s', hr, hl⟩ := Run.of_decreasing (P := fun s => ¬m.Live s) μ next r
  exact ⟨s', hr.reachable r, hl⟩

end Decreasing

-- The runs of `m.only Q` are those of `m` whose steps all satisfy `Q` where they start.
def only (m : Machine σ α) (Q : σ → α → Prop) [∀ s a, Decidable (Q s a)] : Machine σ α where
  init     := m.init
  step s a := if Q s a then m.step s a else none

section Only

variable {Q : σ → α → Prop} [∀ s a, Decidable (Q s a)]

theorem only_step : (m.only Q).step s₁ a = some s₂ ↔ Q s₁ a ∧ m.step s₁ a = some s₂ := by
  simp [only]

theorem Run.of_only (r : (m.only Q).Run s₁ as s₂) : m.Run s₁ as s₂ := by
  induction r
  case refl        => exact .refl
  case step h _ hi => exact .step (only_step.mp h).right hi

theorem Reachable.only
    (r : m.Reachable s) (h : ∀ s₁ a s₂, m.step s₁ a = some s₂ → Q s₁ a) :
    (m.only Q).Reachable s := by
  induction r
  case init hi    => exact .init hi
  case step hs hi => exact hi.step (only_step.mpr ⟨h _ _ _ hs, hs⟩)

theorem Reachable.of_only (r : (m.only Q).Reachable s) : m.Reachable s := by
  induction r
  case init h    => exact .init h
  case step h hi => exact hi.step (only_step.mp h).right

end Only

-- The runs of `m.within P` are those of `m` which never leave `P`.
def within (m : Machine σ α) (P : σ → Prop) [DecidablePred P] : Machine σ α where
  init s   := m.init s ∧ P s
  step s a := (m.step s a).filter (P ·)

section Within

variable [DecidablePred P]

theorem within_step : (m.within P).step s₁ a = some s₂ ↔ m.step s₁ a = some s₂ ∧ P s₂ := by
  simp [within, Option.filter_eq_some_iff]

end Within

-- Extends the state of `m` by the list of the events its steps have caused so far.
def logging (m : Machine σ α) (event : σ → α → Option ε) : Machine (σ × List ε) α where
  init s   := m.init s.fst ∧ s.snd = []
  step s a := (m.step s.fst a).map fun s' => (s', s.snd ++ (event s.fst a).toList)

section Logging

variable {event : σ → α → Option ε} {l l₁ l₂ : List ε}

theorem logging_step :
    (m.logging event).step (s₁, l₁) a = some (s₂, l₂) ↔
    m.step s₁ a = some s₂ ∧ l₂ = l₁ ++ (event s₁ a).toList := by
  simp only [logging, Option.map_eq_some_iff, Prod.mk.injEq]
  constructor
  · rintro ⟨s, hs, rfl, rfl⟩
    exact ⟨hs, rfl⟩
  · rintro ⟨hs, rfl⟩
    exact ⟨s₂, hs, rfl, rfl⟩

theorem Reachable.of_logging (r : (m.logging event).Reachable (s, l)) : m.Reachable s := by
  generalize hp : (s, l) = p at r
  induction r generalizing s l <;> subst hp
  case init h    => exact .init h.left
  case step hi h => exact (hi rfl).step (logging_step.mp h).left

theorem Reachable.exists_logging (r : m.Reachable s) : ∃ l, (m.logging event).Reachable (s, l) := by
  induction r
  case init h   => exact ⟨[], .init ⟨h, rfl⟩⟩
  case step h hi =>
    obtain ⟨_, r⟩ := hi
    exact ⟨_, r.step (logging_step.mpr ⟨h, rfl⟩)⟩

-- The induction rule for invariants which relate a state to its history.
theorem Reachable.logging_invariant {I : σ → List ε → Prop}
    (r : (m.logging event).Reachable (s, l)) (init : ∀ s, m.init s → I s [])
    (step : ∀ s₁ a s₂ l, m.Reachable s₁ → I s₁ l → m.step s₁ a = some s₂ →
      I s₂ (l ++ (event s₁ a).toList)) : I s l := by
  refine r.invariant (I := fun p => I p.fst p.snd) ?init ?step
  case init =>
    rintro ⟨s, _⟩ ⟨hs, rfl⟩
    exact init s hs
  case step =>
    rintro ⟨s₁, l₁⟩ a ⟨s₂, l₂⟩ r hi h
    obtain ⟨hs, rfl⟩ := logging_step.mp h
    exact step s₁ a s₂ l₁ r.of_logging hi hs

-- What has happened before does not matter to a run.
theorem logging_exec_append
    (h : (m.logging event).exec (s₁, l₁) as = some (s₂, l₂)) (l : List ε) :
    (m.logging event).exec (s₁, l ++ l₁) as = some (s₂, l ++ l₂) := by
  induction as generalizing s₁ l₁
  case nil =>
    cases h
    rfl
  case cons a as hi =>
    obtain ⟨⟨s, l'⟩, hs, h⟩ := Option.bind_eq_some_iff.mp h
    obtain ⟨hm, rfl⟩ := logging_step.mp hs
    refine Option.bind_eq_some_iff.mpr ⟨(s, l ++ (l₁ ++ (event s₁ a).toList)), ?_, hi h⟩
    rw [← List.append_assoc]
    exact logging_step.mpr ⟨hm, rfl⟩

theorem Reachable.logging_of_only {Q : σ → α → Prop} [∀ s a, Decidable (Q s a)]
    (r : ((m.only Q).logging event).Reachable (s, l)) : (m.logging event).Reachable (s, l) := by
  apply r.logging_invariant (I := fun s l => (m.logging event).Reachable (s, l))
  case init => exact fun s h => .init ⟨h, rfl⟩
  case step =>
    intro s₁ a s₂ l _ hi h
    exact hi.step (logging_step.mpr ⟨(only_step.mp h).right, rfl⟩)

end Logging

section Simulation

variable {τ : Type*} {m' : Machine τ ε} {event : σ → α → Option ε}
variable {t t₁ t₂ : τ} {e : ε} {l : List ε}

theorem Run.single (h : m'.step t₁ e = some t₂) : m'.Run t₁ [e] t₂ :=
  .step h .refl

-- The rule of forward simulation: where each step of `m` is matched by the step of `m'` for its
-- event, or by no step if it has none, the events of `m` are the labels of a run of `m'`. The
-- relation between the two states may depend on the events so far.
theorem Reachable.simulation {R : σ → List ε → τ → Prop}
    (r : (m.logging event).Reachable (s, l)) (init : ∀ s, m.init s → R s [] t)
    (step : ∀ s₁ a s₂ l t₁, m.Reachable s₁ → R s₁ l t₁ → m.step s₁ a = some s₂ →
      ∃ t₂, m'.Run t₁ (event s₁ a).toList t₂ ∧ R s₂ (l ++ (event s₁ a).toList) t₂) :
    ∃ t', m'.Run t l t' ∧ R s l t' := by
  apply r.logging_invariant (I := fun s l => ∃ t', m'.Run t l t' ∧ R s l t')
  case init => exact fun s hs => ⟨t, .refl, init s hs⟩
  case step =>
    intro s₁ a s₂ l r ⟨t₁, h₁, hr⟩ h
    have ⟨t₂, h₂, hr⟩ := step s₁ a s₂ l t₁ r hr h
    exact ⟨t₂, h₁.trans h₂, hr⟩

end Simulation

end Machine
