import Concurrencia.Machine.Basic

namespace Machine

variable {σ τ α β ε : Type*}

-- Steps of `m` lead from one state to the other, and they cause the events of the list.
inductive Trace (m : Machine σ α) (event : σ → α → Option ε) : σ → List ε → σ → Prop
  | refl : Trace m event s [] s
  | step : (m.step s₁ a = some s₂) → (Trace m event s₂ l s₃) →
    Trace m event s₁ ((event s₁ a).toList ++ l) s₃

-- What can be seen of a machine.
def History (m : Machine σ α) (event : σ → α → Option ε) (l : List ε) : Prop :=
  ∃ s, (m.logging event).Reachable (s, l)

-- The events of a specification are the labels of its steps.
def label (_ : σ) (a : α) : Option α :=
  some a

variable {m : Machine σ α} {m' : Machine τ β} {event : σ → α → Option ε} {event' : τ → β → Option ε}
variable {s s₁ s₂ s₃ : σ} {t : τ} {a : α} {l l₁ l₂ : List ε} {as : List α}

namespace Trace

theorem single (h : m.step s₁ a = some s₂) : m.Trace event s₁ (event s₁ a).toList s₂ := by
  have r : m.Trace event s₁ ((event s₁ a).toList ++ []) s₂ := .step h .refl
  rwa [List.append_nil] at r

theorem visible {e : ε} (h : m.step s₁ a = some s₂) (he : event s₁ a = some e) :
    m.Trace event s₁ [e] s₂ := by
  have r : m.Trace event s₁ (event s₁ a).toList s₂ := single h
  rwa [he] at r

theorem of_step (h : m.step s₁ a = some s₂) : m.Trace label s₁ [a] s₂ :=
  .single h

theorem silent (h : m.step s₁ a = some s₂) (he : event s₁ a = none) (r : m.Trace event s₂ l s₃) :
    m.Trace event s₁ l s₃ := by
  simpa [he] using Trace.step h r

theorem trans (r₁ : m.Trace event s₁ l₁ s₂) (r₂ : m.Trace event s₂ l₂ s₃) :
    m.Trace event s₁ (l₁ ++ l₂) s₃ := by
  induction r₁
  case refl => exact r₂
  case step h _ hi =>
    rw [List.append_assoc]
    exact .step h (hi r₂)

theorem reachable (r : m.Trace event s₁ l₂ s₂) (h : (m.logging event).Reachable (s₁, l₁)) :
    (m.logging event).Reachable (s₂, l₁ ++ l₂) := by
  induction r generalizing l₁
  case refl => simpa
  case step hs _ hi =>
    rw [← List.append_assoc]
    exact hi (h.step (logging_step.mpr ⟨hs, rfl⟩))

theorem of_reachable (r : (m.logging event).Reachable (s, l)) :
    ∃ s₀, m.init s₀ ∧ m.Trace event s₀ l s := by
  apply r.logging_invariant (I := fun s l => ∃ s₀, m.init s₀ ∧ m.Trace event s₀ l s)
  case init => exact fun s h => ⟨s, h, .refl⟩
  case step =>
    intro s₁ a s₂ l _ hi h
    have ⟨s₀, h₀, r⟩ := hi
    exact ⟨s₀, h₀, r.trans (.single h)⟩

theorem run (r : m.Trace label s₁ as s₂) : m.Run s₁ as s₂ := by
  induction r
  case refl        => exact .refl
  case step h _ hi => exact .step h hi

theorem of_run (r : m.Run s₁ as s₂) : m.Trace label s₁ as s₂ := by
  induction r
  case refl        => exact .refl
  case step h _ hi => exact .step h hi

end Trace

theorem history_label : m.History label as ↔ ∃ s₀ s, m.init s₀ ∧ m.Run s₀ as s := by
  constructor
  case mp =>
    intro h
    have ⟨s, r⟩ := h
    have ⟨s₀, h₀, r⟩ := Trace.of_reachable r
    exact ⟨s₀, s, h₀, r.run⟩
  case mpr =>
    intro h
    have ⟨_, s, h₀, r⟩ := h
    exact ⟨s, (Trace.of_run r).reachable (.init ⟨h₀, rfl⟩)⟩

-- Each step of `m` is matched by steps of `m'` which cause the same event, or none if it causes
-- none.
structure Simulation (m : Machine σ α) (event : σ → α → Option ε) (m' : Machine τ β)
    (event' : τ → β → Option ε) (R : σ → τ → Prop) : Prop where
  init : ∀ {s}, m.init s → ∃ t, m'.init t ∧ R s t
  step : ∀ {s a s' t}, R s t → m.step s a = some s' →
    ∃ t', m'.Trace event' t (event s a).toList t' ∧ R s' t'

namespace Simulation

variable {R : σ → τ → Prop}

theorem reachable (sim : Simulation m event m' event' R)
    (r : (m.logging event).Reachable (s, l)) :
    ∃ t, (m'.logging event').Reachable (t, l) ∧ R s t := by
  apply r.logging_invariant (I := fun s l => ∃ t, (m'.logging event').Reachable (t, l) ∧ R s t)
  case init =>
    intro s h
    have ⟨t, ht, hr⟩ := sim.init h
    exact ⟨t, .init ⟨ht, rfl⟩, hr⟩
  case step =>
    intro s₁ a s₂ l _ hi h
    have ⟨t, r, hr⟩ := hi
    have ⟨t', rt, hr⟩ := sim.step hr h
    exact ⟨t', rt.reachable r, hr⟩

theorem history (sim : Simulation m event m' event' R) (h : m.History event l) :
    m'.History event' l :=
  have ⟨_, r⟩ := h
  have ⟨t, rt, _⟩ := sim.reachable r
  ⟨t, rt⟩

theorem related (sim : Simulation m event m' event' R) (r : m.Reachable s) : ∃ t, R s t :=
  have ⟨_, r⟩ := @Reachable.exists_logging _ _ _ m s event r
  have ⟨t, _, hr⟩ := sim.reachable r
  ⟨t, hr⟩

-- The states of `m` are among those of `m'`.
theorem of_map {f : σ → τ} (init : ∀ {s}, m.init s → m'.init (f s))
    (step : ∀ {s a s'}, m.step s a = some s' → m'.Trace event' (f s) (event s a).toList (f s')) :
    Simulation m event m' event' fun s t => t = f s where
  init h     := ⟨_, init h, rfl⟩
  step hr hs := ⟨_, hr ▸ step hs, rfl⟩

end Simulation

-- A run of the specification which stays in `P`.
theorem Run.within {P : σ → Prop} [DecidablePred P] (r : m.Run s₁ as s₂)
    (h : ∀ bs s, bs <+: as → m.Run s₁ bs s → P s) : (m.within P).Run s₁ as s₂ := by
  induction r
  case refl => exact .refl
  case step s₁ a s₂ as _ hs _ hi =>
    have hp : P s₂ := h [a] s₂ (List.prefix_cons_inj a |>.mpr as.nil_prefix) (.step hs .refl)
    refine .step (within_step.mpr ⟨hs, hp⟩) (hi ?_)
    exact fun bs s hb r => h (a :: bs) s (List.prefix_cons_inj a |>.mpr hb) (.step hs r)

end Machine
