import Concurrencia.Channels.Semaphore.Basic
import Concurrencia.Threads.Basic
import Concurrencia.Threads.Count
import Mathlib.Tactic.SplitIfs

open Function Threads

namespace ChannelSemaphore

open SemaphoreCalls (Phase)

-- One constructor for each way through a statement.
inductive Step {n : ℕ} (s : State n) : Label n → State n → Prop
  | wait : (s.pc i = .idle) → Step s (.wait i) (s.goto i .receive)
  | signal : (s.pc i = .idle) → Step s (.signal i) (s.goto i .send)
  | receive : (s.pc i = .receive) → (s.channel = c + 1) →
    Step s (.goroutine i) ({ s with channel := c }.goto i .waitReturn)
  | waitReturn : (s.pc i = .waitReturn) → Step s (.goroutine i) (s.goto i .idle)
  | send : (s.pc i = .send) →
    Step s (.goroutine i) ({ s with channel := s.channel + 1 }.goto i .signalReturn)
  | signalReturn : (s.pc i = .signalReturn) → Step s (.goroutine i) (s.goto i .idle)

variable {n c d k : ℕ} {v : ℤ} {s s' : State n} {t t' : SemaphoreCalls.State (Fin n)} {i : Fin n} {p : Pc}
variable {l : Label n} {e : SemaphoreCalls.Event (Fin n)}

theorem Step.of_step (h : step s l = some s') : Step s l s' := by
  cases l <;> simp only [step, Option.ite_none_right_eq_some, Option.some.injEq] at h
  case wait   => exact h.right ▸ .wait h.left
  case signal => exact h.right ▸ .signal h.left
  case goroutine i =>
    cases hp : s.pc i <;> simp only [goroutineStep, hp] at h
    case idle => cases h
    case receive =>
      split_ifs at h with hc
      cases h
      exact .receive hp (Nat.sub_add_cancel (Nat.pos_of_ne_zero hc)).symm
    case send =>
      obtain ⟨c, hc, rfl⟩ := Option.map_eq_some_iff.mp h
      rw [ChannelSemaphore.send] at hc
      split_ifs at hc
      cases hc
      exact .send hp
    all_goals cases h
    case waitReturn   => exact .waitReturn hp
    case signalReturn => exact .signalReturn hp

theorem fill_of_le (h : c + k ≤ max) : fill c k = some (c + k) := by
  induction k generalizing c
  case zero => rfl
  case succ k hi =>
    have hs : ChannelSemaphore.send c = some (c + 1) := if_pos (by omega)
    rw [fill, hs]
    simpa [Nat.add_assoc, Nat.add_comm 1] using hi (c := c + 1) (by omega)

theorem eq_of_fill (h : fill c k = some d) : d = c + k := by
  induction k generalizing c
  case zero => exact (Option.some.inj h).symm
  case succ k hi =>
    obtain ⟨_, hs, h⟩ := Option.bind_eq_some_iff.mp h
    rw [ChannelSemaphore.send] at hs
    split_ifs at hs
    cases hs
    have := hi h
    omega

def Pc.phase : Pc → Phase
  | idle                 => .idle
  | receive | waitReturn => .waiting
  | send | signalReturn  => .signalling

-- Some permits have been received by goroutines which have not returned yet, and some have not been
-- sent yet.
structure Refines (s : State n) (t : SemaphoreCalls.State (Fin n)) : Prop where
  phase   : ∀ i, t.phase i = (s.pc i).phase
  permits : t.permits = s.channel + count s.pc (· = .waitReturn) + count s.pc (· = .send)

namespace Refines

theorem init (h : newSemaphore n v = some s) : Refines s (SemaphoreCalls.init v.toNat) := by
  obtain ⟨c, hc, rfl⟩ := Option.map_eq_some_iff.mp h
  obtain rfl := eq_of_fill hc
  constructor
  case phase   => exact fun _ => rfl
  case permits => simp [SemaphoreCalls.init, count_eq_zero]

variable (h : Refines s t)
include h

theorem phase_eq (hp : s.pc i = p) : t.phase i = p.phase :=
  hp ▸ h.phase i

theorem phase_update (p : Pc) (j : Fin n) :
    update t.phase i p.phase j = (update s.pc i p j).phase :=
  map_update h.phase j

theorem phase_keep (hp : p.phase = (s.pc i).phase) (j : Fin n) :
    t.phase j = (update s.pc i p j).phase :=
  (h.phase j).trans (update_congr hp j).symm

theorem step (hs : Step s l s') :
    ∃ t', (SemaphoreCalls.machine (Fin n) k).Trace Machine.label t (callEvent s l).toList t' ∧
      Refines s' t' := by
  have hk := h.permits
  cases hs
  case wait i hp =>
    refine ⟨_, SemaphoreCalls.trace_callWait (h.phase_eq hp), h.phase_update .receive, ?_⟩
    rw [State.goto_pc, count_keep (by simp [hp]), count_keep (by simp [hp])]
    exact hk
  case signal i hp =>
    have hc := count_enter (f := s.pc) (i := i) (P := (· = Pc.send)) (p := .send) (by simp [hp]) rfl
    refine ⟨_, SemaphoreCalls.trace_callSignal (h.phase_eq hp), h.phase_update .send, ?_⟩
    rw [State.goto_pc, count_keep (by simp [hp]), hc, hk]
    rfl
  case receive i c hp hc =>
    have hw := count_enter (f := s.pc) (i := i) (P := (· = Pc.waitReturn)) (p := .waitReturn)
      (by simp [hp]) rfl
    have he : callEvent s (.goroutine i) = none := by simp [callEvent, hp]
    rw [he]
    refine ⟨t, .refl, h.phase_keep (by rw [hp]; rfl), ?_⟩
    rw [State.goto_pc, State.goto_channel, count_keep (P := (· = Pc.send)) (by simp [hp]), hw]
    dsimp only
    omega
  case waitReturn i hp =>
    have hw := count_leave (f := s.pc) (i := i) (P := (· = Pc.waitReturn)) (p := .idle)
      (by simp [hp]) (by simp)
    have he : callEvent s (.goroutine i) = some (.returnWait i) := by simp [callEvent, hp]
    obtain ⟨k, hk'⟩ : ∃ k, t.permits = k + 1 := Nat.exists_eq_succ_of_ne_zero (by omega)
    rw [he]
    refine ⟨_, SemaphoreCalls.trace_returnWait (h.phase_eq hp) hk', h.phase_update .idle, ?_⟩
    rw [State.goto_pc, State.goto_channel, count_keep (P := (· = Pc.send)) (by simp [hp])]
    dsimp only
    omega
  case send i hp =>
    have hc := count_leave (f := s.pc) (i := i) (P := (· = Pc.send)) (p := .signalReturn)
      (by simp [hp]) (by simp)
    have he : callEvent s (.goroutine i) = none := by simp [callEvent, hp]
    rw [he]
    refine ⟨t, .refl, h.phase_keep (by rw [hp]; rfl), ?_⟩
    rw [State.goto_pc, State.goto_channel, count_keep (P := (· = Pc.waitReturn)) (by simp [hp])]
    dsimp only
    omega
  case signalReturn i hp =>
    have he : callEvent s (.goroutine i) = some (.returnSignal i) := by simp [callEvent, hp]
    rw [he]
    refine ⟨_, SemaphoreCalls.trace_returnSignal (h.phase_eq hp), h.phase_update .idle, ?_⟩
    rw [State.goto_pc, count_keep (by simp [hp]), count_keep (by simp [hp])]
    exact hk

end Refines

theorem refines : Machine.Simulation (machine n v) callEvent
    (SemaphoreCalls.machine (Fin n) v.toNat) Machine.label Refines where
  init h     := ⟨_, rfl, .init h⟩
  step hr hs := hr.step (.of_step hs)

-- A goroutine which has been called waits in front of its receive, or it has sent already.
def rest (t : SemaphoreCalls.State (Fin n)) : State n where
  pc i :=
    match t.phase i with
    | .idle       => .idle
    | .waiting    => .receive
    | .signalling => .signalReturn
  channel := t.permits

theorem rest_update {x : Phase} (hp : ((rest ⟨fun _ => x, k⟩ : State n)).pc i = p) :
    { rest t with channel := k }.goto i p = rest ⟨update t.phase i x, k⟩ := by
  subst hp
  simp only [State.goto, rest, State.mk.injEq, and_true]
  ext1 j
  by_cases hj : j = i
  case pos => simp [hj]
  case neg => simp [hj]

section Rest

variable {x : State n}

theorem receive_eq (hp : x.pc i = .receive) (hc : x.channel = c + 1) :
    (machine n v).step x (.goroutine i) = some ({ x with channel := c }.goto i .waitReturn) := by
  simp [machine, step, goroutineStep, hp, hc]

theorem send_eq (hp : x.pc i = .send) (hc : x.channel < max) :
    (machine n v).step x (.goroutine i) =
      some ({ x with channel := x.channel + 1 }.goto i .signalReturn) := by
  simp [machine, step, goroutineStep, ChannelSemaphore.send, hp, hc]

theorem trace_waitReturn (hp : x.pc i = .waitReturn) :
    (machine n v).Trace callEvent x [.returnWait i] (x.goto i .idle) := by
  have hs : (machine n v).step x (.goroutine i) = some (x.goto i .idle) := by
    simp [machine, step, goroutineStep, hp]
  exact .visible hs (by simp [callEvent, hp])

theorem trace_signalReturn (hp : x.pc i = .signalReturn) :
    (machine n v).Trace callEvent x [.returnSignal i] (x.goto i .idle) := by
  have hs : (machine n v).step x (.goroutine i) = some (x.goto i .idle) := by
    simp [machine, step, goroutineStep, hp]
  exact .visible hs (by simp [callEvent, hp])

end Rest

theorem rest_step (ht : SemaphoreCalls.step t e = some t') (hk : t'.permits ≤ max) :
    (machine n v).Trace callEvent (rest t) [e] (rest t') := by
  cases e <;> simp only [SemaphoreCalls.step, Option.ite_none_right_eq_some,
    Option.some.injEq] at ht
  case callWait i =>
    obtain ⟨hp, rfl⟩ := ht
    have hs : (machine n v).step (rest t) (.wait i) = some ((rest t).goto i .receive) :=
      if_pos (by simp [rest, hp])
    rw [← rest_update (p := .receive) rfl]
    exact .single hs
  case callSignal i =>
    obtain ⟨hp, rfl⟩ := ht
    have hs : (machine n v).step (rest t) (.signal i) = some ((rest t).goto i .send) :=
      if_pos (by simp [rest, hp])
    have hg := send_eq (v := v) (x := (rest t).goto i .send) (i := i) (by simp) hk
    rw [← rest_update (p := .signalReturn) rfl]
    refine .step hs (.silent hg (by simp [callEvent]) ?_)
    rw [State.goto, State.goto, update_idem]
    exact .refl
  case returnWait i =>
    obtain ⟨⟨hp, hk⟩, rfl⟩ := ht
    have hr := receive_eq (v := v) (x := rest t) (i := i) (c := t.permits - 1) (by simp [rest, hp])
      (by simp only [rest]; omega)
    have hg := trace_waitReturn (v := v)
      (x := { rest t with channel := t.permits - 1 }.goto i .waitReturn) (i := i) (by simp)
    rw [← rest_update (p := .idle) rfl]
    refine .silent hr (by simp [callEvent, rest, hp]) ?_
    simpa [State.goto] using hg
  case returnSignal i =>
    obtain ⟨hp, rfl⟩ := ht
    rw [← rest_update (p := .idle) rfl]
    exact trace_signalReturn (by simp [rest, hp])

-- Below the bound of the channel, all that a semaphore may do is done.
theorem implements (hv : v ≤ max) :
    Machine.Simulation ((SemaphoreCalls.machine (Fin n) v.toNat).within (·.permits ≤ max))
      Machine.label (machine n v) callEvent fun t s => s = rest t := by
  refine .of_map (fun h => ?_) fun hs => ?_
  · obtain ⟨rfl, _⟩ := h
    have hf : fill 0 v.toNat = some v.toNat := by
      simpa using fill_of_le (c := 0) (k := v.toNat) (by omega)
    simp [machine, newSemaphore, hf, rest, SemaphoreCalls.init]
  · obtain ⟨hs, hk⟩ := Machine.within_step.mp hs
    exact rest_step hs hk

end ChannelSemaphore
