import Concurrencia.Channels.Mutex.Theorems.Goroutines

open Function

namespace ChannelMutex

-- One constructor for each way through a statement.
inductive Step {n : ℕ} (s : State n) : Label n → State n → Prop
  | lock : ((s.goroutines i).pc = .idle) →
    Step s (.lock i) (s.put i ⟨.receive, (s.goroutines i).held⟩)
  | unlock : (s.goroutines i = ⟨.idle, true⟩) → Step s (.unlock i) (s.put i ⟨.send, false⟩)
  | receive : ((s.goroutines i).pc = .receive) → (s.channel ≠ 0) → Step s (.goroutine i)
    ({ s with channel := s.channel - 1 }.put i ⟨.lockReturn, (s.goroutines i).held⟩)
  | lockReturn : ((s.goroutines i).pc = .lockReturn) → Step s (.goroutine i) (s.put i ⟨.idle, true⟩)
  | send : ((s.goroutines i).pc = .send) → (s.channel = 0) → Step s (.goroutine i)
    ({ s with channel := 1 }.put i ⟨.unlockReturn, (s.goroutines i).held⟩)
  | unlockReturn : ((s.goroutines i).pc = .unlockReturn) →
    Step s (.goroutine i) (s.put i ⟨.idle, (s.goroutines i).held⟩)

variable {n : ℕ} {s s' : State n} {t t' : LockCalls.State (Fin n)} {i : Fin n}
variable {l : Label n} {e : LockCalls.Event (Fin n)}

theorem send_eq_some {c d : ℕ} : ChannelMutex.send c = some d ↔ c = 0 ∧ d = 1 := by
  rw [ChannelMutex.send, capacity]
  split_ifs with hc
  case pos =>
    rw [Option.some.injEq]
    omega
  case neg => simp [show c ≠ 0 by omega]

theorem Step.of_step (h : step s l = some s') : Step s l s' := by
  cases l <;> simp only [step, Option.ite_none_right_eq_some, Option.some.injEq] at h
  case lock   => exact h.right ▸ .lock h.left
  case unlock => exact h.right ▸ .unlock h.left
  case goroutine i =>
    cases hp : (s.goroutines i).pc <;> simp only [goroutineStep, hp] at h
    case idle => cases h
    case receive =>
      split_ifs at h with hc
      cases h
      exact .receive hp hc
    case send =>
      obtain ⟨c, hc, rfl⟩ := Option.map_eq_some_iff.mp h
      obtain ⟨h0, rfl⟩ := send_eq_some.mp hc
      exact .send hp h0
    all_goals cases h
    case lockReturn   => exact .lockReturn hp
    case unlockReturn => exact .unlockReturn hp

-- The element is in the channel, unless a goroutine has it.
structure Refines (s : State n) (t : LockCalls.State (Fin n)) : Prop where
  channel    : s.channel ≤ 1
  goroutines : Represents s.goroutines (s.channel = 0) t

namespace Refines

theorem init (h : newMutex n = some s) : Refines s LockCalls.init := by
  obtain ⟨c, hc, rfl⟩ := Option.map_eq_some_iff.mp h
  obtain ⟨_, rfl⟩ := send_eq_some.mp hc
  exact ⟨le_rfl, .init (by simp)⟩

variable (h : Refines s t)
include h

theorem step (hs : Step s l s') :
    ∃ t', (LockCalls.machine (Fin n)).Trace Machine.label t (callEvent s l).toList t' ∧
      Refines s' t' := by
  have hc := h.channel
  have hg := h.goroutines
  cases hs
  case lock i hp =>
    have ht : t.phase i = .idle := by simp [hg.phase, Goroutine.phase, hp]
    exact ⟨_, LockCalls.trace_callLock ht, hc, hg.lock hp⟩
  case unlock i hp =>
    have ht : t.phase i = .idle := by simp [hg.phase, Goroutine.phase, hp]
    have ho : t.owner = some i := (hg.owner i).mpr (by rw [hp])
    exact ⟨_, LockCalls.trace_callUnlock ht ho, hc, hg.unlock hp⟩
  case receive i hp h0 =>
    have he : callEvent s (.goroutine i) = none := by simp [callEvent, hp]
    have h1 : s.channel - 1 = 0 := by omega
    rw [he]
    exact ⟨t, .refl, by simp [h1], hg.receive h0 h1 hp⟩
  case lockReturn i hp =>
    have he : callEvent s (.goroutine i) = some (.returnLock i) := by simp [callEvent, hp]
    have ht : t.phase i = .locking := by simp [hg.phase, Goroutine.phase, hp]
    obtain ⟨ho, hg⟩ := hg.lockReturn hp
    rw [he]
    exact ⟨_, LockCalls.trace_returnLock ht ho, hc, hg⟩
  case send i hp _ =>
    have he : callEvent s (.goroutine i) = none := by simp [callEvent, hp]
    rw [he]
    exact ⟨t, .refl, le_rfl, hg.send (by simp) hp⟩
  case unlockReturn i hp =>
    have he : callEvent s (.goroutine i) = some (.returnUnlock i) := by simp [callEvent, hp]
    have ht : t.phase i = .unlocking := by simp [hg.phase, Goroutine.phase, hp]
    rw [he]
    exact ⟨_, LockCalls.trace_returnUnlock ht, hc, hg.unlockReturn hp⟩

end Refines

theorem refines : Machine.Simulation (machine n) callEvent (LockCalls.machine (Fin n))
    Machine.label Refines where
  init h     := ⟨_, rfl, .init h⟩
  step hr hs := hr.step (.of_step hs)

def atRest (t : LockCalls.State (Fin n)) : State n where
  goroutines := rest t
  channel    := if t.owner = none then 1 else 0

theorem receive_eq (hp : (s.goroutines i).pc = .receive) (hc : s.channel = 1) :
    (machine n).step s (.goroutine i) =
      some ({ s with channel := 0 }.put i ⟨.lockReturn, (s.goroutines i).held⟩) := by
  simp [machine, step, goroutineStep, hp, hc]

theorem send_eq (hp : (s.goroutines i).pc = .send) (hc : s.channel = 0) :
    (machine n).step s (.goroutine i) =
      some ({ s with channel := 1 }.put i ⟨.unlockReturn, (s.goroutines i).held⟩) := by
  simp [machine, step, goroutineStep, hp, send_eq_some.mpr ⟨hc, rfl⟩]

theorem trace_lockReturn (hp : (s.goroutines i).pc = .lockReturn) :
    (machine n).Trace callEvent s [.returnLock i] (s.put i ⟨.idle, true⟩) := by
  have hs : (machine n).step s (.goroutine i) = some (s.put i ⟨.idle, true⟩) := by
    simp [machine, step, goroutineStep, hp]
  exact .visible hs (by simp [callEvent, hp])

theorem trace_unlockReturn (hp : (s.goroutines i).pc = .unlockReturn) :
    (machine n).Trace callEvent s [.returnUnlock i]
      (s.put i ⟨.idle, (s.goroutines i).held⟩) := by
  have hs : (machine n).step s (.goroutine i) =
      some (s.put i ⟨.idle, (s.goroutines i).held⟩) := by
    simp [machine, step, goroutineStep, hp]
  exact .visible hs (by simp [callEvent, hp])

theorem atRest_step (ht : LockCalls.step t e = some t') :
    (machine n).Trace callEvent (atRest t) [e] (atRest t') := by
  cases e <;> simp only [LockCalls.step, Option.ite_none_right_eq_some, Option.some.injEq] at ht
  case callLock i =>
    obtain ⟨hp, rfl⟩ := ht
    have hs : (machine n).step (atRest t) (.lock i) =
        some ((atRest t).put i ⟨.receive, (rest t i).held⟩) := if_pos (rest_pc hp)
    have h : (machine n).Trace callEvent (atRest t) [.callLock i] _ := .visible hs rfl
    rwa [State.put, atRest, ← rest_callLock] at h
  case callUnlock i =>
    obtain ⟨⟨hp, ho⟩, rfl⟩ := ht
    have hs : (machine n).step (atRest t) (.unlock i) =
        some ((atRest t).put i ⟨.send, false⟩) := if_pos (rest_eq hp ho)
    have hg := send_eq (s := (atRest t).put i ⟨.send, false⟩) (i := i) (by simp)
      (by simp [atRest, ho])
    refine .step hs (.silent hg (by simp [callEvent]) ?_)
    simp only [State.put, update_self, update_idem, atRest, rest_callUnlock ho]
    exact .refl
  case returnLock i =>
    obtain ⟨⟨hp, ho⟩, rfl⟩ := ht
    have hr := receive_eq (s := atRest t) (i := i) (rest_pc hp) (by simp [atRest, ho])
    refine .silent hr (by simp [callEvent, atRest, rest_pc hp, restPc]) ?_
    have h := trace_lockReturn (i := i)
      (s := { atRest t with channel := 0 }.put i ⟨.lockReturn, (rest t i).held⟩) (by simp)
    simpa [State.put, atRest, rest_returnLock ho] using h
  case returnUnlock i =>
    obtain ⟨hp, rfl⟩ := ht
    have h := trace_unlockReturn (s := atRest t) (rest_pc hp)
    rwa [State.put, atRest, ← rest_returnUnlock] at h

-- All that a lock may do is done.
theorem implements : Machine.Simulation (LockCalls.machine (Fin n)) Machine.label (machine n)
    callEvent fun t s => s = atRest t :=
  .of_map (fun h => h ▸ rfl) atRest_step

def History (n : ℕ) (l : List (LockCalls.Event (Fin n))) : Prop :=
  (machine n).History callEvent l

end ChannelMutex
