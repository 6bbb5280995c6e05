import Concurrencia.Channels.Mutex.Theorems.Calls
import Concurrencia.Channels.MutexSync.Basic

open Function

namespace ChannelMutexSync

open ChannelMutex (Goroutine Represents rest)

-- One constructor for each label, and for each of the two calls which may return.
inductive Step {n : ℕ} (s : State n) : Label n → State n → Prop
  | lock : ((s.goroutines i).pc = .idle) →
    Step s (.lock i) (s.put i ⟨.receive, (s.goroutines i).held⟩)
  | unlock : (s.goroutines i = ⟨.idle, true⟩) → Step s (.unlock i) (s.put i ⟨.send, false⟩)
  | grant : (s.server = .send) → ((s.goroutines i).pc = .receive) → Step s (.grant i)
    ({ s with server := .receive }.put i ⟨.lockReturn, (s.goroutines i).held⟩)
  | accept : (s.server = .receive) → ((s.goroutines i).pc = .send) → Step s (.accept i)
    ({ s with server := .send }.put i ⟨.unlockReturn, (s.goroutines i).held⟩)
  | pass : ((s.goroutines i).pc = .send) → ((s.goroutines j).pc = .receive) → Step s (.pass i j)
    ((s.put i ⟨.unlockReturn, (s.goroutines i).held⟩).put j ⟨.lockReturn, (s.goroutines j).held⟩)
  | lockReturn : ((s.goroutines i).pc = .lockReturn) → Step s (.ret i) (s.put i ⟨.idle, true⟩)
  | unlockReturn : ((s.goroutines i).pc = .unlockReturn) →
    Step s (.ret i) (s.put i ⟨.idle, (s.goroutines i).held⟩)

variable {n : ℕ} {s s' : State n} {t t' : LockCalls.State (Fin n)} {i j : Fin n}
variable {l : Label n} {e : LockCalls.Event (Fin n)}

theorem Step.of_step (h : step s l = some s') : Step s l s' := by
  cases l <;> simp only [step, Option.ite_none_right_eq_some, Option.some.injEq] at h
  case lock   => exact h.right ▸ .lock h.left
  case unlock => exact h.right ▸ .unlock h.left
  case grant  => exact h.right ▸ .grant h.left.left h.left.right
  case accept => exact h.right ▸ .accept h.left.left h.left.right
  case pass   => exact h.right ▸ .pass h.left.left h.left.right
  case ret i =>
    cases hp : (s.goroutines i).pc <;> simp only [hp] at h
    case lockReturn =>
      cases h
      exact .lockReturn hp
    case unlockReturn =>
      cases h
      exact .unlockReturn hp
    all_goals cases h

-- The goroutine of `NewMutex` has the element while it sends, and else another goroutine has it.
def Refines (s : State n) (t : LockCalls.State (Fin n)) : Prop :=
  Represents s.goroutines (s.server = .receive) t

namespace Refines

theorem init : Refines (newMutex n) LockCalls.init :=
  Represents.init (by simp [newMutex])

variable (h : Refines s t)
include h

theorem step (hs : Step s l s') :
    ∃ t', (LockCalls.machine (Fin n)).Trace Machine.label t (callEvent s l).toList t' ∧
      Refines s' t' := by
  cases hs
  case lock i hp =>
    have ht : t.phase i = .idle := by simp [h.phase, Goroutine.phase, hp]
    exact ⟨_, LockCalls.trace_callLock ht, Represents.lock h hp⟩
  case unlock i hp =>
    have ht : t.phase i = .idle := by simp [h.phase, Goroutine.phase, hp]
    have ho : t.owner = some i := (h.owner i).mpr (by rw [hp])
    exact ⟨_, LockCalls.trace_callUnlock ht ho, Represents.unlock h hp⟩
  case grant i hs hp  => exact ⟨t, .refl, Represents.receive h (by simp [hs]) rfl hp⟩
  case accept i hs hp => exact ⟨t, .refl, Represents.send h (by simp) hp⟩
  case pass i j hi hj =>
    exact ⟨t, .refl, Represents.pass h (h.element.locked (.inr (.inl hi))) hi hj⟩
  case lockReturn i hp =>
    have he : callEvent s (.ret i) = some (.returnLock i) := by simp [callEvent, hp]
    have ht : t.phase i = .locking := by simp [h.phase, Goroutine.phase, hp]
    obtain ⟨ho, hg⟩ := Represents.lockReturn h hp
    rw [he]
    exact ⟨_, LockCalls.trace_returnLock ht ho, hg⟩
  case unlockReturn i hp =>
    have he : callEvent s (.ret i) = some (.returnUnlock i) := by simp [callEvent, hp]
    have ht : t.phase i = .unlocking := by simp [h.phase, Goroutine.phase, hp]
    rw [he]
    exact ⟨_, LockCalls.trace_returnUnlock ht, Represents.unlockReturn h hp⟩

end Refines

theorem refines : Machine.Simulation (machine n) callEvent (LockCalls.machine (Fin n))
    Machine.label Refines where
  init h     := ⟨_, rfl, h ▸ .init⟩
  step hr hs := hr.step (.of_step hs)

def atRest (t : LockCalls.State (Fin n)) : State n where
  goroutines := rest t
  server     := if t.owner = none then .send else .receive

theorem trace_lockReturn (hp : (s.goroutines i).pc = .lockReturn) :
    (machine n).Trace callEvent s [.returnLock i] (s.put i ⟨.idle, true⟩) := by
  have hs : (machine n).step s (.ret i) = some (s.put i ⟨.idle, true⟩) := by
    simp [machine, step, hp]
  exact .visible hs (by simp [callEvent, hp])

theorem trace_unlockReturn (hp : (s.goroutines i).pc = .unlockReturn) :
    (machine n).Trace callEvent s [.returnUnlock i]
      (s.put i ⟨.idle, (s.goroutines i).held⟩) := by
  have hs : (machine n).step s (.ret i) = some (s.put i ⟨.idle, (s.goroutines i).held⟩) := by
    simp [machine, step, hp]
  exact .visible hs (by simp [callEvent, hp])

theorem atRest_step (ht : LockCalls.step t e = some t') :
    (machine n).Trace callEvent (atRest t) [e] (atRest t') := by
  cases e <;> simp only [LockCalls.step, Option.ite_none_right_eq_some, Option.some.injEq] at ht
  case callLock i =>
    obtain ⟨hp, rfl⟩ := ht
    have hs : (machine n).step (atRest t) (.lock i) =
        some ((atRest t).put i ⟨.receive, (rest t i).held⟩) :=
      if_pos (ChannelMutex.rest_pc hp)
    have h : (machine n).Trace callEvent (atRest t) [.callLock i] _ := .visible hs rfl
    rwa [State.put, atRest, ← ChannelMutex.rest_callLock] at h
  case callUnlock i =>
    obtain ⟨⟨hp, ho⟩, rfl⟩ := ht
    have hs : (machine n).step (atRest t) (.unlock i) =
        some ((atRest t).put i ⟨.send, false⟩) := if_pos (ChannelMutex.rest_eq hp ho)
    have hg : (machine n).step ((atRest t).put i ⟨.send, false⟩) (.accept i) =
        some ({ (atRest t).put i ⟨.send, false⟩ with server := .send }.put i
          ⟨.unlockReturn, false⟩) := by
      simp [machine, step, atRest, ho]
    refine .step hs (.silent hg rfl ?_)
    simp only [State.put, update_idem, atRest, ChannelMutex.rest_callUnlock ho]
    exact .refl
  case returnLock i =>
    obtain ⟨⟨hp, ho⟩, rfl⟩ := ht
    have hr : (machine n).step (atRest t) (.grant i) =
        some ({ atRest t with server := .receive }.put i ⟨.lockReturn, (rest t i).held⟩) :=
      if_pos ⟨by simp [atRest, ho], ChannelMutex.rest_pc hp⟩
    refine .silent hr rfl ?_
    have h := trace_lockReturn (i := i)
      (s := { atRest t with server := .receive }.put i ⟨.lockReturn, (rest t i).held⟩) (by simp)
    simpa [State.put, atRest, ChannelMutex.rest_returnLock ho] using h
  case returnUnlock i =>
    obtain ⟨hp, rfl⟩ := ht
    have h := trace_unlockReturn (s := atRest t) (ChannelMutex.rest_pc hp)
    rwa [State.put, atRest, ← ChannelMutex.rest_returnUnlock] at h

theorem implements : Machine.Simulation (LockCalls.machine (Fin n)) Machine.label (machine n)
    callEvent fun t s => s = atRest t :=
  .of_map (fun h => h ▸ rfl) atRest_step

-- The calls and returns of the goroutines.
def History (n : ℕ) (l : List (LockCalls.Event (Fin n))) : Prop :=
  (machine n).History callEvent l

theorem history_iff {l : List (LockCalls.Event (Fin n))} :
    History n l ↔ ChannelMutex.History n l where
  mp h  := ChannelMutex.implements.history (refines.history h)
  mpr h := implements.history (ChannelMutex.refines.history h)

namespace Refines

variable (h : Refines s t)
include h

-- While an `Unlock` sends, the goroutine of `NewMutex` receives.
theorem server_receive (hi : (s.goroutines i).pc = .send) : s.server = .receive :=
  h.element.locked (.inr (.inl hi))

theorem accept_eq (hi : (s.goroutines i).pc = .send) :
    ChannelMutexSync.step s (.accept i) =
      some ({ s with server := .send }.put i ⟨.unlockReturn, (s.goroutines i).held⟩) :=
  if_pos ⟨h.server_receive hi, hi⟩

-- If nobody has taken the mutex, then the goroutine of `NewMutex` sends, or an `Unlock` does.
theorem grantable (hi : (s.goroutines i).pc = .receive)
    (hf : ∀ j, (s.goroutines j).held = false ∧ (s.goroutines j).pc ≠ .lockReturn) :
    ∃ l s', ChannelMutexSync.step s l = some s' ∧ (s'.goroutines i).pc = .lockReturn := by
  cases hs : s.server
  case send => exact ⟨.grant i, _, if_pos ⟨hs, hi⟩, by simp⟩
  case receive =>
    have ⟨j, hj⟩ := h.element.owner hs
    cases hj
    case inl hj => exact absurd hj (hf j).right
    case inr hj =>
      cases hj
      case inl hj => exact ⟨.pass j i, _, if_pos ⟨hj, hi⟩, by simp⟩
      case inr hj => simp [(hf j).left] at hj

end Refines

-- The synchronous mutex has the histories of the buffered one. One goroutine has the element of
-- the channel at most, an `Unlock` always finds a receiver, and a `Lock` finds a sender if the mutex
-- is free.
theorem mutexes_agree (n : ℕ) :
    (∀ l, History n l ↔ ChannelMutex.History n l) ∧
    ∀ s, (machine n).Reachable s →
      (∀ i j, (s.goroutines i).HasElement → (s.goroutines j).HasElement → i = j) ∧
      (∀ i, (s.goroutines i).pc = .send →
        s.server = .receive ∧ ∃ s', step s (.accept i) = some s') ∧
      ∀ i, (s.goroutines i).pc = .receive →
        (∀ j, (s.goroutines j).held = false ∧ (s.goroutines j).pc ≠ .lockReturn) →
        ∃ l s', step s l = some s' ∧ (s'.goroutines i).pc = .lockReturn := by
  refine ⟨fun l => history_iff, fun s r => ?_⟩
  have ⟨t, h⟩ := refines.related r
  refine ⟨fun i j hi hj => h.alone hi hj, fun i hi => ?_, fun i hi hf => h.grantable hi hf⟩
  exact ⟨h.server_receive hi, _, h.accept_eq hi⟩

end ChannelMutexSync
