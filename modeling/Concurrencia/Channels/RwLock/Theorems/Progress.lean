import Concurrencia.Channels.RwLock.Theorems.Sharing
import Concurrencia.Semaphores.ReaderWriter.Theorems.Progress

open Function Threads

namespace ChannelRwLock

open ReaderGroup (Phase)

namespace Pc

-- A reader between the two methods, which are over when the number is sent and begin when it is
-- received.
def Reads : Pc → Prop
  | reading | receiveOut => True
  | _                    => False

def Writes : Pc → Prop
  | writing | writerSend => True
  | _                    => False

instance : DecidablePred Reads := fun p => by
  unfold Reads
  split <;> infer_instance

end Pc

variable {n : ℕ} {s s' : State n} {t : ReaderGroup.State (Fin n)} {i j : Fin n} {p : Pc} {v : ℤ}

theorem reads_iff : p.Reads ↔ p.phase = .inside := by
  cases p <;> simp [Pc.Reads, Pc.phase] <;> split_ifs <;> simp

theorem writes_iff : p.Writes ↔ p.phase = .writing := by
  cases p <;> simp [Pc.Writes, Pc.phase] <;> split_ifs <;> simp

-- The goroutine wants to receive from a channel which is empty, or it wants to send to one which is
-- full.
def Blocked (s : State n) : Pc → Prop
  | .idle                             => True
  | .receiveIn | .receiveOut          => s.readers = none
  | .sendIn _ | .sendOut _            => s.readers ≠ none
  | .receiveWriter _ | .writerReceive => s.writer = false
  | .sendWriter _ | .writerSend       => s.writer = true
  | _                                 => False

-- Makes the equations before the proofs below, many of which need them at the same time.
attribute [local grind =] Blocked

theorem exists_step (h : ¬Blocked s (s.pc i)) :
    ∃ s', (machine n).step s (.goroutine i) = some s' := by
  cases hp : s.pc i <;> rw [hp] at h
  case idle => exact absurd trivial h
  case receiveIn | receiveOut =>
    have ⟨v, hv⟩ := Option.ne_none_iff_exists'.mp h
    simp [machine, step, goroutineStep, hp, receiveReaders, hv]
  all_goals simp_all [machine, step, goroutineStep, sendReaders, receiveWriter, sendWriter, Blocked]

namespace Refines

variable (h : Refines s t)
include h

theorem lock_iff : t.lock = true ↔ s.readers = none := by
  rw [h.lock]
  exact Option.isNone_iff_eq_none

-- The channels are empty when an element is sent to them.
theorem readers_none (hl : (s.pc i).phase.HasLock) : s.readers = none := by
  rw [← h.phase] at hl
  exact h.lock_iff.mp (h.inv.lock.locked hl)

theorem writer_empty (hi : (∃ v, s.pc i = .sendWriter v) ∨ s.pc i = .writerSend) :
    s.writer = false := by
  have ht := h.token
  cases hi
  case inl hi =>
    have ⟨v, hi⟩ := hi
    simpa [ht] using h.inv.token_of_last (h.phase_of hi)
  case inr hi => simpa [ht] using (h.inv.token_of_writing (h.phase_of hi)).left

theorem not_blocked (hm : t.Movable i) : ¬Blocked s (s.pc i) := by
  have hl := h.lock_iff
  have ht := h.token
  simp only [ReaderGroup.State.Movable, h.phase] at hm
  cases hp : s.pc i <;> simp only [hp, Pc.phase] at hm
  case reading | writing | testIn | testOut => exact id
  case receiveWriter | receiveOut => simp_all [Blocked]
  case sendWriter v => simp [Blocked, h.writer_empty (.inl ⟨v, hp⟩)]
  case writerSend   => simp [Blocked, h.writer_empty (.inr hp)]
  case sendIn | sendOut => simp [Blocked, h.readers_none (i := i) (by rw [hp]; trivial)]

theorem exists_not_blocked (hi : s.pc i ≠ .idle) : ∃ j, ¬Blocked s (s.pc j) := by
  cases h.inv.exists_movable
  case inr hm =>
    have ⟨j, hj⟩ := hm
    exact ⟨j, h.not_blocked hj⟩
  case inl hf =>
    have hl := h.lock_iff
    have ht := h.token
    refine ⟨i, ?_⟩
    cases hp : s.pc i
    case idle                      => exact absurd hp hi
    case receiveIn | writerReceive => simp_all [Blocked]
    all_goals
      rw [← hp]
      apply h.not_blocked
      simp only [ReaderGroup.State.Movable, h.phase, hp, Pc.phase]
    case testIn | testOut => split_ifs <;> simp [hf.right]
    all_goals simp [hf.left, hf.right]

theorem exists_step (hi : s.pc i ≠ .idle) :
    ∃ j s', (machine n).step s (.goroutine j) = some s' :=
  have ⟨j, hj⟩ := h.exists_not_blocked hi
  ⟨j, ChannelRwLock.exists_step hj⟩

theorem writes_alone (hi : (s.pc i).Writes) (hj : j ≠ i) : ¬(s.pc j).Reads ∧ ¬(s.pc j).Writes := by
  rw [writes_iff, ← h.phase] at hi
  have ⟨hw, hs⟩ := h.inv.alone hi hj
  rw [reads_iff, writes_iff, ← h.phase]
  refine ⟨fun hr => hs ?_, hw⟩
  rw [hr]
  trivial

theorem readers_eq (hr : s.readers = some v) : v = count s.pc Pc.Reads := by
  have hl : t.lock = false := by simp [h.lock, hr]
  have hc (i : Fin n) : t.phase i = .inside ↔ (s.pc i).Reads := by rw [reads_iff, h.phase]
  rw [← h.channel v hr, h.inv.readers_eq hl, count_congr (P := (· = Phase.inside)) hc]

theorem readers_pos_iff (hr : s.readers = some v) :
    0 < v ↔ s.writer = false ∧ ∀ i, ¬(s.pc i).Writes := by
  have hp := h.inv.readers_pos_iff (by simp [h.lock, hr])
  rw [h.channel v hr, h.token, Bool.not_eq_true'] at hp
  refine hp.trans (and_congr_right fun _ => forall_congr' fun i => ?_)
  rw [ne_eq, h.phase, writes_iff]

end Refines

-- Both locks keep writers alone and count their readers, who have the token together. The token is
-- never given back while it is free, no send blocks, and there is no deadlock.
theorem rw_locks (n : ℕ) :
    (∀ s, (ReaderWriter.machine false n).Reachable s →
      (∀ i j, (s.pc i).Writes → j ≠ i → ¬(s.pc j).Reads ∧ ¬(s.pc j).Writes) ∧
      0 ≤ s.readers ∧
      (s.mx = false → s.readers = count s.pc ReaderWriter.Pc.Reads ∧
        (0 < s.readers ↔ s.writer = true ∧ ∀ i, ¬(s.pc i).Writes)) ∧
      (∀ i, s.pc i = .reader .releaseWriter ∨ s.pc i = .writer .releaseWriter →
        s.writer = true) ∧
      ((∃ i, s.pc i ≠ .idle) →
        ∃ i s', (ReaderWriter.machine false n).step s (.thread i) = some s')) ∧
    ∀ s, (machine n).Reachable s →
      (∀ i j, (s.pc i).Writes → j ≠ i → ¬(s.pc j).Reads ∧ ¬(s.pc j).Writes) ∧
      (∀ v, s.readers = some v → v = count s.pc Pc.Reads ∧ 0 ≤ v ∧
        (0 < v ↔ s.writer = false ∧ ∀ i, ¬(s.pc i).Writes)) ∧
      (∀ i, (∃ v, s.pc i = .sendWriter v) ∨ s.pc i = .writerSend → s.writer = false) ∧
      (∀ i v, s.pc i = .sendIn v ∨ s.pc i = .sendOut v → s.readers = none) ∧
      ((∃ i, s.pc i ≠ .idle) → ∃ i s', (machine n).step s (.goroutine i) = some s') := by
  constructor
  · intro s r
    have inv := ReaderWriter.inv_of_reachable r
    refine ⟨fun i j hi hj => inv.writes_alone hi hj, inv.group.readers_nonneg,
      fun hm => ⟨inv.readers_eq hm, inv.readers_pos_iff hm⟩, fun i hi => inv.writer_taken hi, ?_⟩
    intro ⟨i, hi⟩
    exact inv.exists_step hi
  · intro s r
    have ⟨t, _, h⟩ := refines_of_reachable r
    refine ⟨fun i j hi hj => h.writes_alone hi hj, fun v hr => ?_, fun i hi => h.writer_empty hi, ?_, ?_⟩
    · exact ⟨h.readers_eq hr, h.channel v hr ▸ h.inv.readers_nonneg, h.readers_pos_iff hr⟩
    · intro i v hi
      cases hi
      case inl hi => exact h.readers_none (i := i) (by rw [hi]; trivial)
      case inr hi => exact h.readers_none (i := i) (by rw [hi]; trivial)
    · intro ⟨i, hi⟩
      exact h.exists_step hi

end ChannelRwLock
