import Concurrencia.Channels.RwLock.Basic
import Concurrencia.Machine.Basic
import Concurrencia.ReaderGroup.Theorems.Sharing
import Mathlib.Tactic.SplitIfs

open Function Threads

namespace ChannelRwLock

section Step

-- One constructor for each way through a statement.
inductive Step {n : ℕ} (s : State n) : State n → Prop
  | readerLock : (s.pc i = .idle) → Step s (s.goto i .receiveIn)
  | writerLock : (s.pc i = .idle) → Step s (s.goto i .writerReceive)
  | receiveIn : (s.pc i = .receiveIn) → (s.readers = some v) →
    Step s ({ s with readers := none }.goto i (.testIn (v + 1)))
  | first : (s.pc i = .testIn v) → (v = 1) → Step s (s.goto i (.receiveWriter v))
  | notFirst : (s.pc i = .testIn v) → (v ≠ 1) → Step s (s.goto i (.sendIn v))
  | receiveWriter : (s.pc i = .receiveWriter v) → (s.writer = true) →
    Step s ({ s with writer := false }.goto i (.sendIn v))
  | sendIn : (s.pc i = .sendIn v) → (s.readers = none) →
    Step s ({ s with readers := some v }.goto i .reading)
  | reading : (s.pc i = .reading) → Step s (s.goto i .receiveOut)
  | receiveOut : (s.pc i = .receiveOut) → (s.readers = some v) →
    Step s ({ s with readers := none }.goto i (.testOut (v - 1)))
  | last : (s.pc i = .testOut v) → (v = 0) → Step s (s.goto i (.sendWriter v))
  | notLast : (s.pc i = .testOut v) → (v ≠ 0) → Step s (s.goto i (.sendOut v))
  | sendWriter : (s.pc i = .sendWriter v) → (s.writer = false) →
    Step s ({ s with writer := true }.goto i (.sendOut v))
  | sendOut : (s.pc i = .sendOut v) → (s.readers = none) →
    Step s ({ s with readers := some v }.goto i .idle)
  | writerReceive : (s.pc i = .writerReceive) → (s.writer = true) →
    Step s ({ s with writer := false }.goto i .writing)
  | writing : (s.pc i = .writing) → Step s (s.goto i .writerSend)
  | writerSend : (s.pc i = .writerSend) → (s.writer = false) →
    Step s ({ s with writer := true }.goto i .idle)

variable {n : ℕ} {s s' : State n} {i : Fin n} {l : Label n} {p : Pc} {v : ℤ} {f : ℤ → Pc}

theorem receiveWriter_eq_some : receiveWriter s i p = some s' ↔
    s.writer = true ∧ { s with writer := false }.goto i p = s' := by
  simp [receiveWriter]

theorem sendWriter_eq_some : sendWriter s i p = some s' ↔
    s.writer = false ∧ { s with writer := true }.goto i p = s' := by
  simp [sendWriter]

theorem sendReaders_eq_some : sendReaders s i v p = some s' ↔
    s.readers = none ∧ { s with readers := some v }.goto i p = s' := by
  simp [sendReaders]

theorem receiveReaders_eq_some : receiveReaders s i f = some s' ↔
    ∃ v, s.readers = some v ∧ { s with readers := none }.goto i (f v) = s' :=
  Option.map_eq_some_iff

theorem Step.of_goroutine (h : goroutineStep s i = some s') : Step s s' := by
  cases hp : s.pc i <;> simp only [goroutineStep, hp, receiveWriter_eq_some, sendWriter_eq_some,
    sendReaders_eq_some, receiveReaders_eq_some] at h
  case receiveIn =>
    obtain ⟨v, hv, rfl⟩ := h
    exact .receiveIn hp hv
  case receiveOut =>
    obtain ⟨v, hv, rfl⟩ := h
    exact .receiveOut hp hv
  case receiveWriter => exact h.right ▸ .receiveWriter hp h.left
  case sendIn        => exact h.right ▸ .sendIn hp h.left
  case sendWriter    => exact h.right ▸ .sendWriter hp h.left
  case sendOut       => exact h.right ▸ .sendOut hp h.left
  case writerReceive => exact h.right ▸ .writerReceive hp h.left
  case writerSend    => exact h.right ▸ .writerSend hp h.left
  all_goals cases h
  case testIn =>
    split_ifs with hv
    · exact .first hp hv
    · exact .notFirst hp hv
  case testOut =>
    split_ifs with hv
    · exact .last hp hv
    · exact .notLast hp hv
  case reading => exact .reading hp
  case writing => exact .writing hp

theorem Step.of_step (h : step s l = some s') : Step s s' := by
  cases l <;> simp only [step, Option.ite_none_right_eq_some, Option.some.injEq] at h
  case readerLock => exact h.right ▸ .readerLock h.left
  case writerLock => exact h.right ▸ .writerLock h.left
  case goroutine  => exact .of_goroutine h

end Step

open ReaderGroup (Phase)

namespace Pc

def phase : Pc → Phase
  | testIn v                 => if v = 1 then .first else .entered
  | receiveWriter _          => .first
  | sendIn _                 => .entered
  | reading | receiveOut     => .inside
  | testOut v                => if v = 0 then .last else .left
  | sendWriter _             => .last
  | sendOut _                => .left
  | writing | writerSend     => .writing
  | _                        => .outside

def readers : Pc → Option ℤ
  | testIn v | receiveWriter v | sendIn v | testOut v | sendWriter v | sendOut v => some v
  | _                                                                           => none

theorem hasLock_of_readers {p : Pc} {v : ℤ} (h : p.readers = some v) : p.phase.HasLock := by
  cases p <;> try trivial
  case testIn  => simp only [phase]; split_ifs <;> trivial
  case testOut => simp only [phase]; split_ifs <;> trivial

end Pc

variable {n : ℕ} {s s' : State n} {t t' : ReaderGroup.State (Fin n)} {i j : Fin n} {p : Pc} {v : ℤ}
variable {ls : List (ReaderGroup.Label (Fin n))}

-- The number of the readers is in the channel, or the goroutine which has received it knows it.
structure Refines (s : State n) (t : ReaderGroup.State (Fin n)) : Prop where
  phase   : ∀ i, t.phase i = (s.pc i).phase
  lock    : t.lock = s.readers.isNone
  token   : t.token = !s.writer
  channel : ∀ v, s.readers = some v → t.readers = v
  loaded  : ∀ i v, (s.pc i).readers = some v → t.readers = v
  inv     : ReaderGroup.Inv t

namespace Refines

theorem init : Refines (newRwLock n) (ReaderGroup.init (Fin n)) where
  phase _    := rfl
  lock       := rfl
  token      := rfl
  channel _  := Option.some.inj
  loaded i v := by simp [newRwLock, Pc.readers]
  inv        := .init

variable (h : Refines s t)
include h

theorem phase_of (hi : s.pc i = p) : t.phase i = p.phase :=
  hi ▸ h.phase i

theorem stay (hp : p.phase = (s.pc i).phase) (hr : ∀ v, p.readers = some v → t.readers = v) :
    Refines (s.goto i p) t where
  phase j := (h.phase j).trans (update_congr hp j).symm
  lock    := h.lock
  token   := h.token
  channel := h.channel
  loaded  := forall_update (P := fun p : Pc => ∀ v, p.readers = some v → t.readers = v) hr
    fun j _ => h.loaded j
  inv     := h.inv

-- The number is the same as before, or nobody has known it.
theorem go {b : Bool} {r : Option ℤ} (hr : (ReaderGroup.machine (Fin n)).Run t ls t')
    (hp : t'.phase = update t.phase i p.phase) (hl : t'.lock = r.isNone) (ht : t'.token = !b)
    (hv : t'.readers = t.readers ∨ t.lock = false) (hc : ∀ w, r = some w → t'.readers = w)
    (ho : ∀ w, p.readers = some w → t'.readers = w) :
    ∃ t' ls, (ReaderGroup.machine (Fin n)).Run t ls t' ∧
      Refines ({ s with writer := b, readers := r }.goto i p) t' := by
  refine ⟨_, _, hr, ?_⟩
  constructor
  case phase   => exact hp ▸ map_update h.phase
  case lock    => exact hl
  case token   => exact ht
  case channel => exact hc
  case inv     => exact hr.invariant h.inv fun _ _ _ inv hs => inv.step hs
  case loaded =>
    refine forall_update (P := fun p : Pc => ∀ w, p.readers = some w → t'.readers = w) ho
      fun j _ w hw => ?_
    cases hv
    case inl hv => exact hv.trans (h.loaded j w hw)
    case inr hv =>
      have hn := h.inv.lock.not_of_free (by simp [hv]) j
      rw [h.phase] at hn
      exact absurd (Pc.hasLock_of_readers hw) hn

theorem loaded_of (hi : s.pc i = p) (hp : p.readers = some v) : t.readers = v :=
  h.loaded i v (hi ▸ hp)

theorem step (hs : Step s s') :
    ∃ t' ls, (ReaderGroup.machine (Fin n)).Run t ls t' ∧ Refines s' t' := by
  have hl := h.lock
  have ht := h.token
  cases hs
  case readerLock hp | writerLock hp | reading hp | writing hp =>
    exact ⟨t, [], .refl, h.stay (by rw [hp]; rfl) (by simp [Pc.readers])⟩
  case first hp hv | notFirst hp hv | last hp hv | notLast hp hv =>
    refine ⟨t, [], .refl, h.stay (by simp [hp, hv, Pc.phase]) fun w hw => ?_⟩
    exact h.loaded_of hp hw
  case receiveWriter i v hp hw =>
    have hf : t.token = false := by simp [ht, hw]
    have hg : (ReaderGroup.machine (Fin n)).step t (.takeToken i) = some _ := if_pos ⟨h.phase_of hp, hf⟩
    exact h.go (.single hg) rfl hl rfl (.inl rfl) h.channel fun w hw => h.loaded_of hp hw
  case sendIn i v hp hr =>
    have hg : (ReaderGroup.machine (Fin n)).step t (.enter i) = some _ := if_pos (h.phase_of hp)
    exact h.go (.single hg) rfl rfl ht (.inl rfl) (fun w hw => h.loaded_of hp hw)
      (by simp [Pc.readers])
  case sendWriter i v hp hw =>
    have hg : (ReaderGroup.machine (Fin n)).step t (.giveToken i) = some _ := if_pos (h.phase_of hp)
    exact h.go (.single hg) rfl hl rfl (.inl rfl) h.channel fun w hw => h.loaded_of hp hw
  case sendOut i v hp hr =>
    have hg : (ReaderGroup.machine (Fin n)).step t (.leave i) = some _ := if_pos (h.phase_of hp)
    exact h.go (.single hg) rfl rfl ht (.inl rfl) (fun w hw => h.loaded_of hp hw)
      (by simp [Pc.readers])
  case writerReceive i hp hw =>
    have hf : t.token = false := by simp [ht, hw]
    have hg : (ReaderGroup.machine (Fin n)).step t (.write i) = some _ := if_pos ⟨h.phase_of hp, hf⟩
    exact h.go (.single hg) rfl hl rfl (.inl rfl) h.channel (by simp [Pc.readers])
  case writerSend i hp hw =>
    have hg : (ReaderGroup.machine (Fin n)).step t (.endWrite i) = some _ := if_pos (h.phase_of hp)
    exact h.go (.single hg) rfl hl rfl (.inl rfl) h.channel (by simp [Pc.readers])
  -- The goroutine takes the lock and changes the number at once.
  case receiveIn i v hp hr =>
    have hf : t.lock = false := by simp [hl, hr]
    have hv := h.channel v hr
    have hg : (ReaderGroup.machine (Fin n)).step t (.start i) =
        some ({ t with lock := true }.goto i .counting) := if_pos ⟨h.phase_of hp, hf⟩
    have hn : (ReaderGroup.machine (Fin n)).step ({ t with lock := true }.goto i .counting)
        (.count i) = some _ := if_pos (update_self ..)
    refine h.go (.step hg (.single hn)) ?_ rfl ht (.inr hf) (by simp) ?_
    · simp [ReaderGroup.State.goto, Pc.phase, hv]
    · simp [ReaderGroup.State.goto, Pc.readers, hv]
  case receiveOut i v hp hr =>
    have hf : t.lock = false := by simp [hl, hr]
    have hv := h.channel v hr
    have hg : (ReaderGroup.machine (Fin n)).step t (.finish i) =
        some ({ t with lock := true }.goto i .leaving) := if_pos ⟨h.phase_of hp, hf⟩
    have hn : (ReaderGroup.machine (Fin n)).step ({ t with lock := true }.goto i .leaving)
        (.discount i) = some _ := if_pos (update_self ..)
    refine h.go (.step hg (.single hn)) ?_ rfl ht (.inr hf) (by simp) ?_
    · simp [ReaderGroup.State.goto, Pc.phase, hv, sub_eq_zero]
    · simp [ReaderGroup.State.goto, Pc.readers, hv]

end Refines

-- The program refines the readers and writers.
theorem refines_of_reachable (r : (machine n).Reachable s) :
    ∃ t, (ReaderGroup.machine (Fin n)).Reachable t ∧ Refines s t := by
  refine r.invariant
    (I := fun s => ∃ t, (ReaderGroup.machine (Fin n)).Reachable t ∧ Refines s t) ?init ?step
  case init =>
    intro s hs
    obtain rfl := hs
    exact ⟨_, .init rfl, .init⟩
  case step =>
    intro s₁ l s₂ _ h hs
    have ⟨t, rt, h⟩ := h
    have ⟨t', ls, hr, h⟩ := h.step (.of_step hs)
    exact ⟨t', hr.reachable rt, h⟩

end ChannelRwLock
