import Concurrencia.Channels.Mutex.Basic
import Concurrencia.Threads.Basic
import Mathlib.Tactic.SplitIfs

open Function Threads

-- What the goroutines of a mutex stand for. It is the same whether the element which they send and
-- receive waits in a buffer or a goroutine keeps it for them.
namespace ChannelMutex

open LockCalls (Phase)

namespace Goroutine

variable {g : Goroutine}

-- The goroutine has the element of the channel.
def HasElement (g : Goroutine) : Prop :=
  g.pc = .lockReturn ∨ g.pc = .send ∨ g.held = true

instance : DecidablePred HasElement :=
  fun g => inferInstanceAs <| Decidable (g.pc = .lockReturn ∨ g.pc = .send ∨ g.held = true)

-- It never has two of them.
def Valid (g : Goroutine) : Prop :=
  g.pc = .lockReturn ∨ g.pc = .send → g.held = false

def phase (g : Goroutine) : Phase :=
  match g.pc with
  | .idle                 => .idle
  | .receive | .lockReturn => .locking
  | .send | .unlockReturn => .unlocking

end Goroutine

variable {n : ℕ} {g : Fin n → Goroutine} {t : LockCalls.State (Fin n)} {i j : Fin n} {b : Bool}
variable {l m : Prop} {x : Goroutine}

structure Represents (g : Fin n → Goroutine) (taken : Prop) (t : LockCalls.State (Fin n)) : Prop where
  phase   : ∀ i, t.phase i = (g i).phase
  owner   : ∀ i, t.owner = some i ↔ (g i).held = true
  valid   : ∀ i, (g i).Valid
  element : Owned g Goroutine.HasElement taken

namespace Represents

theorem init (hl : ¬l) : Represents (fun _ : Fin n => ⟨.idle, false⟩) l LockCalls.init where
  phase _ := rfl
  owner _ := by simp [LockCalls.init]
  valid _ := fun _ => rfl
  element := ⟨⟨by simp [Goroutine.HasElement], by simp [Goroutine.HasElement]⟩, fun h => absurd h hl⟩

variable (h : Represents g l t)
include h

theorem alone (hi : (g i).HasElement) (hj : (g j).HasElement) : i = j :=
  h.element.unique hi hj

theorem owner_none (hi : (g i).HasElement) (hn : (g i).held = false) : t.owner = none := by
  cases ho : t.owner
  case none => rfl
  case some j =>
    have hj := (h.owner j).mp ho
    cases h.alone hi (.inr (.inr hj))
    simp [hn] at hj

-- A step within a call.
theorem silent (hx : x.phase = (g i).phase) (hh : x.held = (g i).held) (hv : x.Valid)
    (he : Owned (update g i x) Goroutine.HasElement m) : Represents (update g i x) m t where
  phase   := fun j => (h.phase j).trans (update_congr hx j).symm
  owner j := (h.owner j).trans (by rw [update_congr (g := Goroutine.held) hh])
  valid   := forall_update hv fun j _ => h.valid j
  element := he

theorem move (hh : x.held = (g i).held) (hv : x.Valid) (he : x.HasElement ↔ (g i).HasElement) :
    Represents (update g i x) l { t with phase := update t.phase i x.phase } where
  phase   := fun j => map_update h.phase j
  owner j := (h.owner j).trans (by rw [update_congr (g := Goroutine.held) hh])
  valid   := forall_update hv fun j _ => h.valid j
  element := h.element.keep he

theorem lock (hi : (g i).pc = .idle) :
    Represents (update g i ⟨.receive, (g i).held⟩) l
      { t with phase := update t.phase i .locking } :=
  h.move (x := ⟨.receive, (g i).held⟩) rfl (by simp [Goroutine.Valid])
    (by simp [Goroutine.HasElement, hi])

theorem unlockReturn (hi : (g i).pc = .unlockReturn) :
    Represents (update g i ⟨.idle, (g i).held⟩) l { t with phase := update t.phase i .idle } :=
  h.move (x := ⟨.idle, (g i).held⟩) rfl (by simp [Goroutine.Valid])
    (by simp [Goroutine.HasElement, hi])

theorem unlock (hi : g i = ⟨.idle, true⟩) :
    Represents (update g i ⟨.send, false⟩) l ⟨update t.phase i .unlocking, none⟩ where
  phase   := fun j => map_update (p := (⟨.send, false⟩ : Goroutine)) h.phase j
  owner j := by
    have hn := h.element.toExclusive
    by_cases hj : j = i
    case pos => simp [hj]
    case neg =>
      have he := hn.not_of_ne (i := i) (by simp [hi, Goroutine.HasElement]) hj
      have hf : ¬(g j).held = true := fun hf => he (.inr (.inr hf))
      simp [hj, hf]
  valid   := forall_update (fun _ => rfl) fun j _ => h.valid j
  element := h.element.keep (by simp [hi, Goroutine.HasElement])

theorem lockReturn (hi : (g i).pc = .lockReturn) :
    t.owner = none ∧ Represents (update g i ⟨.idle, true⟩) l ⟨update t.phase i .idle, some i⟩ := by
  have hn := h.valid i (.inl hi)
  refine ⟨h.owner_none (.inl hi) hn, ?_⟩
  constructor
  case phase   => exact fun j => map_update (p := (⟨.idle, true⟩ : Goroutine)) h.phase j
  case valid   => exact forall_update (by simp [Goroutine.Valid]) fun j _ => h.valid j
  case element => exact h.element.keep (by simp [hi, Goroutine.HasElement])
  case owner =>
    intro j
    by_cases hj : j = i
    case pos => simp [hj]
    case neg =>
      have he := h.element.toExclusive.not_of_ne (.inl hi) hj
      have hf : ¬(g j).held = true := fun hf => he (.inr (.inr hf))
      simp [hj, hf, Ne.symm hj]

theorem not_held (hl : ¬l) (i : Fin n) : (g i).held = false :=
  Bool.eq_false_iff.mpr fun hh => h.element.not_of_free hl i (.inr (.inr hh))

theorem receive (hl : ¬l) (hm : m) (hi : (g i).pc = .receive) :
    Represents (update g i ⟨.lockReturn, (g i).held⟩) m t := by
  apply h.silent
  case hx => simp [Goroutine.phase, hi]
  case hh => rfl
  case hv => exact fun _ => h.not_held hl i
  case he => exact h.element.take hl (.inl rfl) hm

theorem send (hm : ¬m) (hi : (g i).pc = .send) :
    Represents (update g i ⟨.unlockReturn, (g i).held⟩) m t := by
  have hn := h.valid i (.inr hi)
  apply h.silent
  case hx => simp [Goroutine.phase, hi]
  case hh => rfl
  case hv => simp [Goroutine.Valid]
  case he => exact h.element.free (.inr (.inl hi)) (by simp [Goroutine.HasElement, hn]) hm

-- The element goes from an `Unlock` to a `Lock`.
theorem pass (hl : l) (hi : (g i).pc = .send) (hj : (g j).pc = .receive) :
    Represents (update (update g i ⟨.unlockReturn, (g i).held⟩) j ⟨.lockReturn, (g j).held⟩) l t := by
  have hn : j ≠ i := fun hn => by simp [hn, hi] at hj
  have hf := h.send (m := False) id hi
  simpa [hn] using hf.receive (i := j) id hl (by simpa [hn])

end Represents

-- A goroutine which is in a call of `Lock` has not received yet, and one in a call of `Unlock` has
-- sent already.
def restPc : Phase → Pc
  | .idle      => .idle
  | .locking   => .receive
  | .unlocking => .unlockReturn

def rest (t : LockCalls.State (Fin n)) (i : Fin n) : Goroutine where
  pc   := restPc (t.phase i)
  held := t.owner = some i

theorem rest_pc {p : Phase} (hp : t.phase i = p) : (rest t i).pc = restPc p :=
  congrArg restPc hp

theorem rest_eq (hp : t.phase i = .idle) (ho : t.owner = some i) : rest t i = ⟨.idle, true⟩ := by
  simp [rest, restPc, hp, ho]

-- The changes of `t` which leave the other goroutines alone.
theorem rest_update {p : Phase} {o : Option (Fin n)}
    (ho : ∀ j ≠ i, o = some j ↔ t.owner = some j) :
    rest ⟨update t.phase i p, o⟩ = update (rest t) i ⟨restPc p, o = some i⟩ := by
  ext1 j
  by_cases hj : j = i
  case pos => simp [rest, hj]
  case neg => simp [rest, hj, ho j hj]

theorem rest_callLock : rest { t with phase := update t.phase i .locking } =
    update (rest t) i ⟨.receive, (rest t i).held⟩ :=
  rest_update fun _ _ => Iff.rfl

theorem rest_returnUnlock : rest { t with phase := update t.phase i .idle } =
    update (rest t) i ⟨.idle, (rest t i).held⟩ :=
  rest_update fun _ _ => Iff.rfl

theorem rest_returnLock (ho : t.owner = none) :
    rest ⟨update t.phase i .idle, some i⟩ = update (rest t) i ⟨.idle, true⟩ := by
  rw [rest_update (by simp +contextual [ho, ne_comm])]
  simp [restPc]

theorem rest_callUnlock (ho : t.owner = some i) :
    rest ⟨update t.phase i .unlocking, none⟩ = update (rest t) i ⟨.unlockReturn, false⟩ := by
  rw [rest_update (by simp +contextual [ho, ne_comm])]
  simp [restPc]

end ChannelMutex
