import Concurrencia.Channels.Semaphore2.Theorems.Tokens

open Function Threads

namespace ChannelSemaphore2

open CountingSemaphore (Event waits signals)

variable {n t u : ℕ} {v x : ℤ} {s s' : State n} {i j : Fin n} {l : Label n} {p : Pc}

-- The permits which are left: a `Wait` has its permit from its decrement to its end.
structure Permits (s : State n) (x : ℤ) (t : ℕ) : Prop extends Inv s x where
  permits : (t : ℤ) = x + count s.pc Pc.Decremented

namespace Permits

theorem committed_le : count s.pc Pc.Committed ≤ count s.pc Pc.Decremented := by
  apply count_mono
  intro p hp
  cases p
  case sendDecremented | receiveQueue => trivial
  all_goals exact absurd hp id

theorem init : Permits (newSemaphore n v) (if v < 0 then 0 else v) v.toNat where
  toInv   := .init
  permits := by
    have hd (i : Fin n) : ¬((newSemaphore n v).pc i).Decremented := id
    rw [count_eq_zero hd]
    split_ifs
    all_goals omega

variable (h : Permits s x t)
include h

theorem stay (hs : Step s l s') (he : permitEvent s l = none)
    (hd : after s x l + count s'.pc Pc.Decremented = x + count s.pc Pc.Decremented) :
    ∃ t', (CountingSemaphore.machine (Fin n) u).Run t (permitEvent s l).toList t' ∧
      Permits s' (after s x l) t' := by
  rw [he]
  refine ⟨t, .refl, h.step hs, ?_⟩
  have := h.permits
  omega

-- There is a permit left for the goroutine.
theorem take (hs : Step s l s') (he : permitEvent s l = some (.wait i))
    (hd : after s x l + count s'.pc Pc.Decremented + 1 = x + count s.pc Pc.Decremented)
    (hp : 0 < x + count s.pc Pc.Decremented) :
    ∃ t', (CountingSemaphore.machine (Fin n) u).Run t (permitEvent s l).toList t' ∧
      Permits s' (after s x l) t' := by
  rw [he]
  have ht := h.permits
  obtain ⟨t, rfl⟩ : ∃ t', t = t' + 1 := Nat.exists_eq_succ_of_ne_zero (by omega)
  refine CountingSemaphore.run_of_step ⟨t, .wait, h.step hs, ?_⟩
  omega

theorem step (hs : Step s l s') :
    ∃ t', (CountingSemaphore.machine (Fin n) u).Run t (permitEvent s l).toList t' ∧
      Permits s' (after s x l) t' := by
  cases id hs
  case decrement i v hp hv =>
    have hc := count_enter (f := s.pc) (i := i) (P := Pc.Decremented)
      (p := .sendDecremented (v - 1)) (by simp [hp, Pc.Decremented]) trivial
    refine h.stay hs (by simp [permitEvent, hp]) ?_
    simp only [after, hp, State.goto_pc, hc]
    omega
  case increment i v hp hv =>
    have hc := count_keep (f := s.pc) (i := i) (P := Pc.Decremented)
      (p := .sendIncremented (v + 1)) (by simp [hp, Pc.Decremented])
    have he : permitEvent s (.goroutine i) = some (.signal i) := by simp [permitEvent, hp]
    have ht := h.permits
    rw [he]
    refine CountingSemaphore.run_of_step ⟨_, .signal, h.toInv.step hs, ?_⟩
    simp only [after, hp, State.goto_pc, hc]
    omega
  case sendPermit i v hp _ hn =>
    have hv : v = x := h.fits_of hp
    have hi : (s.pc i).Decremented := by simp [hp, Pc.Decremented]
    have hc := count_leave (f := s.pc) (P := Pc.Decremented) (p := .waitReturn) hi id
    refine h.take (i := i) hs (by simp [permitEvent, hp, hn]) ?_ (by omega)
    simp only [after, hp, State.goto_pc]
    omega
  case receiveQueue i hp hq =>
    have hi : (s.pc i).Decremented := by simp [hp, Pc.Decremented]
    have hc := count_leave (f := s.pc) (P := Pc.Decremented) (p := .waitReturn) hi id
    have ht := h.tokens
    have hl := committed_le (s := s)
    rw [hq, Bool.toNat_true] at ht
    refine h.take (i := i) hs (by simp [permitEvent, hp]) ?_ (by omega)
    simp only [after, hp, State.goto_pc]
    omega
  case sendNegative i v hp _ hn =>
    refine h.stay hs (by simp [permitEvent, hp, hn]) ?_
    rw [State.goto_pc, count_keep (by simp [hp, Pc.Decremented])]
    simp [after, hp]
  case sendOwed i v hp _ _ | sendFree i v hp _ _ =>
    refine h.stay hs (by simp [permitEvent, hp]) ?_
    rw [State.goto_pc, count_keep (by simp [hp, Pc.Decremented])]
    simp [after, hp]
  case sendQueue i hp _ =>
    refine h.stay hs (by simp [permitEvent, hp]) ?_
    rw [State.goto_pc, count_keep (by simp [hp, Pc.Decremented])]
    simp [after, hp]
  case wait i hp | signal i hp | waitReturn i hp | signalReturn i hp =>
    refine h.stay hs (by simp [permitEvent, hp]) ?_
    rw [State.goto_pc, count_keep (by simp [hp, Pc.Decremented])]
    simp [after, hp]

end Permits

-- Can go on with its call.
def Moves (s : State n) (i : Fin n) : Prop :=
  s.pc i ≠ .idle ∧ (step s (.goroutine i)).isSome

theorem moves_of (hp : s.pc i = p) (hn : p ≠ .idle) (h : (goroutineStep s i).isSome) : Moves s i :=
  ⟨by rwa [hp], h⟩

theorem Inv.committed_of_full (inv : Inv s x) (hq : s.queue = true) :
    ∃ i, (s.pc i).Committed := by
  have ht := inv.tokens
  rw [hq, Bool.toNat_true] at ht
  exact exists_of_count_pos (by omega)

-- Whoever has the value can send it.
theorem Inv.moves_of_hasValue (inv : Inv s x) (hi : (s.pc i).HasValue) : Moves s i := by
  have hv := inv.owned.locked hi
  cases hp : s.pc i <;> rw [hp] at hi
  case sendDecremented | sendIncremented =>
    exact moves_of hp (by simp) (by simp [goroutineStep, sendValue, hp, hv])
  all_goals exact absurd hi id

theorem Inv.live (inv : Inv s x) (hi : s.pc i ≠ .idle) (hq : s.pc i ≠ .receiveQueue) :
    ∃ j, Moves s j := by
  cases hv : s.value
  case none =>
    obtain ⟨j, hj⟩ := inv.owned.owner hv
    exact ⟨j, inv.moves_of_hasValue hj⟩
  case some v =>
    cases hp : s.pc i
    case idle         => exact absurd hp hi
    case receiveQueue => exact absurd hp hq
    case receiveDecrement | receiveIncrement =>
      exact ⟨i, moves_of hp (by simp) (by simp [goroutineStep, receiveValue, hp, hv])⟩
    case waitReturn | signalReturn =>
      exact ⟨i, moves_of hp (by simp) (by simp [goroutineStep, hp])⟩
    case sendDecremented | sendIncremented =>
      exact ⟨i, inv.moves_of_hasValue (by simp [hp, Pc.HasValue])⟩
    case sendQueue =>
      cases hq : s.queue
      case false => exact ⟨i, moves_of hp (by simp) (by simp [goroutineStep, hp, hq])⟩
      case true =>
        obtain ⟨j, hj⟩ := inv.committed_of_full hq
        have hn := inv.not_hasValue hv j
        cases hp : s.pc j <;> rw [hp] at hj hn
        case receiveQueue =>
          exact ⟨j, moves_of hp (by simp) (by simp [goroutineStep, hp, hq])⟩
        case sendDecremented => exact absurd trivial hn
        all_goals exact absurd hj id

end ChannelSemaphore2
