import Concurrencia.Channels.Semaphore.Theorems.Calls
import Concurrencia.Channels.Semaphore2.Theorems.Tokens

open Function Threads

namespace ChannelSemaphore2

open SemaphoreCalls (Phase)

namespace Pc

def phase : Pc → Phase
  | idle                                                             => .idle
  | receiveDecrement | sendDecremented _ | receiveQueue | waitReturn => .waiting
  | receiveIncrement | sendIncremented _ | sendQueue | signalReturn  => .signalling

-- The value has been decremented and the call has not returned, or the call will increment it: for
-- the caller there is one permit more than the value says.
def Hidden (p : Pc) : Prop :=
  p.Decremented ∨ p = waitReturn ∨ p = receiveIncrement

instance : DecidablePred Hidden :=
  fun _ => inferInstanceAs <| Decidable (_ ∨ _)

end Pc

variable {n k : ℕ} {v x : ℤ} {s s' : State n} {t t' : SemaphoreCalls.State (Fin n)} {i : Fin n}
variable {l : Label n} {e : SemaphoreCalls.Event (Fin n)} {p : Pc}

structure Refines (s : State n) (x : ℤ) (t : SemaphoreCalls.State (Fin n)) : Prop
    extends Inv s x where
  phase   : ∀ i, t.phase i = (s.pc i).phase
  permits : (t.permits : ℤ) = x + count s.pc Pc.Hidden

namespace Refines

theorem init : Refines (newSemaphore n v) (if v < 0 then 0 else v)
    (SemaphoreCalls.init v.toNat) where
  toInv   := .init
  phase _ := rfl
  permits := by
    have hd (i : Fin n) : ¬((newSemaphore n v).pc i).Hidden := by
      simp [newSemaphore, Pc.Hidden, Pc.Decremented]
    rw [count_eq_zero hd, SemaphoreCalls.init]
    split_ifs
    all_goals
      dsimp only
      omega

variable (h : Refines s x t)
include h

theorem phase_eq (hp : s.pc i = p) : t.phase i = p.phase :=
  hp ▸ h.phase i

theorem phase_update (p : Pc) (j : Fin n) :
    update t.phase i p.phase j = (update s.pc i p j).phase :=
  map_update h.phase j

-- A step in the middle of a call.
theorem silent (hs : Step s l s') (he : callEvent s l = none) (hp : s'.pc = update s.pc i p)
    (hf : p.phase = (s.pc i).phase)
    (hc : after s x l + count (update s.pc i p) Pc.Hidden = x + count s.pc Pc.Hidden) :
    ∃ t', (SemaphoreCalls.machine (Fin n) k).Trace Machine.label t (callEvent s l).toList t' ∧
      ∃ x', Refines s' x' t' := by
  rw [he]
  refine ⟨t, .refl, after s x l, h.step hs, ?_, ?_⟩
  · intro j
    rw [hp]
    exact (h.phase j).trans (update_congr hf j).symm
  · rw [hp, hc]
    exact h.permits

omit h in
theorem committed_le (f : Fin n → Pc) : count f Pc.Committed ≤ count f Pc.Hidden := by
  apply count_mono
  intro p hp
  cases p
  case sendDecremented | receiveQueue => exact .inl trivial
  all_goals exact absurd hp id

-- There is a permit for a call which is about to return.
theorem permits_returnWait (hp : s.pc i = .waitReturn) :
    (t.permits : ℤ) = x + count (update s.pc i .idle) Pc.Hidden + 1 ∧ 0 < t.permits := by
  have hk := h.permits
  have ht := h.tokens
  have hc := committed_le (update s.pc i .idle)
  have hl := count_leave (f := s.pc) (i := i) (P := Pc.Hidden) (p := .idle)
    (by simp [hp, Pc.Hidden]) (by simp [Pc.Hidden, Pc.Decremented])
  rw [count_keep (by simp [hp, Pc.Committed])] at hc
  omega

theorem step (hs : Step s l s') :
    ∃ t', (SemaphoreCalls.machine (Fin n) k).Trace Machine.label t (callEvent s l).toList t' ∧
      ∃ x', Refines s' x' t' := by
  have hk := h.permits
  cases id hs
  case wait i hp =>
    refine ⟨_, SemaphoreCalls.trace_callWait (h.phase_eq hp), x, h.toInv.step hs,
      h.phase_update .receiveDecrement, ?_⟩
    rw [State.goto_pc, count_keep (by simp [hp, Pc.Hidden, Pc.Decremented])]
    exact hk
  case signal i hp =>
    have hc := count_enter (f := s.pc) (i := i) (P := Pc.Hidden) (p := .receiveIncrement)
      (by simp [hp, Pc.Hidden, Pc.Decremented]) (by simp [Pc.Hidden])
    refine ⟨_, SemaphoreCalls.trace_callSignal (h.phase_eq hp), x, h.toInv.step hs,
      h.phase_update .receiveIncrement, ?_⟩
    rw [State.goto_pc, hc]
    push_cast
    omega
  case waitReturn i hp =>
    have he : callEvent s (.goroutine i) = some (.returnWait i) := by simp [callEvent, hp]
    obtain ⟨hc, hn⟩ := h.permits_returnWait hp
    have ha : after s x (.goroutine i) = x := by simp [after, hp]
    obtain ⟨k, hk'⟩ : ∃ k, t.permits = k + 1 := Nat.exists_eq_succ_of_ne_zero hn.ne'
    rw [he]
    refine ⟨_, SemaphoreCalls.trace_returnWait (h.phase_eq hp) hk', x, ha ▸ h.toInv.step hs,
      h.phase_update .idle, ?_⟩
    rw [State.goto_pc]
    dsimp only
    omega
  case signalReturn i hp =>
    have he : callEvent s (.goroutine i) = some (.returnSignal i) := by simp [callEvent, hp]
    have ha : after s x (.goroutine i) = x := by simp [after, hp]
    rw [he]
    refine ⟨_, SemaphoreCalls.trace_returnSignal (h.phase_eq hp), x, ha ▸ h.toInv.step hs,
      h.phase_update .idle, ?_⟩
    rw [State.goto_pc, count_keep (by simp [hp, Pc.Hidden, Pc.Decremented])]
    exact hk
  case decrement i v hp _ =>
    have hc := count_enter (f := s.pc) (i := i) (P := Pc.Hidden) (p := .sendDecremented (v - 1))
      (by simp [hp, Pc.Hidden, Pc.Decremented]) (.inl trivial)
    refine h.silent hs (by simp [callEvent, hp]) rfl (by rw [hp]; rfl) ?_
    simp only [after, hp, hc]
    omega
  case increment i v hp _ =>
    have hc := count_leave (f := s.pc) (i := i) (P := Pc.Hidden) (p := .sendIncremented (v + 1))
      (by simp [hp, Pc.Hidden]) (by simp [Pc.Hidden, Pc.Decremented])
    refine h.silent hs (by simp [callEvent, hp]) rfl (by rw [hp]; rfl) ?_
    simp only [after, hp]
    omega
  case sendNegative i v hp _ _ | sendPermit i v hp _ _ =>
    refine h.silent hs (by simp [callEvent, hp]) rfl (by rw [hp]; rfl) ?_
    rw [count_keep (by simp [hp, Pc.Hidden, Pc.Decremented])]
    simp [after, hp]
  case sendOwed i v hp _ _ | sendFree i v hp _ _ =>
    refine h.silent hs (by simp [callEvent, hp]) rfl (by rw [hp]; rfl) ?_
    rw [count_keep (by simp [hp, Pc.Hidden, Pc.Decremented])]
    simp [after, hp]
  case receiveQueue i hp _ | sendQueue i hp _ =>
    refine h.silent hs (by simp [callEvent, hp]) rfl (by rw [hp]; rfl) ?_
    rw [count_keep (by simp [hp, Pc.Hidden, Pc.Decremented])]
    simp [after, hp]

end Refines

theorem refines : Machine.Simulation (machine n v) callEvent
    (SemaphoreCalls.machine (Fin n) v.toNat) Machine.label fun s t => ∃ x, Refines s x t where
  init h := by
    obtain rfl := h
    exact ⟨_, rfl, _, .init⟩
  step hr hs := by
    obtain ⟨x, hr⟩ := hr
    exact hr.step (.of_step hs)

-- A goroutine which has been called waits in front of its first receive, or it has incremented the
-- value already. The value is never negative then, and so nobody needs `queue`.
def rest (t : SemaphoreCalls.State (Fin n)) : State n where
  pc i :=
    match t.phase i with
    | .idle       => .idle
    | .waiting    => .receiveDecrement
    | .signalling => .signalReturn
  value := some t.permits
  queue := false

theorem rest_update {f : Phase} (hp : ((rest ⟨fun _ => f, k⟩ : State n)).pc i = p) :
    { rest t with value := some (k : ℤ) }.goto i p = rest ⟨update t.phase i f, k⟩ := by
  subst hp
  simp only [State.goto, rest, State.mk.injEq, and_true]
  ext1 j
  by_cases hj : j = i
  case pos => simp [hj]
  case neg => simp [hj]

section Rest

variable {y : State n}

theorem trace_decrement (hp : y.pc i = .receiveDecrement) (hv : y.value = some ((k + 1 : ℕ) : ℤ)) :
    (machine n v).Trace callEvent y [] ({ y with value := some (k : ℤ) }.goto i .waitReturn) := by
  have hr : (machine n v).step y (.goroutine i) =
      some ({ y with value := none }.goto i (.sendDecremented k)) := by
    simp [machine, step, goroutineStep, receiveValue, hp, hv]
  have hk : ¬(k : ℤ) < 0 := by omega
  have hs : (machine n v).step ({ y with value := none }.goto i (.sendDecremented k))
      (.goroutine i) = some ({ y with value := some (k : ℤ) }.goto i .waitReturn) := by
    simp [machine, step, goroutineStep, sendValue, State.goto, hk]
  exact .silent hr (by simp [callEvent, hp]) (.silent hs (by simp [callEvent]) .refl)

theorem trace_increment (hp : y.pc i = .receiveIncrement) (hv : y.value = some (k : ℤ)) :
    (machine n v).Trace callEvent y []
      ({ y with value := some ((k + 1 : ℕ) : ℤ) }.goto i .signalReturn) := by
  have hr : (machine n v).step y (.goroutine i) =
      some ({ y with value := none }.goto i (.sendIncremented (k + 1))) := by
    simp [machine, step, goroutineStep, receiveValue, hp, hv]
  have hk : ¬(k : ℤ) + 1 ≤ 0 := by omega
  have hs : (machine n v).step ({ y with value := none }.goto i (.sendIncremented (k + 1)))
      (.goroutine i) = some ({ y with value := some ((k + 1 : ℕ) : ℤ) }.goto i .signalReturn) := by
    simp [machine, step, goroutineStep, sendValue, State.goto, hk]
  exact .silent hr (by simp [callEvent, hp]) (.silent hs (by simp [callEvent]) .refl)

theorem trace_waitReturn (hp : y.pc i = .waitReturn) :
    (machine n v).Trace callEvent y [.returnWait i] (y.goto i .idle) := by
  have hs : (machine n v).step y (.goroutine i) = some (y.goto i .idle) := by
    simp [machine, step, goroutineStep, hp]
  exact .visible hs (by simp [callEvent, hp])

theorem trace_signalReturn (hp : y.pc i = .signalReturn) :
    (machine n v).Trace callEvent y [.returnSignal i] (y.goto i .idle) := by
  have hs : (machine n v).step y (.goroutine i) = some (y.goto i .idle) := by
    simp [machine, step, goroutineStep, hp]
  exact .visible hs (by simp [callEvent, hp])

end Rest

theorem rest_step (ht : SemaphoreCalls.step t e = some t') :
    (machine n v).Trace callEvent (rest t) [e] (rest t') := by
  cases e <;> simp only [SemaphoreCalls.step, Option.ite_none_right_eq_some,
    Option.some.injEq] at ht
  case callWait i =>
    obtain ⟨hp, rfl⟩ := ht
    have hs : (machine n v).step (rest t) (.wait i) = some ((rest t).goto i .receiveDecrement) :=
      if_pos (by simp [rest, hp])
    rw [← rest_update (p := .receiveDecrement) rfl]
    exact .single hs
  case callSignal i =>
    obtain ⟨hp, rfl⟩ := ht
    have hs : (machine n v).step (rest t) (.signal i) = some ((rest t).goto i .receiveIncrement) :=
      if_pos (by simp [rest, hp])
    have hr := trace_increment (v := v) (y := (rest t).goto i .receiveIncrement) (i := i)
      (k := t.permits) (by simp) rfl
    rw [← rest_update (p := .signalReturn) rfl]
    refine .step hs ?_
    simpa [State.goto] using hr
  case returnWait i =>
    obtain ⟨⟨hp, hk⟩, rfl⟩ := ht
    have hv : (rest t).value = some ((t.permits - 1 + 1 : ℕ) : ℤ) := by
      rw [Nat.sub_add_cancel hk, rest]
    have hr := trace_decrement (v := v) (y := rest t) (i := i) (by simp [rest, hp]) hv
    have hg := trace_waitReturn (v := v) (i := i)
      (y := { rest t with value := some ((t.permits - 1 : ℕ) : ℤ) }.goto i .waitReturn) (by simp)
    rw [← rest_update (p := .idle) rfl]
    simpa [State.goto] using hr.trans hg
  case returnSignal i =>
    obtain ⟨hp, rfl⟩ := ht
    rw [← rest_update (p := .idle) rfl]
    exact trace_signalReturn (by simp [rest, hp])

theorem implements : Machine.Simulation (SemaphoreCalls.machine (Fin n) v.toNat) Machine.label
    (machine n v) callEvent fun t s => s = rest t := by
  refine .of_map (fun h => ?_) rest_step
  obtain rfl := h
  have hv : ((v.toNat : ℕ) : ℤ) = if v < 0 then 0 else v := by
    split_ifs
    all_goals omega
  simp [machine, newSemaphore, rest, SemaphoreCalls.init, hv]

open SemaphoreCalls in
-- The two semaphores have the same histories, as long as the channel of the first has room for the
-- permits.
theorem histories_agree (hv : v ≤ 256) {h : List (Event (Fin n))}
    (hb : ∀ h', h' <+: h → max v 0 + h'.countP Event.isCallSignal -
      (h'.countP Event.isReturnWait : ℤ) ≤ 256) :
    (ChannelSemaphore.machine n v).History ChannelSemaphore.callEvent h ↔
      (machine n v).History callEvent h := by
  constructor
  case mp => exact fun hh => implements.history (ChannelSemaphore.refines.history hh)
  case mpr =>
    intro hh
    have ⟨s, t, hs, r⟩ := Machine.history_label.mp (refines.history hh)
    obtain rfl := hs
    have hp (l : List (Event (Fin n))) (u : SemaphoreCalls.State (Fin n)) (hl : l <+: h)
        (r : (SemaphoreCalls.machine (Fin n) v.toNat).Run (SemaphoreCalls.init v.toNat) l u) :
        u.permits ≤ ChannelSemaphore.max := by
      have hk := permits_of_run r
      have := hb l hl
      simp only [SemaphoreCalls.init, ChannelSemaphore.max] at hk ⊢
      omega
    have hi : v.toNat ≤ ChannelSemaphore.max := hp [] _ h.nil_prefix .refl
    exact (ChannelSemaphore.implements hv).history
      (Machine.history_label.mpr ⟨_, t, ⟨rfl, hi⟩, r.within hp⟩)

open SemaphoreCalls in
-- A goroutine waits for a permit, and its call returns after the other one's signal has begun.
theorem histories_agree_two :
    (ChannelSemaphore.machine 2 (-1)).History ChannelSemaphore.callEvent
      [.callWait 0, .callSignal 1, .returnWait 0] ∧
    (machine 2 (-1)).History callEvent [.callWait 0, .callSignal 1, .returnWait 0] := by
  have hs : (machine 2 (-1)).History callEvent [.callWait 0, .callSignal 1, .returnWait 0] := by
    have ⟨s, h⟩ : ∃ s, ((machine 2 (-1)).logging callEvent).exec (newSemaphore 2 (-1), [])
        [.wait 0, .signal 1, .goroutine 1, .goroutine 1, .goroutine 0, .goroutine 0, .goroutine 0] =
        some (s, [.callWait 0, .callSignal 1, .returnWait 0]) := ⟨_, rfl⟩
    exact ⟨s, .of_exec (by exact ⟨rfl, rfl⟩) h⟩
  refine ⟨(histories_agree (by decide) ?_).mpr hs, hs⟩
  intro h' hp
  have hl := hp.length_le
  have := h'.countP_le_length (p := Event.isCallSignal)
  simp only [List.length_cons, List.length_nil] at hl
  omega

end ChannelSemaphore2
