import Concurrencia.Distributed.NeilsenMizuno.Theorems.Guarded
import Concurrencia.Distributed.PathReversal.Theorems.Queue

open Function Distributed PathReversal

namespace NeilsenMizuno

variable {n : ℕ}

namespace Main

-- The node has sent its request and not received the token.
def Waiting : Main n → Prop
  | clearParent | await => True
  | _ => False

-- The node has the token and `holding` does not say so.
def Token : Main n → Prop
  | clearHolding | lockRelease | load | store _ | unlockAcquire => True
  | testDeferred | reply | setHolding => True
  | _ => False

end Main

namespace Receiver

-- The sender of the message, up to the point where it has become the parent.
def held : Receiver n → Option (Fin n)
  | acquire m | testParent m | testHolding m | reply m | clearHolding m => some m.source
  | setDeferred m | forward m | setParent false m => some m.source
  | _ => none

def carried : Receiver n → Option (Fin n)
  | acquire m | testParent m | testHolding m | reply m => some m.originator
  | setDeferred m | forward m => some m.originator
  | _ => none

-- The message has been forwarded, and its sender is to become the parent.
def turned : Receiver n → Option (Fin n)
  | setParent true m => some m.source
  | _ => none

-- The token has been sent, and `holding` is to be cleared.
def Granted : Receiver n → Prop
  | clearHolding _ => True
  | _ => False

end Receiver

-- An assignment to `parent`, `holding` or `deferred` which follows a send directly counts as part
-- of the send.
def State.view (s : State n) : PathReversal.State (Fin n) where
  parent i   := if s.main i = .clearParent then none else (s.receiver i).turned.or (s.parent i)
  held i     := (s.receiver i).held
  carried i  := (s.receiver i).carried
  deferred i := if s.main i = .clearDeferred then none else s.deferred i
  waiting i  := (s.main i).Waiting
  token i    := (s.main i).Token ∨ s.holding i = true ∧ ¬(s.receiver i).Granted

variable {counts : Fin n → ℕ} {s s' : State n} {p : Process n} {c i j k : Fin n} {m : Message n}

theorem Receiver.Granted.locked {r : Receiver n} (h : r.Granted) : r.Locked := by
  cases r <;> simp_all [Receiver.Granted, Receiver.Locked]

theorem Receiver.turned_eq_none {r : Receiver n} (h : ¬r.Locked) : r.turned = none := by
  cases r <;> simp_all [Receiver.turned, Receiver.Locked]

theorem Main.Waiting.locked {m : Main n} (h : m.Waiting) : m.Locked := by
  cases m <;> simp_all [Main.Waiting, Main.Locked]

theorem Main.Token.locked {m : Main n} (h : m.Token) : m.Lacking ∨ m.Locked := by
  cases m <;> simp_all [Main.Token, Main.Locked, Main.Lacking]

namespace State

-- A step of node `i` alone, which changes nothing that matters outside of the node.
theorem view_eq (hn : ∀ j, j ≠ i → s'.main j = s.main j ∧ s'.receiver j = s.receiver j ∧
      s'.parent j = s.parent j ∧ s'.holding j = s.holding j ∧ s'.deferred j = s.deferred j)
    (hi : s'.view.parent i = s.view.parent i ∧ s'.view.held i = s.view.held i ∧
      s'.view.carried i = s.view.carried i ∧ s'.view.deferred i = s.view.deferred i ∧
      (s'.view.waiting i ↔ s.view.waiting i) ∧ (s'.view.token i ↔ s.view.token i)) :
    s'.view = s.view := by
  obtain ⟨hp, hh, hc, hd, hw, ht⟩ := hi
  ext j : 2 <;> rcases eq_or_ne j i with rfl | hj
  all_goals first | assumption | exact propext ‹_› | simp [view, hn j hj]

-- A step of the receiver of node `i` which neither takes up nor passes on anything.
theorem view_turn {r : Receiver n} (hm : s'.main = s.main) (hp : s'.parent = s.parent)
    (hh : s'.holding = s.holding) (hd : s'.deferred = s.deferred)
    (hr : s'.receiver = update s.receiver i r) (ht : r.turned = (s.receiver i).turned)
    (hk : r.held = (s.receiver i).held) (hc : r.carried = (s.receiver i).carried)
    (hg : r.Granted ↔ (s.receiver i).Granted) : s'.view = s.view := by
  ext j : 2
  case parent   => simp [view, hm, hp, hr, Threads.update_congr ht]
  case held     => simp [view, hr, Threads.update_congr hk]
  case carried  => simp [view, hr, Threads.update_congr hc]
  case deferred => simp [view, hm, hd]
  case waiting  => simp [view, hm]
  case token    => simp [view, hm, hh, hr, Threads.update_iff (P := Receiver.Granted) hg]

theorem view_parent (hg : Guarded s i) (h : (s.receiver i).Rooted) : s.view.parent i = none := by
  have hp := hg.rooted h
  cases hr : s.receiver i <;> simp_all [view, Receiver.turned, Receiver.Rooted]
  split <;> simp_all

theorem view_parent_of_not_locked (hm : s.main i ≠ .clearParent)
    (ht : (s.receiver i).turned = none) : s.view.parent i = s.parent i := by
  simp [view, hm, ht]

theorem view_request (hg : Guarded s i) (h : s.main i = .request) (hk : s.receiver k = .receive) :
    ((s.turn k (.acquire ⟨i, i⟩)).goto i .clearParent).view = (s.view.pass i k i).wait i := by
  ext j : 2
  case parent   =>
    have ht : (update s.receiver k (.acquire ⟨i, i⟩) j).turned = (s.receiver j).turned :=
      Threads.update_congr (by simp [hk, Receiver.turned]) j
    rcases eq_or_ne j i with rfl | hn
    · simp [view, goto]
    · simp [view, goto, turn, ht, hn]
  case held     => exact apply_update (fun _ => Receiver.held) _ _ _ _
  case carried  => exact apply_update (fun _ => Receiver.carried) _ _ _ _
  case deferred => rcases eq_or_ne j i with rfl | hn <;> simp [view, goto, turn, *]
  case waiting  => exact apply_update (fun _ => Main.Waiting) _ _ _ _
  case token    =>
    have hm : (update s.main i .clearParent j).Token ↔ (s.main j).Token :=
      Threads.update_iff (by simp [h, Main.Token]) _
    have hr : (update s.receiver k (.acquire ⟨i, i⟩) j).Granted ↔ (s.receiver j).Granted :=
      Threads.update_iff (by simp [hk, Receiver.Granted]) _
    simp [view, goto, turn, hm, hr]

theorem view_reply (hg : Guarded s i) (h : s.main i = .reply) (hk : s.main k = .await) :
    ((s.goto k .clearHolding).goto i .clearDeferred).view = (s.view.defer i none).give i k := by
  have hh : s.holding i = false := hg.lacking (by simp [h, Main.Lacking])
  have hn : i ≠ k := by
    rintro rfl
    simp [hk] at h
  ext j : 2 <;> rcases eq_or_ne j i with rfl | hi <;> rcases eq_or_ne j k with rfl | hj <;>
    simp [view, goto, Main.Waiting, Main.Token, *] at *

theorem view_grant (hg : Guarded s i) (h : s.receiver i = .reply m)
    (hk : s.main m.originator = .await) :
    ((s.goto m.originator .clearHolding).turn i (.clearHolding m)).view =
    (s.view.clear i).give i m.originator := by
  have hm := hg.not_locked (by simp [h, Receiver.Locked])
  have hh : s.holding i = true := hg.replying (by simp [h, Receiver.Replying])
  have ht : ¬(s.main i).Token := fun ht =>
    ht.locked.elim (fun hl => by simp [hg.lacking hl] at hh) hm
  ext j : 2
  case parent   =>
    have hp := Threads.update_iff (f := s.main) (i := m.originator) (p := .clearHolding)
      (P := (· = .clearParent)) (by simp [hk]) j
    have hr := Threads.update_congr (f := s.receiver) (i := i) (p := .clearHolding m)
      (g := Receiver.turned) (by rw [h]; rfl) j
    simp [view, goto, turn, hp, hr]
  case held     => exact Threads.update_congr (f := s.receiver) (g := Receiver.held) (by rw [h]; rfl) j
  case carried  => exact apply_update (fun _ => Receiver.carried) _ _ _ _
  case deferred =>
    have hd := Threads.update_iff (f := s.main) (i := m.originator) (p := .clearHolding)
      (P := (· = .clearDeferred)) (by simp [hk]) j
    simp [view, goto, turn, hd]
  case waiting  => exact apply_update (fun _ => Main.Waiting) _ _ _ _
  case token    =>
    by_cases ho : j = m.originator
    case pos => simp [view, goto, turn, ho, Main.Token]
    case neg =>
      by_cases hi : j = i
      case pos => simp [view, goto, turn, hi, hi ▸ ho, ht, Receiver.Granted]
      case neg => simp [view, goto, turn, hi, ho]

theorem view_setDeferred (hg : Guarded s i) (h : s.receiver i = .setDeferred m) :
    ({ s with deferred := update s.deferred i (some m.originator) }.turn i
      (.setParent false m)).view = (s.view.clear i).defer i (some m.originator) := by
  have hm := hg.not_locked (by simp [h, Receiver.Locked])
  have hd : s.main i ≠ .clearDeferred := by
    intro hd
    simp [hd, Main.Locked] at hm
  ext j : 2
  case parent   =>
    have hr := Threads.update_congr (f := s.receiver) (i := i) (p := .setParent false m)
      (g := Receiver.turned) (by rw [h]; rfl) j
    simp [view, turn, hr]
  case held     => exact Threads.update_congr (g := Receiver.held) (by rw [h]; rfl) j
  case carried  => exact apply_update (fun _ => Receiver.carried) _ _ _ _
  case deferred =>
    by_cases hi : j = i
    case pos => simp [view, turn, hi, hd]
    case neg => simp [view, turn, hi]
  case waiting  => rfl
  case token    =>
    have hr := Threads.update_iff (f := s.receiver) (i := i) (p := .setParent false m)
      (P := Receiver.Granted) (by simp [h, Receiver.Granted]) j
    simp [view, turn, hr]

theorem view_forward (hg : Guarded s i) (h : s.receiver i = .forward m)
    (hk : s.receiver k = .receive) :
    ((s.turn k (.acquire ⟨i, m.originator⟩)).turn i (.setParent true m)).view =
    ((s.view.clear i).pass i k m.originator).finish i m.source := by
  have hm := hg.not_locked (by simp [h, Receiver.Locked])
  have hp : s.main i ≠ .clearParent := by
    intro hp
    simp [hp, Main.Locked] at hm
  have hn : k ≠ i := by
    rintro rfl
    simp [hk] at h
  ext j : 2
  case parent   =>
    by_cases hi : j = i
    case pos => simp [view, turn, hi, hp, Receiver.turned]
    case neg =>
      have hr := Threads.update_congr (f := s.receiver) (i := k) (p := .acquire ⟨i, m.originator⟩)
        (g := Receiver.turned) (by rw [hk]; rfl) j
      simp [view, turn, hi, hr]
  case held     =>
    by_cases hi : j = i
    case pos => simp [view, turn, hi, Receiver.held]
    case neg =>
      by_cases hj : j = k
      case pos => simp [view, turn, hj, hn, Receiver.held]
      case neg => simp [view, turn, hi, hj]
  case carried  =>
    by_cases hi : j = i
    case pos => simp [view, turn, hi, hn.symm, Receiver.carried]
    case neg =>
      by_cases hj : j = k
      case pos => simp [view, turn, hj, hn, Receiver.carried]
      case neg => simp [view, turn, hi, hj]
  case deferred => rfl
  case waiting  => rfl
  case token    =>
    have hr := Threads.update_iff (f := s.receiver) (i := k) (p := .acquire ⟨i, m.originator⟩)
      (P := Receiver.Granted) (by simp [hk, Receiver.Granted]) j
    by_cases hi : j = i
    case pos => simp [view, turn, hi, h, Receiver.Granted]
    case neg => simp [view, turn, hi, hr]

theorem view_setParent (hg : Guarded s i) (h : s.receiver i = .setParent false m) :
    ({ s with parent := update s.parent i (some m.source) }.turn i .release).view =
    s.view.finish i m.source := by
  have hm := hg.not_locked (by simp [h, Receiver.Locked])
  have hp : s.main i ≠ .clearParent := by
    intro hp
    simp [hp, Main.Locked] at hm
  ext j : 2
  case parent   =>
    by_cases hi : j = i
    case pos => simp [view, turn, hi, hp, Receiver.turned]
    case neg => simp [view, turn, hi]
  case held     => exact apply_update (fun _ => Receiver.held) _ _ _ _
  case carried  => exact Threads.update_congr (g := Receiver.carried) (by rw [h]; rfl) j
  case deferred => rfl
  case waiting  => rfl
  case token    =>
    have hr := Threads.update_iff (f := s.receiver) (i := i) (p := .release)
      (P := Receiver.Granted) (by simp [h, Receiver.Granted]) j
    simp [view, turn, hr]

end State

namespace Step

theorem main_stay (hg : Guarded s i) (h : Step counts s (.main i) s') (hr : s.main i ≠ .request)
    (hd : s.main i ≠ .reply) : s'.view = s.view := by
  have hx := hg.exclusive
  have hl := hg.lacking
  have hG := mt (Receiver.Granted.locked (r := s.receiver i))
  have ht := Receiver.turned_eq_none (r := s.receiver i)
  refine State.view_eq (i := i) ?_ ?_
  · cases h
    case request => contradiction
    case reply   => contradiction
    all_goals simp +contextual [State.goto]
  · cases h
    case request => contradiction
    case reply   => contradiction
    case testHolding h hh =>
      simpa [State.view, State.goto, h, hh, Main.Waiting, Main.Token] using
        hG (hx (by simp [h, Main.Locked]))
    case clearParent h =>
      simpa [State.view, State.goto, h, Main.Waiting, Main.Token] using
        ht (hx (by simp [h, Main.Locked]))
    case setHolding h =>
      simpa [State.view, State.goto, h, Main.Waiting, Main.Token] using
        hG (hx (by simp [h, Main.Locked]))
    case clearDeferred h =>
      simp [State.view, State.goto, h, Main.Waiting, Main.Token]
    all_goals simp [State.view, State.goto, Main.Waiting, Main.Token, *]

theorem main_move (hg : Guarded s i) (h : Step counts s (.main i) s') : Move s.view s'.view := by
  by_cases hr : s.main i = .request
  · cases h <;> simp [*] at hr
    case request k hk h hp =>
      have hl := hg.lacking (by simp [h, Main.Lacking])
      have ht := Receiver.turned_eq_none (hg.exclusive (by simp [h, Main.Locked]))
      refine State.view_request hg h hk ▸ .request i k ?_ ?_ ?_ ?_ ?_ <;>
        simp [State.view, Receiver.held, Receiver.carried, Main.Waiting, Main.Token, *]
  by_cases hd : s.main i = .reply
  · cases h <;> simp [*] at hd
    case reply k hk h hd =>
      refine State.view_reply hg h hk ▸ .grant i k ?_ ?_ ?_ <;>
        simp [State.view, Main.Waiting, Main.Token, *]
  exact .of_eq (h.main_stay hg hr hd)

theorem receiver_move (hg : Guarded s i) (h : Step counts s (.receiver i) s') :
    Move s.view s'.view := by
  cases h
  case grant m hk h =>
    have hp := State.view_parent hg (by simp [h, Receiver.Rooted])
    have hh := hg.replying (by simp [h, Receiver.Replying])
    refine State.view_grant hg h hk ▸ .reply i m.originator hp ?_ ?_ ?_ <;>
      simp [State.view, Receiver.carried, Receiver.Granted, Main.Waiting, *]
  case setDeferred m h =>
    have hp := State.view_parent hg (by simp [h, Receiver.Rooted])
    have hm := hg.not_locked (by simp [h, Receiver.Locked])
    exact State.view_setDeferred hg h ▸ .defer i m.originator hp
      (by simp [State.view, h, Receiver.carried]) (mt Main.Waiting.locked hm)
  case forward m k hr h hp =>
    have hm := hg.not_locked (by simp [h, Receiver.Locked])
    refine State.view_forward hg h hr ▸ .forward i k m.source m.originator ?_ ?_ ?_ ?_ ?_ <;>
      simp [State.view, Receiver.held, Receiver.carried, Receiver.turned, *]
    exact fun hc => hm (by simp [hc, Main.Locked])
  case setParent b m h =>
    cases b
    case false =>
      have hp := State.view_parent hg (by simp [h, Receiver.Rooted])
      refine State.view_setParent hg h ▸ .finish i m.source hp ?_ ?_ <;>
        simp [State.view, Receiver.held, Receiver.carried, *]
    case true =>
      refine .of_eq (State.view_eq (i := i) ?_ ?_)
      · simp +contextual [State.turn]
      · refine ⟨?_, ?_, ?_, rfl, .rfl, ?_⟩ <;>
          simp [State.view, State.turn, Receiver.turned, Receiver.held, Receiver.carried,
            Receiver.Granted, *]
  case granted =>
    refine .of_eq (State.view_eq (i := i) ?_ ?_)
    · simp +contextual [State.turn]
    · refine ⟨?_, ?_, ?_, rfl, .rfl, ?_⟩ <;>
        simp [State.view, State.turn, Receiver.turned, Receiver.held, Receiver.carried,
          Receiver.Granted, *]
  case acquire h _ | testRoot h _ | testParent h _ | idle h _ | busy h _ | release h =>
    refine .of_eq <| State.view_turn (i := i) rfl rfl rfl rfl rfl ?_ ?_ ?_ ?_ <;> rw [h] <;> rfl

theorem move (hg : Guarded s p.node) (h : Step counts s p s') : Move s.view s'.view := by
  cases p
  case main     => exact h.main_move hg
  case receiver => exact h.receiver_move hg

end Step

theorem view_init (hc : c.val = 0) : (init n).view = PathReversal.init c := by
  ext j : 2 <;>
    simp [State.view, init, PathReversal.init, Receiver.turned, Receiver.held, Receiver.carried,
      Receiver.Granted, Main.Waiting, Main.Token, Fin.ext_iff, hc]
  exact ite_congr rfl (fun _ => rfl) fun _ => congrArg some (Fin.ext hc.symm)

theorem wellFormed (r : (machine counts).Reachable s) (hc : c.val = 0) : WellFormed s.view c := by
  refine r.invariant (I := fun s => WellFormed s.view c) ?init ?step
  case init => rintro _ rfl; exact view_init hc ▸ .init c
  case step => exact fun _ _ _ r hi h => hi.step <| (Step.of_step h).move (.of_reachable r _)

end NeilsenMizuno
