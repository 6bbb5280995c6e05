import Concurrencia.Distributed.TokenPassing.Theorems.Step
import Mathlib.Algebra.Ring.Nat

open Function Distributed

namespace TokenPassing

namespace Main

variable {n : ℕ}

def Locked : Main n → Prop
  | testToken | setNumber | requestRelease | setToken | setInCS | lockRelease => True
  | setGranted | clearInCS | sendToken _ | unlockRelease => True
  | _ => False

-- The number of the request is drawn and the token has not arrived.
def Waiting : Main n → Prop
  | requestRelease | send _ | request _ | await => True
  | _ => False

-- `lock` has found that the token is missing.
def Lacking : Main n → Prop
  | setNumber | requestRelease | send _ | request _ | await | tokenAcquire | setToken => True
  | _ => False

def InCS : Main n → Prop
  | lockRelease | load | store _ | unlockAcquire | setGranted | clearInCS => True
  | _ => False

-- The token is kept as long as the node is here.
def Holding : Main n → Prop
  | setInCS | lockRelease | load | store _ | unlockAcquire | setGranted | clearInCS => True
  | sendToken _ => True
  | _ => False

-- Makes the equations before the proofs below, many of which need them at the same time.
attribute [local grind =] Locked Waiting Lacking InCS Holding

end Main

namespace Receiver

variable {n : ℕ}

def Locked : Receiver n → Prop
  | test | sendToken _ | release => True
  | _ => False

def Sending : Receiver n → Prop
  | sendToken _ => True
  | _ => False

end Receiver

variable {n : ℕ} {counts : Fin n → ℕ} {s s' : State n} {p : Process n} {i j k : Fin n}

-- The use node `i` makes of its mutex, and what it knows about its token.
structure Guarded (s : State n) (i : Fin n) : Prop where
  mutex     : s.mutex i = true ↔ (s.main i).Locked ∨ (s.receiver i).Locked
  exclusive : (s.main i).Locked → ¬(s.receiver i).Locked
  inCS      : s.inCS i = true ↔ (s.main i).InCS
  lacking   : (s.main i).Lacking → s.haveToken i = false
  holding   : (s.main i).Holding → s.haveToken i = true
  sending   : (s.receiver i).Sending → s.haveToken i = true ∧ s.inCS i = false

theorem Main.Holding.locked_or_inCS {m : Main n} (h : m.Holding) : m.Locked ∨ m.InCS := by
  cases m <;> simp_all [Main.Holding, Main.Locked, Main.InCS]

theorem Receiver.Sending.locked {r : Receiver n} (h : r.Sending) : r.Locked := by
  cases r <;> simp_all [Receiver.Sending, Receiver.Locked]

namespace Step

-- What the step of a node does to another one: it may receive a request or the token.
theorem elsewhere (h : Step counts s p s') (hn : i ≠ p.node) :
    (s'.mutex i = s.mutex i ∧ s'.inCS i = s.inCS i ∧ s'.haveToken i = s.haveToken i ∧
      s'.requested i = s.requested i) ∧
    (s'.main i = s.main i ∧ s'.granted i = s.granted i ∨
      s.main i = .await ∧ s'.main i = .tokenAcquire ∧ event s p = some (.grant i)) ∧
    (s'.receiver i = s.receiver i ∨ s.receiver i = .receive ∧ ∃ m, s'.receiver i = .record m) := by
  cases h
  case request j k _ hk =>
    by_cases hi : i = k
    case pos => simp_all [Process.node, State.goto, State.turn]
    case neg => simp_all [Process.node, State.goto, State.turn]
  case give j k _ hk | rgive j k _ hk =>
    by_cases hi : i = k
    case pos => simp_all [Process.node, State.goto, State.turn, State.give, event]
    case neg => simp_all [Process.node, State.goto, State.turn, State.give]
  case record =>
    simp only [State.turn, Process.node] at hn ⊢
    split_ifs
    all_goals simp [hn]
  all_goals simp_all [Process.node, State.goto, State.turn]

theorem main_elsewhere {P : Main n → Prop} (h : Step counts s p s') (hn : i ≠ p.node)
    (hP : P .tokenAcquire ↔ P .await) : P (s'.main i) ↔ P (s.main i) := by
  have ⟨_, hp, _⟩ := h.elsewhere hn
  cases hp
  case inl hp => rw [hp.left]
  case inr hp => rw [hp.left, hp.right.left, hP]

theorem receiver_elsewhere {P : Receiver n → Prop} (h : Step counts s p s') (hn : i ≠ p.node)
    (hP : ∀ m, P (.record m) ↔ P .receive) : P (s'.receiver i) ↔ P (s.receiver i) := by
  have ⟨_, _, hr⟩ := h.elsewhere hn
  cases hr
  case inl hr => rw [hr]
  case inr hr =>
    have ⟨hr, _, hr'⟩ := hr
    rw [hr, hr', hP]

end Step

namespace Guarded

theorem init (i : Fin n) : Guarded (init n) i where
  mutex     := by simp [TokenPassing.init, Main.Locked, Receiver.Locked]
  exclusive := by simp [TokenPassing.init, Main.Locked]
  inCS      := by simp [TokenPassing.init, Main.InCS]
  lacking   := by simp [TokenPassing.init, Main.Lacking]
  holding   := by simp [TokenPassing.init, Main.Holding]
  sending   := by simp [TokenPassing.init, Receiver.Sending]

section

variable {f : Fin n → Main n} (hk : f k = .await)
include hk

theorem locked_await : (update f k .tokenAcquire i).Locked ↔ (f i).Locked :=
  Threads.update_iff (by simp [hk, Main.Locked]) _

theorem inCS_await : (update f k .tokenAcquire i).InCS ↔ (f i).InCS :=
  Threads.update_iff (by simp [hk, Main.InCS]) _

theorem lacking_await : (update f k .tokenAcquire i).Lacking ↔ (f i).Lacking :=
  Threads.update_iff (by simp [hk, Main.Lacking]) _

theorem sendToken_await {q : SendToken n} :
    update f k .tokenAcquire i = .sendToken q ↔ f i = .sendToken q :=
  Threads.update_iff (P := (· = Main.sendToken q)) (by simp [hk]) _

theorem done_await : update f k .tokenAcquire i = .done ↔ f i = .done :=
  Threads.update_iff (P := (· = Main.done)) (by simp [hk]) _

theorem holding_await : (update f k .tokenAcquire i).Holding ↔ (f i).Holding :=
  Threads.update_iff (by simp [hk, Main.Holding]) _

end

section

variable {f : Fin n → Receiver n} {m : Message n} (hk : f k = .receive)
include hk

theorem locked_record : (update f k (.record m) i).Locked ↔ (f i).Locked :=
  Threads.update_iff (by simp [hk, Receiver.Locked]) _

theorem sendToken_record {q : SendToken n} :
    update f k (.record m) i = .sendToken q ↔ f i = .sendToken q :=
  Threads.update_iff (P := (· = Receiver.sendToken q)) (by simp [hk]) _

theorem sending_record : (update f k (.record m) i).Sending ↔ (f i).Sending :=
  Threads.update_iff (by simp [hk, Receiver.Sending]) _

end

-- The step of another node leaves node `i` alone, but for the messages.
theorem elsewhere (hi : Guarded s i) (h : Step counts s p s') (hn : i ≠ p.node) :
    Guarded s' i := by
  have ⟨⟨hm, hc, ht, _⟩, _⟩ := h.elsewhere hn
  have hl := h.main_elsewhere (P := Main.Locked) hn .rfl
  have hl' := h.receiver_elsewhere (P := Receiver.Locked) hn fun _ => .rfl
  constructor
  case mutex     => rw [hm, hl, hl', hi.mutex]
  case exclusive => rw [hl, hl']; exact hi.exclusive
  case inCS      => rw [hc, h.main_elsewhere (P := Main.InCS) hn .rfl, hi.inCS]
  case lacking   => rw [ht, h.main_elsewhere (P := Main.Lacking) hn .rfl]; exact hi.lacking
  case holding   => rw [ht, h.main_elsewhere (P := Main.Holding) hn .rfl]; exact hi.holding
  case sending   =>
    rw [ht, hc, h.receiver_elsewhere (P := Receiver.Sending) hn fun _ => .rfl]
    exact hi.sending

section

variable (hi : Guarded s p.node) (h : Step counts s p s')
include hi h

theorem step_mutex :
    s'.mutex p.node = true ↔ (s'.main p.node).Locked ∨ (s'.receiver p.node).Locked := by
  have hm := hi.mutex
  have hx := hi.exclusive
  cases p
  case main =>
    cases h <;>
      simp_all [Process.node, State.goto, State.turn, State.give, Main.Locked, locked_record]
  case receiver =>
    cases h <;>
      simp_all [Process.node, State.goto, State.turn, State.give, Receiver.Locked, locked_await]

theorem step_exclusive : (s'.main p.node).Locked → ¬(s'.receiver p.node).Locked := by
  have hm := hi.mutex
  have hx := hi.exclusive
  cases p
  case main =>
    cases h <;>
      simp_all [Process.node, State.goto, State.turn, State.give, Main.Locked, locked_record]
  case receiver =>
    cases h <;>
      simp_all [Process.node, State.goto, State.turn, State.give, Receiver.Locked, locked_await]

theorem step_inCS : s'.inCS p.node = true ↔ (s'.main p.node).InCS := by
  have hc := hi.inCS
  cases p
  case main     => cases h <;> simp_all [Process.node, State.goto, State.turn, State.give, Main.InCS]
  case receiver => cases h <;> simp_all [Process.node, State.goto, State.turn, State.give, inCS_await]

theorem step_lacking : (s'.main p.node).Lacking → s'.haveToken p.node = false := by
  have hl := hi.lacking
  cases p
  case main     => cases h <;> simp_all [Process.node, State.goto, State.turn, State.give, Main.Lacking]
  case receiver => cases h <;> simp_all [Process.node, State.goto, State.turn, State.give, lacking_await]

theorem step_holding : (s'.main p.node).Holding → s'.haveToken p.node = true := by
  have hl := hi.holding
  have hx := hi.exclusive
  have hc := hi.inCS
  have hs := hi.sending
  cases p
  case main     => cases h <;> simp_all [Process.node, State.goto, State.turn, State.give, Main.Holding]
  case receiver =>
    cases h <;>
      simp_all [Process.node, State.goto, State.turn, State.give, holding_await, Receiver.Locked,
        Receiver.Sending]
    case rclearToken => exact fun h => h.locked_or_inCS.elim hx hc

theorem step_sending :
    (s'.receiver p.node).Sending → s'.haveToken p.node = true ∧ s'.inCS p.node = false := by
  have hs := hi.sending
  have hx := hi.exclusive
  have hm := hi.mutex
  cases p
  case main =>
    cases h <;> simp_all [Process.node, State.goto, State.turn, State.give, sending_record, Main.Locked]
    case setInCS    => exact fun h => hx h.locked
    case clearToken => exact fun h => hx h.locked
  case receiver => cases h <;> simp_all [Process.node, State.goto, State.turn, State.give, Receiver.Sending]

end

theorem step (hi : Guarded s i) (h : Step counts s p s') : Guarded s' i := by
  by_cases hn : i = p.node
  case neg => exact hi.elsewhere h hn
  case pos =>
    subst hn
    exact {
      mutex     := hi.step_mutex h
      exclusive := hi.step_exclusive h
      inCS      := hi.step_inCS h
      lacking   := hi.step_lacking h
      holding   := hi.step_holding h
      sending   := hi.step_sending h }

theorem of_reachable (r : (machine counts).Reachable s) (i : Fin n) : Guarded s i := by
  refine r.invariant (I := (Guarded · i)) ?init ?step
  case init => rintro _ rfl; exact .init i
  case step => exact fun _ _ _ _ hi h => hi.step (.of_step h)

end Guarded

-- The token has been received and `haveToken` is still to be set.
def Main.arrived : Main n → ℕ
  | tokenAcquire | setToken => 1
  | _ => 0

@[simp]
theorem Main.arrived_tokenAcquire : (tokenAcquire : Main n).arrived = 1 := rfl

@[simp]
theorem Main.arrived_sendToken {q : SendToken n} : (sendToken q).arrived = 0 := rfl

theorem Guarded.arrived (hg : Guarded s i) (h : s.haveToken i = true) : (s.main i).arrived = 0 := by
  have hl := hg.lacking
  cases hp : s.main i <;> simp_all [Main.arrived, Main.Lacking]

namespace State

-- The token has left node `i`, where `haveToken` is still set.
def Clearing (s : State n) (i : Fin n) : Prop :=
  s.main i = .sendToken .clearToken ∨ s.receiver i = .sendToken .clearToken

instance {s : State n} : Decidable (s.Clearing i) :=
  inferInstanceAs (Decidable (_ ∨ _))

-- The number of tokens at node `i`.
def tokens (s : State n) (i : Fin n) : ℕ :=
  (if s.haveToken i = true ∧ ¬s.Clearing i then 1 else 0) + (s.main i).arrived

-- Node `i` offers the token to node `k`.
def Offers (s : State n) (i k : Fin n) : Prop :=
  s.main i = .sendToken (.send k) ∨ s.receiver i = .sendToken (.send k)

end State

namespace State

-- The only token is at node `t`.
structure Token (s : State n) (t : Fin n) : Prop where
  here      : s.tokens t = 1
  elsewhere : ∀ i, i ≠ t → s.tokens i = 0

theorem Token.eq (h : s.Token t) (hi : 0 < s.tokens i) : i = t := by
  by_contra hn
  simp [h.elsewhere i hn] at hi

end State

namespace Step

theorem tokens (h : Step counts s p s') (hg : Guarded s i) (he : ∀ k, event s p ≠ some (.grant k)) :
    s'.tokens i = s.tokens i := by
  by_cases hn : i = p.node
  case neg =>
    have ⟨⟨_, _, ht, _⟩, hp, _⟩ := h.elsewhere hn
    have ⟨hp, _⟩ := hp.resolve_right fun hp => he i hp.right.right
    have hr := h.receiver_elsewhere (P := (· = .sendToken .clearToken)) hn (by simp)
    have hc : s'.Clearing i ↔ s.Clearing i := by simp only [State.Clearing, hp, hr]
    simp only [State.tokens, ht, hp, hc]
  case pos =>
    subst hn
    have hx := hg.exclusive
    have hl := hg.lacking
    have hh := hg.holding
    have hs := hg.sending
    cases p
    case main =>
      cases h <;>
        simp_all [event, Process.node, State.tokens, State.Clearing, State.goto, State.turn,
          Main.arrived, Main.Lacking, Main.Holding, Main.Locked]
      case setToken => exact fun h => hs (by simp [h, Receiver.Sending])
    case receiver =>
      cases h <;>
        simp_all [event, Process.node, State.tokens, State.Clearing, State.turn, Receiver.Sending,
          Receiver.Locked]

theorem grant (h : Step counts s p s') (he : event s p = some (.grant k)) : s.main k = .await ∧ (
    (∃ i, p = .main i ∧ s.main i = .sendToken (.send k) ∧
      s' = (s.give i k).goto i (.sendToken .clearToken)) ∨
    (∃ i, p = .receiver i ∧ s.receiver i = .sendToken (.send k) ∧
      s' = (s.give i k).turn i (.sendToken .clearToken))) := by
  cases h <;> simp_all [event]

theorem tokens_of_grant (h : Step counts s p s') (hg : ∀ i, Guarded s i)
    (he : event s p = some (.grant k)) :
    p.node ≠ k ∧ s.tokens p.node = 1 ∧ s'.tokens p.node = 0 ∧ s'.tokens k = 1 ∧
    ∀ i, i ≠ p.node → i ≠ k → s'.tokens i = s.tokens i := by
  obtain ⟨hk, ⟨i, rfl, hi, rfl⟩ | ⟨i, rfl, hi, rfl⟩⟩ := h.grant he
  case inl =>
    have hn : i ≠ k := by
      rintro rfl
      simp [hi] at hk
    have hh := (hg i).holding (by simp [hi, Main.Holding])
    have hl := (hg k).lacking (by simp [hk, Main.Lacking])
    have hx := (hg i).exclusive (by simp [hi, Main.Locked])
    have hr : s.receiver i ≠ .sendToken .clearToken := fun hr => hx (by simp [hr, Receiver.Locked])
    refine ⟨hn, ?_, ?_, ?_, ?_⟩
    all_goals
      simp +contextual [Process.node, State.tokens, State.Clearing, State.give, State.goto, *,
        hn.symm]
  case inr =>
    have hs := (hg i).sending (by simp [hi, Receiver.Sending])
    have hl := (hg k).lacking (by simp [hk, Main.Lacking])
    have hn : i ≠ k := by
      rintro rfl
      simp [hs] at hl
    have hm : s.main i ≠ .sendToken .clearToken := fun hm =>
      (hg i).exclusive (by simp [hm, Main.Locked]) (by simp [hi, Receiver.Locked])
    have ha := (hg i).arrived hs.left
    refine ⟨hn, ?_, ?_, ?_, ?_⟩
    all_goals
      simp +contextual [Process.node, State.tokens, State.Clearing, State.give, State.goto,
        State.turn, *, hn.symm]

-- The token stays where it is, or it is handed over by its owner.
theorem token (h : Step counts s p s') (hg : ∀ i, Guarded s i) (ht : s.Token t)
    (he : ∀ k, event s p ≠ some (.grant k)) : s'.Token t where
  here           := (h.tokens (hg t) he).trans ht.here
  elsewhere i hn := (h.tokens (hg i) he).trans (ht.elsewhere i hn)

theorem token_of_grant (h : Step counts s p s') (hg : ∀ i, Guarded s i) (ht : s.Token t)
    (he : event s p = some (.grant k)) : p.node = t ∧ k ≠ t ∧ s'.Token k := by
  have ⟨hn, ht₁, ht₂, hk, hi⟩ := h.tokens_of_grant hg he
  have hp := ht.eq (i := p.node) (by omega)
  refine ⟨hp, hp ▸ hn.symm, hk, fun i hik => ?_⟩
  rcases eq_or_ne i p.node with rfl | hip
  · exact ht₂
  · rw [hi i hip hik]
    exact ht.elsewhere i (hp ▸ hip)

end Step

theorem State.Token.init [NeZero n] : (init n).Token 0 where
  here := by simp [State.tokens, State.Clearing, TokenPassing.init, Main.arrived]
  elsewhere i hi := by
    have : i.val ≠ 0 := fun h => hi (Fin.ext h)
    simp [State.tokens, State.Clearing, TokenPassing.init, Main.arrived, this]

theorem exists_token [NeZero n] {counts : Fin n → ℕ} {s : State n} (r : (machine counts).Reachable s) :
    ∃ t, s.Token t := by
  refine r.invariant (I := fun s => ∃ t, s.Token t) ?init ?step
  case init => rintro _ rfl; exact ⟨0, .init⟩
  case step =>
    rintro s p s' r ⟨t, ht⟩ h
    have hg := Guarded.of_reachable r
    by_cases he : ∃ k, event s p = some (.grant k)
    · have ⟨k, he⟩ := he
      exact ⟨k, ((Step.of_step h).token_of_grant hg ht he).right.right⟩
    · exact ⟨t, (Step.of_step h).token hg ht (not_exists.mp he)⟩

end TokenPassing
