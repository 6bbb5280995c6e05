import Concurrencia.Distributed.RicartAgrawala.Theorems.Accounting

open Function Distributed

namespace RicartAgrawala

namespace Main

variable {n : ℕ}

def Locked : Main n → Prop
  | setRequest | setNumber | lockRelease | measure | unlockRelease _ => True
  | _ => False

-- `requestCS` is set and the number of the request is drawn.
def Requesting : Main n → Prop
  | lockRelease | send _ | request _ | await | load | store _ | clearRequest => True
  | _ => False

-- The number of entries `deferred` must have, at the statements which rely on it.
def remaining : Main n → Option ℕ
  | unlockRelease m => some m
  | drain k m       => some (m - k)
  | reply k m _     => some (m - k - 1)
  | loop | lockAcquire | setRequest | setNumber | lockRelease | done => some 0
  | _ => none

end Main

namespace Receiver

variable {n : ℕ}

def Locked : Receiver n → Prop
  | raise _ | testRequest _ | compare _ | release _ | defer _ | deferRelease => True
  | _ => False

-- The receiver has seen `requestCS` set.
def Deferring : Receiver n → Prop
  | compare _ | defer _ => True
  | _ => False

end Receiver

variable {n : ℕ} {counts : Fin n → ℕ} {s s' : State n} {p : Process n} {a b i : Fin n}

-- The use node `i` makes of its mutex.
structure Guarded (s : State n) (i : Fin n) : Prop where
  mutex     : s.mutex i = true ↔ (s.main i).Locked ∨ (s.receiver i).Locked
  exclusive : (s.main i).Locked → ¬(s.receiver i).Locked
  requestCS : s.requestCS i = true ↔ s.main i = .setNumber ∨ (s.main i).Requesting
  deferring : (s.receiver i).Deferring → (s.main i).Requesting ∨ s.main i = .unlockAcquire
  remaining : ∀ m ∈ (s.main i).remaining, (s.deferred i).length = m

theorem Receiver.Deferring.locked {r : Receiver n} (h : r.Deferring) : r.Locked := by
  cases r <;> simp_all [Receiver.Deferring, Receiver.Locked]

theorem Main.Requesting.remaining {m : Main n} (h : m.Requesting) (hl : ¬m.Locked) :
    m.remaining = none := by
  cases m <;> simp_all [Main.Requesting, Main.Locked, Main.remaining]

namespace Step

-- What the step of a node does to another one: it may receive a request.
theorem elsewhere (h : Step counts s p s') (hn : i ≠ p.node) :
    (s'.mutex i = s.mutex i ∧ s'.requestCS i = s.requestCS i ∧ s'.deferred i = s.deferred i) ∧
    s'.main i = s.main i ∧
    (s'.receiver i = s.receiver i ∨ s.receiver i = .receive ∧ ∃ m, s'.receiver i = .acquire m) := by
  cases h
  case request k _ _ =>
    by_cases hi : i = k
    case pos => simp_all [Process.node, State.goto, State.turn]
    case neg => simp_all [Process.node, State.goto, State.turn]
  all_goals simp_all [Process.node, State.goto, State.turn, State.reply]

theorem receiver_elsewhere {P : Receiver n → Prop} (h : Step counts s p s') (hn : i ≠ p.node)
    (hP : ∀ m, P (.acquire m) ↔ P .receive) : P (s'.receiver i) ↔ P (s.receiver i) := by
  have ⟨_, _, hr⟩ := h.elsewhere hn
  cases hr
  case inl hr => rw [hr]
  case inr hr =>
    have ⟨hr, _, hr'⟩ := hr
    rw [hr, hr', hP]

end Step

namespace Guarded

theorem init (i : Fin n) : Guarded (init n) i where
  mutex     := by simp [RicartAgrawala.init, Main.Locked, Receiver.Locked]
  exclusive := by simp [RicartAgrawala.init, Main.Locked]
  requestCS := by simp [RicartAgrawala.init, Main.Requesting]
  deferring := by simp [RicartAgrawala.init, Receiver.Deferring]
  remaining := by simp [RicartAgrawala.init, Main.remaining]

section

variable {f : Fin n → Receiver n} {k : Fin n} {m : Message n} (hk : f k = .receive)
include hk

theorem locked_acquire : (update f k (.acquire m) i).Locked ↔ (f i).Locked := by
  rcases eq_or_ne i k with rfl | hn
  · simp [hk, Receiver.Locked]
  · simp [hn]

theorem deferring_acquire : (update f k (.acquire m) i).Deferring ↔ (f i).Deferring := by
  rcases eq_or_ne i k with rfl | hn
  · simp [hk, Receiver.Deferring]
  · simp [hn]

end

-- The step of another node leaves node `i` alone, but for the requests.
theorem elsewhere (hi : Guarded s i) (h : Step counts s p s') (hn : i ≠ p.node) :
    Guarded s' i := by
  have ⟨⟨hm, hr, hd⟩, hp, _⟩ := h.elsewhere hn
  have hl := h.receiver_elsewhere (P := Receiver.Locked) hn fun _ => .rfl
  constructor
  case mutex     => rw [hm, hp, hl, hi.mutex]
  case exclusive => rw [hp, hl]; exact hi.exclusive
  case requestCS => rw [hr, hp, hi.requestCS]
  case remaining => rw [hp, hd]; exact hi.remaining
  case deferring =>
    rw [hp, h.receiver_elsewhere (P := Receiver.Deferring) hn fun _ => .rfl]
    exact hi.deferring

section

variable (hi : Guarded s p.node) (h : Step counts s p s')
include hi h

theorem step_mutex :
    s'.mutex p.node = true ↔ (s'.main p.node).Locked ∨ (s'.receiver p.node).Locked := by
  have hm := hi.mutex
  have hx := hi.exclusive
  cases p
  case main =>
    cases h <;>
      simp_all [Process.node, State.goto, State.turn, State.reply, Main.Locked, locked_acquire]
  case receiver =>
    cases h <;> simp_all [Process.node, State.turn, State.reply, Receiver.Locked]

theorem step_exclusive : (s'.main p.node).Locked → ¬(s'.receiver p.node).Locked := by
  have hm := hi.mutex
  have hx := hi.exclusive
  cases p
  case main =>
    cases h <;>
      simp_all [Process.node, State.goto, State.turn, State.reply, Main.Locked, locked_acquire]
  case receiver =>
    cases h <;> simp_all [Process.node, State.turn, State.reply, Receiver.Locked]

theorem step_requestCS : s'.requestCS p.node = true ↔
    s'.main p.node = .setNumber ∨ (s'.main p.node).Requesting := by
  have hr := hi.requestCS
  cases p
  case main =>
    cases h <;> simp_all [Process.node, State.goto, State.turn, State.reply, Main.Requesting]
  case receiver => cases h <;> simp_all [Process.node, State.turn, State.reply]

-- The receiver tests `requestCS` with the mutex locked, and both `lock` before it sends its requests
-- and `unlock` before it counts the deferred ones have to lock it.
theorem step_deferring : (s'.receiver p.node).Deferring →
    (s'.main p.node).Requesting ∨ s'.main p.node = .unlockAcquire := by
  have hm := hi.mutex
  have hx := hi.exclusive
  have hr := hi.requestCS
  have hd := hi.deferring
  cases p
  case main =>
    cases h <;>
      simp_all [Process.node, State.goto, State.turn, State.reply, Main.Requesting,
        deferring_acquire]
    case unlockAcquire => exact fun h => hm.right h.locked
  case receiver =>
    cases h <;>
      simp_all [Process.node, State.turn, State.reply, Receiver.Locked, Receiver.Deferring]
    case testRequest =>
      refine hr.elim (fun h => ?_) .inl
      simp [h, Main.Locked] at hx

theorem step_remaining :
    ∀ m ∈ (s'.main p.node).remaining, (s'.deferred p.node).length = m := by
  have hx := hi.exclusive
  have hd := hi.deferring
  have hr := hi.remaining
  cases p
  case main =>
    cases h <;> simp_all [Process.node, State.goto, State.turn, State.reply, Main.remaining]
    case pop    => omega
    case answer => omega
  case receiver =>
    cases h <;>
      simp_all [Process.node, State.turn, State.reply, Receiver.Locked, Receiver.Deferring]
    case defer =>
      rcases hd with hd | hd
      · simp [hd.remaining hx]
      · simp [hd, Main.remaining]

end

theorem step (hi : Guarded s i) (h : Step counts s p s') : Guarded s' i := by
  by_cases hn : i = p.node
  case neg => exact hi.elsewhere h hn
  case pos =>
    subst hn
    exact {
      mutex     := hi.step_mutex h
      exclusive := hi.step_exclusive h
      requestCS := hi.step_requestCS h
      deferring := hi.step_deferring h
      remaining := hi.step_remaining h }

theorem of_reachable (r : (machine counts).Reachable s) (i : Fin n) : Guarded s i := by
  refine r.invariant (I := (Guarded · i)) ?init ?step
  case init => rintro _ rfl; exact .init i
  case step => exact fun _ _ _ _ hi h => hi.step (.of_step h)

end Guarded

-- The send to `deferred` never blocks, since there is room for the requests of all other nodes.
theorem live_of_defer {m : Message n} (h : Accounted s) (hp : s.receiver i = .defer m) :
    ((machine counts).step s (.receiver i)).isSome := by
  have hl := h.length_deferred (b := i)
  have hn := i.pos
  simp [machine, RicartAgrawala.step, receiverStep, hp, show (s.deferred i).length < n by omega]

-- Each reply in the history of a run belongs to one request, and what is missing is on its way.
theorem count_replies {l : List (Transfer n)}
    (r : ((machine counts).logging transfer).Reachable (s, l)) (hn : a ≠ b) :
    l.count (.grant a b) + l.count (.answer a b) + s.places a b = l.count (.ask a) := by
  refine r.logging_invariant (I := fun s l =>
    l.count (.grant a b) + l.count (.answer a b) + s.places a b = l.count (.ask a)) ?init ?step
  case init => rintro _ rfl; rfl
  case step =>
    intro s p s' l _ hi h
    have := (Step.of_step h).places hn
    have hc (t : Transfer n) : (transfer s p).toList.count t = if transfer s p = some t then 1 else 0 := by
      cases transfer s p <;> simp [List.count_cons]
    simp only [List.count_append, hc]
    omega

-- A request of this round is in one of five places: not yet delivered, held by the receiver, in
-- `deferred`, about to be answered by `unlock`, or replied to.
theorem exact_accounting (r : (machine counts).Reachable s) :
    (∀ a b, a ≠ b → (s.main a).InRound →
      (s.main a).pending b + (s.receiver b).held a + (s.deferred b).count a +
        (s.main b).replying a + (s.replied a).count b = 1) ∧
    (∀ a b, a ≠ b → ¬(s.main a).InRound → s.places a b = 0) ∧
    (∀ l, ((machine counts).logging transfer).Reachable (s, l) → ∀ a b, a ≠ b →
      l.count (.grant a b) + l.count (.answer a b) + s.places a b = l.count (.ask a)) ∧
    (∀ a, (s.main a).InRound → (s.replied a).Nodup ∧ a ∉ s.replied a) ∧
    (∀ a b, a ≠ b → (s.main a).Entered → b ∈ s.replied a) ∧
    (∀ b, (s.deferred b).length ≤ n - 1) ∧
    (∀ b m, s.receiver b = .defer m → ((machine counts).step s (.receiver b)).isSome) ∧
    (∀ b k m, s.main b = .drain k m → m ≤ k → s.deferred b = []) ∧
    (∀ b, s.main b = .loop ∨ s.main b = .done → s.deferred b = []) := by
  have h := accounted r
  refine ⟨fun a b hn hr => h.once hn hr, fun a b hn hr => h.none hn hr,
    fun l r a b hn => count_replies r hn, fun a hr => ⟨h.nodup_replied hr, h.not_mem_replied⟩,
    fun a b hn he => h.mem_replied he hn, fun b => h.length_deferred,
    fun b m hp => live_of_defer h hp, fun b k m hp hk => ?_, fun b hp => ?_⟩
  · have hl := (Guarded.of_reachable r b).remaining (m - k) (by simp [hp, Main.remaining])
    exact List.length_eq_zero_iff.mp (by omega)
  · have hl := (Guarded.of_reachable r b).remaining 0 (by rcases hp with hp | hp <;> rw [hp] <;> rfl)
    exact List.length_eq_zero_iff.mp hl

-- Node 0 is between `lock` and `unlock` and has deferred the request of node 1.
theorem exact_accounting_two :
    ∃ s : State 2, s.main 0 = .load ∧ s.deferred 0 = [1] ∧
      (s.main 1).pending 0 + (s.receiver 0).held 1 + (s.deferred 0).count 1 +
        (s.main 0).replying 1 + (s.replied 1).count 0 = 1 :=
  have ⟨s, h, h₀, h₁, hd⟩ : ∃ s, (machine fun _ => 1).exec (init 2) (Machine.schedule [
      (8, .main 0), (4, .receiver 1), (1, .main 0), (1, .receiver 1), (1, .main 0), (7, .main 1),
      (6, .receiver 0)]) = some s ∧ s.main 0 = .load ∧ s.main 1 = .send 1 ∧ s.deferred 0 = [1] :=
    ⟨_, rfl, rfl, rfl, rfl⟩
  ⟨s, h₀, hd, (exact_accounting (.of_exec rfl h)).left 1 0 (by decide) (by simp [h₁, Main.InRound])⟩

end RicartAgrawala
