import Concurrencia.Distributed.NeilsenMizuno.Basic
import Mathlib.Order.Nat
import Mathlib.Tactic.SplitIfs

open Function Distributed

namespace NeilsenMizuno

section Step

variable {n : ℕ} {counts : Fin n → ℕ} {s s' : State n} {p : Process n}

-- The steps of a machine with the conditions under which they are taken, one constructor for each
-- way through a statement.
inductive Step (counts : Fin n → ℕ) (s : State n) : Process n → State n → Prop
  | loop (h : s.main i = .loop) (hr : s.round i < counts i) :
    Step counts s (.main i) (s.goto i .lockAcquire)
  | finish (h : s.main i = .loop) (hr : counts i ≤ s.round i) :
    Step counts s (.main i) (s.goto i .done)
  | lockAcquire (h : s.main i = .lockAcquire) (hm : s.mutex i = false) :
    Step counts s (.main i) ({ s with mutex := update s.mutex i true }.goto i .testHolding)
  | testFree (h : s.main i = .testHolding) (ht : s.holding i = false) :
    Step counts s (.main i) (s.goto i .request)
  | testHolding (h : s.main i = .testHolding) (ht : s.holding i = true) :
    Step counts s (.main i) (s.goto i .clearHolding)
  | request (k : Fin n) (h : s.main i = .request) (hp : s.parent i = some k)
    (hk : s.receiver k = .receive) :
    Step counts s (.main i) ((s.turn k (.acquire ⟨i, i⟩)).goto i .clearParent)
  | clearParent (h : s.main i = .clearParent) :
    Step counts s (.main i) ({ s with parent := update s.parent i none }.goto i .await)
  | clearHolding (h : s.main i = .clearHolding) :
    Step counts s (.main i) ({ s with holding := update s.holding i false }.goto i .lockRelease)
  | lockRelease (h : s.main i = .lockRelease) :
    Step counts s (.main i) ({ s with mutex := update s.mutex i false }.goto i .load)
  | load (h : s.main i = .load) :
    Step counts s (.main i) (s.goto i (.store s.counter))
  | store (v : ℕ) (h : s.main i = .store v) :
    Step counts s (.main i) ({ s with counter := v + 1 }.goto i .unlockAcquire)
  | unlockAcquire (h : s.main i = .unlockAcquire) (hm : s.mutex i = false) :
    Step counts s (.main i) ({ s with mutex := update s.mutex i true }.goto i .testDeferred)
  | testNone (h : s.main i = .testDeferred) (hd : s.deferred i = none) :
    Step counts s (.main i) (s.goto i .setHolding)
  | testDeferred (h : s.main i = .testDeferred) (hd : s.deferred i ≠ none) :
    Step counts s (.main i) (s.goto i .reply)
  | reply (k : Fin n) (h : s.main i = .reply) (hd : s.deferred i = some k)
    (hk : s.main k = .await) :
    Step counts s (.main i) ((s.goto k .clearHolding).goto i .clearDeferred)
  | clearDeferred (h : s.main i = .clearDeferred) :
    Step counts s (.main i) ({ s with deferred := update s.deferred i none }.goto i .unlockRelease)
  | setHolding (h : s.main i = .setHolding) :
    Step counts s (.main i) ({ s with holding := update s.holding i true }.goto i .unlockRelease)
  | unlockRelease (h : s.main i = .unlockRelease) :
    Step counts s (.main i) ({ s with
      mutex := update s.mutex i false
      round := update s.round i (s.round i + 1) }.goto i .loop)
  | acquire (m : Message n) (h : s.receiver i = .acquire m) (hm : s.mutex i = false) :
    Step counts s (.receiver i) ({ s with mutex := update s.mutex i true }.turn i (.testParent m))
  | testRoot (m : Message n) (h : s.receiver i = .testParent m) (hp : s.parent i = none) :
    Step counts s (.receiver i) (s.turn i (.testHolding m))
  | testParent (m : Message n) (h : s.receiver i = .testParent m) (hp : s.parent i ≠ none) :
    Step counts s (.receiver i) (s.turn i (.forward m))
  | idle (m : Message n) (h : s.receiver i = .testHolding m) (ht : s.holding i = true) :
    Step counts s (.receiver i) (s.turn i (.reply m))
  | busy (m : Message n) (h : s.receiver i = .testHolding m) (ht : s.holding i = false) :
    Step counts s (.receiver i) (s.turn i (.setDeferred m))
  | grant (m : Message n) (h : s.receiver i = .reply m) (hk : s.main m.originator = .await) :
    Step counts s (.receiver i) ((s.goto m.originator .clearHolding).turn i (.clearHolding m))
  | granted (m : Message n) (h : s.receiver i = .clearHolding m) :
    Step counts s (.receiver i)
      ({ s with holding := update s.holding i false }.turn i (.setParent false m))
  | setDeferred (m : Message n) (h : s.receiver i = .setDeferred m) :
    Step counts s (.receiver i)
      ({ s with deferred := update s.deferred i (some m.originator) }.turn i (.setParent false m))
  | forward (m : Message n) (k : Fin n) (h : s.receiver i = .forward m) (hp : s.parent i = some k)
    (hk : s.receiver k = .receive) :
    Step counts s (.receiver i) ((s.turn k (.acquire ⟨i, m.originator⟩)).turn i (.setParent true m))
  | setParent (b : Bool) (m : Message n) (h : s.receiver i = .setParent b m) :
    Step counts s (.receiver i)
      ({ s with parent := update s.parent i (some m.source) }.turn i .release)
  | release (h : s.receiver i = .release) :
    Step counts s (.receiver i) ({ s with mutex := update s.mutex i false }.turn i .receive)

theorem Step.of_mainStep {i : Fin n} (h : mainStep counts s i = some s') :
    Step counts s (.main i) s' := by
  cases hp : s.main i <;> simp only [mainStep, hp, reduceCtorEq] at h
  case loop =>
    split_ifs at h with hr <;> obtain rfl := Option.some.inj h
    · exact .loop hp hr
    · exact .finish hp (le_of_not_gt hr)
  case testHolding =>
    split_ifs at h with ht <;> obtain rfl := Option.some.inj h
    · exact .testFree hp (by simpa using ht)
    · exact .testHolding hp (by simpa using ht)
  case request =>
    cases hk : s.parent i <;> simp [hk] at h
    obtain ⟨hr, rfl⟩ := h
    exact .request _ hp hk hr
  case testDeferred =>
    split_ifs at h with hd <;> obtain rfl := Option.some.inj h
    · exact .testDeferred hp hd
    · exact .testNone hp (not_not.mp hd)
  case reply =>
    cases hd : s.deferred i <;> simp [hd] at h
    obtain ⟨hk, rfl⟩ := h
    exact .reply _ hp hd hk
  case lockAcquire   =>
    split_ifs at h with hm
    obtain rfl := Option.some.inj h
    exact .lockAcquire hp (by simpa using hm)
  case unlockAcquire =>
    split_ifs at h with hm
    obtain rfl := Option.some.inj h
    exact .unlockAcquire hp (by simpa using hm)
  all_goals obtain rfl := Option.some.inj h
  case clearParent   => exact .clearParent hp
  case clearHolding  => exact .clearHolding hp
  case lockRelease   => exact .lockRelease hp
  case load          => exact .load hp
  case store v       => exact .store v hp
  case clearDeferred => exact .clearDeferred hp
  case setHolding    => exact .setHolding hp
  case unlockRelease => exact .unlockRelease hp

theorem Step.of_receiverStep {i : Fin n} (h : receiverStep s i = some s') :
    Step counts s (.receiver i) s' := by
  cases hp : s.receiver i <;> simp only [receiverStep, hp, reduceCtorEq] at h
  case testParent m =>
    split_ifs at h with hn <;> obtain rfl := Option.some.inj h
    · exact .testRoot m hp hn
    · exact .testParent m hp hn
  case testHolding m =>
    split_ifs at h with ht <;> obtain rfl := Option.some.inj h
    · exact .idle m hp ht
    · exact .busy m hp (by simpa using ht)
  case forward m =>
    cases hk : s.parent i <;> simp [hk] at h
    obtain ⟨hr, rfl⟩ := h
    exact .forward m _ hp hk hr
  case acquire m =>
    split_ifs at h with hm
    obtain rfl := Option.some.inj h
    exact .acquire m hp (by simpa using hm)
  case reply m =>
    split_ifs at h with hk
    obtain rfl := Option.some.inj h
    exact .grant m hp hk
  all_goals obtain rfl := Option.some.inj h
  case clearHolding m => exact .granted m hp
  case setDeferred m  => exact .setDeferred m hp
  case setParent b m  => exact .setParent b m hp
  case release        => exact .release hp

theorem Step.of_step (h : (machine counts).step s p = some s') : Step counts s p s' :=
  match p with
  | .main _     => .of_mainStep h
  | .receiver _ => .of_receiverStep h

end Step

variable {n : ℕ}

namespace Main

def Locked : Main n → Prop
  | testHolding | request | clearParent | await | clearHolding | lockRelease => True
  | testDeferred | reply | clearDeferred | setHolding | unlockRelease => True
  | _ => False

-- `holding` is not set as long as the node is here.
def Lacking : Main n → Prop
  | request | clearParent | await => True
  | lockRelease | load | store _ | unlockAcquire => True
  | testDeferred | reply | clearDeferred | setHolding => True
  | _ => False

end Main

namespace Receiver

def Locked : Receiver n → Prop
  | receive | acquire _ => False
  | _ => True

-- The receiver has not found a parent.
def Rooted : Receiver n → Prop
  | testHolding _ | reply _ | clearHolding _ | setDeferred _ | setParent false _ => True
  | _ => False

def Replying : Receiver n → Prop
  | reply _ | clearHolding _ => True
  | _ => False

end Receiver

variable {counts : Fin n → ℕ} {s s' : State n} {p : Process n} {i j k : Fin n}

-- The use node `i` makes of its mutex, and what it knows in between about its variables.
structure Guarded (s : State n) (i : Fin n) : Prop where
  mutex       : s.mutex i = true ↔ (s.main i).Locked ∨ (s.receiver i).Locked
  exclusive   : (s.main i).Locked → ¬(s.receiver i).Locked
  lacking     : (s.main i).Lacking → s.holding i = false
  idle        : s.holding i = true → s.deferred i = none
  reply       : s.main i = .reply → s.deferred i ≠ none
  setHolding  : s.main i = .setHolding → s.deferred i = none
  rooted      : (s.receiver i).Rooted → s.parent i = none
  replying    : (s.receiver i).Replying → s.holding i = true
  setDeferred : ∀ m, s.receiver i = .setDeferred m → s.holding i = false
  forward     : ∀ m, s.receiver i = .forward m → s.parent i ≠ none

theorem Receiver.Replying.locked {r : Receiver n} (h : r.Replying) : r.Locked := by
  cases r <;> simp_all [Receiver.Replying, Receiver.Locked]

namespace Step

-- What the step of a node does to another one: it may receive a request or the token.
theorem elsewhere (h : Step counts s p s') (hn : i ≠ p.node) :
    (s'.mutex i = s.mutex i ∧ s'.holding i = s.holding i ∧ s'.deferred i = s.deferred i ∧
      s'.parent i = s.parent i) ∧
    (s'.main i = s.main i ∨ s.main i = .await ∧ s'.main i = .clearHolding) ∧
    (s'.receiver i = s.receiver i ∨ s.receiver i = .receive ∧ ∃ m, s'.receiver i = .acquire m) := by
  cases h
  case request k _ _ _ | forward k _ _ _ =>
    by_cases hi : i = k
    case pos => simp_all [Process.node, State.goto, State.turn]
    case neg => simp_all [Process.node, State.goto, State.turn]
  case reply k _ _ _ =>
    by_cases hi : i = k
    case pos => simp_all [Process.node, State.goto]
    case neg => simp_all [Process.node, State.goto]
  case grant m _ _ =>
    by_cases hi : i = m.originator
    case pos => simp_all [Process.node, State.goto, State.turn]
    case neg => simp_all [Process.node, State.goto, State.turn]
  all_goals simp_all [Process.node, State.goto, State.turn]

theorem main_elsewhere {P : Main n → Prop} (h : Step counts s p s') (hn : i ≠ p.node)
    (hP : P .clearHolding ↔ P .await) : P (s'.main i) ↔ P (s.main i) := by
  have ⟨_, hp, _⟩ := h.elsewhere hn
  cases hp
  case inl hp => rw [hp]
  case inr hp => rw [hp.left, hp.right, hP]

theorem receiver_elsewhere {P : Receiver n → Prop} (h : Step counts s p s') (hn : i ≠ p.node)
    (hP : ∀ m, P (.acquire m) ↔ P .receive) : P (s'.receiver i) ↔ P (s.receiver i) := by
  have ⟨_, _, hr⟩ := h.elsewhere hn
  cases hr
  case inl hr => rw [hr]
  case inr hr =>
    have ⟨hr, _, hr'⟩ := hr
    rw [hr, hr', hP]

end Step

namespace Guarded

theorem not_locked (hg : Guarded s i) (h : (s.receiver i).Locked) : ¬(s.main i).Locked :=
  fun hm => hg.exclusive hm h

theorem init (i : Fin n) : Guarded (init n) i := by
  constructor <;>
    simp [NeilsenMizuno.init, Main.Locked, Main.Lacking, Receiver.Locked, Receiver.Rooted,
      Receiver.Replying]

section

variable {f : Fin n → Main n} (hk : f k = .await)
include hk

theorem locked_await : (update f k .clearHolding i).Locked ↔ (f i).Locked :=
  Threads.update_iff (by simp [hk, Main.Locked]) _

theorem main_await {q : Main n} (ha : q ≠ .await) (hc : q ≠ .clearHolding) :
    update f k .clearHolding i = q ↔ f i = q :=
  Threads.update_iff (P := (· = q)) (by simp [hk, ha.symm, hc.symm]) _

theorem lacking_await (h : (update f k .clearHolding i).Lacking) : (f i).Lacking := by
  rcases eq_or_ne i k with rfl | hn
  · simp [hk, Main.Lacking]
  · simpa [hn] using h

end

section

variable {f : Fin n → Receiver n} {m : Message n} (hk : f k = .receive)
include hk

theorem locked_acquire : (update f k (.acquire m) i).Locked ↔ (f i).Locked :=
  Threads.update_iff (by simp [hk, Receiver.Locked]) _

theorem receiver_acquire {q : Receiver n} (hr : q ≠ .receive) (ha : q ≠ .acquire m) :
    update f k (.acquire m) i = q ↔ f i = q :=
  Threads.update_iff (P := (· = q)) (by simp [hk, hr.symm, ha.symm]) _

theorem rooted_acquire : (update f k (.acquire m) i).Rooted ↔ (f i).Rooted :=
  Threads.update_iff (by simp [hk, Receiver.Rooted]) _

theorem replying_acquire : (update f k (.acquire m) i).Replying ↔ (f i).Replying :=
  Threads.update_iff (by simp [hk, Receiver.Replying]) _

end

-- The step of another node leaves node `i` alone, but for the messages.
theorem elsewhere (hi : Guarded s i) (h : Step counts s p s') (hn : i ≠ p.node) :
    Guarded s' i := by
  have ⟨⟨hm, hh, hd, hp⟩, hq, _⟩ := h.elsewhere hn
  have hl := h.main_elsewhere (P := Main.Locked) hn .rfl
  have hl' := h.receiver_elsewhere (P := Receiver.Locked) hn fun _ => .rfl
  constructor
  case mutex       => rw [hm, hl, hl', hi.mutex]
  case exclusive   => rw [hl, hl']; exact hi.exclusive
  case idle        => rw [hh, hd]; exact hi.idle
  case reply       => rw [hd, h.main_elsewhere (P := (· = .reply)) hn (by simp)]; exact hi.reply
  case setHolding  =>
    rw [hd, h.main_elsewhere (P := (· = .setHolding)) hn (by simp)]
    exact hi.setHolding
  case rooted      =>
    rw [hp, h.receiver_elsewhere (P := Receiver.Rooted) hn fun _ => .rfl]
    exact hi.rooted
  case replying    =>
    rw [hh, h.receiver_elsewhere (P := Receiver.Replying) hn fun _ => .rfl]
    exact hi.replying
  case setDeferred =>
    intro m
    rw [hh, h.receiver_elsewhere (P := (· = .setDeferred m)) hn (by simp)]
    exact hi.setDeferred m
  case forward     =>
    intro m
    rw [hp, h.receiver_elsewhere (P := (· = .forward m)) hn (by simp)]
    exact hi.forward m
  case lacking     =>
    rw [hh]
    cases hq
    case inl hq => rw [hq]; exact hi.lacking
    case inr hq => rw [hq.right]; exact False.elim

section

variable (hi : Guarded s p.node) (h : Step counts s p s')
include hi h

theorem step_mutex :
    s'.mutex p.node = true ↔ (s'.main p.node).Locked ∨ (s'.receiver p.node).Locked := by
  have hm := hi.mutex
  have hx := hi.exclusive
  cases p
  case main =>
    cases h <;> simp_all [Process.node, State.goto, State.turn, Main.Locked, locked_acquire]
  case receiver =>
    cases h <;> simp_all [Process.node, State.turn, State.goto, Receiver.Locked, locked_await]

theorem step_exclusive : (s'.main p.node).Locked → ¬(s'.receiver p.node).Locked := by
  have hm := hi.mutex
  have hx := hi.exclusive
  cases p
  case main =>
    cases h <;> simp_all [Process.node, State.goto, State.turn, Main.Locked, locked_acquire]
  case receiver =>
    cases h <;> simp_all [Process.node, State.turn, State.goto, Receiver.Locked, locked_await]

theorem step_lacking : (s'.main p.node).Lacking → s'.holding p.node = false := by
  have hl := hi.lacking
  cases p
  case main => cases h <;> simp_all [Process.node, State.goto, State.turn, Main.Lacking]
  case receiver =>
    cases h <;> simp_all [Process.node, State.turn, State.goto]
    case grant => exact fun h => hl (lacking_await ‹_› h)

theorem step_idle : s'.holding p.node = true → s'.deferred p.node = none := by
  have hd := hi.idle
  have hs := hi.setHolding
  have hb := hi.setDeferred
  cases p
  case main     => cases h <;> simp_all [Process.node, State.goto, State.turn]
  case receiver => cases h <;> simp_all [Process.node, State.turn, State.goto]

theorem step_reply : s'.main p.node = .reply → s'.deferred p.node ≠ none := by
  have hr := hi.reply
  cases p
  case main     => cases h <;> simp_all [Process.node, State.goto, State.turn]
  case receiver => cases h <;> simp_all [Process.node, State.turn, State.goto, main_await]

theorem step_setHolding : s'.main p.node = .setHolding → s'.deferred p.node = none := by
  have hs := hi.setHolding
  have hx := hi.exclusive
  cases p
  case main => cases h <;> simp_all [Process.node, State.goto, State.turn]
  case receiver =>
    cases h <;> simp_all [Process.node, State.turn, State.goto, main_await, Receiver.Locked]
    case setDeferred =>
      intro hm
      simp [hm, Main.Locked] at hx

theorem step_rooted : (s'.receiver p.node).Rooted → s'.parent p.node = none := by
  have hr := hi.rooted
  cases p
  case main => cases h <;> simp_all [Process.node, State.goto, State.turn, rooted_acquire]
  case receiver =>
    cases h <;> simp_all [Process.node, State.turn, State.goto, Receiver.Rooted]

theorem step_replying : (s'.receiver p.node).Replying → s'.holding p.node = true := by
  have hr := hi.replying
  have hx := hi.exclusive
  cases p
  case main =>
    cases h <;> simp_all [Process.node, State.goto, State.turn, replying_acquire]
    case clearHolding => exact fun h => hx trivial h.locked
  case receiver =>
    cases h <;> simp_all [Process.node, State.turn, State.goto, Receiver.Replying]

theorem step_setDeferred (m : Message n) :
    s'.receiver p.node = .setDeferred m → s'.holding p.node = false := by
  have hr := hi.setDeferred m
  have hx := hi.exclusive
  cases p
  case main =>
    cases h <;> simp_all [Process.node, State.goto, State.turn, receiver_acquire]
    case setHolding => exact fun h => hx trivial (by simp [h, Receiver.Locked])
  case receiver => cases h <;> simp_all [Process.node, State.turn, State.goto]

theorem step_forward (m : Message n) :
    s'.receiver p.node = .forward m → s'.parent p.node ≠ none := by
  have hr := hi.forward m
  have hx := hi.exclusive
  cases p
  case main =>
    cases h <;> simp_all [Process.node, State.goto, State.turn, receiver_acquire]
    case clearParent => exact fun h => hx trivial (by simp [h, Receiver.Locked])
  case receiver => cases h <;> simp_all [Process.node, State.turn, State.goto]

end

theorem step (hi : Guarded s i) (h : Step counts s p s') : Guarded s' i := by
  by_cases hn : i = p.node
  case neg => exact hi.elsewhere h hn
  case pos =>
    subst hn
    exact {
      mutex       := hi.step_mutex h
      exclusive   := hi.step_exclusive h
      lacking     := hi.step_lacking h
      idle        := hi.step_idle h
      reply       := hi.step_reply h
      setHolding  := hi.step_setHolding h
      rooted      := hi.step_rooted h
      replying    := hi.step_replying h
      setDeferred := hi.step_setDeferred h
      forward     := hi.step_forward h }

theorem of_reachable (r : (machine counts).Reachable s) (i : Fin n) : Guarded s i := by
  refine r.invariant (I := (Guarded · i)) ?init ?step
  case init => rintro _ rfl; exact .init i
  case step => exact fun _ _ _ _ hi h => hi.step (.of_step h)

end Guarded

end NeilsenMizuno
