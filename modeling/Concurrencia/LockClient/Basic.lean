import Concurrencia.Machine.Basic
import Concurrencia.Threads.Basic
import Concurrencia.Threads.Count
import Mathlib.Data.Nat.Count

open Function

-- A program whose threads count together. Each of them runs a loop, and in each round it calls
-- `lock`, increments a shared counter by a load and a store, and calls `unlock`. There may be many
-- counters, and rounds which only read one.
namespace LockClient

-- Where a thread is with respect to the lock. It is `inside` when it has returned from `lock`.
inductive Stage
  | idle | locking | inside | unlocking
  deriving DecidableEq

-- A call of `unlock` may be a single step.
inductive Stage.Next : Stage → Stage → Prop
  | stay : Next g g
  | lock : Next .idle .locking
  | enter : Next .locking .inside
  | unlock : Next .inside .unlocking
  | free : Next .inside .idle
  | leave : Next .unlocking .idle

-- What a client relies on: the stages of a thread follow each other, and one thread is inside.
structure Lock {σ α ι : Type*} (m : Machine σ α) (stage : σ → ι → Stage) : Prop where
  init : ∀ {s t}, m.init s → stage s t = .idle
  step : ∀ {s a s' t}, m.step s a = some s' → Stage.Next (stage s t) (stage s' t)
  unique : ∀ {s t u}, m.Reachable s → stage s t = .inside → stage s u = .inside → t = u

-- Steps in which no thread begins a call.
inductive Quiet {σ α ι : Type*} (m : Machine σ α) (stage : σ → ι → Stage) : σ → σ → Prop
  | refl : Quiet m stage l l
  | step : (m.step l₁ a = some l₂) →
    (∀ t, stage l₁ t = .idle ∨ stage l₁ t = .inside → stage l₂ t = stage l₁ t) →
    (Quiet m stage l₂ l₃) → Quiet m stage l₁ l₃

-- A thread can begin a call, and the calls go on while no thread is inside.
structure Live {σ α ι : Type*} (m : Machine σ α) (stage : σ → ι → Stage) : Prop where
  call : ∀ {s t}, m.Reachable s → stage s t = .idle ∨ stage s t = .inside →
    ∃ a s', m.step s a = some s' ∧ ∀ u, stage s' u ≠ stage s u ↔ u = t
  work : ∀ {s t}, m.Reachable s → (∀ u, stage s u ≠ .inside) → stage s t ≠ .idle →
    ∃ s', Quiet m stage s s' ∧ ∃ u, stage s' u ≠ stage s u

section Steps

variable {σ α ι : Type*} {m : Machine σ α} {stage : σ → ι → Stage} {s s₁ s₂ s₃ : σ} {a : α} {t : ι}

theorem Stage.Next.update [DecidableEq ι] {β : Type*} {f : ι → β} {g : β → Stage} {p : β}
    (h : Stage.Next (g (f t)) (g p)) (u : ι) : Stage.Next (g (f u)) (g (update f t p u)) := by
  by_cases hu : u = t
  case pos => simpa [hu]
  case neg =>
    rw [update_of_ne hu]
    exact .stay

theorem Quiet.cons (hs : m.step s₁ a = some s₂) (ht : stage s₁ t = .locking ∨ stage s₁ t = .unlocking)
    (hu : ∀ u ≠ t, stage s₂ u = stage s₁ u) (h : Quiet m stage s₂ s₃) : Quiet m stage s₁ s₃ := by
  refine .step hs (fun u hi => hu u ?_) h
  rintro rfl
  obtain ht | ht := ht
  all_goals simp [ht] at hi

-- The calls go on if each step of them which does not lead to the next stage decreases a measure.
theorem work_of_decreasing {β : Type*} [LT β] [WellFoundedLT β] (μ : σ → β)
    (step : ∀ s, m.Reachable s → (∀ u, stage s u ≠ .inside) → (∃ t, stage s t ≠ .idle) →
      ∃ a s' t, m.step s a = some s' ∧ (stage s t = .locking ∨ stage s t = .unlocking) ∧
        (∀ u ≠ t, stage s' u = stage s u) ∧ (stage s' t = stage s t → μ s' < μ s))
    (r : m.Reachable s) (hn : ∀ u, stage s u ≠ .inside) (ht : stage s t ≠ .idle) :
    ∃ s', Quiet m stage s s' ∧ ∃ u, stage s' u ≠ stage s u := by
  induction s using (InvImage.wf μ wellFounded_lt).induction
  case h s hi =>
    have ⟨a, s', v, hs, hv, hu, hlt⟩ := step s r hn ⟨t, ht⟩
    by_cases he : stage s' v = stage s v
    case neg => exact ⟨s', .cons hs hv hu .refl, v, he⟩
    case pos =>
      have hs' (u : ι) : stage s' u = stage s u := by
        by_cases huv : u = v
        case pos => rw [huv, he]
        case neg => exact hu u huv
      have ⟨s'', q, w, hw⟩ := hi s' (hlt he) (r.step hs) (by simpa [hs'] using hn) (by rwa [hs'])
      exact ⟨s'', .cons hs hv hu q, w, by rwa [← hs' w]⟩

end Steps

section Moves

variable {σ α ι β : Type*} [DecidableEq ι] {m : Machine σ α} {pc : σ → ι → β} {g : β → Stage}

-- Some step takes thread `t` to `p`, and leaves the others where they are.
def Moves (m : Machine σ α) (pc : σ → ι → β) (s : σ) (t : ι) (p : β) : Prop :=
  ∃ a s', m.step s a = some s' ∧ pc s' = update (pc s) t p

theorem Lock.of_moves (init : ∀ {s t}, m.init s → g (pc s t) = .idle)
    (step : ∀ {s a s'}, m.step s a = some s' →
      ∃ t p, pc s' = update (pc s) t p ∧ Stage.Next (g (pc s t)) (g p))
    (unique : ∀ {s t u}, m.Reachable s → g (pc s t) = .inside → g (pc s u) = .inside → t = u) :
    Lock m fun s t => g (pc s t) where
  init := init
  step hs := by
    have ⟨t, p, hp, hn⟩ := step hs
    rw [hp]
    exact hn.update _
  unique := unique

-- The calls go on if some thread always has a move to its next stage, or one which decreases its
-- rank.
theorem Live.of_moves [Fintype ι] (rank : β → ℕ)
    (call : ∀ {s t}, m.Reachable s → g (pc s t) = .idle ∨ g (pc s t) = .inside →
      ∃ p, Moves m pc s t p ∧ g p ≠ g (pc s t))
    (work : ∀ {s}, m.Reachable s → (∀ t, g (pc s t) ≠ .inside) → (∃ t, g (pc s t) ≠ .idle) →
      ∃ t p, Moves m pc s t p ∧ (g (pc s t) = .locking ∨ g (pc s t) = .unlocking) ∧
        (g p = g (pc s t) → rank p < rank (pc s t))) :
    Live m fun s t => g (pc s t) where
  call {s t} r ht := by
    have ⟨p, ⟨a, s', hs, hp⟩, hn⟩ := call r ht
    refine ⟨a, s', hs, fun u => ?_⟩
    rw [hp]
    by_cases hu : u = t
    case pos => simpa [hu]
    case neg => simp [hu]
  work {s t} r hn ht := by
    refine @work_of_decreasing σ α ι m (fun s t => g (pc s t)) s t ℕ _ _
      (fun s => ∑ t, rank (pc s t)) (fun s r hn ht => ?_) r hn ht
    have ⟨t, p, ⟨a, s', hs, hp⟩, hg, hr⟩ := work r hn ht
    refine ⟨a, s', t, hs, hg, fun u hu => by rw [hp, update_of_ne hu], fun he => ?_⟩
    have hlt := hr (by rwa [hp, update_self] at he)
    have := Threads.sum_update (f := pc s) (i := t) (p := p) (g := rank)
    rw [hp]
    omega

end Moves

-- The accesses of the increment. The arguments of `store` are the counter and the value which has
-- been loaded. A thread is at `stored` as well when it only reads and has done so.
inductive Pc (κ : Type*)
  | outside | load | store (k : κ) (counter : ℕ) | stored
  deriving DecidableEq

-- The loop variable `i` belongs to the thread.
structure Thread (κ : Type*) where
  pc : Pc κ
  i : ℕ
  deriving DecidableEq

variable {κ : Type*} [DecidableEq κ]

namespace Thread

-- The thread calls `lock` if its loop has not ended, and `unlock` after the increment.
def Calls (th : Thread κ) (max : ℕ) (g g' : Stage) : Prop :=
  g ≠ g' → (g = .idle → th.i < max) ∧ (g = .inside → th.pc = .stored)

instance {th : Thread κ} {max : ℕ} {g g' : Stage} : Decidable (th.Calls max g g') :=
  inferInstanceAs (Decidable (_ → _))

-- The thread goes on when its call returns.
def follow (th : Thread κ) : Stage → Stage → Thread κ
  | .locking, .inside => { th with pc := .load }
  | .inside, .idle    => ⟨.outside, th.i + 1⟩
  | .unlocking, .idle => ⟨.outside, th.i + 1⟩
  | _, _              => th

-- The increments of counter `k` which the thread has completed.
def done (cell : ℕ → Option κ) (k : κ) (th : Thread κ) : ℕ :=
  Nat.count (cell · = some k) th.i + if th.pc = .stored ∧ cell th.i = some k then 1 else 0

end Thread

structure State (σ ι κ : Type*) where
  lock : σ
  thread : ι → Thread κ
  counter : κ → ℕ

inductive Label (α ι : Type*)
  | lock (a : α)
  | count (t : ι)

variable {σ α ι : Type*} [DecidableEq ι] [Fintype ι]

-- The programs with one counter, which is incremented in each round.
def single (_ : ℕ) : Option Unit :=
  some ()

def countStep (cell : ℕ → Option κ) (s : State σ ι κ) (t : ι) : Option (State σ ι κ) :=
  match (s.thread t).pc with
  | .load      =>
    some { s with thread := update s.thread t { s.thread t with
      pc := match cell (s.thread t).i with
        | some k => .store k (s.counter k)
        | none   => .stored } }
  | .store k c =>
    some { s with counter := update s.counter k (c + 1),
                  thread := update s.thread t { s.thread t with pc := .stored } }
  | .outside   => none
  | .stored    => none

def machine (m : Machine σ α) (stage : σ → ι → Stage) (cell : ℕ → Option κ) (max : ℕ) :
    Machine (State σ ι κ) (Label α ι) where
  init s := m.init s.lock ∧ s.thread = (fun _ => ⟨.outside, 0⟩) ∧ s.counter = fun _ => 0
  step s
    | .lock a  => (m.step s.lock a).bind fun l =>
      if ∀ t, (s.thread t).Calls max (stage s.lock t) (stage l t) then
        some ⟨l, fun t => (s.thread t).follow (stage s.lock t) (stage l t), s.counter⟩
      else none
    | .count t => countStep cell s t

-- All the threads have been joined.
def Finished (stage : σ → ι → Stage) (max : ℕ) (s : State σ ι κ) : Prop :=
  ∀ t, stage s.lock t = .idle ∧ (s.thread t).i = max

instance {stage : σ → ι → Stage} {max : ℕ} {s : State σ ι κ} : Decidable (Finished stage max s) :=
  inferInstanceAs (Decidable (∀ _, _ ∧ _))

-- The client starts with a lock in its initial state.
def start (l : σ) : State σ ι κ where
  lock      := l
  thread _  := ⟨.outside, 0⟩
  counter _ := 0

theorem reachable_of_exec {m : Machine σ α} {stage : σ → ι → Stage} {cell : ℕ → Option κ}
    {max : ℕ} {s : State σ ι κ} {l : σ} {as : List (Label α ι)} (hl : m.init l)
    (h : (machine m stage cell max).exec (start l) as = some s) :
    (machine m stage cell max).Reachable s :=
  .of_exec ⟨hl, rfl, rfl⟩ h

theorem lock_step {m : Machine σ α} {stage : σ → ι → Stage} {cell : ℕ → Option κ} {max : ℕ}
    {s s' : State σ ι κ} {a : α} :
    (machine m stage cell max).step s (.lock a) = some s' ↔
    ∃ l, m.step s.lock a = some l ∧ (∀ t, (s.thread t).Calls max (stage s.lock t) (stage l t)) ∧
      s' = ⟨l, fun t => (s.thread t).follow (stage s.lock t) (stage l t), s.counter⟩ := by
  simp only [machine, Option.bind_eq_some_iff, Option.ite_none_right_eq_some, Option.some.injEq]
  simp only [eq_comm]

theorem count_step {m : Machine σ α} {stage : σ → ι → Stage} {cell : ℕ → Option κ} {max : ℕ}
    {s s' : State σ ι κ} {t : ι} (h : (machine m stage cell max).step s (.count t) = some s') :
    s'.lock = s.lock ∧ ∀ u, (s'.thread u).i = (s.thread u).i := by
  cases hp : (s.thread t).pc <;> simp only [machine, countStep, hp] at h <;> cases h
  all_goals
    refine ⟨rfl, fun u => ?_⟩
    by_cases hu : u = t
    case pos => simp [hu]
    case neg => simp [hu]

-- How the stage of a thread fits to its program point.
def Thread.Fits (cell : ℕ → Option κ) (max : ℕ) (counter : κ → ℕ) (th : Thread κ) : Stage → Prop
  | .idle      => th.pc = .outside ∧ th.i ≤ max
  | .locking   => th.pc = .outside ∧ th.i < max
  | .inside    => (th.pc = .load ∨ (∃ k, cell th.i = some k ∧ th.pc = .store k (counter k)) ∨
    th.pc = .stored) ∧ th.i < max
  | .unlocking => th.pc = .stored ∧ th.i < max

namespace Thread

variable {cell : ℕ → Option κ} {th : Thread κ} {max : ℕ} {c d : κ → ℕ} {k : κ} {g g' : Stage}

theorem done_of_outside (h : th.pc = .outside) : th.done cell k = Nat.count (cell · = some k) th.i := by
  simp [done, h]

theorem done_of_stored (h : th.pc = .stored) :
    th.done cell k = Nat.count (cell · = some k) (th.i + 1) := by
  simp [done, h, Nat.count_succ]

omit [DecidableEq κ] in
theorem Fits.follow (h : th.Fits cell max c g) (hn : g.Next g') (hc : th.Calls max g g') :
    (th.follow g g').Fits cell max c g' := by
  cases hn
  case stay   => cases g <;> exact h
  case lock   => exact ⟨h.left, (hc (by simp)).left rfl⟩
  case enter  => exact ⟨.inl rfl, h.right⟩
  case unlock => exact ⟨(hc (by simp)).right rfl, h.right⟩
  case free   => exact ⟨rfl, h.right⟩
  case leave  => exact ⟨rfl, h.right⟩

-- The round is counted when the increment is done.
theorem Fits.done_follow (h : th.Fits cell max c g) (hn : g.Next g') (hc : th.Calls max g g') :
    (th.follow g g').done cell k = th.done cell k := by
  cases hn
  case stay   => cases g <;> rfl
  case lock   => rfl
  case unlock => rfl
  case enter  => simp [Thread.follow, done, h.left]
  case free   => exact (done_of_stored ((hc (by simp)).right rfl)).symm ▸ done_of_outside rfl
  case leave  => exact (done_of_stored h.left).symm ▸ done_of_outside rfl

omit [DecidableEq κ] in
theorem i_le_follow : th.i ≤ (th.follow g g').i := by
  cases g <;> cases g' <;> simp [Thread.follow]

omit [DecidableEq κ] in
-- Only the thread inside knows the values of the counters.
theorem Fits.of_not_inside (h : th.Fits cell max c g) (hg : g ≠ .inside) : th.Fits cell max d g := by
  cases g
  case inside => exact absurd rfl hg
  all_goals exact h

omit [DecidableEq κ] in
theorem Fits.inside (h : th.Fits cell max c g) (ho : th.pc ≠ .outside) (hs : th.pc ≠ .stored) :
    g = .inside := by
  cases g
  case inside => rfl
  case unlocking => exact absurd h.left hs
  all_goals exact absurd h.left ho

end Thread

structure Inv (stage : σ → ι → Stage) (cell : ℕ → Option κ) (max : ℕ) (s : State σ ι κ) : Prop where
  fits : ∀ t, (s.thread t).Fits cell max s.counter (stage s.lock t)
  counter : ∀ k, s.counter k = ∑ t, (s.thread t).done cell k

variable {m : Machine σ α} {stage : σ → ι → Stage} {cell : ℕ → Option κ} {max : ℕ}
variable {s s' : State σ ι κ} {a : α} {t : ι} {k : κ}

namespace Inv

theorem init (h : Lock m stage) (hi : (machine m stage cell max).init s) :
    Inv stage cell max s where
  fits t := by
    rw [h.init hi.left, hi.right.left]
    exact ⟨rfl, Nat.zero_le _⟩
  counter := by simp [hi.right.left, hi.right.right, Thread.done]

theorem lock (hi : Inv stage cell max s) (h : Lock m stage)
    (hs : (machine m stage cell max).step s (.lock a) = some s') : Inv stage cell max s' := by
  obtain ⟨l, hl, hc, rfl⟩ := lock_step.mp hs
  constructor
  case fits => exact fun t => (hi.fits t).follow (h.step hl) (hc t)
  case counter =>
    intro k
    rw [hi.counter]
    exact Finset.sum_congr rfl fun t _ => ((hi.fits t).done_follow (h.step hl) (hc t)).symm

-- What the thread inside does to the counters is seen by no other thread.
theorem access {p : Pc κ} {c : κ → ℕ} (hi : Inv stage cell max s) (h : Lock m stage)
    (r : m.Reachable s.lock) (hg : stage s.lock t = .inside)
    (hp : p = .load ∨ (∃ k, cell (s.thread t).i = some k ∧ p = .store k (c k)) ∨ p = .stored)
    (hc : ∀ k, c k + (s.thread t).done cell k =
      s.counter k + { s.thread t with pc := p : Thread κ }.done cell k) :
    Inv stage cell max
      { s with counter := c, thread := update s.thread t { s.thread t with pc := p } } where
  fits u := by
    by_cases hu : u = t
    case pos =>
      subst hu
      have hf := hi.fits u
      rw [hg] at hf
      simp only [update_self, hg]
      exact ⟨hp, hf.right⟩
    case neg =>
      have hn : stage s.lock u ≠ .inside := fun hn => hu (h.unique r hn hg)
      simpa [hu] using (hi.fits u).of_not_inside hn
  counter k := by
    have hd := Threads.sum_update (f := s.thread) (i := t) (g := Thread.done cell k)
      (p := { s.thread t with pc := p })
    have hs := hi.counter k
    have := hc k
    show c k = ∑ u, (update s.thread t { s.thread t with pc := p } u).done cell k
    omega

theorem count (hi : Inv stage cell max s) (h : Lock m stage) (r : m.Reachable s.lock)
    (hs : countStep cell s t = some s') : Inv stage cell max s' := by
  have hf := hi.fits t
  cases hp : (s.thread t).pc <;> simp only [countStep, hp] at hs
  case outside => cases hs
  case stored  => cases hs
  case load =>
    have hg := hf.inside (by simp [hp]) (by simp [hp])
    cases hs
    cases hk : cell (s.thread t).i
    case none =>
      exact hi.access h r hg (.inr (.inr rfl)) fun k => by simp [Thread.done, hp, hk]
    case some k =>
      exact hi.access h r hg (.inr (.inl ⟨k, hk, rfl⟩)) fun k => by simp [Thread.done, hp]
  case store k c =>
    have hg := hf.inside (by simp [hp]) (by simp [hp])
    obtain ⟨hk, rfl⟩ : cell (s.thread t).i = some k ∧ c = s.counter k := by
      rw [hg] at hf
      obtain hl | ⟨j, hj, hl⟩ | hl := hf.left <;> simp [hp] at hl
      obtain ⟨rfl, rfl⟩ := hl
      exact ⟨hj, rfl⟩
    cases hs
    refine hi.access h r hg (.inr (.inr rfl)) fun j => ?_
    by_cases hj : j = k
    case pos =>
      subst hj
      simp only [Thread.done, hp, hk, update_self]
      simp
      omega
    case neg =>
      have hkj : k ≠ j := Ne.symm hj
      simp [Thread.done, hp, hk, hj, hkj]

end Inv

theorem lock_reachable (r : (machine m stage cell max).Reachable s) : m.Reachable s.lock := by
  refine r.invariant (I := fun s => m.Reachable s.lock) (fun s h => .init h.left) ?_
  intro s₁ a s₂ _ r hs
  cases a
  case lock a =>
    obtain ⟨l, hl, _, rfl⟩ := lock_step.mp hs
    exact r.step hl
  case count t =>
    rw [(count_step hs).left]
    exact r

theorem inv (h : Lock m stage) (r : (machine m stage cell max).Reachable s) :
    Inv stage cell max s := by
  refine r.invariant (fun s => Inv.init h) ?_
  intro s₁ a s₂ r hi hs
  cases a
  case lock  => exact hi.lock h hs
  case count => exact hi.count h (lock_reachable r) hs

-- No increment gets lost.
theorem counter_eq (h : Lock m stage) (r : (machine m stage cell max).Reachable s) :
    s.counter k = ∑ t, (s.thread t).done cell k :=
  (inv h r).counter k

theorem counter_eq_of_finished (h : Lock m stage) (r : (machine m stage cell max).Reachable s)
    (hf : Finished stage max s) :
    s.counter k = Fintype.card ι * Nat.count (cell · = some k) max := by
  have hi := inv h r
  have hd (t : ι) : (s.thread t).done cell k = Nat.count (cell · = some k) max := by
    have ht := hi.fits t
    rw [(hf t).left] at ht
    rw [Thread.done_of_outside ht.left, (hf t).right]
  rw [hi.counter]
  simp [hd]

theorem single_eq_of_finished {s : State σ ι Unit} (h : Lock m stage)
    (r : (machine m stage single max).Reachable s) (hf : Finished stage max s) :
    s.counter () = Fintype.card ι * max := by
  simpa [single] using counter_eq_of_finished (k := ()) h r hf

-- The number of stages and accesses a thread has before it, or more.
def Thread.remaining (th : Thread κ) (max : ℕ) (g : Stage) : ℕ :=
  6 * (max - th.i) - match g with
    | .idle      => 0
    | .locking   => 1
    | .unlocking => 5
    | .inside    => match th.pc with
      | .load     => 2
      | .store .. => 3
      | _         => 4

omit [DecidableEq κ] in
theorem Thread.Fits.remaining_follow {th : Thread κ} {c : κ → ℕ} {g g' : Stage}
    (h : th.Fits cell max c g)
    (hn : g.Next g') (hc : th.Calls max g g') (hg : g ≠ g') :
    (th.follow g g').remaining max g' < th.remaining max g := by
  cases hn
  case stay => exact absurd rfl hg
  case lock =>
    have := (hc (by simp)).left rfl
    simp only [Thread.follow, Thread.remaining]
    omega
  case free =>
    have hp : th.pc = .stored := (hc (by simp)).right rfl
    have := h.right
    simp only [Thread.follow, Thread.remaining, hp]
    omega
  case unlock =>
    have hp : th.pc = .stored := (hc (by simp)).right rfl
    have := h.right
    simp only [Thread.follow, Thread.remaining, hp]
    omega
  all_goals
    have := h.right
    simp only [Thread.follow, Thread.remaining]
    omega

def State.remaining (stage : σ → ι → Stage) (max : ℕ) (s : State σ ι κ) : ℕ :=
  ∑ t, (s.thread t).remaining max (stage s.lock t)

-- The step of the lock, if it is one which the client allows.
theorem exists_lock_step {l : σ} (h : Lock m stage) (hi : Inv stage cell max s)
    (hl : m.step s.lock a = some l)
    (hc : ∀ t, (s.thread t).Calls max (stage s.lock t) (stage l t)) :
    ∃ s', (machine m stage cell max).step s (.lock a) = some s' ∧ s'.lock = l ∧
      s'.remaining stage max ≤ s.remaining stage max ∧
      ((∃ t, stage l t ≠ stage s.lock t) → s'.remaining stage max < s.remaining stage max) := by
  have hn (t : ι) : stage s.lock t ≠ stage l t → _ :=
    (hi.fits t).remaining_follow (h.step hl) (hc t)
  have hle (t : ι) : ((s.thread t).follow (stage s.lock t) (stage l t)).remaining max (stage l t) ≤
      (s.thread t).remaining max (stage s.lock t) := by
    by_cases hg : stage s.lock t = stage l t
    case pos =>
      rw [hg]
      cases stage l t <;> exact Nat.le_refl _
    case neg => exact (hn t hg).le
  refine ⟨⟨l, fun t => (s.thread t).follow (stage s.lock t) (stage l t), s.counter⟩,
    lock_step.mpr ⟨l, hl, hc, rfl⟩, rfl, Finset.sum_le_sum fun t _ => hle t, ?_⟩
  rintro ⟨t, ht⟩
  exact Finset.sum_lt_sum (fun t _ => hle t) ⟨t, Finset.mem_univ t, hn t ht.symm⟩

theorem exists_quiet_run {l : σ} (h : Lock m stage) (r : (machine m stage cell max).Reachable s)
    (q : Quiet m stage s.lock l) :
    ∃ as s', (machine m stage cell max).Run s as s' ∧ s'.lock = l ∧
      s'.remaining stage max ≤ s.remaining stage max ∧
      ((∃ t, stage l t ≠ stage s.lock t) → s'.remaining stage max < s.remaining stage max) := by
  generalize hs : s.lock = l₁ at q
  induction q generalizing s
  case refl => exact ⟨[], s, .refl, hs, Nat.le_refl _, fun ⟨t, ht⟩ => absurd rfl ht⟩
  case step l₁ a l₂ l₃ hl hq _ hi =>
    subst hs
    have hc (t : ι) : (s.thread t).Calls max (stage s.lock t) (stage l₂ t) := by
      intro hn
      exact ⟨fun hg => absurd (hq t (.inl hg)).symm hn, fun hg => absurd (hq t (.inr hg)).symm hn⟩
    obtain ⟨s₂, hs, rfl, hle, hlt⟩ := exists_lock_step h (inv h r) hl hc
    obtain ⟨as, s₃, hr, hl₃, hle', hlt'⟩ := hi (r.step hs) rfl
    refine ⟨_, s₃, .step hs hr, hl₃, hle'.trans hle, ?_⟩
    intro ⟨t, ht⟩
    by_cases he : stage s₂.lock t = stage s.lock t
    case pos => exact (hlt' ⟨t, he.symm ▸ ht⟩).trans_le hle
    case neg => exact hle'.trans_lt (hlt ⟨t, he⟩)

theorem exists_count_step (hi : Inv stage cell max s) (hg : stage s.lock t = .inside)
    (hp : (s.thread t).pc ≠ .stored) :
    ∃ s', (machine m stage cell max).step s (.count t) = some s' ∧
      s'.remaining stage max < s.remaining stage max := by
  have hf := hi.fits t
  rw [hg] at hf
  have hlt {p : Pc κ} (h : { s.thread t with pc := p : Thread κ }.remaining max .inside <
      (s.thread t).remaining max .inside) :
      ∑ u, (update s.thread t { s.thread t with pc := p } u).remaining max (stage s.lock u) <
      ∑ u, (s.thread u).remaining max (stage s.lock u) := by
    refine Finset.sum_lt_sum ?_ ⟨t, Finset.mem_univ t, by simpa [hg] using h⟩
    intro u _
    by_cases hu : u = t
    case pos =>
      subst hu
      simpa [hg] using h.le
    case neg => simp [hu]
  have hi' := hf.right
  obtain hp' | ⟨k, _, hp'⟩ | hp' := hf.left
  case inl =>
    refine ⟨{ s with thread := update s.thread t { s.thread t with
        pc := match cell (s.thread t).i with | some k => .store k (s.counter k) | none => .stored } },
      by simp [machine, countStep, hp'], hlt ?_⟩
    cases cell (s.thread t).i
    all_goals
      simp only [Thread.remaining, hp']
      omega
  case inr.inl =>
    refine ⟨⟨s.lock, update s.thread t { s.thread t with pc := .stored },
        update s.counter k (s.counter k + 1)⟩,
      by simp [machine, countStep, hp'], hlt ?_⟩
    simp only [Thread.remaining, hp']
    omega
  case inr.inr => exact absurd hp' hp

-- A thread which is idle calls `lock`, and one which has incremented the counter calls `unlock`.
theorem exists_call_step (h : Lock m stage) (hl : Live m stage)
    (r : (machine m stage cell max).Reachable s)
    (ht : stage s.lock t = .idle ∧ (s.thread t).i < max ∨
      stage s.lock t = .inside ∧ (s.thread t).pc = .stored) :
    ∃ a s', (machine m stage cell max).step s a = some s' ∧
      s'.remaining stage max < s.remaining stage max := by
  have ⟨a, l, hs, hu⟩ := hl.call (lock_reachable r) (ht.imp And.left And.left)
  have hc (u : ι) : (s.thread u).Calls max (stage s.lock u) (stage l u) := by
    intro hn
    obtain rfl := (hu u).mp hn.symm
    cases ht
    case inl ht => exact ⟨fun _ => ht.right, fun hg => by simp [ht.left] at hg⟩
    case inr ht => exact ⟨fun hg => by simp [ht.left] at hg, fun _ => ht.right⟩
  have ⟨s', hs, _, _, hlt⟩ := exists_lock_step h (inv h r) hs hc
  exact ⟨_, s', hs, hlt ⟨t, (hu t).mpr rfl⟩⟩

-- The program can always be brought to its end.
theorem exists_finished (h : Lock m stage) (hl : Live m stage)
    (r : (machine m stage cell max).Reachable s) :
    ∃ as s', (machine m stage cell max).Run s as s' ∧ Finished stage max s' := by
  generalize hk : s.remaining stage max = k
  induction k using Nat.strong_induction_on generalizing s
  case h k hi =>
    subst hk
    have next {as s'} (hr : (machine m stage cell max).Run s as s')
        (hlt : s'.remaining stage max < s.remaining stage max) :
        ∃ as s', (machine m stage cell max).Run s as s' ∧ Finished stage max s' := by
      have ⟨_, s'', hr', hf⟩ := hi _ hlt (hr.reachable r) rfl
      exact ⟨_, s'', hr.trans hr', hf⟩
    have step {a s'} (hs : (machine m stage cell max).step s a = some s') := next (.step hs .refl)
    by_cases hin : ∃ t, stage s.lock t = .inside
    case pos =>
      obtain ⟨t, ht⟩ := hin
      by_cases hp : (s.thread t).pc = .stored
      case pos =>
        have ⟨_, _, hs, hlt⟩ := exists_call_step h hl r (.inr ⟨ht, hp⟩)
        exact step hs hlt
      case neg =>
        have ⟨_, hs, hlt⟩ := exists_count_step (m := m) (inv h r) ht hp
        exact step hs hlt
    case neg =>
      by_cases hid : ∀ t, stage s.lock t = .idle
      case neg =>
        obtain ⟨t, ht⟩ := not_forall.mp hid
        have ⟨l, q, hu⟩ := hl.work (lock_reachable r) (not_exists.mp hin) ht
        have ⟨_, _, hr, _, _, hlt⟩ := exists_quiet_run h r q
        exact next hr (hlt hu)
      case pos =>
        by_cases hf : ∀ t, (s.thread t).i = max
        case pos => exact ⟨[], s, .refl, fun t => ⟨hid t, hf t⟩⟩
        case neg =>
          obtain ⟨t, ht⟩ := not_forall.mp hf
          have hlt : (s.thread t).i < max := by
            have hf := (inv h r).fits t
            rw [hid t] at hf
            exact lt_of_le_of_ne hf.right ht
          have ⟨_, _, hs, hlt⟩ := exists_call_step h hl r (.inl ⟨hid t, hlt⟩)
          exact step hs hlt

theorem exists_exact (h : Lock m stage) (hl : Live m stage)
    (r : (machine m stage cell max).Reachable s) :
    ∃ as s', (machine m stage cell max).Run s as s' ∧ Finished stage max s' ∧
      ∀ k, s'.counter k = Fintype.card ι * Nat.count (cell · = some k) max :=
  have ⟨as, s', hr, hf⟩ := exists_finished h hl r
  ⟨as, s', hr, hf, fun _ => counter_eq_of_finished h (hr.reachable r) hf⟩

theorem exists_single {s : State σ ι Unit} (h : Lock m stage) (hl : Live m stage)
    (r : (machine m stage single max).Reachable s) :
    ∃ as s', (machine m stage single max).Run s as s' ∧ Finished stage max s' ∧
      s'.counter () = Fintype.card ι * max :=
  have ⟨as, s', hr, hf⟩ := exists_finished h hl r
  ⟨as, s', hr, hf, single_eq_of_finished h (hr.reachable r) hf⟩

-- The program can be brought to its end from everywhere, and what it prints there is `x`.
def Prints (m : Machine σ α) (stage : σ → ι → Stage) (cell : ℕ → Option κ) (max : ℕ)
    (out : (κ → ℕ) → ℕ) (x : ℕ) : Prop :=
  ∀ s, (machine m stage cell max).Reachable s →
    (Finished stage max s → out s.counter = x) ∧
    ∃ as s', (machine m stage cell max).Run s as s' ∧ Finished stage max s'

theorem Prints.of_live {out : (κ → ℕ) → ℕ} {x : ℕ} (h : Lock m stage) (hl : Live m stage)
    (hx : (out fun k => Fintype.card ι * Nat.count (cell · = some k) max) = x) :
    Prints m stage cell max out x := by
  intro s r
  refine ⟨fun hf => ?_, exists_finished h hl r⟩
  rw [← hx]
  exact congrArg out (funext fun _ => counter_eq_of_finished h r hf)

end LockClient
