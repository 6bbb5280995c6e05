import Concurrencia.Semaphores.PhilosophersSync.Basic
import Concurrencia.DiningTable.Basic
import Concurrencia.Threads.Basic
import Mathlib.Tactic.SplitIfs

open Function Threads DiningTable

namespace PhilosophersSync

section Step

-- One constructor for each way through a statement.
inductive Step {n : ℕ} (eatCount : ℕ) (s : State n) : State n → Prop
  | again : (s.pc i = .loop) → (s.meals i < eatCount) → Step eatCount s (s.goto i .think)
  | stop : (s.pc i = .loop) → (¬s.meals i < eatCount) → Step eatCount s (s.goto i .finished)
  | think : (s.pc i = .think) → Step eatCount s (s.goto i .pickMutex)
  | pickTake : (s.pc i = .pickMutex) → (s.mutex = false) →
    Step eatCount s ({ s with mutex := true }.goto i .hungry)
  | hungry : (s.pc i = .hungry) → Step eatCount s ((setStatus s i .hungry).goto i (.test .own))
  | mayEat : (s.pc i = .test c) → (MayEat s (c.target i)) → Step eatCount s (s.goto i (.grant c))
  | mayNotEat : (s.pc i = .test c) → (¬MayEat s (c.target i)) → Step eatCount s (s.goto i c.next)
  | grant : (s.pc i = .grant c) →
    Step eatCount s ((setStatus s (c.target i) .eating).goto i (.signal c))
  | signal : (s.pc i = .signal c) → Step eatCount s
    ({ s with sync := update s.sync (c.target i) (s.sync (c.target i) + 1) }.goto i c.next)
  | pickExit : (s.pc i = .pickExit) → Step eatCount s ({ s with mutex := false }.goto i .acquire)
  | acquire : (s.pc i = .acquire) → (s.sync i ≠ 0) →
    Step eatCount s ({ s with sync := update s.sync i (s.sync i - 1) }.goto i .eat)
  | eat : (s.pc i = .eat) → Step eatCount s (s.goto i .releaseMutex)
  | releaseTake : (s.pc i = .releaseMutex) → (s.mutex = false) →
    Step eatCount s ({ s with mutex := true }.goto i .thinking)
  | thinking : (s.pc i = .thinking) →
    Step eatCount s ((setStatus s i .thinking).goto i (.test .left))
  | releaseExit : (s.pc i = .releaseExit) →
    Step eatCount s ({ countMeal s i with mutex := false }.goto i .loop)

variable {n eatCount : ℕ} {s s' : State n} {i : Fin n}

theorem Step.of_step (h : step eatCount s i = some s') : Step eatCount s s' := by
  cases hp : s.pc i <;> simp only [PhilosophersSync.step, takeMutex, hp] at h
  case loop =>
    split_ifs at h with hm
    all_goals cases h
    · exact .again hp hm
    · exact .stop hp hm
  case pickMutex =>
    split_ifs at h with hm
    cases h
    exact .pickTake hp (Bool.not_eq_true _ ▸ hm)
  case releaseMutex =>
    split_ifs at h with hm
    cases h
    exact .releaseTake hp (Bool.not_eq_true _ ▸ hm)
  case test =>
    split_ifs at h with hc
    all_goals cases h
    · exact .mayEat hp hc
    · exact .mayNotEat hp hc
  case acquire =>
    split_ifs at h with hs
    cases h
    exact .acquire hp hs
  all_goals cases h
  case think       => exact .think hp
  case hungry      => exact .hungry hp
  case grant       => exact .grant hp
  case signal      => exact .signal hp
  case pickExit    => exact .pickExit hp
  case eat         => exact .eat hp
  case thinking    => exact .thinking hp
  case releaseExit => exact .releaseExit hp

end Step

namespace Pc

def HasMutex : Pc → Prop
  | hungry | test _ | grant _ | signal _ | pickExit | thinking | releaseExit => True
  | loop | think | pickMutex | acquire | eat | releaseMutex | finished       => False

-- Between the request for the forks and the return of `pick`.
def Picks (p : Pc) : Prop :=
  p = test .own ∨ p = grant .own ∨ p = signal .own ∨ p = pickExit ∨ p = acquire

end Pc

-- The second call of `canEat` in `release` is still ahead.
def Rest {n : ℕ} (i j : Fin n) (c : Call) : Prop :=
  c = .left ∧ j = right i

-- Philosopher `i` will look after philosopher `j` before it frees the mutex.
def Late {n : ℕ} (i j : Fin n) : Pc → Prop
  | .test c | .grant c => j = c.target i ∨ Rest i j c
  | .signal c          => Rest i j c
  | _                  => False

-- Philosopher `i` is about to signal philosopher `j`.
def Signals {n : ℕ} (i j : Fin n) (p : Pc) : Prop :=
  ∃ c, p = .signal c ∧ j = c.target i

-- What the status and the semaphore of a philosopher say, whose permit may be on its way.
def Agrees (granted : Prop) (status : Status) (sync : ℕ) : Pc → Prop
  | .test .own | .grant .own | .signal .own | .pickExit | .acquire =>
    ¬granted ∧ status = .hungry ∧ sync = 0 ∨ granted ∧ status = .eating ∧ sync = 0 ∨
    ¬granted ∧ status = .eating ∧ sync = 1
  | .eat | .releaseMutex | .thinking => ¬granted ∧ status = .eating ∧ sync = 0
  | _                                => ¬granted ∧ status = .thinking ∧ sync = 0

namespace Agrees

variable {g : Prop} {x : Status} {y : ℕ} {p : Pc}

theorem iff_of_picks (h : p.Picks) :
    Agrees g x y p ↔ ¬g ∧ x = .hungry ∧ y = 0 ∨ g ∧ x = .eating ∧ y = 0 ∨
      ¬g ∧ x = .eating ∧ y = 1 := by
  obtain rfl | rfl | rfl | rfl | rfl := h <;> rfl

theorem picks (h : Agrees g x y p) (hg : x = .hungry ∨ g ∨ y ≠ 0) : p.Picks := by
  cases p
  case test c | grant c | signal c => cases c <;> simp_all [Agrees, Pc.Picks]
  all_goals simp_all [Agrees, Pc.Picks]

end Agrees

namespace State

variable {n : ℕ} (s : State n)

def Late (j : Fin n) : Prop :=
  ∃ i, PhilosophersSync.Late i j (s.pc i)

def Granted (j : Fin n) : Prop :=
  ∃ i, Signals i j (s.pc i)

def Agrees (i : Fin n) : Prop :=
  PhilosophersSync.Agrees (s.Granted i) (s.status i) (s.sync i) (s.pc i)

end State

variable {n eatCount : ℕ} {hn : 2 ≤ n} {s s' : State n} {i j k : Fin n} {p : Pc} {c : Call}

theorem Rest.target_next : Late i j c.next ↔ Rest i j c := by
  cases c <;> simp [Call.next, Late, Rest, Call.target]

theorem not_signals_next : ¬Signals i j c.next := by
  cases c <;> simp [Call.next, Signals]

theorem hasMutex_next : c.next.HasMutex := by
  cases c <;> trivial

theorem not_late (h : ¬p.HasMutex) : ¬Late i j p := by
  cases p <;> simp_all [Pc.HasMutex, Late]

theorem not_signals (h : ¬p.HasMutex) : ¬Signals i j p := by
  cases p <;> simp_all [Pc.HasMutex, Signals]

theorem picks_update (hj : (s.pc j).Picks) (hp : (s.pc i).Picks → p.Picks) :
    (update s.pc i p j).Picks := by
  by_cases hji : j = i
  case pos => simpa [hji] using hp (hji ▸ hj)
  case neg => simpa [hji]

theorem mayEat_iff : MayEat s i ↔ CanEat (RoundTable.graph hn) s.status i := by
  rw [RoundTable.canEat_iff, MayEat, left, right, and_congr_right_iff]
  exact fun _ => and_comm

-- The mutex is taken while its owner is between the two accesses to it.
def Lock (s : State n) : Prop :=
  Owned s.pc Pc.HasMutex (s.mutex = true)

theorem Lock.step (lock : Lock s) (h : Step eatCount s s') : Lock s' := by
  cases h
  case again hp _ | stop hp _ | think hp | hungry hp | mayEat hp _ | grant hp | acquire hp _ |
      eat hp | thinking hp =>
    exact Owned.keep lock (by simp [hp, Pc.HasMutex])
  case mayNotEat hp _ | signal hp =>
    exact Owned.keep lock (iff_of_true hasMutex_next (by simp [hp, Pc.HasMutex]))
  case pickTake hp hm | releaseTake hp hm =>
    exact Owned.take lock (by simp [hm]) trivial rfl
  case pickExit hp | releaseExit hp =>
    exact Owned.free lock (by simp [hp, Pc.HasMutex]) (by simp [Pc.HasMutex]) (by simp)

theorem lock_of_reachable (r : (machine n eatCount).Reachable s) : Lock s := by
  apply r.invariant
  case init =>
    intro _ h
    obtain rfl : _ = init n := h
    exact ⟨⟨False.elim, False.elim⟩, fun h => by cases h⟩
  case step => exact fun _ _ _ _ lock h => lock.step (.of_step h)

namespace Lock

variable {t : State n} (lock : Lock s) (hi : (s.pc i).HasMutex) (hp : t.pc = update s.pc i p)
include lock hi

theorem not_others (k : Fin n) (hk : k ≠ i) : ¬(s.pc k).HasMutex :=
  lock.not_of_ne hi hk

-- What is left to do is what the owner of the mutex has to do.
theorem late_iff : s.Late j ↔ PhilosophersSync.Late i j (s.pc i) := by
  constructor
  case mpr => exact fun h => ⟨i, h⟩
  case mp =>
    intro ⟨k, hk⟩
    by_cases hki : k = i
    case pos => exact hki ▸ hk
    case neg => exact absurd hk <| not_late (lock.not_others hi k hki)

theorem granted_iff : s.Granted j ↔ Signals i j (s.pc i) := by
  constructor
  case mpr => exact fun h => ⟨i, h⟩
  case mp =>
    intro ⟨k, hk⟩
    by_cases hki : k = i
    case pos => exact hki ▸ hk
    case neg => exact absurd hk <| not_signals (lock.not_others hi k hki)

include hp

theorem late_update : t.Late j ↔ PhilosophersSync.Late i j p := by
  rw [State.Late, hp]
  exact exists_update_iff fun k hk => not_late (lock.not_others hi k hk)

theorem granted_update : t.Granted j ↔ Signals i j p := by
  rw [State.Granted, hp]
  exact exists_update_iff fun k hk => not_signals (lock.not_others hi k hk)

end Lock

structure Inv (hn : 2 ≤ n) (s : State n) : Prop where
  served : Served (RoundTable.graph hn) s.status s.Late
  tested : ∀ i c, s.pc i = .grant c → MayEat s (c.target i)
  agrees : ∀ i, s.Agrees i

namespace Inv

theorem init : Inv hn (init n) where
  served := {
    apart _ h  := by cases h
    timely h _ := by cases h
  }
  tested _ _ h := by cases h
  agrees _     := ⟨by simp [State.Granted, Signals, PhilosophersSync.init], rfl, rfl⟩

theorem tested_update {t : State n} (hp : t.pc = update s.pc i p)
    (ht : ∀ c, p = .grant c → MayEat t (c.target i))
    (hm : ∀ j ≠ i, ∀ c, s.pc j = .grant c → MayEat t (c.target j)) (j : Fin n) (c : Call)
    (hj : t.pc j = .grant c) : MayEat t (c.target j) := by
  rw [hp] at hj
  by_cases hji : j = i
  case pos => exact hji ▸ ht c (by simpa [hji] using hj)
  case neg => exact hm j hji c (by simpa [hji] using hj)

variable (inv : Inv hn s)
include inv

theorem agrees_of (h : s.pc i = p) : Agrees (s.Granted i) (s.status i) (s.sync i) p :=
  h ▸ inv.agrees i

theorem agrees_of_permit (hp : s.pc i = .acquire) (hy : s.sync i ≠ 0) :
    ¬s.Granted i ∧ s.status i = .eating ∧ s.sync i = 1 := by
  have ha := inv.agrees_of hp
  simp_all [Agrees]

-- The philosophers other than `k` do not notice what happens to its status and its semaphore. The
-- one who acts goes on without any change to its own.
theorem agrees_update {t : State n} (hp : t.pc = update s.pc i p)
    (ha : i ≠ k → ∀ g x y, Agrees g x y (s.pc i) → Agrees g x y p)
    (hs : ∀ j ≠ k, t.status j = s.status j) (hy : ∀ j ≠ k, t.sync j = s.sync j)
    (hg : ∀ j ≠ k, t.Granted j ↔ s.Granted j) (hk : t.Agrees k) (j : Fin n) : t.Agrees j := by
  by_cases hj : j = k
  case pos => exact hj ▸ hk
  case neg =>
    have hi : Agrees (s.Granted j) (s.status j) (s.sync j) (s.pc j) := inv.agrees j
    rw [State.Agrees, hs j hj, hy j hj, propext (hg j hj), hp]
    by_cases hji : j = i
    case pos => simpa [hji] using ha (hji ▸ hj) _ _ _ (hji ▸ hi)
    case neg => simpa [hji] using hi

-- The steps which leave the status and the semaphores alone.
theorem move {t : State n} (hp : t.pc = update s.pc i p) (hs : t.status = s.status)
    (hy : t.sync = s.sync) (hl : ∀ j, Late i j p ↔ Late i j (s.pc i))
    (hg : ∀ j, Signals i j p ↔ Signals i j (s.pc i))
    (ha : ∀ g x y, Agrees g x y (s.pc i) → Agrees g x y p)
    (ht : ∀ c, p = .grant c → MayEat s (c.target i)) : Inv hn t := by
  have hg (j : Fin n) : t.Granted j ↔ s.Granted j := by
    rw [State.Granted, hp]
    exact exists_update_congr (R := fun i => Signals i j) (hg j)
  have hm {j : Fin n} : MayEat t j ↔ MayEat s j := by rw [MayEat, MayEat, hs]
  exact {
    served := by
      rw [hs]
      apply inv.served.mono
      intro j hj
      rw [State.Late, hp]
      exact (exists_update_congr (R := fun i => Late i j) (hl j)).mpr hj
    tested := tested_update hp (fun c hc => hm.mpr (ht c hc))
      fun j _ c hj => hm.mpr (inv.tested j c hj)
    agrees := by
      apply inv.agrees_update (k := i) hp (fun h => absurd rfl h)
      case hs => simp [hs]
      case hy => simp [hy]
      case hg => exact fun j _ => hg j
      case hk =>
        rw [State.Agrees, propext (hg i), hs, hy, hp, update_self]
        exact ha _ _ _ (inv.agrees i)
  }

-- The steps of the owner of the mutex which change what concerns philosopher `k`.
theorem act {t : State n} (lock : Lock s) (hi : (s.pc i).HasMutex) (hp : t.pc = update s.pc i p)
    (hn' : ∀ c, p ≠ .grant c)
    (served : Served (RoundTable.graph hn) t.status (fun j => Late i j p))
    (ha : i ≠ k → ∀ g x y, Agrees g x y (s.pc i) → Agrees g x y p)
    (hs : ∀ j ≠ k, t.status j = s.status j) (hy : ∀ j ≠ k, t.sync j = s.sync j)
    (hg : ∀ j ≠ k, Signals i j p ↔ Signals i j (s.pc i))
    (hk : Agrees (Signals i k p) (t.status k) (t.sync k) (update s.pc i p k)) : Inv hn t where
  served := served.mono fun _ => (lock.late_update hi hp).mpr
  tested := by
    apply tested_update hp (fun c hc => absurd hc (hn' c))
    intro j hj c hc
    exact absurd (hc ▸ trivial) (lock.not_others hi j hj)
  agrees := by
    apply inv.agrees_update (k := k) hp ha hs hy
    case hg =>
      intro j hj
      rw [lock.granted_update hi hp, lock.granted_iff hi, hg j hj]
    case hk => rwa [State.Agrees, propext (lock.granted_update hi hp), hp]

theorem hungry (lock : Lock s) (hp : s.pc i = .hungry) :
    Inv hn ((setStatus s i .hungry).goto i (.test .own)) := by
  have hi : (s.pc i).HasMutex := by simp [hp, Pc.HasMutex]
  have ⟨_, ht, hy⟩ := inv.agrees_of hp
  apply inv.act (k := i) lock hi rfl
  case served =>
    apply (inv.served.hungry ht).mono
    intro j hj
    cases hj
    case inl hj => simp [lock.late_iff hi, hp, Late] at hj
    case inr hj => exact .inl hj
  case hk => simp [Agrees, Signals, hy]
  all_goals simp +contextual [hp, Signals]

theorem thinking (lock : Lock s) (hp : s.pc i = .thinking) :
    Inv hn ((setStatus s i .thinking).goto i (.test .left)) := by
  have hi : (s.pc i).HasMutex := by simp [hp, Pc.HasMutex]
  have ⟨_, _, hy⟩ := inv.agrees_of hp
  apply inv.act (k := i) lock hi rfl
  case served =>
    apply (inv.served.leave (i := i)).mono
    intro j hj
    cases hj
    case inl hj => simp [lock.late_iff hi, hp, Late] at hj
    case inr hj =>
      cases hj
      case inl hj => exact .inl hj
      case inr hj => exact .inr ⟨rfl, hj⟩
  case hk => simp [Agrees, Signals, hy]
  all_goals simp +contextual [hp, Signals]

theorem mayNotEat (lock : Lock s) (hp : s.pc i = .test c) (hc : ¬MayEat s (c.target i)) :
    Inv hn (s.goto i c.next) := by
  have hi : (s.pc i).HasMutex := by simp [hp, Pc.HasMutex]
  apply inv.act (k := i) lock hi rfl
  case hn' => cases c <;> simp [Call.next]
  case served =>
    apply (inv.served.pass (mt mayEat_iff.mpr hc)).mono
    intro j ⟨hj, hn⟩
    have hj : j = c.target i ∨ Rest i j c := by simpa [lock.late_iff hi, hp, Late] using hj
    exact Rest.target_next.mpr (hj.resolve_left hn)
  case hg => exact fun j _ => iff_of_false not_signals_next (by simp [hp, Signals])
  case hk =>
    have ha := inv.agrees_of hp
    rw [propext (lock.granted_iff hi), hp] at ha
    cases c <;> simpa [Agrees, Signals, Call.next] using ha
  all_goals simp +contextual

theorem grant (lock : Lock s) (hp : s.pc i = .grant c) :
    Inv hn ((setStatus s (c.target i) .eating).goto i (.signal c)) := by
  have hi : (s.pc i).HasMutex := by simp [hp, Pc.HasMutex]
  have hc := inv.tested i c hp
  apply inv.act (k := c.target i) lock hi rfl
  case served =>
    apply (inv.served.grant (mayEat_iff.mp hc)).mono
    intro j ⟨hj, hn⟩
    have hj : j = c.target i ∨ Rest i j c := by simpa [lock.late_iff hi, hp, Late] using hj
    exact hj.resolve_left hn
  case ha =>
    intro hk g x y
    cases c
    case own => exact absurd rfl hk
    all_goals simp [hp, Agrees]
  case hg => simp +contextual [hp, Signals]
  case hk =>
    have hk := (inv.agrees (c.target i)).picks (.inl hc.left)
    have hy : s.sync (c.target i) = 0 := by
      have := (Agrees.iff_of_picks hk).mp (inv.agrees (c.target i))
      simp_all [hc.left]
    rw [Agrees.iff_of_picks (picks_update hk (by cases c <;> simp [hp, Pc.Picks]))]
    exact .inr <| .inl ⟨⟨c, rfl, rfl⟩, by simp, hy⟩
  all_goals simp +contextual

theorem signal (lock : Lock s) (hp : s.pc i = .signal c) :
    Inv hn
      ({ s with sync := update s.sync (c.target i) (s.sync (c.target i) + 1) }.goto i c.next) := by
  have hi : (s.pc i).HasMutex := by simp [hp, Pc.HasMutex]
  have hg : s.Granted (c.target i) := (lock.granted_iff hi).mpr (by simp [hp, Signals])
  apply inv.act (k := c.target i) lock hi rfl
  case hn' => cases c <;> simp [Call.next]
  case served =>
    apply inv.served.mono
    intro j hj
    have hj : Rest i j c := by simpa [lock.late_iff hi, hp, Late] using hj
    exact Rest.target_next.mpr hj
  case ha =>
    intro hk g x y
    cases c
    case own => exact absurd rfl hk
    all_goals simp [hp, Agrees, Call.next]
  case hg =>
    intro j hj
    exact iff_of_false not_signals_next (by simp [hp, Signals, hj])
  case hk =>
    have hk := (inv.agrees (c.target i)).picks (.inr <| .inl hg)
    have ⟨hx, hy⟩ : s.status (c.target i) = .eating ∧ s.sync (c.target i) = 0 := by
      have := (Agrees.iff_of_picks hk).mp (inv.agrees (c.target i))
      simp_all
    rw [Agrees.iff_of_picks (picks_update hk (by cases c <;> simp [hp, Pc.Picks, Call.next]))]
    exact .inr <| .inr ⟨not_signals_next, hx, by simp [hy]⟩
  all_goals simp +contextual

theorem acquire (hp : s.pc i = .acquire) (hy : s.sync i ≠ 0) :
    Inv hn ({ s with sync := update s.sync i (s.sync i - 1) }.goto i .eat) where
  served := by
    apply inv.served.mono
    intro j hj
    exact (exists_update_congr (R := fun i => Late i j) (by simp [hp, Late])).mpr hj
  tested := by
    apply tested_update (i := i) rfl (by simp)
    exact fun j _ c hj => inv.tested j c hj
  agrees := by
    have hg (j : Fin n) :
        (∃ k, Signals k j (update s.pc i .eat k)) ↔ ∃ k, Signals k j (s.pc k) :=
      exists_update_congr (R := fun i => Signals i j) (by simp [hp, Signals])
    apply inv.agrees_update (k := i) rfl (fun h => absurd rfl h)
    case hg => exact fun j _ => hg j
    case hk =>
      have ⟨hn, hx, hy⟩ := inv.agrees_of_permit hp hy
      simp only [State.Agrees, State.Granted, State.goto_pc, hg, State.goto_status, update_self,
        State.goto_sync, hy]
      exact ⟨hn, hx, rfl⟩
    all_goals simp +contextual

theorem step (lock : Lock s) (h : Step eatCount s s') : Inv hn s' := by
  cases h
  case again i hp _ | stop i hp _ | think i hp | pickExit i hp | eat i hp | releaseExit i hp =>
    apply inv.move (i := i) rfl
    all_goals simp [hp, Late, Signals, Agrees]
  case pickTake i hp _ | releaseTake i hp _ =>
    apply inv.move (i := i) rfl
    all_goals simp [hp, Late, Signals, Agrees]
  case mayEat i c hp hc =>
    apply inv.move (i := i) rfl
    case ha => cases c <;> simp [hp, Agrees]
    all_goals simp [hp, hc, Late, Signals]
  case mayNotEat hp hc  => exact inv.mayNotEat lock hp hc
  case hungry hp        => exact inv.hungry lock hp
  case thinking hp      => exact inv.thinking lock hp
  case grant hp         => exact inv.grant lock hp
  case signal hp        => exact inv.signal lock hp
  case acquire hp hy    => exact inv.acquire hp hy

end Inv

theorem inv_of_reachable (hn : 2 ≤ n) (r : (machine n eatCount).Reachable s) : Inv hn s := by
  apply r.invariant
  case init =>
    intro _ h
    exact h ▸ .init
  case step =>
    intro _ _ _ r inv h
    exact inv.step (lock_of_reachable r) (.of_step h)

-- The owner of the mutex does not wait for anybody.
theorem live_of_hasMutex (h : (s.pc i).HasMutex) : (machine n eatCount).Live s := by
  refine ⟨i, ?_⟩
  cases hp : s.pc i <;> simp_all [machine, PhilosophersSync.step, Pc.HasMutex]

theorem live_of_permit (hp : s.pc i = .acquire) (hy : s.sync i ≠ 0) :
    (machine n eatCount).Live s :=
  ⟨i, by simp [machine, PhilosophersSync.step, hp, hy]⟩

-- Nobody has anything left to do for the others while the mutex is free.
theorem not_late_of_free (lock : Lock s) (hm : s.mutex = false) (j : Fin n) : ¬s.Late j :=
  fun ⟨k, hk⟩ => not_late (lock.not_of_free (by simp [hm]) k) hk

theorem not_granted_of_free (lock : Lock s) (hm : s.mutex = false) (j : Fin n) : ¬s.Granted j :=
  fun ⟨k, hk⟩ => not_signals (lock.not_of_free (by simp [hm]) k) hk

namespace Inv

variable (inv : Inv hn s)
include inv

theorem eating_next (hl : ∀ j, ¬s.Late j) (hi : s.status i = .hungry) :
    s.status (left i) = .eating ∨ s.status (right i) = .eating := by
  have ⟨j, ha, hj⟩ := inv.served.timely hi (hl i)
  obtain rfl | rfl : j = left i ∨ j = right i := ha
  case inl => exact .inl hj
  case inr => exact .inr hj

theorem sync_eq (lock : Lock s) (hm : s.mutex = false) :
    s.sync i = if s.status i = .eating ∧ s.pc i = .acquire then 1 else 0 := by
  have ha := inv.agrees i
  have hf := lock.not_of_free (by simp [hm]) i
  have hg := not_granted_of_free lock hm i
  cases hp : s.pc i <;> simp_all [State.Agrees, Agrees, Pc.HasMutex]
  grind

theorem live_of_eating (lock : Lock s) (hm : s.mutex = false) (hj : s.status j = .eating) :
    (machine n eatCount).Live s := by
  have ha := inv.agrees j
  cases hp : s.pc j
  case acquire => exact live_of_permit hp (by simp [inv.sync_eq lock hm, hj, hp])
  case eat | releaseMutex =>
    exact ⟨j, by simp [machine, PhilosophersSync.step, takeMutex, hp, hm]⟩
  case test | grant | signal | pickExit | thinking =>
    exact live_of_hasMutex (i := j) (by simp [hp, Pc.HasMutex])
  all_goals simp [State.Agrees, hp, Agrees, hj] at ha

-- A philosopher who waits has a permit, or it has a neighbour who eats.
theorem live (lock : Lock s) (hp : s.pc i ≠ .finished) : (machine n eatCount).Live s := by
  cases hm : s.mutex
  case true =>
    have ⟨j, hj⟩ := lock.owner hm
    exact live_of_hasMutex hj
  case false =>
    cases hi : s.pc i
    case finished => exact absurd hi hp
    case loop | think | eat | pickMutex | releaseMutex =>
      exact ⟨i, by simp [machine, PhilosophersSync.step, takeMutex, hi, hm]⟩
    case acquire =>
      by_cases hy : s.sync i = 0
      case neg => exact live_of_permit hi hy
      case pos =>
        have ha := inv.agrees_of hi
        have hx : s.status i = .hungry := by
          simp_all [Agrees, not_granted_of_free lock hm i]
        cases inv.eating_next (not_late_of_free lock hm) hx
        case inl hj => exact inv.live_of_eating lock hm hj
        case inr hj => exact inv.live_of_eating lock hm hj
    all_goals exact live_of_hasMutex (i := i) (by simp [hi, Pc.HasMutex])

theorem eat (hp : s.pc i = .eat) : s.status i = .eating ∧ s.sync i = 0 :=
  (inv.agrees_of hp).right

end Inv

theorem granted_once (hn : 2 ≤ n) (r : (machine n eatCount).Reachable s) :
    (s.mutex = false →
      (∀ i, s.status i = .eating → s.status (left i) ≠ .eating ∧ s.status (right i) ≠ .eating) ∧
      (∀ i, s.status i = .hungry → s.status (left i) = .eating ∨ s.status (right i) = .eating) ∧
      ∀ i, s.sync i = if s.status i = .eating ∧ s.pc i = .acquire then 1 else 0) ∧
    (∀ i, s.pc i = .eat → s.status i = .eating ∧ s.sync i = 0) ∧
    (∀ i, s.pc i = .eat → s.pc (left i) ≠ .eat ∧ s.pc (right i) ≠ .eat) ∧
    ∀ i, s.pc i ≠ .finished → (machine n eatCount).Live s := by
  have lock := lock_of_reachable r
  have inv := inv_of_reachable hn r
  have apart {i j : Fin n} (ha : RoundTable.Adjacent i j) (hi : s.pc i = .eat) : s.pc j ≠ .eat :=
    fun hj => inv.served.apart ha (inv.eat hi).left (inv.eat hj).left
  refine ⟨fun hm => ⟨?_, ?_, fun _ => inv.sync_eq lock hm⟩, fun _ => inv.eat, ?_,
    fun _ => inv.live lock⟩
  · exact fun i hi => ⟨inv.served.apart (.inl rfl) hi, inv.served.apart (.inr rfl) hi⟩
  · exact fun i hi => inv.eating_next (not_late_of_free lock hm) hi
  · exact fun i hi => ⟨apart (.inl rfl) hi, apart (.inr rfl) hi⟩

-- Philosopher 1 has been granted the forks and has not passed its semaphore yet.
theorem granted_once_two :
    ∃ s : State 2, s.mutex = false ∧ s.status 0 = .hungry ∧ s.pc 1 = .acquire ∧
      (s.status (left 0) = .eating ∨ s.status (right 0) = .eating) ∧
      (s.sync 1 = if s.status 1 = .eating ∧ s.pc 1 = .acquire then 1 else 0) ∧
      (machine 2 100).Live s :=
  have ⟨s, h, hm, h₀, h₁⟩ : ∃ s, (machine 2 100).exec (init 2)
      (Machine.schedule [(8, 1), (6, 0)]) = some s ∧ s.mutex = false ∧ s.status 0 = .hungry ∧
      s.pc 1 = .acquire :=
    ⟨_, rfl, rfl, rfl, rfl⟩
  have ⟨hf, _, _, hl⟩ := granted_once (by decide) (.of_exec rfl h)
  have ⟨_, hh, hs⟩ := hf hm
  ⟨s, hm, h₀, h₁, hh 0 h₀, hs 1, hl 1 (by simp [h₁])⟩

end PhilosophersSync
