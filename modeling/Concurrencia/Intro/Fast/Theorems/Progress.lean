import Concurrencia.Intro.Fast.Theorems.Exclusion
import Concurrencia.LockClient.Basic
import Mathlib

open Function

namespace Fast

namespace Pc

-- Inside of `lock`.
def Locking (p : Pc) : Prop :=
  p ≠ idle ∧ p ≠ critical ∧ p ≠ releaseY ∧ p ≠ releaseB

instance : DecidablePred Locking :=
  fun _ => inferInstanceAs <| Decidable (_ ∧ _)

-- Between the write of its own index to `y` and the return from `lock` or the second look at `y`.
def Deciding : Pc → Prop
  | testX | clearB | scan _ | recheckY => True
  | _                                  => False

-- How far a thread is from `critical`, or from a spin loop on `y`, while `y` is taken.
def rankTaken (n : ℕ) : Pc → ℕ
  | setY     => n + 8
  | testX    => n + 7
  | clearB   => n + 6
  | scan j   => 5 + (n - j)
  | setB     => 4
  | setX     => 3
  | testY    => 2
  | recheckY => 1
  | resetB   => 1
  | _        => 0

-- How far a thread is from taking `y` while it is free.
def rankFree (n : ℕ) : Pc → ℕ
  | testX    => n + 12
  | clearB   => n + 11
  | scan j   => 10 + (n - j)
  | recheckY => 9
  | resetB   => 9
  | spinY    => 8
  | respinY  => 8
  | setB     => 7
  | setX     => 6
  | testY    => 5
  | setY     => 4
  | _        => 0

end Pc

variable {n : ℕ} {s : State n} {i j k : Fin n}

-- The loops of `lock`, as long as what they wait for has not come.
inductive Spins (s : State n) (i : Fin n) : Prop
  | spinY : (s.pc i = .spinY) → (0 ≤ s.y) → Spins s i
  | respinY : (s.pc i = .respinY) → (0 ≤ s.y) → Spins s i
  | scan {j : Fin n} : (s.pc i = .scan j) → (s.b j ≠ 0) → Spins s i

theorem Spins.locking (h : Spins s i) : (s.pc i).Locking := by
  cases h
  all_goals simp_all [Pc.Locking]

-- The value of `y` is the index of a thread that will look at it once more or reset it, and a flag
-- that is up belongs to a thread on its way to take it back.
structure Owned (s : State n) : Prop where
  turn : s.y = -1 ∨ ∃ i : Fin n, s.y = i ∧ ((s.pc i).Deciding ∨ (s.pc i).Inside)
  flag : ∀ {i}, s.b i ≠ 0 → (s.pc i).Flagged ∨ (s.pc i).Inside ∨ s.pc i = .releaseB

section Next

theorem next_owner (h : (s.pc i).Deciding ∨ (s.pc i).Inside) (hy : s.y = i) :
    (next s i).y = -1 ∨
    (next s i).y = i ∧ (((next s i).pc i).Deciding ∨ ((next s i).pc i).Inside) := by
  cases hp : s.pc i <;> simp [next, hp, hy, Pc.Deciding, Pc.Inside] at h ⊢
  all_goals split_ifs <;> simp_all

theorem next_flag (h : (next s i).b i ≠ 0)
    (hi : s.b i ≠ 0 → (s.pc i).Flagged ∨ (s.pc i).Inside ∨ s.pc i = .releaseB) :
    ((next s i).pc i).Flagged ∨ ((next s i).pc i).Inside ∨ (next s i).pc i = .releaseB := by
  cases hp : s.pc i <;> simp [next, hp, Pc.Flagged, Pc.Inside, Pc.Racing] at h hi ⊢
  all_goals try split_ifs
  all_goals simp_all

theorem next_scan (hp : s.pc i = .scan l) (hs : ¬Spins s i) :
    (next s i).y = s.y ∧
    (l < n ∧ (next s i).pc i = .scan (l + 1) ∨ (next s i).pc i = .recheckY) := by
  by_cases hl : l < n
  case neg => simp [next, hp, hl]
  case pos =>
    have hb : s.b ⟨l, hl⟩ = 0 := by
      by_contra hb
      exact hs (.scan hp hb)
    simp [next, hp, hl, hb]

-- A thread which does not spin gets closer to `critical` or to a spin loop, ...
theorem next_rankTaken (hl : (s.pc i).Locking) (hs : ¬Spins s i) (hy : 0 ≤ s.y) :
    0 ≤ (next s i).y ∧
    ((next s i).pc i = .critical ∨ ((next s i).pc i).rankTaken n < (s.pc i).rankTaken n) := by
  cases hp : s.pc i
  case scan l =>
    have ⟨hy', h⟩ := next_scan hp hs
    refine ⟨hy' ▸ hy, .inr ?_⟩
    cases h
    case inl h =>
      rw [h.right, Pc.rankTaken, Pc.rankTaken]
      omega
    case inr h =>
      rw [h, Pc.rankTaken, Pc.rankTaken]
      omega
  case spinY   => exact absurd (.spinY hp hy) hs
  case respinY => exact absurd (.respinY hp hy) hs
  all_goals simp [next, hp, Pc.Locking, Pc.rankTaken] at hl ⊢
  all_goals try split_ifs
  all_goals simp_all
  all_goals omega

-- ... and while `y` is free it gets closer to taking it.
theorem next_rankFree (hl : (s.pc i).Locking) (hs : ¬Spins s i) (hy : s.y < 0) :
    0 ≤ (next s i).y ∨
    (next s i).pc i = .critical ∨
    (next s i).y < 0 ∧ ((next s i).pc i).rankFree n < (s.pc i).rankFree n := by
  cases hp : s.pc i
  case scan l =>
    have ⟨hy', h⟩ := next_scan hp hs
    refine .inr <| .inr ⟨hy' ▸ hy, ?_⟩
    cases h
    case inl h =>
      rw [h.right, Pc.rankFree, Pc.rankFree]
      omega
    case inr h =>
      rw [h, Pc.rankFree, Pc.rankFree]
      omega
  all_goals simp [next, hp, Pc.Locking, Pc.rankFree] at hl ⊢
  all_goals try split_ifs
  all_goals simp_all
  all_goals omega

theorem next_locking (h : (s.pc i).Locking) :
    (next s i).pc i = .critical ∨ ((next s i).pc i).Locking := by
  cases hp : s.pc i <;> simp [next, hp, Pc.Locking] at h ⊢
  all_goals split_ifs <;> simp_all

end Next

namespace Owned

theorem init : Owned (init n) := by
  constructor <;> simp [Fast.init]

variable (inv : Owned s)
include inv

theorem turn_next : (next s k).y = -1 ∨
    ∃ i : Fin n, (next s k).y = i ∧ (((next s k).pc i).Deciding ∨ ((next s k).pc i).Inside) := by
  rcases next_y (s := s) (i := k) with hy | ⟨-, hp, hy⟩ | ⟨-, -, hy⟩
  · rw [hy]
    rcases inv.turn with ht | ⟨i, ht, hi⟩
    · exact .inl ht
    · rcases eq_or_ne i k with rfl | hik
      case inl => exact hy ▸ (next_owner hi ht).imp_right fun h => ⟨i, h⟩
      case inr => exact .inr ⟨i, ht, by rwa [next_pc_of_ne hik]⟩
  · exact .inr ⟨k, hy, .inl <| by simp [hp, Pc.Deciding]⟩
  · exact .inl hy

theorem flag_next (h : (next s k).b i ≠ 0) :
    ((next s k).pc i).Flagged ∨ ((next s k).pc i).Inside ∨ (next s k).pc i = .releaseB := by
  rcases eq_or_ne i k with rfl | hik
  case inl => exact next_flag h inv.flag
  case inr =>
    rw [next_b_of_ne hik] at h
    rw [next_pc_of_ne hik]
    exact inv.flag h

theorem next : Owned (next s k) where
  turn := inv.turn_next
  flag := inv.flag_next

end Owned

theorem owned_of_reachable (r : (machine n).Reachable s) : Owned s := by
  apply r.invariant
  case init =>
    intro _ h
    exact h ▸ .init
  case step =>
    intro _ _ _ _ inv h
    exact Option.some.inj h ▸ inv.next

-- Nobody has returned from `lock` without having returned from `unlock` as well.
def Contended (s : State n) : Prop :=
  ∀ i, s.pc i = .idle ∨ (s.pc i).Locking

theorem Contended.not_inside (hc : Contended s) : ¬(s.pc i).Inside ∧ s.pc i ≠ .releaseB := by
  have h := hc i
  cases hp : s.pc i <;> simp_all [Pc.Inside, Pc.Locking]

theorem Contended.locking (hc : Contended s) (h : s.pc i ≠ .idle) : (s.pc i).Locking :=
  (hc i).resolve_left h

theorem Contended.next (hc : Contended s) (hl : (s.pc i).Locking) :
    (∃ j, (next s i).pc j = .critical) ∨ Contended (next s i) := by
  cases next_locking hl
  case inl h => exact .inl ⟨i, h⟩
  case inr h =>
    refine .inr fun j => ?_
    rcases eq_or_ne j i with rfl | hj
    case inl => exact .inr h
    case inr => simpa only [next_pc_of_ne hj] using hc j

section

variable (inv : Owned s) (hc : Contended s)
include inv hc

-- Whoever waits for a flag waits for a thread that does not spin, ...
theorem locking_of_flag (hb : s.b i ≠ 0) : (s.pc i).Locking ∧ ¬Spins s i := by
  have ⟨hi, hr⟩ := hc.not_inside (i := i)
  have hf := (inv.flag hb).resolve_right fun h => h.elim hi hr
  constructor
  · apply hc.locking
    intro hp
    simp [hp, Pc.Flagged, Pc.Racing] at hf
  · intro hs
    cases hs <;> simp_all [Pc.Flagged, Pc.Racing]

-- ... and so does whoever waits for `y`.
theorem exists_not_spins (hl : (s.pc i).Locking) : ∃ j, (s.pc j).Locking ∧ ¬Spins s j := by
  by_contra hn
  have hb (j : Fin n) : s.b j = 0 := by
    by_contra hb
    exact hn ⟨j, locking_of_flag inv hc hb⟩
  have hs {j : Fin n} (hl : (s.pc j).Locking) : 0 ≤ s.y ∧ ¬(s.pc j).Deciding := by
    have hs : Spins s j := by
      by_contra hs
      exact hn ⟨j, hl, hs⟩
    cases hs
    case spinY hp hy   => exact ⟨hy, by simp [hp, Pc.Deciding]⟩
    case respinY hp hy => exact ⟨hy, by simp [hp, Pc.Deciding]⟩
    case scan h        => exact absurd (hb _) h
  cases inv.turn
  case inl h =>
    have := (hs hl).left
    omega
  case inr h =>
    have ⟨j, _, hj⟩ := h
    have hd := hj.resolve_right hc.not_inside.left
    apply (hs <| hc.locking fun hp => ?_).right hd
    simp [hp, Pc.Deciding] at hd

end

-- Steps of threads inside of `lock` only.
abbrev contending (n : ℕ) : Machine (State n) (Fin n) :=
  (machine n).only fun s i => (s.pc i).Locking

theorem contending_step (hl : (s.pc i).Locking) : (contending n).step s i = some (next s i) :=
  Machine.only_step.mpr ⟨hl, rfl⟩

theorem sum_rank_lt {rank : Pc → ℕ} (h : rank ((next s i).pc i) < rank (s.pc i)) :
    ∑ j, rank ((next s i).pc j) < ∑ j, rank (s.pc j) := by
  apply Finset.sum_lt_sum
  case hle =>
    intro j _
    rcases eq_or_ne j i with rfl | hj
    case inl => exact Nat.le_of_lt h
    case inr => rw [next_pc_of_ne hj]
  case hlt => exact ⟨i, Finset.mem_univ i, h⟩

-- The states from which the threads inside of `lock` are on their own.
structure Calm (s : State n) : Prop where
  reachable : (machine n).Reachable s
  contended : Contended s
  locking   : ∃ i, (s.pc i).Locking

theorem Calm.next (h : Calm s) (hl : (s.pc i).Locking) :
    (∃ j, (next s i).pc j = .critical) ∨ Calm (next s i) := by
  cases next_locking hl
  case inl h => exact .inl ⟨i, h⟩
  case inr hi =>
    refine (h.contended.next hl).imp_right fun hc => ?_
    exact ⟨h.reachable.step rfl, hc, i, hi⟩

theorem Calm.exists_not_spins (h : Calm s) : ∃ j, (s.pc j).Locking ∧ ¬Spins s j :=
  have ⟨_, hl⟩ := h.locking
  Fast.exists_not_spins (owned_of_reachable h.reachable) h.contended hl

theorem run_of_taken (h : Calm s) (hy : 0 ≤ s.y) :
    ∃ as s', (contending n).Run s as s' ∧ ∃ j, s'.pc j = .critical := by
  apply Machine.Run.of_decreasing (I := fun s => Calm s ∧ 0 ≤ s.y)
    (fun s => ∑ j, (s.pc j).rankTaken n)
  case h => exact ⟨h, hy⟩
  case step =>
    intro s ⟨h, hy⟩ _
    have ⟨i, hl, hs⟩ := h.exists_not_spins
    refine ⟨i, next s i, contending_step hl, ?_⟩
    have ⟨hy', hr⟩ := next_rankTaken hl hs hy
    cases hr
    case inl hc => exact .inl ⟨i, hc⟩
    case inr hr => exact (h.next hl).imp_right fun h => ⟨⟨h, hy'⟩, sum_rank_lt hr⟩

theorem run_of_free (h : Calm s) (hy : s.y < 0) :
    ∃ as s', (contending n).Run s as s' ∧ ((∃ j, s'.pc j = .critical) ∨ Calm s' ∧ 0 ≤ s'.y) := by
  apply Machine.Run.of_decreasing (I := fun s => Calm s ∧ s.y < 0)
    (fun s => ∑ j, (s.pc j).rankFree n)
  case h => exact ⟨h, hy⟩
  case step =>
    intro s ⟨h, hy⟩ _
    have ⟨i, hl, hs⟩ := h.exists_not_spins
    refine ⟨i, next s i, contending_step hl, ?_⟩
    cases h.next hl
    case inl hc => exact .inl <| .inl hc
    case inr h' =>
      rcases next_rankFree hl hs hy with hy' | hc | ⟨hy', hr⟩
      · exact .inl <| .inr ⟨h', hy'⟩
      · exact .inl <| .inl ⟨i, hc⟩
      · exact .inr ⟨⟨h', hy'⟩, sum_rank_lt hr⟩

theorem someone_enters
    (r : (machine n).Reachable s) (hl : ∃ i, (s.pc i).Locking)
    (hc : ∀ i, s.pc i ≠ .critical ∧ s.pc i ≠ .releaseY ∧ s.pc i ≠ .releaseB) :
    (∃ i, (s.pc i).Locking ∧ ¬Spins s i) ∧
    ∃ as s', ((machine n).only fun s i => (s.pc i).Locking).Run s as s' ∧
      ∃ i, s'.pc i = .critical := by
  have h : Calm s := by
    refine ⟨r, fun i => ?_, hl⟩
    by_cases hp : s.pc i = .idle
    case pos => exact .inl hp
    case neg => exact .inr ⟨hp, hc i⟩
  refine ⟨h.exists_not_spins, ?_⟩
  rcases Int.lt_or_le s.y 0 with hy | hy
  case inr => exact run_of_taken h hy
  case inl =>
    have ⟨as, s', r, ht⟩ := run_of_free h hy
    cases ht
    case inl hc => exact ⟨as, s', r, hc⟩
    case inr h' =>
      have ⟨as', t, r', hc⟩ := run_of_taken h'.left h'.right
      exact ⟨as ++ as', t, r.trans r', hc⟩

-- Thread 0 has turned away from the fast path and waits for the flag of thread 1, which is about
-- to find `y` taken.
theorem someone_enters_two :
    ∃ s : State 2, s.pc 0 = .scan 1 ∧ s.pc 1 = .testY ∧ s.y = 0 ∧
      ∃ as s', ((machine 2).only fun s i => (s.pc i).Locking).Run s as s' ∧
        ∃ i, s'.pc i = .critical :=
  have h : (machine 2).exec (init 2) [0, 0, 0, 0, 1, 1, 1, 0, 0, 0, 0] = some _ := rfl
  have hl : ∀ i : Fin 2, _ := by decide
  ⟨_, rfl, rfl, rfl, someone_enters (.of_exec rfl h) ⟨0, by decide⟩ hl |>.right⟩

section Client

open LockClient (Stage Lock Live Quiet single)

def Pc.stage : Pc → Stage
  | idle                => .idle
  | critical            => .inside
  | releaseY | releaseB => .unlocking
  | _                   => .locking

theorem Pc.stage_eq_locking {p : Pc} : p.stage = .locking ↔ p.Locking := by
  cases p <;> simp [stage, Locking]

def stage (s : State n) (i : Fin n) : Stage :=
  (s.pc i).stage

theorem stage_next : Stage.Next (s.pc i).stage ((next s i).pc i).stage := by
  cases hp : s.pc i <;> simp only [next, hp, State.goto_pc_self]
  case idle     => exact .lock
  case critical => exact .unlock
  case releaseB => exact .leave
  case testX =>
    split
    · exact .stay
    · exact .enter
  case recheckY =>
    split
    · exact .stay
    · exact .enter
  case scan =>
    split_ifs
    all_goals exact .stay
  case testY | spinY | respinY =>
    split
    all_goals exact .stay
  all_goals exact .stay

theorem stage_next_of_ne (h : j ≠ i) : stage (next s i) j = stage s j := by
  rw [stage, stage, next_pc_of_ne h]

theorem lock : Lock (machine n) stage where
  init h := by
    cases h
    rfl
  step {s i s' j} hs := by
    obtain rfl := Option.some.inj hs
    by_cases hj : j = i
    case pos =>
      subst hj
      exact stage_next
    case neg =>
      rw [stage_next_of_ne hj]
      exact .stay
  unique r hi hj := by
    have inside {p : Pc} (h : p.stage = .inside) : p.Inside := by
      cases p <;> cases h
      exact .inl rfl
    exact exclusion r (inside hi) (inside hj)

theorem quiet_of_contending {as : List (Fin n)} {s' : State n} (r : (contending n).Run s as s') :
    Quiet (machine n) stage s s' := by
  induction r
  case refl => exact .refl
  case step s₁ i s₂ _ _ hs _ hi =>
    obtain ⟨hl, hs⟩ := Machine.only_step.mp hs
    refine .cons (t := i) hs (.inl (Pc.stage_eq_locking.mpr hl)) (fun j hj => ?_) hi
    obtain rfl := Option.some.inj hs
    exact stage_next_of_ne hj

theorem quiet_next (h : stage s i = .unlocking) : Quiet (machine n) stage s (next s i) :=
  .cons (a := i) rfl (.inr h) (fun _ => stage_next_of_ne) .refl

theorem exists_idle (h : stage s i = .unlocking) :
    ∃ s', Quiet (machine n) stage s s' ∧ stage s' i = .idle := by
  have step {t : State n} (hp : t.pc i = .releaseB) :
      Quiet (machine n) stage t (next t i) ∧ stage (next t i) i = .idle :=
    ⟨quiet_next (by simp [stage, hp, Pc.stage]), by simp [stage, next, hp, Pc.stage]⟩
  cases hp : s.pc i <;> simp [stage, hp, Pc.stage] at h
  case releaseB => exact ⟨_, step hp⟩
  case releaseY =>
    obtain ⟨q, hi⟩ := @step (next s i) (by simp [next, hp])
    exact ⟨_, .cons (a := i) rfl (.inr (by simp [stage, hp, Pc.stage])) (fun _ => stage_next_of_ne) q, hi⟩

theorem Calm.exists_critical (h : Calm s) :
    ∃ as s', (contending n).Run s as s' ∧ ∃ j, s'.pc j = .critical := by
  rcases Int.lt_or_le s.y 0 with hy | hy
  case inr => exact run_of_taken h hy
  case inl =>
    have ⟨as, s', r, ht⟩ := run_of_free h hy
    cases ht
    case inl hc => exact ⟨as, s', r, hc⟩
    case inr ht =>
      have ⟨as', t, r', hc⟩ := run_of_taken ht.left ht.right
      exact ⟨as ++ as', t, r.trans r', hc⟩

theorem live : Live (machine n) stage where
  call {s t} _ ht := by
    refine ⟨t, next s t, rfl, fun u => ?_⟩
    by_cases hu : u = t
    case pos =>
      subst hu
      cases hp : s.pc u <;> simp [stage, next, hp, Pc.stage] at ht ⊢
    case neg => simp [stage_next_of_ne hu, hu]
  work {s t} r hn ht := by
    by_cases hu : ∃ u, stage s u = .unlocking
    case pos =>
      obtain ⟨u, hu⟩ := hu
      obtain ⟨s', q, hi⟩ := exists_idle hu
      exact ⟨s', q, u, by simp [hi, hu]⟩
    case neg =>
      have hl (u : Fin n) : s.pc u = .idle ∨ (s.pc u).Locking := by
        have hn := hn u
        have hu := not_exists.mp hu u
        cases hp : s.pc u <;> simp_all [stage, Pc.stage, Pc.Locking]
      have hc : Calm s := by
        refine ⟨r, hl, t, (hl t).resolve_left fun hp => ht ?_⟩
        rw [stage, hp]
        rfl
      obtain ⟨as, s', hr, j, hj⟩ := hc.exists_critical
      refine ⟨s', quiet_of_contending hr, j, fun he => hn j ?_⟩
      rw [← he, stage, hj]
      rfl

-- No increment gets lost, and the program can always be brought to its end.
theorem counting_ends {n max : ℕ} {s : LockClient.State (State n) (Fin n) Unit}
    (r : (LockClient.machine (machine n) stage single max).Reachable s) :
    s.counter () = ∑ i, (s.thread i).done single () ∧
    ∃ as s', (LockClient.machine (machine n) stage single max).Run s as s' ∧
      LockClient.Finished stage max s' ∧ s'.counter () = n * max :=
  ⟨LockClient.counter_eq lock r, by simpa using LockClient.exists_single lock live r⟩

-- Thread 0 has loaded the counter, and thread 1 is on its way.
theorem counting_ends_two :
    ∃ s : LockClient.State (State 2) (Fin 2) Unit, (s.thread 0).pc = .store () 0 ∧ s.lock.pc 1 = .setX ∧
      s.counter () = 0 ∧ ∃ as s', (LockClient.machine (machine 2) stage single 3).Run s as s' ∧
      LockClient.Finished stage 3 s' ∧ s'.counter () = 2 * 3 :=
  have h : (LockClient.machine (machine 2) stage single 3).exec (LockClient.start (init 2))
    [.lock 1, .lock 0, .lock 1, .lock 0, .lock 0, .lock 0, .lock 0, .lock 0, .count 0] = some _ := rfl
  ⟨_, rfl, rfl, rfl, (counting_ends (LockClient.reachable_of_exec rfl h)).right⟩

end Client

end Fast
