import Concurrencia.LockClient.Basic
import Concurrencia.Spinlocks.SimpleSpinlock.Basic
import Concurrencia.Threads.Basic
import Mathlib.Algebra.BigOperators.Ring.Finset

open Function Threads

namespace SimpleSpinlock

open LockClient (Stage Lock Live)

def Pc.stage : Pc → Stage
  | idle           => .idle
  | test | attempt => .locking
  | critical       => .inside

@[simp] theorem Pc.stage_idle : idle.stage = .idle := rfl
@[simp] theorem Pc.stage_test : test.stage = .locking := rfl
@[simp] theorem Pc.stage_attempt : attempt.stage = .locking := rfl
@[simp] theorem Pc.stage_critical : critical.stage = .inside := rfl

variable {n : ℕ} {v : Variant} {s s' : State n} {i j : Fin n} {a : Label n}

def stage (s : State n) (i : Fin n) : Stage :=
  (s.pc i).stage

@[simp]
theorem Variant.stage_loop : v.loop.stage = .locking := by
  unfold loop
  split <;> rfl

-- All that a step can do.
inductive Step (v : Variant) (s : State n) (i : Fin n) : State n → Prop
  | call : (s.pc i = .idle) → Step v s i (s.goto i v.loop)
  | retry : ((s.pc i).stage = .locking) → (p.stage = .locking) → Step v s i (s.goto i p)
  | take : (s.pc i = .attempt) → (s.mutex = false) →
    Step v s i ({ s with mutex := true }.goto i .critical)
  | free : (s.pc i = .critical) → Step v s i ({ s with mutex := false }.goto i .idle)

def Label.actor : Label n → Fin n
  | thread i   => i
  | spurious i => i

theorem Step.of_step (h : step v s a = some s') : Step v s a.actor s' := by
  cases a
  case spurious i =>
    simp only [step, Option.ite_none_right_eq_some, Option.some.injEq] at h
    obtain ⟨⟨_, hp⟩, rfl⟩ := h
    exact .retry (by simp [Label.actor, hp]) Variant.stage_loop
  case thread i =>
    obtain rfl := Option.some.inj h
    unfold threadStep
    split
    case h_1 hp => exact .call hp
    case h_2 hp =>
      refine .retry (i := i) (by simp [hp]) ?_
      split <;> rfl
    case h_3 hp =>
      split
      case isTrue      => exact .retry (by simp [Label.actor, hp]) Variant.stage_loop
      case isFalse hm => exact .take hp (by simpa using hm)
    case h_4 hp => exact .free hp

-- The flag is set by the thread inside.
def Inv (s : State n) : Prop :=
  Owned s.pc (·.stage = .inside) (s.mutex = true)

theorem Inv.step (h : Inv s) (hs : Step v s i s') : Inv s' := by
  cases hs
  case call hp      => exact h.keep (by simp [hp])
  case retry hp hq  => exact h.keep (by simp [hp, hq])
  case take hp hm   => exact Owned.take h (by simp [hm]) rfl rfl
  case free hp      => exact Owned.free h (by simp [hp]) (by simp) (by simp)

theorem inv_of_reachable (r : (machine v n).Reachable s) : Inv s := by
  refine r.invariant (I := Inv) ?init fun _ _ _ _ h hs => h.step (.of_step hs)
  rintro s rfl
  exact ⟨⟨by simp [init], by simp [init]⟩, by simp [init]⟩

theorem Step.moves (h : Step v s i s') :
    ∃ i p, s'.pc = update s.pc i p ∧ Stage.Next (s.pc i).stage p.stage := by
  cases h
  case call hp     => exact ⟨i, _, rfl, hp ▸ Variant.stage_loop ▸ .lock⟩
  case retry hp hq => exact ⟨i, _, rfl, hp ▸ hq ▸ .stay⟩
  case take hp _   => exact ⟨i, _, rfl, hp ▸ .enter⟩
  case free hp     => exact ⟨i, _, rfl, hp ▸ .free⟩

theorem lock : Lock (machine v n) stage := by
  apply Lock.of_moves
  case init =>
    rintro s t rfl
    rfl
  case step   => exact fun hs => (Step.of_step hs).moves
  case unique => exact fun r hi hj => (inv_of_reachable r).unique hi hj

-- A thread reads the flag before it tries to set it.
def Pc.rank : Pc → ℕ
  | test => 1
  | _    => 0

theorem moves {p : Pc} (hp : (threadStep v s i).pc = update s.pc i p) :
    LockClient.Moves (machine v n) State.pc s i p :=
  ⟨.thread i, _, rfl, hp⟩

theorem live : Live (machine v n) stage := by
  apply Live.of_moves Pc.rank
  case call =>
    intro s t _ ht
    cases hp : s.pc t <;> simp only [hp, Pc.stage, reduceCtorEq, or_self, or_true, true_or] at ht
    case idle     => exact ⟨v.loop, moves (by simp [threadStep, hp]), by simp⟩
    case critical => exact ⟨.idle, moves (by simp [threadStep, hp]), by simp⟩
  case work =>
    intro s r hn ⟨t, ht⟩
    have hm : s.mutex = false := by
      by_contra hm
      have ⟨i, hi⟩ := (inv_of_reachable r).owner (by simpa using hm)
      exact hn i hi
    have ht' := hn t
    cases hp : s.pc t <;> simp [hp] at ht ht'
    case test    => exact ⟨t, .attempt, moves (by simp [threadStep, hp, hm]), by simp [hp, Pc.rank]⟩
    case attempt => exact ⟨t, .critical, moves (by simp [threadStep, hp, hm]), by simp [hp]⟩

theorem count_rwCell (max : ℕ) : Nat.count (rwCell · = some ()) max = (max + 9) / 10 := by
  induction max
  case zero => simp
  case succ i hi =>
    rw [Nat.count_succ, hi]
    by_cases h : i % 10 = 0
    case pos =>
      rw [if_pos (by simp [rwCell, h])]
      omega
    case neg =>
      rw [if_neg (by simp [rwCell, h])]
      omega

theorem sum_count_arrayCell (size : ℕ) [NeZero size] (max : ℕ) :
    ∑ k, Nat.count (arrayCell size · = some k) max = max := by
  induction max
  case zero => simp
  case succ i hi =>
    have h : ∑ k, (if arrayCell size i = some k then 1 else 0) = 1 := by simp [arrayCell]
    simp only [Nat.count_succ, Finset.sum_add_distrib, hi, h]

-- What the programs print in the end.
theorem printed_counters (v : Variant) (n size max : ℕ) [NeZero size] :
    LockClient.Prints (machine v n) stage LockClient.single max (· ()) (n * max) ∧
    LockClient.Prints (machine v n) stage (arrayCell size) max (fun c => ∑ k, c k) (n * max) ∧
    LockClient.Prints (machine v n) stage rwCell max (· ()) (n * ((max + 9) / 10)) := by
  refine ⟨.of_live lock live ?_, .of_live lock live ?_, .of_live lock live ?_⟩
  · simp [LockClient.single]
  · simp [← Finset.mul_sum, sum_count_arrayCell]
  · simp [count_rwCell]

-- With the constants of the program.
theorem printed_counters_four :
    LockClient.Prints (machine counterSwap 4) stage (arrayCell 1024) (100000000 / 4)
      (fun c => ∑ k, c k) 100000000 :=
  (printed_counters counterSwap 4 1024 (100000000 / 4)).right.left

end SimpleSpinlock
