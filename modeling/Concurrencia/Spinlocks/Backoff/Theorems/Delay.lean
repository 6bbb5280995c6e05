import Concurrencia.Spinlocks.Backoff.Basic
import Concurrencia.Threads.Basic
import Mathlib.Tactic.SplitIfs

open Function Threads

namespace Backoff

variable {n k : ℕ} {d : Declared} {s s' : State n} {i : Fin n} {p : Pc} {f : BitVec 32} {r : ℤ}

section Arithmetic

theorem shift_of_pos (h : 0 < f.toNat) (hk : f.toNat < 2 ^ 31) :
    1 ≤ shift f.toInt ∧ shift f.toInt ≤ failuresLimit := by
  rw [CInt.toInt_of_lt hk, shift, failuresLimit]
  split_ifs
  all_goals omega

theorem shift_neg (h : 2 ^ 31 ≤ f.toNat) : shift f.toInt < 0 := by
  have hl := f.isLt
  rw [CInt.toInt_of_ge h, shift, failuresLimit]
  split_ifs
  all_goals omega

theorem limit_isSome (h : (limit f.toInt).isSome) : f.toNat < 2 ^ 31 := by
  by_contra hn
  have hs := shift_neg (Nat.le_of_not_lt hn)
  have hb := (CInt.bit_isSome.mp h).left
  omega

-- Whatever `rand` returns, the delay is positive and not larger than the limit.
theorem delay_le (h : 1 ≤ shift r) (hl : shift r ≤ failuresLimit) (x : ℤ) :
    ∃ t, delay r x = some t ∧ 1 ≤ t ∧ t ≤ 4096 := by
  obtain ⟨c, hc⟩ : ∃ c : ℕ, shift r = c := Int.eq_ofNat_of_zero_le (by omega)
  rw [hc, failuresLimit] at hl
  have hl : c ≤ 12 := by omega
  have hb : limit r = some ((1 : BitVec 32) <<< c) := by
    rw [limit, hc]
    exact CInt.bit_of_lt (by omega)
  have hp : 2 ^ c ≤ 2 ^ 12 := Nat.pow_le_pow_right (by decide) hl
  have hm : (BitVec.ofInt 32 x).toNat % 2 ^ c < 2 ^ c := Nat.mod_lt _ (Nat.two_pow_pos c)
  have ht : (1 + BitVec.ofInt 32 x % ((1 : BitVec 32) <<< c)).toNat =
      1 + (BitVec.ofInt 32 x).toNat % 2 ^ c := by
    rw [BitVec.toNat_add, BitVec.toNat_umod, CInt.toNat_one_shiftLeft (by omega)]
    exact Nat.mod_eq_of_lt (show 1 + _ < _ by omega)
  refine ⟨1 + (BitVec.ofInt 32 x).toNat % 2 ^ c, ?_, by omega⟩
  rw [delay, hb, ← ht]
  rfl

theorem increment_isSome (h : f.toNat + 1 < 2 ^ 31) : (increment d f).isSome := by
  cases d
  case unsigned => rfl
  case int =>
    have hf : f.toInt ≠ CInt.intMax := by
      rw [CInt.toInt_of_lt (by omega), CInt.intMax]
      omega
    simp [increment, hf]

theorem toNat_increment {g : BitVec 32} (h : increment d f = some g) (hf : f.toNat < 2 ^ 31) :
    g.toNat = f.toNat + 1 := by
  have hg : f + 1 = g := by
    cases d <;> simp only [increment, Option.ite_none_left_eq_some, Option.some.injEq] at h
    case int      => exact h.right
    case unsigned => exact h
  rw [← hg, BitVec.toNat_add_of_lt]
  · rfl
  · have : (1 : BitVec 32).toNat = 1 := rfl
    omega

end Arithmetic

-- The counter is the number of the failed attempts, as far as it goes.
def Counts (k : ℕ) : Pc → Prop
  | .test f | .attempt f              => f.toNat = k ∧ k < 2 ^ 31
  | .failed f                         => f.toNat + 1 = k ∧ k ≤ 2 ^ 31
  | .backoff f                        => f.toNat = k ∧ 0 < k ∧ k ≤ 2 ^ 31
  | .idle | .critical | .undefined    => True

-- The next step of the thread is defined, and if it sleeps, then for a time within the bounds.
def Fine (d : Declared) : Pc → Prop
  | .failed f  => (increment d f).isSome
  | .backoff f => 1 ≤ shift f.toInt ∧ shift f.toInt ≤ failuresLimit ∧
    ∀ rand : ℤ, 0 ≤ rand → ∃ t, delay f.toInt rand = some t ∧ 1 ≤ t ∧ t ≤ 4096
  | _          => True

theorem Counts.fine (h : Counts k p) (hk : k < 2 ^ 31) : Fine d p := by
  cases p <;> try trivial
  case failed f => exact increment_isSome (by have := h.left; omega)
  case backoff f =>
    obtain ⟨rfl, hp, _⟩ := h
    have ⟨h₁, h₂⟩ := shift_of_pos hp hk
    exact ⟨h₁, h₂, fun rand _ => delay_le h₁ h₂ rand⟩

def Inv (s : State n) : Prop :=
  ∀ i, Counts (s.attempts i) (s.pc i)

namespace Inv

theorem init : Inv (init n) :=
  fun _ => trivial

variable (inv : Inv s)
include inv

theorem update (ha : ∀ j ≠ i, s'.attempts j = s.attempts j) (hp : s'.pc = Function.update s.pc i p)
    (hc : Counts (s'.attempts i) p) : Inv s' := by
  intro j
  by_cases hj : j = i
  case pos => simpa [hp, hj] using hc
  case neg => simpa [hp, hj, ha j hj] using inv j

theorem counts_of (hi : s.pc i = p) : Counts (s.attempts i) p :=
  hi ▸ inv i

theorem goto (hc : Counts (s.attempts i) p) : Inv (s.goto i p) :=
  inv.update (fun _ _ => rfl) rfl hc

theorem fail (hf : f.toNat = s.attempts i ∧ s.attempts i < 2 ^ 31) :
    Inv ((s.fail i).goto i (.failed f)) := by
  refine inv.update (i := i) (p := .failed f) (fun j hj => ?_) rfl ?_
  · simp [State.goto, State.fail, hj]
  · simp only [State.goto, State.fail, update_self, Counts]
    omega

theorem step (h : step d s i = some s') : Inv s' := by
  cases hp : s.pc i <;> simp only [Backoff.step, hp] at h
  case undefined => cases h
  case critical =>
    cases h
    exact inv.update (i := i) (fun _ _ => rfl) rfl trivial
  case idle =>
    cases h
    refine inv.update (i := i) (p := .test 0) (fun j hj => ?_) rfl ?_
    · simp [State.goto, hj]
    · simp [State.goto, Counts]
  case test f =>
    have hc := inv.counts_of hp
    split_ifs at h
    all_goals cases h
    · exact inv.fail hc
    · exact inv.goto hc
  case attempt f =>
    have hc := inv.counts_of hp
    split_ifs at h
    all_goals cases h
    · exact inv.fail hc
    · exact inv.update (i := i) (fun _ _ => rfl) rfl trivial
  case failed f =>
    have hc : f.toNat + 1 = s.attempts i ∧ s.attempts i ≤ 2 ^ 31 := inv.counts_of hp
    cases hg : increment d f <;> simp only [hg] at h <;> cases h
    case none => exact inv.goto trivial
    case some g =>
      have hg := toNat_increment hg (by omega)
      refine inv.goto (p := .backoff g) ?_
      simp only [Counts]
      omega
  case backoff f =>
    have hc := inv.counts_of hp
    cases h
    split_ifs with hl
    · exact inv.goto ⟨hc.left, hc.left ▸ limit_isSome hl⟩
    · exact inv.goto trivial

end Inv

theorem inv_of_reachable (r : (machine d n).Reachable s) : Inv s := by
  apply r.invariant
  case init =>
    intro s h
    obtain rfl := h
    exact .init
  case step => exact fun _ _ _ _ inv h => inv.step h

-- Thread 0 holds the mutex, and thread 1 has failed `k` times.
structure Contended (s : State 2) (k : ℕ) : Prop where
  mutex    : s.mutex = true
  pc       : s.pc 1 = .test (.ofNat 32 k)
  attempts : s.attempts 1 = k

theorem contended_zero : ∃ s, (machine d 2).Reachable s ∧ Contended s 0 :=
  have h : (machine d 2).exec (Backoff.init 2) [0, 0, 0, 1] = some _ := rfl
  ⟨_, .of_exec rfl h, rfl, rfl, rfl⟩

theorem increment_ofNat (h : k + 1 < 2 ^ 31) :
    increment d (.ofNat 32 k) = some (.ofNat 32 (k + 1)) := by
  have hk : (BitVec.ofNat 32 k).toNat = k := Nat.mod_eq_of_lt (by omega)
  cases d
  case unsigned => exact congrArg some (BitVec.ofNat_add k 1).symm
  case int =>
    have hi : (BitVec.ofNat 32 k).toInt ≠ CInt.intMax := by
      rw [CInt.toInt_of_lt (by omega), hk, CInt.intMax]
      omega
    rw [increment, if_neg hi]
    exact congrArg some (BitVec.ofNat_add k 1).symm

-- The mutex is taken when thread 1 tests it.
def failAgain (s : State 2) (k : ℕ) : State 2 :=
  (s.fail 1).goto 1 (.failed (.ofNat 32 k))

theorem increment_step {s : State 2} (hi : increment d (.ofNat 32 k) = some f) :
    (machine d 2).step (failAgain s k) 1 = some ((failAgain s k).goto 1 (.backoff f)) := by
  simp [machine, step, failAgain, State.goto, hi]

namespace Contended

variable {s : State 2} (h : Contended s k)
include h

theorem test_step : (machine d 2).step s 1 = some (failAgain s k) := by
  simp [machine, step, h.pc, h.mutex, failAgain]

theorem attempts_failAgain : (failAgain s k).attempts 1 = k + 1 := by
  simp [failAgain, State.goto, State.fail, h.attempts]

theorem succ (hk : k + 1 < 2 ^ 31) (r : (machine d 2).Reachable s) :
    ∃ s, (machine d 2).Reachable s ∧ Contended s (k + 1) := by
  have hl : (limit (BitVec.ofNat 32 (k + 1)).toInt).isSome := by
    have hn : (BitVec.ofNat 32 (k + 1)).toNat = k + 1 := Nat.mod_eq_of_lt (by omega)
    have hs := shift_of_pos (f := .ofNat 32 (k + 1)) (by omega) (by omega)
    rw [failuresLimit] at hs
    exact CInt.bit_isSome.mpr (by omega)
  have h₃ : (machine d 2).step ((failAgain s k).goto 1 (.backoff (.ofNat 32 (k + 1)))) 1 =
      some (((failAgain s k).goto 1 (.backoff (.ofNat 32 (k + 1)))).goto 1
        (.test (.ofNat 32 (k + 1)))) := by
    simp [machine, step, State.goto, hl]
  refine ⟨_, ((r.step h.test_step).step (increment_step (increment_ofNat hk))).step h₃, ?_⟩
  exact ⟨h.mutex, by simp [State.goto], h.attempts_failAgain⟩

end Contended

theorem exists_contended (hk : k < 2 ^ 31) :
    ∃ s, (machine d 2).Reachable s ∧ Contended s k := by
  induction k
  case zero => exact contended_zero
  case succ k hi =>
    have ⟨s, r, h⟩ := hi (by omega)
    exact h.succ hk r

-- After 2^31 failed attempts, an `int` would overflow, and an `unsigned` is passed as a negative
-- number.
theorem exists_not_fine :
    ∃ s, (machine d 2).Reachable s ∧ s.attempts 1 = 2 ^ 31 ∧ ¬Fine d (s.pc 1) := by
  have ⟨s, r, h⟩ := exists_contended (d := d) (k := 2 ^ 31 - 1) (by decide)
  have r' := r.step h.test_step
  cases d
  case int =>
    refine ⟨_, r', h.attempts_failAgain, ?_⟩
    have hn : ¬(increment .int (.ofNat 32 (2 ^ 31 - 1))).isSome := by decide
    simpa only [failAgain, State.goto, update_self, Fine] using hn
  case unsigned =>
    have hi : increment .unsigned (.ofNat 32 (2 ^ 31 - 1)) = some (.ofNat 32 (2 ^ 31)) := rfl
    refine ⟨_, r'.step (increment_step hi), h.attempts_failAgain, ?_⟩
    have hs : ¬1 ≤ shift (BitVec.ofNat 32 (2 ^ 31)).toInt := by decide
    simp only [State.goto, update_self, Fine]
    exact fun hf => hs hf.left

theorem fine_iff : (∀ n s, (machine d n).Reachable s →
    ∀ i, s.attempts i ≤ k → Fine d (s.pc i)) ↔ k < 2 ^ 31 := by
  constructor
  case mpr =>
    intro hk n s r i hi
    exact (inv_of_reachable r i).fine (by omega)
  case mp =>
    intro h
    by_contra hk
    have ⟨s, r, ha, hn⟩ := exists_not_fine (d := d)
    exact hn (h 2 s r 1 (by omega))

-- In the three locks, a call of `lock` with `k` failed attempts stays within the bounds if and only
-- if `k` is below 2^31.
theorem delays_bounded (k : ℕ) :
    ((∀ n s, (SwapBackoff.machine n).Reachable s →
      ∀ i, s.attempts i ≤ k → Fine .int (s.pc i)) ↔ k < 2 ^ 31) ∧
    ((∀ n s, (CompareAndSwapBackoff.machine n).Reachable s →
      ∀ i, s.attempts i ≤ k → Fine .unsigned (s.pc i)) ↔ k < 2 ^ 31) ∧
    ((∀ n s, (TestAndSetBackoff.machine n).Reachable s →
      ∀ i, s.attempts i ≤ k → Fine .unsigned (s.pc i)) ↔ k < 2 ^ 31) :=
  ⟨fine_iff, fine_iff, fine_iff⟩

theorem delays_unbounded :
    ¬((∀ n s, (SwapBackoff.machine n).Reachable s → ∀ i, Fine .int (s.pc i)) ∧
      (∀ n s, (CompareAndSwapBackoff.machine n).Reachable s → ∀ i, Fine .unsigned (s.pc i)) ∧
      ∀ n s, (TestAndSetBackoff.machine n).Reachable s → ∀ i, Fine .unsigned (s.pc i)) := by
  intro h
  have ⟨s, r, _, hn⟩ := exists_not_fine (d := .int)
  exact hn (h.left 2 s r 1)

end Backoff
