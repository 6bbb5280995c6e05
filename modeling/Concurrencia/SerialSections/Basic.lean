import Concurrencia.Machine.Basic
import Mathlib.Algebra.BigOperators.Group.Finset.Piecewise
import Mathlib.Algebra.Ring.Int.Defs

open Function

-- The purpose of a lock: each thread runs a number of sections, and each section is one step. In
-- its section `k` thread `i` does `act i k` to the shared data. A thread may hold the lock for
-- longer than that, and then the sections of the others wait.
namespace SerialSections

structure State (ι σ : Type*) where
  holder : Option ι
  done : ι → ℕ
  data : σ

inductive Label (ι : Type*)
  | acquire (i : ι)
  | act (i : ι)
  | release (i : ι)
  deriving DecidableEq

variable {ι σ : Type*} [DecidableEq ι]

def step (act : ι → ℕ → σ → σ) (count : ℕ) (s : State ι σ) : Label ι → Option (State ι σ)
  | .acquire i => if s.holder = none then some { s with holder := some i } else none
  | .act i     =>
    if (s.holder = none ∨ s.holder = some i) ∧ s.done i < count then
      some { s with done := update s.done i (s.done i + 1), data := act i (s.done i) s.data }
    else
      none
  | .release i => if s.holder = some i then some { s with holder := none } else none

def init (data : σ) : State ι σ where
  holder := none
  done _ := 0
  data   := data

def machine (act : ι → ℕ → σ → σ) (count : ℕ) (data : σ) : Machine (State ι σ) (Label ι) where
  init s := s = init data
  step   := step act count

variable {act : ι → ℕ → σ → σ} {count : ℕ} {data : σ} {s t : State ι σ} {i : ι} {l : List (Label ι)}

theorem run_acquire (h : s.holder = none) :
    (machine act count data).Run s [.acquire i] { s with holder := some i } :=
  .single (if_pos h)

theorem run_act (h : s.holder = none ∨ s.holder = some i) (hc : s.done i < count) :
    (machine act count data).Run s [.act i]
      { s with done := update s.done i (s.done i + 1), data := act i (s.done i) s.data } :=
  .single (if_pos ⟨h, hc⟩)

theorem run_release (h : s.holder = some i) :
    (machine act count data).Run s [.release i] { s with holder := none } :=
  .single (if_pos h)

theorem sum_update {M : Type*} [AddCommMonoid M] [Fintype ι] (f : ι → M) (i : ι) (a : M) :
    ∑ j, update f i (f i + a) j = (∑ j, f j) + a := by
  rw [Finset.sum_update_of_mem (Finset.mem_univ i), ← Finset.add_sum_erase _ f (Finset.mem_univ i),
    Finset.sdiff_singleton_eq_erase]
  exact add_right_comm ..

-- What grows by one in each section is the number of the sections.
theorem run_sum [Fintype ι] {f : σ → ℤ} (hf : ∀ i k c, f (act i k c) = f c + 1)
    (r : (machine act count data).Run s l t) :
    f t.data + ∑ i, s.done i = f s.data + ∑ i, t.done i := by
  induction r
  case refl => rfl
  case step s a s' _ t h _ hi =>
    cases a <;> simp only [machine, step] at h
    case act =>
      split_ifs at h
      cases h
      simp only [hf, sum_update] at hi
      omega
    all_goals
      split_ifs at h
      cases h
      exact hi

end SerialSections
