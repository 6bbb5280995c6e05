import Concurrencia.Channels.ParallelMatrixMultiplication.Theorems.Plan
import Mathlib.Data.Prod.Lex
import Mathlib.Order.WellFoundedSet

open Function

namespace ParallelMatrixMultiplication

open Rendezvous

variable {dim w : ℕ} {m1 m2 : Matrix dim w} {v : Chan → ℕ} {f : (p : Process dim) → Local dim w p}
variable {i j : Fin dim} {i' j' : ℕ}

-- The number of the communications of a multiplier.
def total (v : Chan → ℕ) (i j : ℕ) : ℕ :=
  v (north i j) + v (south i j) + v (east i j) + v (west i j)

-- Of two multipliers with as many communications the one above or to the right comes first.
def rank (v : Chan → ℕ) (d : Fin dim × Fin dim) : ℕ ×ₗ ℕ :=
  toLex (total v d.fst d.snd, d.fst + (dim - 1 - d.snd))

theorem rank_lt_iff {d e : Fin dim × Fin dim} : rank v d < rank v e ↔
    total v d.fst d.snd < total v e.fst e.snd ∨
    total v d.fst d.snd = total v e.fst e.snd ∧
      (d.fst + (dim - 1 - d.snd) : ℕ) < e.fst + (dim - 1 - e.snd) :=
  Prod.Lex.toLex_lt_toLex

-- The multiplier has not finished its row.
def Unfinished (v : Chan → ℕ) (d : Fin dim × Fin dim) : Prop :=
  v (west d.fst d.snd) < dim

-- The multiplier can communicate, or it waits for another one.
def Waits (m1 m2 : Matrix dim w) (v : Chan → ℕ) (f : (p : Process dim) → Local dim w p)
    (d : Fin dim × Fin dim) : Prop :=
  (network m1 m2).Live f ∨ ∃ e : Fin dim × Fin dim, Unfinished v e ∧ rank v e < rank v d

variable {x : Multiplier w}

theorem total_bounds (h : Holds m1 m2 v (.multiplier i j) x) :
    4 * v (west i j) ≤ total v i j ∧ total v i j ≤ 4 * v (west i j) + 3 := by
  cases x <;> simp only [Holds] at h
  all_goals
    rw [total]
    omega

section Waits

variable (h : ∀ p, Holds m1 m2 v p (f p))
include h

theorem Waits.of_lt {d e : Fin dim × Fin dim} (hd : Unfinished v d) (hr : rank v e < rank v d) :
    Waits m1 m2 v f d := by
  have hb := total_bounds (h (.multiplier d.fst d.snd))
  have hb' := total_bounds (h (.multiplier e.fst e.snd))
  refine .inr ⟨e, ?_, hr⟩
  rw [rank_lt_iff] at hr
  rw [Unfinished] at hd ⊢
  omega

omit h in
theorem offer_of {p : Process dim} {x : Local dim w p} (hx : f p = x) :
    (network m1 m2).offer p (f p) = offer m1 m2 p x :=
  congrArg (offer m1 m2 p) hx

-- A multiplier which waits for its north channel waits for the one above, unless this one waits for
-- its south channel.
theorem waits_north {i : ℕ} (hi : i < dim) (hx : f (.multiplier ⟨i, hi⟩ j) = .north)
    (hu : Unfinished v (⟨i, hi⟩, j)) : Waits m1 m2 v f (⟨i, hi⟩, j) := by
  have hm := h (.multiplier ⟨i, hi⟩ j)
  simp only [hx, Holds] at hm
  cases i
  case zero =>
    have hs := h (.source j)
    simp only [Holds] at hs
    simp only [Unfinished] at hu
    have hv : v (north 0 j) < dim := by omega
    have hk : f (.source j) < dim := Nat.lt_of_le_of_lt hs.left.le hv
    have ho : (network m1 m2).offer (.source j) (f (.source j)) =
        .send (north 0 j) (m2 j ⟨_, hk⟩) := dif_pos hk
    exact .inl <| Network.live_of_offers ho (offer_of hx)
  case succ i =>
    have hi' : i < dim := Nat.lt_of_succ_lt hi
    have hm' := h (.multiplier ⟨i, hi'⟩ j)
    have hc : v (south i j) = v (north (i + 1) j) := rfl
    cases hx' : f (.multiplier ⟨i, hi'⟩ j)
    case south => exact .inl <| Network.live_of_offers (offer_of hx') (offer_of hx)
    all_goals
      simp only [hx', Holds] at hm'
      apply Waits.of_lt h (e := (⟨i, hi'⟩, j)) hu
      rw [rank_lt_iff, total, total]
      simp only
      omega

theorem waits_south {i : ℕ} {second : BitVec w} (hi : i < dim)
    (hx : f (.multiplier ⟨i, hi⟩ j) = .south second) (hu : Unfinished v (⟨i, hi⟩, j)) :
    Waits m1 m2 v f (⟨i, hi⟩, j) := by
  have hm := h (.multiplier ⟨i, hi⟩ j)
  simp only [hx, Holds] at hm
  by_cases hi' : i + 1 < dim
  case neg =>
    obtain rfl : i = dim - 1 := by omega
    exact .inl <| Network.live_of_offers (offer_of hx) (offer_of (p := .sink j) rfl)
  case pos =>
    have hm' := h (.multiplier ⟨i + 1, hi'⟩ j)
    have hc : v (south i j) = v (north (i + 1) j) := rfl
    cases hx' : f (.multiplier ⟨i + 1, hi'⟩ j)
    case north => exact .inl <| Network.live_of_offers (offer_of hx) (offer_of hx')
    all_goals
      simp only [hx', Holds] at hm'
      apply Waits.of_lt h (e := (⟨i + 1, hi'⟩, j)) hu
      rw [rank_lt_iff, total, total]
      simp only
      omega

theorem waits_east {j : ℕ} {second : BitVec w} (hj : j < dim)
    (hx : f (.multiplier i ⟨j, hj⟩) = .east second) (hu : Unfinished v (i, ⟨j, hj⟩)) :
    Waits m1 m2 v f (i, ⟨j, hj⟩) := by
  have hm := h (.multiplier i ⟨j, hj⟩)
  simp only [hx, Holds] at hm
  by_cases hj' : j + 1 < dim
  case neg =>
    obtain rfl : j = dim - 1 := by omega
    exact .inl <| Network.live_of_offers (offer_of (p := .zero i) rfl) (offer_of hx)
  case pos =>
    have hm' := h (.multiplier i ⟨j + 1, hj'⟩)
    have hc : v (east i j) = v (west i (j + 1)) := rfl
    cases hx' : f (.multiplier i ⟨j + 1, hj'⟩)
    case west => exact .inl <| Network.live_of_offers (offer_of hx') (offer_of hx)
    all_goals
      simp only [hx', Holds] at hm'
      apply Waits.of_lt h (e := (i, ⟨j + 1, hj'⟩)) hu
      rw [rank_lt_iff, total, total]
      simp only
      omega

theorem waits_west {j : ℕ} {second sum : BitVec w} (hj : j < dim)
    (hx : f (.multiplier i ⟨j, hj⟩) = .west second sum) (hu : Unfinished v (i, ⟨j, hj⟩)) :
    Waits m1 m2 v f (i, ⟨j, hj⟩) := by
  have hm := h (.multiplier i ⟨j, hj⟩)
  simp only [hx, Holds] at hm
  cases j
  case zero =>
    have hr := h (.result i)
    simp only [Holds] at hr
    simp only [Unfinished] at hu
    have hk : (f (.result i)).i < dim := by omega
    have ho : (network m1 m2).offer (.result i) (f (.result i)) = .receive (west i 0) :=
      if_pos hk
    exact .inl <| Network.live_of_offers (offer_of hx) ho
  case succ j =>
    have hj' : j < dim := Nat.lt_of_succ_lt hj
    have hm' := h (.multiplier i ⟨j, hj'⟩)
    have hc : v (east i j) = v (west i (j + 1)) := rfl
    cases hx' : f (.multiplier i ⟨j, hj'⟩)
    case east => exact .inl <| Network.live_of_offers (offer_of hx) (offer_of hx')
    all_goals
      simp only [hx', Holds] at hm'
      apply Waits.of_lt h (e := (i, ⟨j, hj'⟩)) hu
      rw [rank_lt_iff, total, total]
      simp only
      omega

theorem waits (hu : Unfinished v (i, j)) : Waits m1 m2 v f (i, j) := by
  cases hx : f (.multiplier i j)
  case north => exact waits_north h i.isLt hx hu
  case south => exact waits_south h i.isLt hx hu
  case east  => exact waits_east h j.isLt hx hu
  case west  => exact waits_west h j.isLt hx hu

theorem network_live {d : Fin dim × Fin dim} (hu : Unfinished v d) :
    (network m1 m2).Live f :=
  Network.live_of_rank (rank v) (fun _ => waits h) hu

end Waits

end ParallelMatrixMultiplication
