import Concurrencia.Channels.ParallelMatrixMultiplication.Basic
import Mathlib.Algebra.BigOperators.Fin
import Mathlib.Algebra.BigOperators.Intervals
import Mathlib.Data.BitVec

open Function Finset

namespace ParallelMatrixMultiplication

open Rendezvous

variable {dim w : ℕ} {i j k : ℕ}

-- The rows and columns of the multipliers start at 1, and the other processes are around them.
def place : Process dim → ℕ × ℕ
  | .source j       => (0, j + 1)
  | .result i       => (i + 1, 0)
  | .multiplier i j => (i + 1, j + 1)
  | .zero i         => (i + 1, dim + 1)
  | .sink j         => (dim + 1, j + 1)

namespace Chan

def sender : Chan → ℕ × ℕ
  | north j   => (0, j + 1)
  | south i j => (i + 1, j + 1)
  | west i    => (i + 1, 1)
  | east i j  => (i + 1, j + 2)

def receiver : Chan → ℕ × ℕ
  | north j   => (1, j + 1)
  | south i j => (i + 2, j + 1)
  | west i    => (i + 1, 0)
  | east i j  => (i + 1, j + 1)

end Chan

section Channels

variable {i' j' : ℕ}

@[simp] theorem north_ne_south : north i j ≠ south i j := by
  cases i <;> simp [north, south]

@[simp] theorem north_ne_east : north i j ≠ east i' j' := by
  cases i <;> simp [north, east]

@[simp] theorem north_ne_west : north i j ≠ west i' j' := by
  cases i <;> cases j' <;> simp [north, west]

@[simp] theorem south_ne_east : south i j ≠ east i' j' := nofun

@[simp] theorem south_ne_west : south i j ≠ west i' j' := by
  cases j' <;> simp [south, west]

@[simp] theorem east_ne_west : east i j ≠ west i j := by
  cases j <;> simp [east, west]

@[simp] theorem south_ne_north : south i j ≠ north i j := north_ne_south.symm
@[simp] theorem east_ne_north : east i j ≠ north i' j' := north_ne_east.symm
@[simp] theorem west_ne_north : west i j ≠ north i' j' := north_ne_west.symm
@[simp] theorem east_ne_south : east i j ≠ south i' j' := south_ne_east.symm
@[simp] theorem west_ne_south : west i j ≠ south i' j' := south_ne_west.symm
@[simp] theorem west_ne_east : west i j ≠ east i j := east_ne_west.symm

@[simp] theorem north_sender : (north i j).sender = (i, j + 1) := by
  cases i <;> rfl

@[simp] theorem north_receiver : (north i j).receiver = (i + 1, j + 1) := by
  cases i <;> rfl

@[simp] theorem west_sender : (west i j).sender = (i + 1, j + 1) := by
  cases j <;> rfl

@[simp] theorem west_receiver : (west i j).receiver = (i + 1, j) := by
  cases j <;> rfl

@[simp] theorem south_sender : (south i j).sender = (i + 1, j + 1) := rfl
@[simp] theorem south_receiver : (south i j).receiver = (i + 2, j + 1) := rfl
@[simp] theorem east_sender : (east i j).sender = (i + 1, j + 2) := rfl
@[simp] theorem east_receiver : (east i j).receiver = (i + 1, j + 1) := rfl

theorem place_injective : Injective (place : Process dim → _) := by
  intro p q h
  cases p <;> cases q <;> simp only [place, Prod.mk.injEq] at h
  case zero.zero | sink.sink | result.result | source.source | multiplier.multiplier =>
    simp only [Process.zero.injEq, Process.sink.injEq, Process.result.injEq,
      Process.source.injEq, Process.multiplier.injEq, Fin.ext_iff]
    omega
  all_goals omega

end Channels

-- The entries of a matrix, and 0 for the indices which there are not.
def entry (m : Matrix dim w) (i k : ℕ) : BitVec w :=
  if h : i < dim ∧ k < dim then m ⟨i, h.left⟩ ⟨k, h.right⟩ else 0

-- What the multipliers from column `j` on add to the entry `k` of row `i`.
def partialSum (m1 m2 : Matrix dim w) (i j k : ℕ) : BitVec w :=
  ∑ l ∈ Ico j dim, entry m1 i l * entry m2 l k

def carried (m1 m2 : Matrix dim w) : Chan → ℕ → BitVec w
  | .north j, k   => entry m2 j k
  | .south _ j, k => entry m2 j k
  | .west i, k    => partialSum m1 m2 i 0 k
  | .east i j, k  => partialSum m1 m2 i (j + 1) k

section Carried

variable {m1 m2 : Matrix dim w}

theorem entry_fin (m : Matrix dim w) (i k : Fin dim) : entry m i k = m i k :=
  dif_pos ⟨i.isLt, k.isLt⟩

theorem partialSum_east : partialSum m1 m2 i dim k = 0 := by
  simp [partialSum]

theorem partialSum_step (h : j < dim) :
    partialSum m1 m2 i (j + 1) k + entry m1 i j * entry m2 j k = partialSum m1 m2 i j k := by
  rw [partialSum, partialSum, sum_eq_sum_Ico_succ_bot h, add_comm]

theorem partialSum_west (i k : Fin dim) :
    partialSum m1 m2 i 0 k = ∑ j, m1 i j * m2 j k := by
  rw [partialSum, ← range_eq_Ico, sum_range]
  simp only [entry_fin]

@[simp] theorem carried_north : carried m1 m2 (north i j) k = entry m2 j k := by
  cases i <;> rfl

@[simp] theorem carried_south : carried m1 m2 (south i j) k = entry m2 j k := rfl

@[simp] theorem carried_west : carried m1 m2 (west i j) k = partialSum m1 m2 i j k := by
  cases j <;> rfl

@[simp] theorem carried_east :
    carried m1 m2 (east i j) k = partialSum m1 m2 i (j + 1) k := rfl

end Carried

variable {m1 m2 : Matrix dim w} {v : Chan → ℕ} {p : Process dim} {x : Local dim w p} {c : Chan}
variable {a : BitVec w}

-- The local variables of a process after the given numbers of communications.
def Holds (m1 m2 : Matrix dim w) (v : Chan → ℕ) : (p : Process dim) → Local dim w p → Prop
  | .zero _, _ | .sink _, _            => True
  | .source j, k                       => k = v (north 0 j) ∧ k ≤ dim
  | .result i, x                       =>
    x.i = v (west i 0) ∧ ∀ k : Fin dim, k < x.i → x.row k = ∑ j, m1 i j * m2 j k
  | .multiplier i j, .north            =>
    v (north i j) = v (west i j) ∧ v (south i j) = v (west i j) ∧ v (east i j) = v (west i j)
  | .multiplier i j, .south second     =>
    v (north i j) = v (west i j) + 1 ∧ v (south i j) = v (west i j) ∧
      v (east i j) = v (west i j) ∧ second = entry m2 j (v (west i j))
  | .multiplier i j, .east second      =>
    v (north i j) = v (west i j) + 1 ∧ v (south i j) = v (west i j) + 1 ∧
      v (east i j) = v (west i j) ∧ second = entry m2 j (v (west i j))
  | .multiplier i j, .west second sum  =>
    v (north i j) = v (west i j) + 1 ∧ v (south i j) = v (west i j) + 1 ∧
      v (east i j) = v (west i j) + 1 ∧ second = entry m2 j (v (west i j)) ∧
      sum = partialSum m1 m2 i (j + 1) (v (west i j))

theorem holds_send (h : Holds m1 m2 v p x) (ho : offer m1 m2 p x = .send c a) :
    place p = c.sender ∧ a = carried m1 m2 c (v c) ∧
      Holds m1 m2 (update v c (v c + 1)) p (sent p x) := by
  cases p
  case sink => cases ho
  case result =>
    simp only [offer] at ho
    split_ifs at ho
  case zero i =>
    cases ho
    have hd : dim - 1 + 1 = dim := Nat.sub_add_cancel i.pos
    refine ⟨?_, ?_, trivial⟩
    · simp [place, hd]
    · rw [carried_east, hd, partialSum_east]
  case source j =>
    simp only [offer] at ho
    split_ifs at ho with hk
    cases ho
    have ⟨hv, _⟩ := h
    refine ⟨rfl, ?_, ?_, hk⟩
    · rw [carried_north, ← hv]
      exact (entry_fin m2 j ⟨x, hk⟩).symm
    · rw [update_self, ← hv]
      rfl
  case multiplier i j =>
    cases x <;> cases ho
    case south =>
      have ⟨hn, hs, he, hx⟩ := h
      refine ⟨rfl, by rw [carried_south, hs, hx], ?_⟩
      simp [Holds, sent, hn, hs, he, hx]
    case west =>
      have ⟨hn, hs, he, hx, hy⟩ := h
      refine ⟨by simp [place], ?_, ?_⟩
      · rw [carried_west, hx, hy, ← partialSum_step j.isLt, entry_fin]
      · simp [Holds, sent, hn, hs, he]

theorem holds_receive (h : Holds m1 m2 v p x) (ho : offer m1 m2 p x = .receive c) :
    place p = c.receiver ∧
      Holds m1 m2 (update v c (v c + 1)) p (received p x (carried m1 m2 c (v c))) := by
  cases p
  case zero => cases ho
  case source =>
    simp only [offer] at ho
    split_ifs at ho
  case sink j =>
    cases ho
    have hd : dim - 1 + 1 = dim := Nat.sub_add_cancel j.pos
    exact ⟨by simp [place, hd], trivial⟩
  case result i =>
    simp only [offer] at ho
    split_ifs at ho with hk
    cases ho
    have ⟨hv, hr⟩ := h
    refine ⟨by simp [place], by simp [received, hv], fun k hl => ?_⟩
    by_cases hx : k = x.i
    case pos =>
      rw [carried_west, ← hv, ← hx, partialSum_west]
      exact if_pos hx
    case neg =>
      have hl : k < x.i := Nat.lt_of_le_of_ne (Nat.le_of_lt_succ hl) hx
      exact (if_neg hx).trans (hr k hl)
  case multiplier i j =>
    cases x <;> cases ho
    case north =>
      have ⟨hn, hs, he⟩ := h
      refine ⟨by simp [place], ?_⟩
      simp [Holds, received, hn, hs, he]
    case east =>
      have ⟨hn, hs, he, hx⟩ := h
      refine ⟨by simp [place], ?_⟩
      simp [Holds, received, hn, hs, he, hx]

theorem holds_frame {n : ℕ} (h : Holds m1 m2 v p x) (ho : place p ≠ c.sender)
    (hr : place p ≠ c.receiver) : Holds m1 m2 (update v c n) p x := by
  cases p
  case zero | sink => trivial
  case source j =>
    have hc : north 0 j ≠ c := fun hc => ho (hc ▸ rfl)
    rwa [Holds, update_of_ne hc]
  case result i =>
    have hc : west i 0 ≠ c := fun hc => hr (hc ▸ rfl)
    rwa [Holds, update_of_ne hc]
  case multiplier i j =>
    have hn : north i j ≠ c := fun hc => hr (by simp [← hc, place])
    have hs : south i j ≠ c := fun hc => ho (by simp [← hc, place])
    have he : east i j ≠ c := fun hc => hr (by simp [← hc, place])
    have hw : west i j ≠ c := fun hc => ho (by simp [← hc, place])
    cases x <;> rwa [Holds, update_of_ne hn, update_of_ne hs, update_of_ne he, update_of_ne hw]

def plan (m1 m2 : Matrix dim w) : Plan (network m1 m2) where
  Sends p c     := place p = c.sender
  Receives p c  := place p = c.receiver
  carried       := carried m1 m2
  Holds         := Holds m1 m2
  sender h h'   := place_injective (h.trans h'.symm)
  receiver h h' := place_injective (h.trans h'.symm)
  send          := holds_send
  receive       := holds_receive
  frame         := holds_frame

end ParallelMatrixMultiplication
