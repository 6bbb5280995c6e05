import Concurrencia.Intro.Fast.Basic
import Mathlib.Data.Set.Subsingleton
import Mathlib.Tactic.SplitIfs
import Mathlib.Tactic.Push

open Function

namespace Fast

namespace Pc

-- `lock` has returned and `unlock` has not written `y` yet.
def Inside (p : Pc) : Prop :=
  p = critical ∨ p = releaseY

-- The thread has seen `y < 0` and is about to take the decision on `x`.
def Racing (p : Pc) : Prop :=
  p = setY ∨ p = testX

-- The scan of `b` has left thread `k` behind.
def Past (k : ℕ) : Pc → Prop
  | scan j   => k < j
  | recheckY => True
  | _        => False

-- Between `b[i] = 1` and the write which takes it back. A thread inside is not in this range,
-- since it is flagged when it came by the fast path and not when it came by the slow one.
def Flagged (p : Pc) : Prop :=
  p = setX ∨ p = testY ∨ p = resetB ∨ p.Racing ∨ p = clearB

end Pc

variable {n : ℕ} {s : State n} {i j k : Fin n}

section Next

theorem next_pc_of_ne (h : j ≠ i) : (next s i).pc j = s.pc j := by
  cases hp : s.pc i <;> simp [next, hp, h]

theorem next_b_of_ne (h : j ≠ i) : (next s i).b j = s.b j := by
  cases hp : s.pc i <;> simp [next, hp, h]

theorem next_x :
    (next s i).x = s.x ∨ s.pc i = .setX ∧ (next s i).pc i = .testY ∧ (next s i).x = i := by
  cases hp : s.pc i <;> simp [next, hp]

theorem next_y :
    (next s i).y = s.y ∨ s.pc i = .setY ∧ (next s i).pc i = .testX ∧ (next s i).y = i ∨
    s.pc i = .releaseY ∧ (next s i).pc i = .releaseB ∧ (next s i).y = -1 := by
  cases hp : s.pc i <;> simp [next, hp]

theorem next_flagged (h : ((next s i).pc i).Flagged) :
    (next s i).b i = 1 ∨ (s.pc i).Flagged ∧ (next s i).b i = s.b i := by
  cases hp : s.pc i <;> simp [next, hp] at h ⊢ <;> try split_ifs at h
  all_goals simp_all [Pc.Flagged, Pc.Racing]

theorem next_racing (h : ((next s i).pc i).Racing) :
    (next s i).x = s.x ∧
    (s.pc i = .testY ∧ (next s i).pc i = .setY ∧ s.y < 0 ∧ (next s i).y = s.y ∨
      s.pc i = .setY ∧ (next s i).y = i) := by
  cases hp : s.pc i <;> simp [next, hp] at h ⊢ <;> try split_ifs at h
  all_goals simp_all [Pc.Racing]

theorem next_past (h : ((next s i).pc i).Past k) :
    (next s i).y = s.y ∧ ((s.pc i).Past k ∨ s.pc i = .scan k ∧ s.b k = 0) := by
  cases hp : s.pc i <;> simp [next, hp] at h ⊢
  case scan l =>
    split_ifs at h with hl hb
    · rcases Nat.lt_succ_iff_lt_or_eq.mp h with h | rfl
      · exact .inl h
      · exact .inr ⟨rfl, hb⟩
    · exact .inl h
    · exact .inl <| Nat.lt_of_lt_of_le k.isLt (Nat.le_of_not_lt hl)
  all_goals try split_ifs at h
  all_goals simp_all [Pc.Past]

theorem next_inside (h : ((next s i).pc i).Inside) :
    (next s i).b i = s.b i ∧ (next s i).x = s.x ∧ (next s i).y = s.y ∧
    (s.pc i = .testX ∧ s.x = i ∨ s.pc i = .recheckY ∧ s.y = i ∨ (s.pc i).Inside) := by
  cases hp : s.pc i <;> simp [next, hp] at h ⊢ <;> try split_ifs at h
  all_goals simp_all [Pc.Inside]

end Next

-- A thread which came inside by the fast path still has its flag up.
def Quick (s : State n) (i : Fin n) : Prop :=
  (s.pc i).Inside ∧ s.b i ≠ 0

def Slow (s : State n) (i : Fin n) : Prop :=
  (s.pc i).Inside ∧ s.b i = 0

structure Inv (s : State n) : Prop where
  flag  : ∀ {i}, (s.pc i).Flagged → s.b i = 1
  turn  : ∀ {i : Fin n}, s.pc i = .testX → s.x = i → 0 ≤ s.y
  past  : ∀ {i j : Fin n}, i ≠ j → (s.pc j).Past i → s.y = j → ¬(s.pc i).Racing ∧ ¬Quick s i
  slow  : ∀ {i}, Slow s i → s.y = i ∧ ∀ j ≠ i, ¬(s.pc j).Racing ∧ ¬(s.pc j).Inside
  quick : ∀ {i}, Quick s i → 0 ≤ s.y ∧ ∀ j ≠ i, ((s.pc j).Racing → s.x ≠ j) ∧ ¬(s.pc j).Inside

namespace Inv

theorem init : Inv (init n) := by
  constructor <;> simp [Fast.init, Pc.Flagged, Pc.Racing, Pc.Past, Slow, Quick, Pc.Inside]

variable (inv : Inv s)
include inv

theorem eq_of_inside (hi : (s.pc i).Inside) (hj : (s.pc j).Inside) : i = j := by
  by_contra hn
  by_cases hb : s.b i = 0
  case pos => exact (inv.slow ⟨hi, hb⟩).right j (Ne.symm hn) |>.right hj
  case neg => exact (inv.quick ⟨hi, hb⟩).right j (Ne.symm hn) |>.right hj

theorem flag_racing (h : (s.pc i).Racing) : s.b i = 1 :=
  inv.flag <| .inr <| .inr <| .inr <| .inl h

-- As long as a thread races with the decision on `x` still open, `y` keeps its value.
theorem releaseY_racing (hi : s.pc i = .releaseY) (hj : (s.pc j).Racing) : s.x ≠ j := by
  have hij : j ≠ i := by rintro rfl; simp [hi, Pc.Racing] at hj
  by_cases hb : s.b i = 0
  case pos => exact absurd hj (inv.slow ⟨.inr hi, hb⟩ |>.right j hij).left
  case neg => exact (inv.quick ⟨.inr hi, hb⟩ |>.right j hij).left hj

theorem flag_next (h : ((next s i).pc j).Flagged) : (next s i).b j = 1 := by
  rcases eq_or_ne j i with rfl | hj
  case inl =>
    rcases next_flagged h with h | ⟨h, hb⟩
    · exact h
    · rw [hb, inv.flag h]
  case inr =>
    rw [next_pc_of_ne hj] at h
    rw [next_b_of_ne hj, inv.flag h]

theorem turn_next (h : (next s i).pc j = .testX) (hx : (next s i).x = j) : 0 ≤ (next s i).y := by
  rcases eq_or_ne j i with rfl | hj
  case inl =>
    rcases (next_racing (.inr h)).right with ⟨-, hp, -⟩ | ⟨-, hy⟩
    · simp [hp] at h
    · omega
  case inr =>
    rw [next_pc_of_ne hj] at h
    have hx : s.x = j := by
      rcases next_x (s := s) (i := i) with hx' | ⟨-, -, hx'⟩
      · rw [← hx', hx]
      · exact absurd (Fin.ext <| by omega) hj
    rcases next_y (s := s) (i := i) with hy | ⟨-, -, hy⟩ | ⟨hp, -⟩
    · exact hy ▸ inv.turn h hx
    · omega
    · exact absurd hx <| inv.releaseY_racing hp (.inr h)

theorem past_next (h : i ≠ j) (hj : ((next s k).pc j).Past i) (hy : (next s k).y = j) :
    ¬((next s k).pc i).Racing ∧ ¬Quick (next s k) i := by
  rcases eq_or_ne j k with rfl | hjk
  case inl =>
    have ⟨hy', hj⟩ := next_past hj
    simp only [Quick, next_pc_of_ne h, next_b_of_ne h]
    rcases hj with hj | ⟨-, hb⟩
    · exact inv.past h hj (hy' ▸ hy)
    · exact ⟨fun hr => by simp [inv.flag_racing hr] at hb, fun hq => hq.right hb⟩
  case inr =>
    rw [next_pc_of_ne hjk] at hj
    have hy' : s.y = j := by
      rcases next_y (s := s) (i := k) with hy' | ⟨-, -, hy'⟩ | ⟨-, -, hy'⟩
      · exact hy' ▸ hy
      · exact absurd (Fin.ext <| by omega) hjk
      · omega
    have ⟨hr, hq⟩ := inv.past h hj hy'
    rcases eq_or_ne i k with rfl | hik
    case inr => simpa only [Quick, next_pc_of_ne hik, next_b_of_ne hik] using ⟨hr, hq⟩
    case inl =>
      constructor
      · intro hr'
        rcases (next_racing hr').right with ⟨-, -, hn, -⟩ | ⟨hp, -⟩
        · omega
        · exact hr (.inl hp)
      · intro ⟨hi, hb⟩
        obtain ⟨hb', -, -, hi⟩ := next_inside hi
        rcases hi with ⟨hp, -⟩ | ⟨-, hy'⟩ | hi
        · exact hr (.inr hp)
        · exact h <| Fin.ext (by omega)
        · exact hq ⟨hi, hb' ▸ hb⟩

-- A thread whose second test of `y` succeeds is alone, ...
theorem recheckY_alone (hi : s.pc i = .recheckY) (hy : s.y = i) (hj : j ≠ i) :
    ¬(s.pc j).Racing ∧ ¬(s.pc j).Inside := by
  have ⟨hr, hq⟩ := inv.past hj (by simp [hi, Pc.Past]) hy
  refine ⟨hr, fun h => ?_⟩
  by_cases hb : s.b j = 0
  case pos => exact hj <| Fin.ext (by have := (inv.slow ⟨h, hb⟩).left; omega)
  case neg => exact hq ⟨h, hb⟩

-- ... and one whose test of `x` succeeds is alone up to threads that will fail this test.
theorem testX_alone (hi : s.pc i = .testX) (hx : s.x = i) (hj : j ≠ i) :
    ((s.pc j).Racing → s.x ≠ j) ∧ ¬(s.pc j).Inside := by
  refine ⟨fun _ h => hj <| Fin.ext (by omega), fun h => ?_⟩
  by_cases hb : s.b j = 0
  case pos => exact (inv.slow ⟨h, hb⟩ |>.right i hj.symm).left (.inr hi)
  case neg => exact (inv.quick ⟨h, hb⟩ |>.right i hj.symm).left (.inr hi) hx

theorem slow_next (h : Slow (next s k) i) :
    (next s k).y = i ∧ ∀ j ≠ i, ¬((next s k).pc j).Racing ∧ ¬((next s k).pc j).Inside := by
  rcases eq_or_ne i k with rfl | hik
  case inl =>
    obtain ⟨hb, -, hy, hi⟩ := next_inside h.left
    rw [hy]
    rcases hi with ⟨hp, -⟩ | ⟨hp, hy⟩ | hi
    · exact absurd (hb ▸ h.right) (by simp [inv.flag_racing (.inr hp)])
    · refine ⟨hy, fun j hj => ?_⟩
      rw [next_pc_of_ne hj]
      exact inv.recheckY_alone hp hy hj
    · have ⟨hy, ha⟩ := inv.slow ⟨hi, hb ▸ h.right⟩
      refine ⟨hy, fun j hj => ?_⟩
      rw [next_pc_of_ne hj]
      exact ha j hj
  case inr =>
    rw [Slow, next_pc_of_ne hik, next_b_of_ne hik] at h
    have ⟨hy, ha⟩ := inv.slow h
    have ⟨hr, hi⟩ := ha k hik.symm
    constructor
    · rcases next_y (s := s) (i := k) with hy' | ⟨hp, -⟩ | ⟨hp, -⟩
      · exact hy' ▸ hy
      · exact absurd (.inl hp) hr
      · exact absurd (.inr hp) hi
    · intro j hj
      rcases eq_or_ne j k with rfl | hjk
      case inr =>
        rw [next_pc_of_ne hjk]
        exact ha j hj
      case inl =>
        constructor
        · intro h
          rcases (next_racing h).right with ⟨-, -, hn, -⟩ | ⟨hp, -⟩
          · omega
          · exact hr (.inl hp)
        · intro h
          obtain ⟨-, -, -, ⟨hp, -⟩ | ⟨-, hy'⟩ | h⟩ := next_inside h
          · exact hr (.inr hp)
          · exact hj <| Fin.ext (by omega)
          · exact hi h

theorem quick_next (h : Quick (next s k) i) :
    0 ≤ (next s k).y ∧
    ∀ j ≠ i, (((next s k).pc j).Racing → (next s k).x ≠ j) ∧ ¬((next s k).pc j).Inside := by
  rcases eq_or_ne i k with rfl | hik
  case inl =>
    obtain ⟨hb, hx, hy, hi⟩ := next_inside h.left
    rw [hx, hy]
    rcases hi with ⟨hp, hx⟩ | ⟨hp, hy⟩ | hi
    · refine ⟨inv.turn hp hx, fun j hj => ?_⟩
      rw [next_pc_of_ne hj]
      exact inv.testX_alone hp hx hj
    · refine ⟨by omega, fun j hj => ?_⟩
      rw [next_pc_of_ne hj]
      have ⟨hr, hi⟩ := inv.recheckY_alone hp hy hj
      exact ⟨(absurd · hr), hi⟩
    · have ⟨hy, ha⟩ := inv.quick ⟨hi, hb ▸ h.right⟩
      refine ⟨hy, fun j hj => ?_⟩
      rw [next_pc_of_ne hj]
      exact ha j hj
  case inr =>
    rw [Quick, next_pc_of_ne hik, next_b_of_ne hik] at h
    have ⟨hy, ha⟩ := inv.quick h
    have ⟨hr, hi⟩ := ha k hik.symm
    constructor
    · rcases next_y (s := s) (i := k) with hy' | ⟨-, -, hy'⟩ | ⟨hp, -⟩
      · exact hy' ▸ hy
      · omega
      · exact absurd (.inr hp) hi
    · intro j hj
      rcases eq_or_ne j k with rfl | hjk
      case inr =>
        rw [next_pc_of_ne hjk]
        refine ⟨fun h => ?_, (ha j hj).right⟩
        rcases next_x (s := s) (i := k) with hx | ⟨-, -, hx⟩
        · exact hx ▸ (ha j hj).left h
        · exact fun hx' => hjk <| Fin.ext (by omega)
      case inl =>
        constructor
        · intro h
          obtain ⟨hx, ⟨-, -, hn, -⟩ | ⟨hp, -⟩⟩ := next_racing h
          · omega
          · exact hx ▸ hr (.inl hp)
        · intro h'
          obtain ⟨-, -, -, ⟨hp, hx⟩ | ⟨hp, hy'⟩ | h'⟩ := next_inside h'
          · exact hr (.inr hp) hx
          · exact (inv.past hj.symm (by simp [hp, Pc.Past]) hy').right h
          · exact hi h'

theorem next : Inv (next s k) where
  flag  := inv.flag_next
  turn  := inv.turn_next
  past  := inv.past_next
  slow  := inv.slow_next
  quick := inv.quick_next

end Inv

theorem inv_of_reachable (r : (machine n).Reachable s) : Inv s := by
  apply r.invariant
  · rintro _ rfl
    exact .init
  · rintro _ _ _ - inv h
    exact Option.some.inj h ▸ inv.next

theorem exclusion (r : (machine n).Reachable s) : {i | (s.pc i).Inside}.Subsingleton :=
  fun _ hi _ hj => (inv_of_reachable r).eq_of_inside hi hj

-- Thread 0 comes by the fast path while thread 1 is still on its way.
theorem exclusion_quick :
    ∃ s : State 2, (s.pc 0).Inside ∧ s.b 1 = 1 ∧ {i | (s.pc i).Inside}.Subsingleton :=
  have h : (machine 2).exec (init 2) [0, 1, 0, 0, 1, 0, 0, 0] = some _ := rfl
  ⟨_, .inl rfl, rfl, exclusion (.of_exec rfl h)⟩

end Fast
