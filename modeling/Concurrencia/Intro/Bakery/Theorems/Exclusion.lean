import Concurrencia.Intro.Bakery.Basic
import Mathlib.Data.Prod.Lex
import Mathlib.Data.Set.Subsingleton
import Mathlib.Order.Fin.Basic
import Mathlib.Tactic.SplitIfs
import Mathlib.Tactic.Push

open Function

namespace Bakery

namespace Pc

variable {n : ℕ}

-- `choosing[i]` is set.
def Doorway : Pc n → Prop
  | scan .. | assign _ | setNumber _ | clearChoosing => True
  | _ => False

-- `number[i]` has been chosen and not been given back.
def Numbered : Pc n → Prop
  | clearChoosing | waitChoosing _ | testPositive _ | testLess _ | testEqual _ | critical | release => True
  | _ => False

-- The wait loop has seen `choosing[k]` cleared.
def Cleared (k : ℕ) : Pc n → Prop
  | waitChoosing j => k < j
  | testPositive j | testLess j | testEqual j => k ≤ j
  | critical | release => True
  | _ => False

-- The wait loop has left thread `k` behind.
def Passed (k : ℕ) : Pc n → Prop
  | waitChoosing j => k < j
  | testPositive j | testLess j | testEqual j => k < j
  | critical | release => True
  | _ => False

def Inside (p : Pc n) : Prop :=
  p = critical ∨ p = release

theorem Cleared.numbered {p : Pc n} {k : ℕ} (h : p.Cleared k) : p.Numbered := by
  cases p <;> simp_all [Cleared, Numbered]

theorem Passed.cleared {p : Pc n} {k : ℕ} (h : p.Passed k) : p.Cleared k := by
  cases p <;> simp_all [Passed, Cleared, Nat.le_of_lt]

end Pc

variable {n : ℕ} {s : State n} {i j k l : Fin n} {m : ℕ}

section Next

theorem next_pc_of_ne (h : j ≠ i) : (next s i).pc j = s.pc j := by
  cases hp : s.pc i <;> simp [next, hp, h]

theorem next_number_of_ne (h : j ≠ i) : (next s i).number j = s.number j := by
  cases hp : s.pc i <;> simp [next, hp, h]

theorem next_choosing_of_ne (h : j ≠ i) : (next s i).choosing j = s.choosing j := by
  cases hp : s.pc i <;> simp [next, hp, h]

theorem next_doorway (h : ((next s i).pc i).Doorway) :
    s.pc i = .setChoosing ∧ (next s i).choosing i = 1 ∧ (next s i).pc i = .scan 0 0 ∨
    (s.pc i).Doorway ∧ (next s i).choosing i = s.choosing i := by
  cases hp : s.pc i <;> simp [next, hp] at h ⊢ <;> try split_ifs at h
  all_goals simp_all [Pc.Doorway]

theorem next_numbered (h : ((next s i).pc i).Numbered) :
    (∃ m, s.pc i = .setNumber m ∧ (next s i).number i = (m + 1) % uintSize) ∨
    (s.pc i).Numbered ∧ (next s i).number i = s.number i := by
  cases hp : s.pc i <;> simp [next, hp] at h ⊢ <;> try split_ifs at h
  all_goals simp_all [Pc.Numbered]

theorem next_not_numbered (h : ¬((next s i).pc i).Numbered) :
    (next s i).number i = 0 ∨ ¬(s.pc i).Numbered ∧ (next s i).number i = s.number i := by
  cases hp : s.pc i <;> simp [next, hp] at h ⊢ <;> try split_ifs at h
  all_goals simp_all [Pc.Numbered]

theorem next_number :
    (next s i).number i = s.number i ∨ (∃ m, s.pc i = .setNumber m) ∨ s.pc i = .release := by
  cases hp : s.pc i <;> simp [next, hp]

theorem next_cleared (h : ((next s i).pc i).Cleared k) :
    (next s i).number i = s.number i ∧
    ((s.pc i).Cleared k ∨ s.pc i = .waitChoosing k ∧ s.choosing k = 0) := by
  cases hp : s.pc i <;> simp [next, hp] at h ⊢ <;> try split_ifs at h
  all_goals simp_all [Pc.Cleared]
  all_goals grind

theorem next_passed (h : ((next s i).pc i).Passed k) :
    (next s i).number i = s.number i ∧
    ((s.pc i).Passed k ∨ s.pc i = .testPositive k ∧ s.number k = 0 ∨
      s.pc i = .testEqual k ∧ ¬(s.number k = s.number i ∧ k < i)) := by
  cases hp : s.pc i <;> simp [next, hp] at h ⊢ <;> try split_ifs at h
  all_goals simp_all [Pc.Passed]
  all_goals grind

theorem next_testEqual (h : (next s i).pc i = .testEqual k) :
    (next s i).number i = s.number i ∧ s.number i ≤ s.number k := by
  cases hp : s.pc i <;> simp [next, hp] at h ⊢ <;> try split_ifs at h
  all_goals simp_all

end Next

-- The running maximum of a thread.
def Pc.max : Pc n → ℕ
  | scan _ max | setNumber max => max
  | _ => 0

-- The second read of `max` does not get the maximum unsigned value.
def ReadsSmall (s : State n) (i : Fin n) : Prop :=
  ∀ k, s.pc i = .assign k → s.number k < uintMax

instance (s : State n) (i : Fin n) : Decidable (ReadsSmall s i) :=
  inferInstanceAs (Decidable (∀ k, s.pc i = .assign k → s.number k < uintMax))

theorem NoOverflow.readsSmall (h : NoOverflow s) (i : Fin n) : ReadsSmall s i :=
  fun k _ => h k

theorem next_max (h : ReadsSmall s i) (hm : (s.pc i).max < uintMax) :
    ((next s i).pc i).max < uintMax := by
  cases hp : s.pc i <;> simp [next, hp, Pc.max, uintMax, uintSize] at hm ⊢
  case assign l => exact h l hp
  case scan    => split_ifs <;> simp_all
  all_goals split_ifs <;> simp

-- The running maximum of `k` has caught up with the number of `i`, as far as the scan has come.
def Covered (s : State n) (i k : Fin n) : Prop :=
  match s.pc k with
  | .scan l m    => i < l → s.number i ≤ m
  | .assign l    => i < l → s.number i < s.number l
  | .setNumber m => s.number i ≤ m
  | _            => True

theorem Covered.next_self (h : Covered s i k) : Covered (next s k) i k := by
  cases hp : s.pc k <;> simp [Covered, next, hp] at h ⊢
  case scan l m =>
    split_ifs with hl hm
    · exact fun hi => (h hi).trans_lt hm
    · intro hi
      have hi : i < l ∨ i = l := by omega
      rcases hi with hi | rfl
      · exact h hi
      · exact le_of_not_gt hm
    · exact h <| i.isLt.trans_le (le_of_not_gt hl)
  case assign l =>
    intro hi
    have hi : i < l ∨ i.val = l := by omega
    rcases hi with hi | hi
    · exact le_of_lt (h hi)
    · exact le_of_eq <| congrArg s.number (Fin.ext hi)
  all_goals split_ifs <;> simp

theorem Covered.of_numbered (h : (s.pc k).Numbered) : Covered s i k := by
  cases hp : s.pc k <;> simp_all [Covered, Pc.Numbered]

theorem Covered.of_not_doorway (h : ¬(s.pc k).Doorway) : Covered s i k := by
  cases hp : s.pc k <;> simp_all [Covered, Pc.Doorway]

def stamp (s : State n) (i : Fin n) : ℕ ×ₗ Fin n :=
  toLex (s.number i, i)

theorem stamp_lt_iff :
    stamp s i < stamp s k ↔ s.number i < s.number k ∨ s.number i = s.number k ∧ i < k :=
  Prod.Lex.toLex_lt_toLex

structure Inv (s : State n) : Prop where
  doorway  : ∀ {i}, (s.pc i).Doorway → s.choosing i ≠ 0
  numbered : ∀ {i}, (s.pc i).Numbered ↔ s.number i ≠ 0
  max      : ∀ {i}, (s.pc i).max < uintMax
  covered  : ∀ {i k : Fin n}, (s.pc i).Cleared k → Covered s i k
  equal    : ∀ {i k}, s.pc i = .testEqual k → (s.pc k).Numbered → s.number i ≤ s.number k
  ordered  : ∀ {i k : Fin n}, i ≠ k → (s.pc i).Passed k → (s.pc k).Numbered → stamp s i < stamp s k

namespace Inv

theorem init : Inv (init n) := by
  constructor <;>
    simp [Bakery.init, Pc.Doorway, Pc.Numbered, Pc.max, Pc.Cleared, Pc.Passed, uintMax, uintSize]

variable (inv : Inv s)
include inv

-- A thread behind `i` which holds a larger number keeps it as long as `i` waits.
theorem number_stable
    (hi : (s.pc i).Numbered) (hl : i < l) (hn : s.number i < s.number l) :
    (next s j).number l = s.number l := by
  rcases eq_or_ne l j with rfl | hj
  case inr => exact next_number_of_ne hj
  case inl =>
    rcases next_number (s := s) (i := l) with h | ⟨m, h⟩ | h
    · exact h
    · have : ¬(s.pc l).Numbered := by simp [h, Pc.Numbered]
      exact absurd (Nat.zero_lt_of_lt hn).ne' (inv.numbered.not.mp this)
    · have := stamp_lt_iff.mp <| inv.ordered hl.ne' (by simp [h, Pc.Passed]) hi
      omega

theorem covered_next_of_ne
    (hi : (s.pc i).Numbered) (hn : (next s j).number i = s.number i) (hk : k ≠ j)
    (h : Covered s i k) : Covered (next s j) i k := by
  unfold Covered at *
  rw [next_pc_of_ne hk, hn]
  split at h
  case h_2 l =>
    intro hl
    rw [inv.number_stable hi hl (h hl)]
    exact h hl
  all_goals exact h

theorem number_setNumber (hp : s.pc k = .setNumber m) : (m + 1) % uintSize = m + 1 := by
  have := hp ▸ inv.max (i := k)
  simp only [Pc.max, uintMax, uintSize] at *
  omega

theorem covered_setNumber (h : Covered s i k) (hp : s.pc k = .setNumber m) :
    s.number i < (m + 1) % uintSize := by
  rw [inv.number_setNumber hp]
  simp only [Covered, hp] at h
  omega

theorem doorway_next (h : ((next s i).pc j).Doorway) : (next s i).choosing j ≠ 0 := by
  rcases eq_or_ne j i with rfl | hj
  case inr =>
    rw [next_pc_of_ne hj] at h
    rw [next_choosing_of_ne hj]
    exact inv.doorway h
  case inl =>
    rcases next_doorway h with ⟨-, hc, -⟩ | ⟨h, hc⟩
    · simp [hc]
    · exact hc ▸ inv.doorway h

theorem numbered_next : ((next s i).pc j).Numbered ↔ (next s i).number j ≠ 0 := by
  rcases eq_or_ne j i with rfl | hj
  case inr => simpa [next_pc_of_ne hj, next_number_of_ne hj] using inv.numbered
  case inl =>
    constructor
    · intro h
      rcases next_numbered h with ⟨m, hp, hn⟩ | ⟨h, hn⟩
      · simp [hn, inv.number_setNumber hp]
      · exact hn ▸ inv.numbered.mp h
    · intro hn
      by_contra h
      rcases next_not_numbered h with hn' | ⟨h, hn'⟩
      · exact hn hn'
      · exact h <| inv.numbered.mpr (hn' ▸ hn)

theorem max_next (h : ReadsSmall s i) : ((next s i).pc j).max < uintMax := by
  rcases eq_or_ne j i with rfl | hj
  case inl => exact next_max h inv.max
  case inr => simpa only [next_pc_of_ne hj] using inv.max

theorem covered_next (h : ((next s j).pc i).Cleared k) : Covered (next s j) i k := by
  rcases eq_or_ne i j with rfl | hi
  case inl =>
    rcases eq_or_ne k i with rfl | hk
    · exact .of_numbered h.numbered
    · have ⟨hn, hc⟩ := next_cleared h
      rcases hc with hc | ⟨-, hc⟩
      · exact inv.covered_next_of_ne hc.numbered hn hk (inv.covered hc)
      · -- Whoever enters the doorway from now on sees the number of `i`.
        refine .of_not_doorway fun hd => inv.doorway ?_ hc
        rwa [next_pc_of_ne hk] at hd
  case inr =>
    rw [next_pc_of_ne hi] at h
    rcases eq_or_ne k j with rfl | hk
    · exact (inv.covered h).next_self
    · exact inv.covered_next_of_ne h.numbered (next_number_of_ne hi) hk (inv.covered h)

theorem equal_next (h : (next s j).pc i = .testEqual k) (hk : ((next s j).pc k).Numbered) :
    (next s j).number i ≤ (next s j).number k := by
  rcases eq_or_ne k i with rfl | hki
  case inl => exact le_rfl
  case inr =>
    rcases eq_or_ne i j with rfl | hi
    case inl =>
      have ⟨hn, hle⟩ := next_testEqual h
      rwa [hn, next_number_of_ne hki]
    case inr =>
      rw [next_pc_of_ne hi] at h
      rw [next_number_of_ne hi]
      rcases eq_or_ne k j with rfl | hk'
      case inr =>
        rw [next_pc_of_ne hk'] at hk
        rw [next_number_of_ne hk']
        exact inv.equal h hk
      case inl =>
        rcases next_numbered hk with ⟨m, hp, hn⟩ | ⟨hk, hn⟩ <;> rw [hn]
        · have hc := inv.covered (i := i) (k := k) (by simp [h, Pc.Cleared])
          exact le_of_lt <| inv.covered_setNumber hc hp
        · exact inv.equal h hk

theorem ordered_next (h : i ≠ k) (hi : ((next s j).pc i).Passed k) (hk : ((next s j).pc k).Numbered) :
    stamp (next s j) i < stamp (next s j) k := by
  rw [stamp_lt_iff]
  rcases eq_or_ne i j with rfl | hij
  case inl =>
    have ⟨hn, hi⟩ := next_passed hi
    rw [hn, next_number_of_ne h.symm]
    rw [next_pc_of_ne h.symm] at hk
    rcases hi with hi | ⟨-, hz⟩ | ⟨hp, hne⟩
    · exact stamp_lt_iff.mp <| inv.ordered h hi hk
    · exact absurd hz <| inv.numbered.mp hk
    · have := inv.equal hp hk
      omega
  case inr =>
    rw [next_pc_of_ne hij] at hi
    rw [next_number_of_ne hij]
    rcases eq_or_ne k j with rfl | hkj
    case inr =>
      rw [next_pc_of_ne hkj] at hk
      rw [next_number_of_ne hkj]
      exact stamp_lt_iff.mp <| inv.ordered h hi hk
    case inl =>
      rcases next_numbered hk with ⟨m, hp, hn⟩ | ⟨hk, hn⟩ <;> rw [hn]
      · exact .inl <| inv.covered_setNumber (inv.covered hi.cleared) hp
      · exact stamp_lt_iff.mp <| inv.ordered h hi hk

theorem next (h : ReadsSmall s j) : Inv (next s j) where
  doorway  := inv.doorway_next
  numbered := inv.numbered_next
  max      := inv.max_next h
  covered  := inv.covered_next
  equal    := inv.equal_next
  ordered  := inv.ordered_next

theorem eq_of_inside (hi : (s.pc i).Inside) (hk : (s.pc k).Inside) : i = k := by
  have passed {l m : Fin n} (h : (s.pc l).Inside) : (s.pc l).Passed m := by
    rcases h with h | h <;> simp [h, Pc.Passed]
  by_contra hn
  have h₁ := inv.ordered hn (passed hi) (passed (m := i) hk).cleared.numbered
  have h₂ := inv.ordered (Ne.symm hn) (passed hk) (passed (m := k) hi).cleared.numbered
  exact lt_asymm h₁ h₂

end Inv

theorem inv_of_reachable (r : ((machine n).within NoOverflow).Reachable s) : Inv s ∧ NoOverflow s := by
  apply r.invariant
  · rintro _ ⟨rfl, h⟩
    exact ⟨.init, h⟩
  · rintro _ _ _ - ⟨inv, hs⟩ h
    obtain ⟨h, hs'⟩ := Machine.within_step.mp h
    exact ⟨Option.some.inj h ▸ inv.next (hs.readsSmall _), hs'⟩

end Bakery
