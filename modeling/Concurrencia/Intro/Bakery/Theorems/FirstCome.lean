import Concurrencia.Intro.Bakery.Theorems.Exclusion

namespace Bakery

namespace Pc

variable {n : ℕ}

-- The thread has cleared `choosing[i]` and has not entered yet.
def Waiting : Pc n → Prop
  | waitChoosing _ | testPositive _ | testLess _ | testEqual _ => True
  | _ => False

instance : DecidablePred (Waiting (n := n)) := fun p =>
  match p with
  | waitChoosing _ | testPositive _ | testLess _ | testEqual _ => isTrue trivial
  | idle | setChoosing | scan .. | assign _ | setNumber _ | clearChoosing | critical | release =>
    isFalse id

theorem Waiting.numbered {p : Pc n} (h : p.Waiting) : p.Numbered := by
  cases p <;> simp_all [Waiting, Numbered]

-- The thread is computing its maximum.
def Choosing : Pc n → Prop
  | scan .. | assign _ | setNumber _ => True
  | _ => False

-- The thread has its number, and its wait loop has not got past thread `i`.
def Behind (i : ℕ) : Pc n → Prop
  | clearChoosing => True
  | waitChoosing l => l ≤ i
  | testPositive l | testLess l => l ≤ i
  | testEqual l => l < i
  | _ => False

end Pc

variable {n : ℕ} {s s' : State n} {i j k : Fin n} {as : List (Fin n)} {m : ℕ}

theorem next_choosing (h : (s.pc j).Choosing) :
    ((next s j).pc j).Choosing ∨
    ∃ m, s.pc j = .setNumber m ∧ (next s j).pc j = .clearChoosing ∧
      (next s j).number j = (m + 1) % uintSize := by
  cases hp : s.pc j <;> simp [next, hp, Pc.Choosing] at h ⊢
  split_ifs <;> simp

theorem next_number_of_waiting (h : (s.pc i).Waiting) : (next s k).number i = s.number i := by
  rcases eq_or_ne i k with rfl | hi
  case inr => exact next_number_of_ne hi
  case inl => rcases next_number (s := s) (i := i) with hn | ⟨m, hp⟩ | hp <;> simp_all [Pc.Waiting]

-- A positive number smaller than its own stops a thread at its owner.
theorem next_behind (hi : s.number i ≠ 0) (hn : s.number i < s.number j) (h : (s.pc j).Behind i) :
    ((next s j).pc j).Behind i ∧ (next s j).number j = s.number j := by
  have lt_of_ne {l : Fin n} (hl : l ≤ i) (hne : s.number l ≠ s.number i) : l < i :=
    lt_of_le_of_ne hl (hne <| · ▸ rfl)
  cases hp : s.pc j <;> simp [next, hp, Pc.Behind] at h ⊢
  case waitChoosing l =>
    split_ifs with hl
    · exact h
    · exact h
    · exact hl <| h.trans_lt i.isLt
  case testPositive l =>
    split_ifs with hl
    · exact h
    · exact lt_of_ne h (by omega)
  case testLess l =>
    split_ifs with hl
    · exact h
    · exact lt_of_ne h (by omega)
  case testEqual l =>
    split_ifs
    · exact le_of_lt h
    · exact h

-- Thread `j` has started its doorway after `i` has left its own.
structure After (s : State n) (i j : Fin n) : Prop where
  covered : Covered s i j
  started : (s.pc j).Choosing ∨ (s.pc j).Behind i ∧ s.number i < s.number j

namespace After

theorem of_setChoosing (h : s.pc j = .setChoosing) : After (next s j) i j where
  covered := by simp [Covered, next, h]
  started := by simp [Pc.Choosing, next, h]

theorem ne (h : After s i j) (hi : (s.pc i).Waiting) : i ≠ j := by
  rintro rfl
  rcases h.started with h | ⟨-, h⟩
  · cases hp : s.pc i <;> simp_all [Pc.Waiting, Pc.Choosing]
  · exact lt_irrefl _ h

theorem next (h : After s i j) (inv : Inv s) (hi : (s.pc i).Waiting) : After (next s k) i j := by
  have hn : (Bakery.next s k).number i = s.number i := next_number_of_waiting hi
  rcases eq_or_ne j k with rfl | hj
  case inr =>
    refine ⟨inv.covered_next_of_ne hi.numbered hn hj h.covered, ?_⟩
    rw [next_pc_of_ne hj, next_number_of_ne hj, hn]
    exact h.started
  case inl =>
    refine ⟨h.covered.next_self, ?_⟩
    rw [hn]
    rcases h.started with hc | ⟨hb, hlt⟩
    · rcases next_choosing hc with hc | ⟨m, hp, hp', hm⟩
      · exact .inl hc
      · exact .inr ⟨by simp [hp', Pc.Behind], hm ▸ inv.covered_setNumber h.covered hp⟩
    · have ⟨hb, hm⟩ := next_behind (inv.numbered.mp hi.numbered) hlt hb
      exact .inr ⟨hb, hm ▸ hlt⟩

theorem not_critical (h : After s i j) : s.pc j ≠ .critical := by
  intro hp
  simpa [hp, Pc.Choosing, Pc.Behind] using h.started

end After

theorem after_of_run
    (run : ((machine n).within fun s => NoOverflow s ∧ (s.pc i).Waiting).Run s as s')
    (inv : Inv s) (hs : NoOverflow s) (hi : (s.pc i).Waiting) (h : After s i j) : After s' i j := by
  refine (run.invariant (I := fun s => Inv s ∧ (NoOverflow s ∧ (s.pc i).Waiting) ∧ After s i j)
    ⟨inv, ⟨hs, hi⟩, h⟩ ?_).right.right
  rintro s k s' ⟨inv, ⟨hs, hi⟩, h⟩ hk
  obtain ⟨hk, hs'⟩ := Machine.within_step.mp hk
  obtain rfl := Option.some.inj hk
  exact ⟨inv.next (hs.readsSmall _), hs', h.next inv hi⟩

-- At most one thread is inside, and a thread which starts its doorway while `i` is waiting does not
-- become critical as long as `i` goes on waiting.
theorem exclusion_and_order (r : ((machine n).within NoOverflow).Reachable s) :
    {i | (s.pc i).Inside}.Subsingleton ∧
    ∀ i j as s', (s.pc i).Waiting → s.pc j = .setChoosing →
      ((machine n).within fun s => NoOverflow s ∧ (s.pc i).Waiting).Run (next s j) as s' →
      s'.pc j ≠ .critical := by
  have ⟨inv, hs⟩ := inv_of_reachable r
  refine ⟨fun _ hi _ hj => inv.eq_of_inside hi hj, fun i j as s' hi hj run => ?_⟩
  have hn : NoOverflow (next s j) := by simpa [next, hj, NoOverflow] using hs
  have hi : ((next s j).pc i).Waiting := by
    rwa [next_pc_of_ne]
    rintro rfl
    simp [hj, Pc.Waiting] at hi
  exact (after_of_run run (inv.next (hs.readsSmall _)) hn hi (.of_setChoosing hj)).not_critical

-- Thread 1 starts its doorway while thread 0 is waiting.
theorem exclusion_and_order_two :
    ∃ s s' : State 2, {i | (s.pc i).Inside}.Subsingleton ∧ s'.pc 1 = .testLess 0 ∧ s'.pc 1 ≠ .critical :=
  have h : ((machine 2).within NoOverflow).exec (init 2) [0, 0, 0, 0, 0, 0, 0, 1] = some _ := rfl
  have ⟨h₁, h₂⟩ := exclusion_and_order (.of_exec ⟨rfl, by decide⟩ h)
  have run := h₂ 0 1 [1, 1, 1, 1, 1, 1, 1, 1] _ trivial rfl (Machine.Run.iff_exec.mpr rfl)
  ⟨_, _, h₁, rfl, run⟩

end Bakery
