import Concurrencia.Monitors.PCMonitor.Basic
import Concurrencia.Pipeline.Basic
import Mathlib

open Function ObjectMonitor Threads

namespace PCMonitor

open Pipeline (Delivers)

variable {n m size p c : ℕ} {t t' : Atomic (Fields m) (Fin n ⊕ Fin m) Unit ℕ}
variable {i : Fin n ⊕ Fin m}

structure Inv (size p c : ℕ) (t : Atomic (Fields m) (Fin n ⊕ Fin m) Unit ℕ) : Prop where
  delivers  : Delivers (fun _ k => k) (t.point ∘ .inl) t.fields.buffer t.fields.data
  length_le : t.fields.buffer.length ≤ size
  sent_le   : ∀ i, t.point (.inl i) ≤ p
  read      : ∀ j, (t.fields.data j).length = t.point (.inr j) ∧ t.point (.inr j) ≤ c
  raised    : t.fields.noSuchElement = false
  room      : ∀ i, 0 < t.point (.inl i) → 0 < size

namespace Inv

theorem init : Inv (n := n) (m := m) size p c ⟨fun _ => 0, ⟨[], fun _ => [], false⟩, ()⟩ where
  delivers  := .init
  length_le := Nat.zero_le _
  sent_le _ := Nat.zero_le _
  read _    := ⟨rfl, Nat.zero_le _⟩
  raised    := rfl
  room _    := by simp

theorem append {i : Fin n} (inv : Inv size p c t) (hi : t.point (.inl i) < p)
    (hr : t.fields.buffer.length ≠ size) :
    Inv size p c ⟨update t.point (.inl i) (t.point (.inl i) + 1),
      { t.fields with buffer := t.fields.buffer ++ [t.point (.inl i)] }, t.vars⟩ where
  delivers  := by
    rw [update_comp_eq_of_injective _ Sum.inl_injective]
    exact inv.delivers.send
  length_le := by
    have := inv.length_le
    rw [List.length_append, List.length_singleton]
    omega
  sent_le k := by
    by_cases hk : k = i
    case pos => simpa [hk] using Nat.succ_le_of_lt hi
    case neg => simpa [hk] using inv.sent_le k
  read j    := by simpa using inv.read j
  raised    := inv.raised
  room _ _  := by
    have := inv.length_le
    omega

theorem take {j : Fin m} (inv : Inv size p c t) (hj : t.point (.inr j) < c)
    (hr : t.fields.buffer ≠ []) :
    Inv size p c ⟨update t.point (.inr j) (t.point (.inr j) + 1), remove j t.fields, t.vars⟩ := by
  obtain ⟨x, b, hb⟩ := List.exists_cons_of_ne_nil hr
  have hl := inv.length_le
  have hd := inv.delivers
  rw [hb] at hl hd
  rw [remove, hb]
  exact {
    delivers  := by
      rw [update_comp_eq_of_forall_ne _ _ fun _ => Sum.inl_ne_inr]
      exact hd.take
    length_le := Nat.le_of_succ_le hl
    sent_le   := by simpa using inv.sent_le
    read k    := by
      by_cases hk : k = j
      case pos => simpa [hk, (inv.read j).left] using Nat.succ_le_of_lt hj
      case neg => simpa [hk] using inv.read k
    raised    := inv.raised
    room k hk := inv.room k (by simpa using hk)
  }

theorem step (inv : Inv size p c t) (h : (program n m size p c).atomic.step t i = some t') :
    Inv size p c t' := by
  obtain ⟨k, hf, hr, rfl⟩ | ⟨g, hf, rfl⟩ := atomic_cases h
  all_goals
    cases i
    all_goals
      simp only [program, fetch, Option.ite_none_right_eq_some, Option.some.injEq, Act.call.injEq,
        reduceCtorEq, and_false] at hf
  case inl.inl i =>
    obtain ⟨hi, rfl⟩ := hf
    exact inv.append hi (by simpa [program, ready] using hr)
  case inl.inr j =>
    obtain ⟨hj, rfl⟩ := hf
    exact inv.take hj (by simpa [program, ready] using hr)

end Inv

theorem inv_of_reachable (r : (program n m size p c).atomic.Reachable t) : Inv size p c t := by
  apply r.invariant
  case init =>
    rintro t rfl
    exact .init
  case step => exact fun _ _ _ _ inv hs => inv.step hs

-- The numbers of the values for which the program comes to its end.
def Ends (n m size p c : ℕ) : Prop :=
  m * c ≤ n * p ∧ n * p ≤ m * c + size ∧ (0 < n * p → 0 < size)

instance : Decidable (Ends n m size p c) :=
  inferInstanceAs (Decidable (_ ∧ _ ∧ _))

theorem proceeds (h : Ends n m size p c) : Proceeds (program n m size p c) fun i => max p c - i where
  covers _ _ _ := rfl
  next {i x} hx := by
    have : x < max p c := by
      cases i
      case inl => exact lt_max_of_lt_left (by simpa [program, fetch] using hx)
      case inr => exact lt_max_of_lt_right (by simpa [program, fetch] using hx)
    simp only [program]
    omega
  live {t} r ht := by
    obtain ⟨hc, hp, hs⟩ := h
    have inv := inv_of_reachable r
    by_cases hj : ∃ j, t.point (.inr j) < c
    case pos =>
      obtain ⟨j, hj⟩ := hj
      by_cases hb : t.fields.buffer = []
      case neg =>
        refine ⟨.inr j, ?_⟩
        simp [Program.atomic, Program.atomicStep, program, fetch, hj, ready, hb]
      case pos =>
        have hr (j : Fin m) := inv.read j
        obtain ⟨i, hi⟩ := inv.delivers.exists_sender (p := p) (j := j)
          (fun j => (hr j).left ▸ (hr j).right) ((hr j).left ▸ hj) (by simpa) hb
        refine ⟨.inl i, ?_⟩
        have hi : t.point (.inl i) < p := hi
        have hn : 0 < n * p := Nat.mul_pos (Fin.pos i) (Nat.zero_lt_of_lt hi)
        have := (hs hn).ne
        simp [Program.atomic, Program.atomicStep, program, fetch, hi, ready, hb, this]
    case neg =>
      have hj (j : Fin m) : t.point (.inr j) = c :=
        (inv.read j).right.antisymm (not_lt.mp (not_exists.mp hj j))
      obtain ⟨i | j, hi⟩ := ht
      case inr => simp [program, fetch, hj] at hi
      case inl =>
        have hi : t.point (.inl i) < p := by simpa [program, fetch] using hi
        have hl := inv.delivers.length_lt (fun j => (inv.read j).left.trans (hj j)) inv.sent_le hi
          (by simpa)
        refine ⟨.inl i, ?_⟩
        simp [Program.atomic, Program.atomicStep, program, fetch, hi, ready, hl.ne]

-- What is left at the end of the program.
theorem Inv.ends (inv : Inv size p c t) (h : ∀ i, (program n m size p c).fetch i (t.point i) = none) :
    Ends n m size p c := by
  have hs (i : Fin n) : t.point (.inl i) = p :=
    (inv.sent_le i).antisymm (by simpa [program, fetch] using h (.inl i))
  have hr (j : Fin m) : t.point (.inr j) = c :=
    (inv.read j).right.antisymm (by simpa [program, fetch] using h (.inr j))
  have hc : n * p = m * c + t.fields.buffer.length := by
    simpa using inv.delivers.card_eq (fun j => (inv.read j).left.trans (hr j)) hs
  have := inv.length_le
  refine ⟨by omega, by omega, fun hn => ?_⟩
  exact inv.room ⟨0, Nat.pos_of_mul_pos_right hn⟩ (by rw [hs]; exact Nat.pos_of_mul_pos_left hn)

-- While no method runs, everything which has been appended is in the buffer or has been taken in
-- its turn. The program can always be brought to its end if the numbers of the values allow it.
theorem delivery_and_end (n m size p c : ℕ) :
    (∀ s, (program n m size p c).machine.Reachable s → s.lock = false →
      Delivers (fun _ k => k) (s.point ∘ .inl) s.fields.buffer s.fields.data ∧
      s.fields.buffer.length ≤ size ∧ s.fields.noSuchElement = false) ∧
    ((∀ s, (program n m size p c).machine.Reachable s →
      ∃ as s', (program n m size p c).machine.Run s as s' ∧ (program n m size p c).Finished s') ↔
      Ends n m size p c) := by
  refine ⟨?_, ?_, ?_⟩
  · intro s r hl
    have ⟨t, rt, ref⟩ := exists_refines r
    have inv := inv_of_reachable rt
    rw [← ref.point_of_free hl, ← ref.free hl]
    exact ⟨inv.delivers, inv.length_le, inv.raised⟩
  · intro h
    have ⟨_, s, hr, hf⟩ := h _ (.init rfl)
    have ⟨t, rt, ref⟩ := exists_refines (hr.reachable (.init rfl))
    exact (inv_of_reachable rt).ends (ref.eq_of_finished hf).right
  · exact fun h s r => exists_finished (proceeds h) r

-- The constants of the program allow it.
example : Ends 2 2 10 1000 1000 := by decide

end PCMonitor
