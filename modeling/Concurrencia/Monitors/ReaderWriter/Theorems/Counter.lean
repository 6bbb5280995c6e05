import Concurrencia.Monitors.ReaderWriter.Basic
import Mathlib

open Function ObjectMonitor Threads

namespace ReaderWriterMonitor

namespace Statement

-- Between `writerLock` and `writerUnlock`.
def Writes : Statement → Prop
  | load | store | writerUnlock => True
  | _                           => False

-- Between `readerLock` and `readerUnlock`.
def Reads : Statement → Prop
  | read | readerUnlock => True
  | _                   => False

instance : DecidablePred Reads
  | read | readerUnlock                => .isTrue trivial
  | lock | load | store | writerUnlock => .isFalse id

end Statement

-- The increments which a thread has completed.
def Point.done (x : Point) : ℕ :=
  Nat.count (· % 10 = 0) x.i + if x.statement = .writerUnlock then 1 else 0

-- The rounds in which the thread writes are those of the loop.
def Point.Fits (max : ℕ) (x : Point) : Prop :=
  match x.statement with
  | .lock                          => x.i ≤ max
  | .load | .store | .writerUnlock => x.i < max ∧ x.i % 10 = 0
  | .read | .readerUnlock          => x.i < max ∧ x.i % 10 ≠ 0

variable {n max : ℕ} {t t' : Atomic Fields (Fin n) (Vars n) Point} {i j : Fin n} {x : Point}

structure Inv (max : ℕ) (t : Atomic Fields (Fin n) (Vars n) Point) : Prop where
  fits     : ∀ i, (t.point i).Fits max
  writing  : Owned t.point (·.statement.Writes) (t.fields.writing = true)
  readers  : t.fields.readers = count t.point (·.statement.Reads)
  apart    : t.fields.writing = true → t.fields.readers = 0
  register : ∀ i, (t.point i).statement = .store → t.vars.register i = t.vars.counter
  counter  : t.vars.counter = ∑ i, (t.point i).done

namespace Inv

theorem init : Inv (n := n) max ⟨fun _ => ⟨0, .lock⟩, ⟨0, false⟩, ⟨0, fun _ => 0, fun _ => 0⟩⟩ where
  fits _   := Nat.zero_le _
  writing  := ⟨⟨False.elim, False.elim⟩, by simp⟩
  readers  := by simp [count, Statement.Reads]
  apart _  := rfl
  register := by simp
  counter  := by simp [Point.done]

-- A step which leaves the fields and the number of the increments as they are.
theorem move {v : Vars n} (inv : Inv max t) (hf : x.Fits max)
    (hw : x.statement.Writes ↔ (t.point i).statement.Writes)
    (hr : x.statement.Reads ↔ (t.point i).statement.Reads) (hd : x.done = (t.point i).done)
    (hv : v.counter = t.vars.counter)
    (hs : ∀ j, (update t.point i x j).statement = .store → v.register j = v.counter) :
    Inv max ⟨update t.point i x, t.fields, v⟩ where
  fits     := forall_update hf fun j _ => inv.fits j
  writing  := inv.writing.keep hw
  readers  := inv.readers.trans (congrArg _ (count_keep (P := fun x : Point => x.statement.Reads) hr).symm)
  apart    := inv.apart
  register := hs
  counter  := by
    rw [hv, inv.counter]
    exact Finset.sum_congr rfl fun j _ => (update_congr hd j).symm

theorem lock (inv : Inv max t) {k : ℕ} (hx : t.point i = ⟨k, .lock⟩) (hk : k < max)
    (hr : ready (if k % 10 = 0 then .writerLock else .readerLock) t.fields = true) :
    Inv max ⟨update t.point i (next ⟨k, .lock⟩),
      run (body (if k % 10 = 0 then .writerLock else .readerLock)) t.fields, t.vars⟩ := by
  have hs {x : Point} (h : x.statement ≠ .store) (j : Fin n)
      (hj : (update t.point i x j).statement = .store) : t.vars.register j = t.vars.counter := by
    by_cases hji : j = i
    case pos => exact absurd (by simpa [hji] using hj) h
    case neg => exact inv.register j (by simpa [hji] using hj)
  by_cases hw : k % 10 = 0
  case pos =>
    simp only [hw, if_true, ready, Bool.not_eq_true', Bool.or_eq_false_iff, decide_eq_false_iff_not,
      not_not, next] at hr ⊢
    exact {
      fits     := forall_update ⟨hk, hw⟩ fun j _ => inv.fits j
      writing  := inv.writing.take (by simp [hr]) trivial rfl
      readers  := by
        rw [count_keep (by simp [hx, Statement.Reads])]
        exact inv.readers
      apart _  := hr.right
      register := hs (by simp)
      counter  := by
        rw [inv.counter]
        refine Finset.sum_congr rfl fun j _ => (update_congr ?_ j).symm
        simp [hx, Point.done]
    }
  case neg =>
    simp only [hw, if_false, ready, Bool.not_eq_true', next] at hr ⊢
    exact {
      fits     := forall_update ⟨hk, hw⟩ fun j _ => inv.fits j
      writing  := inv.writing.keep (by simp [hx, Statement.Writes])
      readers  := by
        have hc := count_enter (f := t.point) (P := (·.statement.Reads)) (i := i) (p := ⟨k, .read⟩)
          (by simp [hx, Statement.Reads]) trivial
        have := inv.readers
        show t.fields.readers + 1 = ((count (update t.point i ⟨k, .read⟩) _ : ℕ) : ℤ)
        omega
      apart h  := absurd hr (by simpa [body, run] using h)
      register := hs (by simp)
      counter  := by
        rw [inv.counter]
        refine Finset.sum_congr rfl fun j _ => (update_congr ?_ j).symm
        simp [hx, Point.done]
    }

theorem store (inv : Inv max t) {k : ℕ} (hx : t.point i = ⟨k, .store⟩) :
    Inv max ⟨update t.point i ⟨k, .writerUnlock⟩, t.fields,
      { t.vars with counter := t.vars.register i + 1 }⟩ where
  fits     := forall_update (by simpa [Point.Fits, hx] using inv.fits i) fun j _ => inv.fits j
  writing  := inv.writing.keep (by simp [hx, Statement.Writes])
  readers  := by rw [inv.readers, count_keep (by simp [hx, Statement.Reads])]
  apart    := inv.apart
  -- Nobody else is about to store.
  register j hj := by
    by_cases hji : j = i
    case pos => simp [hji] at hj
    case neg =>
      have hj : (t.point j).statement.Writes := by
        have hj : (t.point j).statement = .store := by simpa [hji] using hj
        simp [hj, Statement.Writes]
      exact absurd (inv.writing.unique hj (by simp [hx, Statement.Writes])) hji
  counter  := by
    have h := sum_update (f := t.point) (i := i) (p := ⟨k, .writerUnlock⟩) (g := Point.done)
    have hr := inv.register i (by rw [hx])
    have hc := inv.counter
    simp only [hx, Point.done, reduceCtorEq, if_true, if_false] at h
    simp only [Point.done] at hc ⊢
    omega

theorem writerUnlock (inv : Inv max t) {k : ℕ} (hx : t.point i = ⟨k, .writerUnlock⟩) :
    Inv max ⟨update t.point i ⟨k + 1, .lock⟩, { t.fields with writing := false }, t.vars⟩ := by
  have ⟨hk, hw⟩ : k < max ∧ k % 10 = 0 := by simpa [Point.Fits, hx] using inv.fits i
  exact {
    fits     := forall_update hk fun j _ => inv.fits j
    writing  := inv.writing.free (by simp [hx, Statement.Writes]) id (by simp)
    readers  := by
      rw [count_keep (by simp [hx, Statement.Reads])]
      exact inv.readers
    apart    := by simp
    register j hj := by
      by_cases hji : j = i
      case pos => simp [hji] at hj
      case neg => exact inv.register j (by simpa [hji] using hj)
    counter  := by
      rw [inv.counter]
      refine Finset.sum_congr rfl fun j _ => (update_congr ?_ j).symm
      simp [hx, Point.done, Nat.count_succ, hw]
  }

theorem readerUnlock (inv : Inv max t) {k : ℕ} (hx : t.point i = ⟨k, .readerUnlock⟩) :
    Inv max ⟨update t.point i ⟨k + 1, .lock⟩,
      { t.fields with readers := t.fields.readers - 1 }, t.vars⟩ := by
  have ⟨hk, hr⟩ : k < max ∧ k % 10 ≠ 0 := by simpa [Point.Fits, hx] using inv.fits i
  have hc := count_leave (f := t.point) (P := (·.statement.Reads)) (i := i) (p := ⟨k + 1, .lock⟩)
    (by simp [hx, Statement.Reads]) id
  have := inv.readers
  exact {
    fits     := forall_update hk fun j _ => inv.fits j
    writing  := inv.writing.keep (by simp [hx, Statement.Writes])
    readers  := by
      show t.fields.readers - 1 = ((count (update t.point i ⟨k + 1, .lock⟩) _ : ℕ) : ℤ)
      omega
    apart hw := by
      have := inv.apart hw
      have : 0 < count t.point (·.statement.Reads) := count_pos (i := i) (by simp [hx, Statement.Reads])
      omega
    register j hj := by
      by_cases hji : j = i
      case pos => simp [hji] at hj
      case neg => exact inv.register j (by simpa [hji] using hj)
    counter  := by
      rw [inv.counter]
      refine Finset.sum_congr rfl fun j _ => (update_congr ?_ j).symm
      simp [hx, Point.done, Nat.count_succ, hr]
  }

theorem step (inv : Inv max t) (h : (program n max).atomic.step t i = some t') : Inv max t' := by
  have hf := inv.fits i
  obtain ⟨k, st, hx⟩ : ∃ k st, t.point i = ⟨k, st⟩ := ⟨_, _, rfl⟩
  have hr {j : Fin n} {x : Point} (hs : x.statement ≠ .store)
      (hj : (update t.point i x j).statement = .store) : t.vars.register j = t.vars.counter := by
    by_cases hji : j = i
    case pos => exact absurd (by simpa [hji] using hj) hs
    case neg => exact inv.register j (by simpa [hji] using hj)
  cases st <;>
    simp only [Program.atomic, Program.atomicStep, program, fetch, hx, Program.effect] at h
  case lock =>
    by_cases hk : k < max
    case neg => simp [hk] at h
    case pos =>
      simp only [hk, if_true, Option.ite_none_right_eq_some, Option.some.injEq] at h
      obtain ⟨hr, rfl⟩ := h
      exact inv.lock hx hk hr
  case load =>
    cases h
    refine inv.move (by rw [hx] at hf; exact hf) ?_ ?_ ?_ rfl fun j hj => ?_
    · simp [hx, next, Statement.Writes]
    · simp [hx, next, Statement.Reads]
    · simp [hx, next, Point.done]
    · by_cases hji : j = i
      case pos => simp [hji]
      case neg => simpa [hji] using inv.register j (by simpa [hji] using hj)
  case read =>
    cases h
    refine inv.move (by rw [hx] at hf; exact hf) ?_ ?_ ?_ rfl fun j => hr (by simp [next])
    · simp [hx, next, Statement.Writes]
    · simp [hx, next, Statement.Reads]
    · simp [hx, next, Point.done]
  case store =>
    cases h
    exact inv.store hx
  case writerUnlock =>
    cases h
    exact inv.writerUnlock hx
  case readerUnlock =>
    cases h
    exact inv.readerUnlock hx

end Inv

theorem inv_of_reachable (r : (program n max).atomic.Reachable t) : Inv max t := by
  apply r.invariant
  case init =>
    rintro t rfl
    exact .init
  case step => exact fun _ _ _ _ inv hs => inv.step hs

-- The statements which a thread has before it in its loop.
def remaining (max : ℕ) : Point → ℕ
  | ⟨i, .lock⟩         => 4 * (max - i)
  | ⟨i, .load⟩         => 4 * (max - (i + 1)) + 3
  | ⟨i, .store⟩        => 4 * (max - (i + 1)) + 2
  | ⟨i, .read⟩         => 4 * (max - (i + 1)) + 2
  | ⟨i, .writerUnlock⟩ => 4 * (max - (i + 1)) + 1
  | ⟨i, .readerUnlock⟩ => 4 * (max - (i + 1)) + 1

theorem covers : (program n max).Covers := by
  intro i k k' d hk hk' h
  cases k
  case readerLock   => rfl
  case writerUnlock => rfl
  case writerLock   => cases k' <;> simp [program, ready, Program.effect, body, run] at hk' h
  case readerUnlock =>
    cases k' <;>
      simp_all [program, ready, Program.effect, body, run, notifies]

theorem proceeds : Proceeds (program n max) (remaining max) where
  covers := covers
  next {i x} h := by
    obtain ⟨k, st⟩ := x
    cases st <;> simp only [program, fetch] at h ⊢ <;> simp only [next, remaining]
    case lock =>
      have hk : k < max := by simpa using h
      by_cases h₀ : k % 10 = 0 <;> simp only [h₀, if_true, if_false] <;> omega
    all_goals omega
  live {t} r h := by
    have inv := inv_of_reachable r
    by_cases hs : ∃ i, (t.point i).statement ≠ .lock
    case pos =>
      obtain ⟨i, hi⟩ := hs
      refine ⟨i, ?_⟩
      cases hx : (t.point i).statement
      case lock => exact absurd hx hi
      all_goals simp [Program.atomic, Program.atomicStep, program, fetch, hx, ready]
    case neg =>
      have hs (i : Fin n) : (t.point i).statement = .lock := by
        by_contra hi
        exact hs ⟨i, hi⟩
      have hw : t.fields.writing = false := by
        by_contra hw
        obtain ⟨i, hi⟩ := inv.writing.owner (by simpa using hw)
        simp [hs, Statement.Writes] at hi
      have hr : t.fields.readers = 0 := by
        rw [inv.readers, count_eq_zero fun i => by simp [hs, Statement.Reads]]
        rfl
      obtain ⟨i, hi⟩ := h
      refine ⟨i, ?_⟩
      have hk : (t.point i).i < max := by simpa [program, fetch, hs] using hi
      by_cases h₀ : (t.point i).i % 10 = 0
      all_goals simp [Program.atomic, Program.atomicStep, program, fetch, hs, hk, h₀, ready, hw, hr]

theorem count_writes (max : ℕ) : Nat.count (· % 10 = 0) max = (max + 9) / 10 := by
  induction max
  case zero => rfl
  case succ i hi =>
    rw [Nat.count_succ, hi]
    split <;> omega

theorem Inv.counter_eq (inv : Inv max t) (h : ∀ i, (program n max).fetch i (t.point i) = none) :
    t.vars.counter = n * ((max + 9) / 10) := by
  have hd (i : Fin n) : (t.point i).done = (max + 9) / 10 := by
    have hf := inv.fits i
    have h := h i
    cases hx : (t.point i).statement <;> simp only [program, fetch, hx, reduceCtorEq] at h
    simp only [Point.Fits, hx, ite_eq_right_iff, reduceCtorEq, imp_false, not_lt] at hf h
    rw [Point.done, hx, hf.antisymm h, count_writes]
    rfl
  simp [inv.counter, hd]

-- The thread has returned from `writerLock` or `readerLock`, and has not called the method which
-- unlocks.
def Writing (s : State Fields (Fin n) Call (Vars n) Point) (i : Fin n) : Prop :=
  s.pc i = .outside ∧ (s.point i).statement.Writes

def Reading (s : State Fields (Fin n) Call (Vars n) Point) (i : Fin n) : Prop :=
  s.pc i = .outside ∧ (s.point i).statement.Reads

theorem printed_counter {s : State Fields (Fin n) Call (Vars n) Point}
    (r : (program n max).machine.Reachable s) :
    (∀ i j, Writing s i → Writing s j ∨ Reading s j → i = j) ∧
    ((program n max).Finished s → s.vars.counter = n * ((max + 9) / 10)) ∧
    ∃ as s', (program n max).machine.Run s as s' ∧ (program n max).Finished s' := by
  obtain ⟨t, rt, ref⟩ := exists_refines r
  have inv := inv_of_reachable rt
  refine ⟨?_, ?_, exists_finished proceeds r⟩
  · rintro i j ⟨hi, hwi⟩ hj
    have hwi : (t.point i).statement.Writes := ref.point_of_outside hi ▸ hwi
    obtain ⟨hj, hwj⟩ | ⟨hj, hrj⟩ := hj
    · have hwj : (t.point j).statement.Writes := ref.point_of_outside hj ▸ hwj
      exact inv.writing.unique hwi hwj
    · have hrj : (t.point j).statement.Reads := ref.point_of_outside hj ▸ hrj
      have := inv.apart (inv.writing.locked hwi)
      have := inv.readers
      have : 0 < count t.point (·.statement.Reads) := count_pos hrj
      omega
  · intro hf
    obtain ⟨ht, hn⟩ := ref.eq_of_finished hf
    have h := inv.counter_eq hn
    rwa [ht] at h

-- The constants of the program.
theorem printed_counter_four :
    ∃ as s, (program 4 (10000000 / 4)).machine.Run (program 4 (10000000 / 4)).init as s ∧
      (program 4 (10000000 / 4)).Finished s ∧ s.vars.counter = 10000000 / 10 :=
  have r : (program 4 (10000000 / 4)).machine.Reachable (program 4 (10000000 / 4)).init := .init rfl
  have ⟨as, s, hr, hf⟩ := (printed_counter r).right.right
  ⟨as, s, hr, hf, (printed_counter (hr.reachable r)).right.left hf⟩

end ReaderWriterMonitor
