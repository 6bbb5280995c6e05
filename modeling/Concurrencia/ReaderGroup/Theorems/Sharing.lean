import Concurrencia.ReaderGroup.Basic
import Concurrencia.Threads.Basic
import Concurrencia.Threads.Count
import Mathlib.Tactic.SplitIfs

open Function Threads

namespace ReaderGroup

variable {ι : Type*} [DecidableEq ι] [Fintype ι] {s s' : State ι} {i j : ι} {l : Label ι}

-- A writer has the token, or all readers who share it.
structure Inv (s : State ι) : Prop where
  lock    : Owned s.phase Phase.HasLock (s.lock = true)
  readers : s.readers = count s.phase Phase.Counted
  token   : s.token.toNat =
    count s.phase (· = .writing) + (decide (0 < count s.phase Phase.Shares)).toNat
  first   : ∀ i, s.phase i = .first → s.readers = 1
  last    : ∀ i, s.phase i = .last → s.readers = 0

namespace Inv

omit [DecidableEq ι] in
theorem init : Inv (init ι) where
  lock    := ⟨⟨False.elim, False.elim⟩, by simp [ReaderGroup.init]⟩
  readers := by
    rw [count_eq_zero fun _ => id]
    rfl
  token   := by
    rw [count_eq_zero (by simp [ReaderGroup.init]), count_eq_zero fun _ => id]
    rfl
  first i := by simp [ReaderGroup.init]
  last i  := by simp [ReaderGroup.init]

variable (inv : Inv s)
include inv

omit [DecidableEq ι] in
theorem readers_nonneg : 0 ≤ s.readers := by
  rw [inv.readers]
  exact Int.natCast_nonneg _

omit [DecidableEq ι] in
theorem eq_inside (hi : (s.phase i).HasLock) (hj : j ≠ i) (hc : (s.phase j).Counted) :
    s.phase j = .inside := by
  have hn := inv.lock.not_of_ne hi hj
  cases hp : s.phase j <;> rw [hp] at hn hc
  case first | entered | leaving => exact absurd trivial hn
  all_goals exact absurd hc id

-- The lock changes hands, and the reader is counted as before.
theorem setLock {b : Bool} {p : Phase} (hl : Owned (update s.phase i p) Phase.HasLock (b = true))
    (hc : p.Counted ↔ (s.phase i).Counted) (hs : p.Shares ↔ (s.phase i).Shares)
    (hw : p = .writing ↔ s.phase i = .writing) (hf : p ≠ .first) (ht : p ≠ .last) :
    Inv ({ s with lock := b }.goto i p) where
  lock    := hl
  readers := inv.readers.trans (by rw [State.goto, count_keep hc])
  token   := inv.token.trans (by rw [State.goto, count_keep hw, count_keep hs])
  first   := forall_update (P := (· = Phase.first → s.readers = 1)) (absurd · hf)
    fun j _ => inv.first j
  last    := forall_update (P := (· = Phase.last → s.readers = 0)) (absurd · ht)
    fun j _ => inv.last j

theorem setToken {b : Bool} {p : Phase} (hl : p.HasLock ↔ (s.phase i).HasLock)
    (hc : p.Counted ↔ (s.phase i).Counted)
    (ht : b.toNat = count (update s.phase i p) (· = .writing) +
      (decide (0 < count (update s.phase i p) Phase.Shares)).toNat)
    (hf : p ≠ .first) (hn : p ≠ .last) : Inv ({ s with token := b }.goto i p) where
  lock    := inv.lock.keep hl
  readers := inv.readers.trans (by rw [State.goto, count_keep hc])
  token   := ht
  first   := forall_update (P := (· = Phase.first → s.readers = 1)) (absurd · hf)
    fun j _ => inv.first j
  last    := forall_update (P := (· = Phase.last → s.readers = 0)) (absurd · hn)
    fun j _ => inv.last j

-- The other readers do not have the lock, and so they do not depend on the number.
theorem setReaders {r : ℤ} {p : Phase} (hi : (s.phase i).HasLock) (hl : p.HasLock)
    (hr : r = count (update s.phase i p) Phase.Counted)
    (hw : p = .writing ↔ s.phase i = .writing)
    (hs : 0 < count (update s.phase i p) Phase.Shares ↔ 0 < count s.phase Phase.Shares)
    (hf : p = .first → r = 1) (hn : p = .last → r = 0) :
    Inv ({ s with readers := r }.goto i p) where
  lock    := inv.lock.keep (by simp [hi, hl])
  readers := hr
  token   := inv.token.trans (by simp only [State.goto, hs]; rw [count_keep hw])
  first   := forall_update (P := (· = Phase.first → r = 1)) hf fun j hj hp =>
    absurd (by rw [hp]; trivial) (inv.lock.not_of_ne hi hj)
  last    := forall_update (P := (· = Phase.last → r = 0)) hn fun j hj hp =>
    absurd (by rw [hp]; trivial) (inv.lock.not_of_ne hi hj)

theorem count (hi : s.phase i = .counting) : Inv ({ s with readers := s.readers + 1 }.goto i
    (if s.readers = 0 then .first else .entered)) := by
  have hr := inv.readers
  have hl : (s.phase i).HasLock := by
    rw [hi]
    trivial
  split_ifs with h0
  case pos =>
    have hc := count_enter (f := s.phase) (i := i) (P := Phase.Counted) (p := .first)
      (by simp [hi, Phase.Counted]) trivial
    refine inv.setReaders hl trivial (by omega) (by simp [hi]) ?_ (fun _ => by omega) (by simp)
    rw [count_keep (by simp [hi, Phase.Shares])]
  case neg =>
    have hc := count_enter (f := s.phase) (i := i) (P := Phase.Counted) (p := .entered)
      (by simp [hi, Phase.Counted]) trivial
    obtain ⟨j, hj⟩ := exists_of_count_pos (f := s.phase) (P := Phase.Counted) (by omega)
    have hn : j ≠ i := fun hn => by simp [hn, hi, Phase.Counted] at hj
    have hs : 0 < Threads.count s.phase Phase.Shares :=
      count_pos (i := j) (by rw [inv.eq_inside hl hn hj]; trivial)
    refine inv.setReaders hl trivial (by omega) (by simp [hi]) ?_ (by simp) (by simp)
    rw [count_enter (by simp [hi, Phase.Shares]) trivial]
    omega

theorem discount (hi : s.phase i = .leaving) : Inv ({ s with readers := s.readers - 1 }.goto i
    (if s.readers = 1 then .last else .left)) := by
  have hr := inv.readers
  have hl : (s.phase i).HasLock := by
    rw [hi]
    trivial
  split_ifs with h1
  case pos =>
    have hc := count_leave (f := s.phase) (i := i) (P := Phase.Counted) (p := .last)
      (by rw [hi]; trivial) id
    refine inv.setReaders hl trivial (by omega) (by simp [hi]) ?_ (by simp) (fun _ => by omega)
    rw [count_keep (by simp [hi, Phase.Shares])]
  case neg =>
    have hc := count_leave (f := s.phase) (i := i) (P := Phase.Counted) (p := .left)
      (by rw [hi]; trivial) id
    obtain ⟨j, hj⟩ := exists_of_count_pos (f := update s.phase i .left) (P := Phase.Counted)
      (by have := inv.readers_nonneg; omega)
    have hn : j ≠ i := fun hn => by simp [hn, Phase.Counted] at hj
    rw [update_of_ne hn] at hj
    have hin := inv.eq_inside hl hn hj
    refine inv.setReaders hl trivial (by omega) (by simp [hi]) ?_ (by simp) (by simp)
    have h₁ : 0 < Threads.count (update s.phase i .left) Phase.Shares :=
      count_pos (i := j) (by rw [update_of_ne hn, hin]; trivial)
    have h₂ : 0 < Threads.count s.phase Phase.Shares := count_pos (i := j) (by rw [hin]; trivial)
    simp [h₁, h₂]

omit [DecidableEq ι] in
theorem token_of_shares (hi : (s.phase i).Shares) :
    s.token = true ∧ Threads.count s.phase (· = .writing) = 0 := by
  have h := inv.token
  have hs := count_pos hi
  rw [decide_eq_true hs] at h
  cases ht : s.token
  case true  => simpa [ht] using h
  case false => simp [ht] at h

omit [DecidableEq ι] in
theorem token_of_writing (hi : s.phase i = .writing) :
    s.token = true ∧ Threads.count s.phase (· = .writing) = 1 ∧
      Threads.count s.phase Phase.Shares = 0 := by
  have h := inv.token
  have hw := count_pos (f := s.phase) (P := (· = Phase.writing)) hi
  have hb := Bool.toNat_le s.token
  cases hs : decide (0 < Threads.count s.phase Phase.Shares) <;> rw [hs] at h
  case false =>
    have hs := of_decide_eq_false hs
    cases ht : s.token <;> simp [ht] at h ⊢ <;> omega
  case true =>
    rw [Bool.toNat_true] at h
    omega

omit [DecidableEq ι] in
theorem token_free (ht : s.token = false) :
    Threads.count s.phase (· = .writing) = 0 ∧ Threads.count s.phase Phase.Shares = 0 := by
  have h := inv.token
  rw [ht, Bool.toNat_false] at h
  cases hs : decide (0 < Threads.count s.phase Phase.Shares) <;> rw [hs] at h
  case true  => simp at h
  case false => exact ⟨h.symm, by simpa using hs⟩

omit [DecidableEq ι] in
-- A writer is alone.
theorem alone (hi : s.phase i = .writing) (hj : j ≠ i) :
    s.phase j ≠ .writing ∧ ¬(s.phase j).Shares := by
  have ⟨_, hw, hs⟩ := inv.token_of_writing hi
  constructor
  · intro hn
    exact hj <| eq_of_count_le_one (P := (· = Phase.writing)) hw.le hn hi
  · intro hn
    exact (count_pos hn).ne' hs

omit [DecidableEq ι] in
-- The token is not given back by the last reader while it is free.
theorem token_of_last (hi : s.phase i = .last) : s.token = true :=
  (inv.token_of_shares (i := i) (by rw [hi]; trivial)).left

omit [DecidableEq ι] in
theorem eq_inside_of_free (hl : s.lock = false) (hi : (s.phase i).Counted ∨ (s.phase i).Shares) :
    s.phase i = .inside := by
  have hn := inv.lock.not_of_free (by simp [hl]) i
  cases hp : s.phase i <;> rw [hp] at hn hi
  case first | entered | leaving | last => exact absurd trivial hn
  all_goals exact absurd hi (or_self_iff.mp ·)

omit [DecidableEq ι] in
theorem readers_eq (hl : s.lock = false) : s.readers = Threads.count s.phase (· = .inside) := by
  have hc (i : ι) : (s.phase i).Counted ↔ s.phase i = .inside := by
    constructor
    · exact fun hc => inv.eq_inside_of_free hl (.inl hc)
    · intro hi
      rw [hi]
      trivial
  rw [inv.readers, count_congr (g := s.phase) (Q := (· = Phase.inside)) hc]

omit [DecidableEq ι] in
theorem token_owner (ht : s.token = true) :
    (∃ i, s.phase i = .writing) ∨ ∃ i, (s.phase i).Shares := by
  by_contra hn
  have ⟨hw, hs⟩ := not_or.mp hn
  have h := inv.token
  rw [ht, count_eq_zero (P := (· = Phase.writing)) (not_exists.mp hw),
    count_eq_zero (P := Phase.Shares) (not_exists.mp hs)] at h
  simp at h

omit [DecidableEq ι] in
-- The readers have the token together.
theorem readers_pos_iff (hl : s.lock = false) :
    0 < s.readers ↔ s.token = true ∧ ∀ i, s.phase i ≠ .writing := by
  have hr := inv.readers
  constructor
  case mp =>
    intro hp
    have ⟨i, hi⟩ := exists_of_count_pos (f := s.phase) (P := Phase.Counted) (by omega)
    have hs := inv.eq_inside_of_free hl (.inl hi)
    have ⟨ht, _⟩ := inv.token_of_shares (i := i) (by rw [hs]; trivial)
    refine ⟨ht, fun j hj => ?_⟩
    have hn : i ≠ j := fun hn => by simp [hn, hj] at hs
    exact (inv.alone hj hn).right (by rw [hs]; trivial)
  case mpr =>
    intro ⟨ht, hw⟩
    obtain ⟨i, hi⟩ := inv.token_owner ht |>.resolve_left (not_exists.mpr hw)
    have hin := inv.eq_inside_of_free hl (.inr hi)
    have := count_pos (f := s.phase) (P := Phase.Counted) (i := i) (by rw [hin]; trivial)
    omega

omit [DecidableEq ι] [Fintype ι] inv in
theorem movable_of_writing (hi : s.phase i = .writing) : s.Movable i := by
  simp [State.Movable, hi]

omit [DecidableEq ι] in
-- The first reader is the only one who is counted.
theorem not_shares_of_first (hi : s.phase i = .first) (j : ι) : ¬(s.phase j).Shares := by
  intro hj
  have hl : (s.phase i).HasLock := by
    rw [hi]
    trivial
  have hn : j ≠ i := fun hn => by simp [hn, hi, Phase.Shares] at hj
  have hf := inv.lock.not_of_ne hl hn
  have hc : (s.phase j).Counted := by
    cases hp : s.phase j <;> rw [hp] at hj hf <;> trivial
  have hr := inv.readers
  have h1 := inv.first i hi
  exact hn <| eq_of_count_le_one (by omega) hc (by rw [hi]; trivial)

omit [DecidableEq ι] in
-- It waits for a writer.
theorem exists_writing_of_first (hi : s.phase i = .first) (ht : s.token = true) :
    ∃ j, s.phase j = .writing :=
  inv.token_owner ht |>.resolve_right (not_exists.mpr (inv.not_shares_of_first hi))

omit [DecidableEq ι] in
theorem movable_of_first (hi : s.phase i = .first) : ∃ j, s.Movable j := by
  cases ht : s.token
  case false => exact ⟨i, by simp [State.Movable, hi, ht]⟩
  case true =>
    have ⟨j, hj⟩ := inv.exists_writing_of_first hi ht
    exact ⟨j, movable_of_writing hj⟩

omit [DecidableEq ι] in
-- Either nothing is taken, or somebody who has taken something can go on.
theorem exists_movable : s.lock = false ∧ s.token = false ∨ ∃ i, s.Movable i := by
  cases hl : s.lock
  case true =>
    right
    obtain ⟨i, hi⟩ := inv.lock.owner hl
    cases hp : s.phase i <;> rw [hp] at hi
    case first                                      => exact inv.movable_of_first hp
    case counting | entered | leaving | last | left => exact ⟨i, by simp [State.Movable, hp]⟩
    all_goals exact absurd hi id
  case false =>
    cases ht : s.token
    case false => exact .inl ⟨rfl, rfl⟩
    case true =>
      right
      cases inv.token_owner ht
      case inl hw =>
        have ⟨j, hj⟩ := hw
        exact ⟨j, movable_of_writing hj⟩
      case inr hs =>
        have ⟨j, hj⟩ := hs
        exact ⟨j, by simp [State.Movable, inv.eq_inside_of_free hl (.inr hj), hl]⟩

theorem takeToken (hi : s.phase i = .first) (ht : s.token = false) :
    Inv ({ s with token := true }.goto i .entered) := by
  have ⟨hw, hs⟩ := inv.token_free ht
  refine inv.setToken (by simp [hi, Phase.HasLock]) (by simp [hi, Phase.Counted]) ?_ (by simp)
    (by simp)
  rw [count_keep (by simp [hi]), hw, count_enter (by simp [hi, Phase.Shares]) trivial, hs]
  rfl

-- Nobody else is counted, and so the last reader is the only one who shares the token.
theorem giveToken (hi : s.phase i = .last) : Inv ({ s with token := false }.goto i .left) := by
  have hl : (s.phase i).HasLock := by
    rw [hi]
    trivial
  have hs : Threads.count s.phase Phase.Shares = 1 := by
    refine count_eq_one (i := i) (by rw [hi]; trivial) fun j hj => ?_
    by_contra hn
    have h0 := inv.last i hi
    have hr := inv.readers
    have hf := inv.lock.not_of_ne hl hn
    have hc := count_pos (f := s.phase) (P := Phase.Counted) (i := j) (by
      cases hp : s.phase j <;> rw [hp] at hj hf <;> trivial)
    omega
  have hc := count_leave (f := s.phase) (i := i) (P := Phase.Shares) (p := .left)
    (by rw [hi]; trivial) id
  refine inv.setToken (by simp [hi, Phase.HasLock]) (by simp [hi, Phase.Counted]) ?_ (by simp)
    (by simp)
  have hw := (inv.token_of_shares (i := i) (by rw [hi]; trivial)).right
  have h0 : Threads.count (update s.phase i .left) Phase.Shares = 0 := by omega
  rw [count_keep (by simp [hi]), hw, h0]
  rfl

theorem write (hi : s.phase i = .outside) (ht : s.token = false) :
    Inv ({ s with token := true }.goto i .writing) := by
  have ⟨hw, hs⟩ := inv.token_free ht
  refine inv.setToken (by simp [hi, Phase.HasLock]) (by simp [hi, Phase.Counted]) ?_ (by simp)
    (by simp)
  rw [count_enter (P := (· = Phase.writing)) (by simp [hi]) rfl, hw,
    count_keep (by simp [hi, Phase.Shares]), hs]
  rfl

theorem endWrite (hi : s.phase i = .writing) : Inv ({ s with token := false }.goto i .outside) := by
  have ⟨_, hw, hs⟩ := inv.token_of_writing hi
  have hc := count_leave (f := s.phase) (i := i) (P := (· = Phase.writing)) (p := .outside) hi
    (by simp)
  refine inv.setToken (by simp [hi, Phase.HasLock]) (by simp [hi, Phase.Counted]) ?_ (by simp)
    (by simp)
  rw [count_keep (P := Phase.Shares) (by simp [hi, Phase.Shares]), hs]
  simp only [lt_irrefl, decide_false, Bool.toNat_false]
  omega

theorem step (h : step s l = some s') : Inv s' := by
  cases l <;> simp only [ReaderGroup.step, Option.ite_none_right_eq_some, Option.some.injEq] at h
  case count i =>
    obtain ⟨hi, rfl⟩ := h
    exact inv.count hi
  case discount i =>
    obtain ⟨hi, rfl⟩ := h
    exact inv.discount hi
  case takeToken i =>
    obtain ⟨⟨hi, ht⟩, rfl⟩ := h
    exact inv.takeToken hi ht
  case giveToken i =>
    obtain ⟨hi, rfl⟩ := h
    exact inv.giveToken hi
  case write i =>
    obtain ⟨⟨hi, ht⟩, rfl⟩ := h
    exact inv.write hi ht
  case endWrite i =>
    obtain ⟨hi, rfl⟩ := h
    exact inv.endWrite hi
  case start i | finish i =>
    obtain ⟨⟨hi, hl⟩, rfl⟩ := h
    apply inv.setLock (inv.lock.take (by simp [hl]) (by trivial) rfl)
    all_goals simp [hi, Phase.Counted, Phase.Shares]
  case enter i | leave i =>
    obtain ⟨hi, rfl⟩ := h
    apply inv.setLock (inv.lock.free (by rw [hi]; trivial) id (by simp))
    all_goals simp [hi, Phase.Counted, Phase.Shares]

end Inv

theorem inv_of_reachable (r : (machine ι).Reachable s) : Inv s := by
  apply r.invariant
  case init =>
    intro _ h
    exact h ▸ .init
  case step =>
    intro _ _ _ _ inv h
    exact inv.step h

end ReaderGroup
