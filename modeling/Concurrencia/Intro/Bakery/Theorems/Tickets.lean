import Concurrencia.Intro.Bakery.Theorems.FirstCome
import Concurrencia.LockClient.Basic

open Function

namespace Bakery

namespace Pc

variable {n : ℕ} {p : Pc n}

instance : DecidablePred (Inside (n := n)) :=
  fun _ => inferInstanceAs (Decidable (_ ∨ _))

-- The thread has cleared `choosing[i]`, and has not given its number back.
def Chosen (p : Pc n) : Prop :=
  p.Waiting ∨ p.Inside

instance : DecidablePred (Chosen (n := n)) :=
  fun _ => inferInstanceAs (Decidable (_ ∨ _))

theorem Chosen.numbered (h : p.Chosen) : p.Numbered := by
  obtain h | rfl | rfl := h
  case inl     => exact h.numbered
  all_goals trivial

end Pc

section Numbers

variable {n : ℕ} {s s' : State n} {i j k : Fin n} {as : List (Fin n)}

theorem reachable_inv (r : ((machine n).only ReadsSmall).Reachable s) : Inv s := by
  refine r.invariant (I := Inv) ?init ?step
  case init =>
    intro s hs
    obtain rfl := hs
    exact .init
  case step =>
    intro s k s' _ inv h
    obtain ⟨hr, h⟩ := Machine.only_step.mp h
    obtain rfl := Option.some.inj h
    exact inv.next hr

-- The number does not change before it is given back.
theorem next_number_of_chosen (h : (s.pc j).Chosen) (h' : ((next s k).pc j).Chosen) :
    (next s k).number j = s.number j := by
  by_cases hj : j = k
  case neg => exact next_number_of_ne hj
  case pos =>
    subst hj
    obtain h | h | h := h
    case inl        => exact next_number_of_waiting h
    case inr.inl    => simp [next, h]
    case inr.inr    => simp [next, h, Pc.Chosen, Pc.Waiting, Pc.Inside] at h'

-- Thread `i` has not begun before `j` was done with its choice.
theorem Covered.next
    (inv : Inv s) (h : Covered s j i) (hj : (s.pc j).Chosen) (hj' : ((next s k).pc j).Chosen) :
    Covered (next s k) j i := by
  by_cases hi : i = k
  case pos =>
    subst hi
    exact h.next_self
  case neg => exact inv.covered_next_of_ne hj.numbered (next_number_of_chosen hj hj') hi h

theorem covered_of_run
    (run : (((machine n).only ReadsSmall).within fun s => (s.pc j).Chosen).Run s as s')
    (inv : Inv s) (hj : (s.pc j).Chosen) (h : Covered s j i) : Inv s' ∧ Covered s' j i := by
  have start : Inv s ∧ (s.pc j).Chosen ∧ Covered s j i := ⟨inv, hj, h⟩
  refine (run.invariant (I := fun s => Inv s ∧ (s.pc j).Chosen ∧ Covered s j i) start ?_).imp
    id And.right
  intro s k s' ⟨inv, hj, h⟩ hs
  obtain ⟨hs, hj'⟩ := Machine.within_step.mp hs
  obtain ⟨hr, hs⟩ := Machine.only_step.mp hs
  obtain rfl := Option.some.inj hs
  exact ⟨inv.next hr, hj', h.next inv hj hj'⟩

end Numbers

-- As long as `max` does not get the maximum unsigned value, each number is larger than the ones
-- which had been chosen before its thread began, and have not been given back.
theorem numbers_grow {n : ℕ} {s : State n} (r : ((machine n).only ReadsSmall).Reachable s) :
    (∀ i m, s.pc i = .setNumber m → (next s i).number i ≠ 0) ∧
    ∀ i j as s' m, s.pc i = .setChoosing → (s.pc j).Chosen →
      (((machine n).only ReadsSmall).within fun s => (s.pc j).Chosen).Run (next s i) as s' →
      s'.pc i = .setNumber m → s'.number j < (next s' i).number i := by
  have inv := reachable_inv r
  refine ⟨fun i m hi => ?_, fun i j as s' m hi hj run hm => ?_⟩
  · have hn : (next s i).number i = (m + 1) % uintSize := by simp [next, hi]
    rw [hn, inv.number_setNumber hi]
    exact Nat.succ_ne_zero m
  · have hne : j ≠ i := by
      rintro rfl
      simp [hi, Pc.Chosen, Pc.Waiting, Pc.Inside] at hj
    have hr : ReadsSmall s i := fun k hk => by simp [hi] at hk
    have hj' : ((next s i).pc j).Chosen := by rwa [next_pc_of_ne hne]
    have hc : Covered (next s i) j i := (After.of_setChoosing hi).covered
    obtain ⟨inv', h⟩ := covered_of_run run (inv.next hr) hj' hc
    have hn : (next s' i).number i = (m + 1) % uintSize := by simp [next, hm]
    rw [hn]
    exact inv'.covered_setNumber h hm

-- Thread 1 takes its number while thread 0 is waiting.
theorem numbers_grow_two :
    ∃ s s' : State 2, (∀ i m, s.pc i = .setNumber m → (next s i).number i ≠ 0) ∧
      s'.pc 1 = .setNumber 1 ∧ s'.number 0 < (next s' 1).number 1 :=
  have h : ((machine 2).only ReadsSmall).exec (init 2) [0, 0, 0, 0, 0, 0, 0, 1] = some _ := rfl
  have ⟨h₁, h₂⟩ := numbers_grow (.of_exec rfl h)
  have run := h₂ 1 0 [1, 1, 1, 1] _ 1 rfl (.inl trivial) (Machine.Run.iff_exec.mpr rfl) rfl
  ⟨_, _, h₁, rfl, run⟩

section Contention

variable {n : ℕ} {s s' : State n} {i j k : Fin n} {as : List (Fin n)} {l m x : ℕ} {p q : Pc n}

@[simp] theorem State.goto_goto : (s.goto i p).goto i q = s.goto i q := by
  simp [State.goto]

theorem step_next : (machine n).step s i = some (next s i) :=
  rfl

-- The maximum of `m` and of the numbers from position `l` on.
structure Largest (s : State n) (l m x : ℕ) : Prop where
  start : m ≤ x
  upper : ∀ k : Fin n, l ≤ k → s.number k ≤ x
  among : x = m ∨ ∃ k : Fin n, l ≤ k ∧ s.number k = x

namespace Largest

variable (h : Largest s l m x)
include h

theorem eq_of_le (hl : n ≤ l) : x = m := by
  obtain h | ⟨k, hk, _⟩ := h.among
  · exact h
  · exact absurd (hl.trans hk) (Nat.not_le_of_lt k.isLt)

theorem take (hl : l < n) (hm : m < s.number ⟨l, hl⟩) :
    Largest s (l + 1) (s.number ⟨l, hl⟩) x where
  start     := h.upper _ (Nat.le_refl l)
  upper k w := h.upper k (Nat.le_of_succ_le w)
  among := by
    obtain hx | ⟨k, hk, hx⟩ := h.among
    · have := h.upper ⟨l, hl⟩ (Nat.le_refl l)
      omega
    · obtain hk | hk := Nat.eq_or_lt_of_le hk
      · subst hk
        exact .inl hx.symm
      · exact .inr ⟨k, hk, hx⟩

theorem skip (hl : l < n) (hm : s.number ⟨l, hl⟩ ≤ m) : Largest s (l + 1) m x where
  start     := h.start
  upper k w := h.upper k (Nat.le_of_succ_le w)
  among := by
    obtain hx | ⟨k, hk, hx⟩ := h.among
    · exact .inl hx
    · obtain hk | hk := Nat.eq_or_lt_of_le hk
      · subst hk
        exact .inl <| Nat.le_antisymm (hx ▸ hm) h.start
      · exact .inr ⟨k, hk, hx⟩

end Largest

-- Thread `i` computes the maximum while the others stand still.
theorem run_scan (h : Largest s l m x) : ∃ r, (machine n).Run (s.goto i (.scan l m))
    (.replicate r i) (s.goto i (.setNumber x)) := by
  obtain ⟨d, hd⟩ : ∃ d, n ≤ l + d := ⟨n, Nat.le_add_left n l⟩
  induction d generalizing l m
  case zero =>
    obtain rfl := h.eq_of_le hd
    have hl : ¬l < n := Nat.not_lt_of_le hd
    have hs : next (s.goto i (.scan l x)) i = s.goto i (.setNumber x) := by
      simp [next, hl]
    exact ⟨1, .single (hs ▸ step_next)⟩
  case succ d hi =>
    by_cases hl : l < n
    case neg => exact hi h (by omega)
    case pos =>
      by_cases hm : m < s.number ⟨l, hl⟩
      case pos =>
        have hs : next (s.goto i (.scan l m)) i = s.goto i (.assign ⟨l, hl⟩) := by
          simp [next, hl, hm]
        have hs' : next (s.goto i (.assign ⟨l, hl⟩)) i =
            s.goto i (.scan (l + 1) (s.number ⟨l, hl⟩)) := by
          simp [next]
        obtain ⟨r, run⟩ := hi (h.take hl hm) (by omega)
        exact ⟨r + 2, .step (hs ▸ step_next) <| .step (hs' ▸ step_next) run⟩
      case neg =>
        have hs : next (s.goto i (.scan l m)) i = s.goto i (.scan (l + 1) m) := by
          simp [next, hl, hm]
        obtain ⟨r, run⟩ := hi (h.skip hl (Nat.le_of_not_lt hm)) (by omega)
        exact ⟨r + 1, .step (hs ▸ step_next) run⟩

-- A thread which is first enters while the others stand still.
theorem run_wait (hc : ∀ k, s.choosing k = 0)
    (hf : ∀ k, s.number k = 0 ∨ stamp s i ≤ stamp s k) :
    ∃ as, (machine n).Run (s.goto i (.waitChoosing l)) as (s.goto i .critical) := by
  obtain ⟨d, hd⟩ : ∃ d, n ≤ l + d := ⟨n, Nat.le_add_left n l⟩
  induction d generalizing l
  case zero =>
    have hl : ¬l < n := Nat.not_lt_of_le hd
    have hs : next (s.goto i (.waitChoosing l)) i = s.goto i .critical := by
      simp [next, hl]
    exact ⟨_, .single (hs ▸ step_next)⟩
  case succ d hi =>
    by_cases hl : l < n
    case neg => exact hi (by omega)
    case pos =>
      obtain ⟨as, run⟩ := hi (l := l + 1) (by omega)
      have hs : next (s.goto i (.waitChoosing l)) i = s.goto i (.testPositive ⟨l, hl⟩) := by
        simp [next, hl, hc]
      by_cases hz : s.number ⟨l, hl⟩ = 0
      case pos =>
        have hs' : next (s.goto i (.testPositive ⟨l, hl⟩)) i =
            s.goto i (.waitChoosing (l + 1)) := by
          simp [next, hz]
        exact ⟨_, .step (hs ▸ step_next) <| .step (hs' ▸ step_next) run⟩
      case neg =>
        have hf := not_lt_of_ge <| (hf ⟨l, hl⟩).resolve_left hz
        rw [stamp_lt_iff] at hf
        obtain ⟨hf, hf'⟩ := not_or.mp hf
        have hs₁ : next (s.goto i (.testPositive ⟨l, hl⟩)) i = s.goto i (.testLess ⟨l, hl⟩) := by
          simp [next, Nat.pos_of_ne_zero hz]
        have hs₂ : next (s.goto i (.testLess ⟨l, hl⟩)) i = s.goto i (.testEqual ⟨l, hl⟩) := by
          simp [next, hf]
        have hs₃ : next (s.goto i (.testEqual ⟨l, hl⟩)) i = s.goto i (.waitChoosing (l + 1)) := by
          simp [next, hf']
        exact ⟨_, .step (hs ▸ step_next) <| .step (hs₁ ▸ step_next) <| .step (hs₂ ▸ step_next) <|
          .step (hs₃ ▸ step_next) run⟩

theorem run_enter (hi : s.pc i = .waitChoosing 0) (hc : ∀ k, s.choosing k = 0)
    (hf : ∀ k, s.number k = 0 ∨ stamp s i ≤ stamp s k) :
    ∃ as, (machine n).Run s as (s.goto i .critical) := by
  have hs : s.goto i (.waitChoosing 0) = s := by
    rw [State.goto, ← hi, update_eq_self]
  have h := run_wait (i := i) (l := 0) hc hf
  rwa [hs] at h

theorem run_release (hi : s.pc i = .critical) :
    (machine n).Run s [i, i] ({ s with number := update s.number i 0 }.goto i .idle) := by
  have h₁ : next s i = s.goto i .release := by simp [next, hi]
  have h₂ : next (s.goto i .release) i = { s with number := update s.number i 0 }.goto i .idle := by
    simp [next, State.goto]
  exact .step (h₁ ▸ step_next) (.single (h₂ ▸ step_next))

-- The doorway, while nobody else is in it.
theorem run_choose (hi : s.pc i = .idle) (hc : s.choosing i = 0) (h : Largest s 0 0 x) :
    ∃ as, (machine n).Run s as
      ({ s with number := update s.number i ((x + 1) % uintSize) }.goto i (.waitChoosing 0)) := by
  let t : State n := { s with choosing := update s.choosing i 1 }
  have h₁ : next s i = s.goto i .setChoosing := by simp [next, hi]
  have h₂ : next (s.goto i .setChoosing) i = t.goto i (.scan 0 0) := by
    simp [next, State.goto, t]
  let f : Fin n → ℕ := update s.number i ((x + 1) % uintSize)
  obtain ⟨r, run⟩ := run_scan (s := t) (i := i) ⟨h.start, h.upper, h.among⟩
  have h₃ : next (t.goto i (.setNumber x)) i = { t with number := f }.goto i .clearChoosing := by
    simp [next, State.goto, t, f]
  have h₄ : next ({ t with number := f }.goto i .clearChoosing) i =
      { s with number := f }.goto i (.waitChoosing 0) := by
    have hc : update (update s.choosing i 1) i 0 = s.choosing := by
      rw [update_idem, ← hc, update_eq_self]
    simp [next, State.goto, t, hc]
  exact ⟨_, .step (h₁ ▸ step_next) <| .step (h₂ ▸ step_next) <| run.trans <|
    .step (h₃ ▸ step_next) <| .single (h₄ ▸ step_next)⟩

-- Thread `i` is inside, and thread `j` is waiting with the next number.
structure Contended (s : State n) (i j : Fin n) (x : ℕ) : Prop where
  ne       : i ≠ j
  inside   : s.pc i = .critical
  waiting  : s.pc j = .waitChoosing 0
  first    : s.number i = x
  second   : s.number j = x + 1
  others   : ∀ k ≠ i, k ≠ j → s.number k = 0
  choosing : ∀ k, s.choosing k = 0

namespace Contended

variable (h : Contended s i j x)
include h

-- What `max` finds after thread `i` has given its number back.
theorem largest (hk : s'.number = update s.number i 0) : Largest s' 0 0 (x + 1) where
  start := Nat.zero_le _
  among := .inr ⟨j, Nat.zero_le _, by simp [hk, h.ne.symm, h.second]⟩
  upper k _ := by
    by_cases hi : k = i
    case pos => simp [hk, hi]
    case neg =>
      by_cases hj : k = j
      case pos => simp [hk, hj, h.second, h.ne.symm]
      case neg => simp [hk, hi, h.others k hi hj]

-- Thread `i` comes back while thread `j` is still waiting, and gets the next number again.
theorem handover (hx : x + 2 < uintSize) :
    ∃ as s', (machine n).Run s as s' ∧ Contended s' j i (x + 1) := by
  have r₁ := run_release h.inside
  let s₁ : State n := { s with number := update s.number i 0 }.goto i .idle
  obtain ⟨_, r₂⟩ := run_choose (s := s₁) (i := i) (by simp [s₁]) (h.choosing i) (h.largest rfl)
  let s₂ : State n := { s with number := update s.number i (x + 2) }.goto i (.waitChoosing 0)
  have hs : { s₁ with number := update s₁.number i ((x + 1 + 1) % uintSize) }.goto i
      (.waitChoosing 0) = s₂ := by
    simp [s₁, s₂, State.goto, Nat.mod_eq_of_lt hx]
  rw [hs] at r₂
  have hi : s₂.number i = x + 2 := by simp [s₂]
  have hj : s₂.number j = x + 1 := by simp [s₂, h.ne.symm, h.second]
  have hk (k : Fin n) (hki : k ≠ i) (hkj : k ≠ j) : s₂.number k = 0 := by
    simp [s₂, hki, h.others k hki hkj]
  have hp : s₂.pc j = .waitChoosing 0 := by simp [s₂, h.ne.symm, h.waiting]
  obtain ⟨_, r₃⟩ := run_enter hp h.choosing fun k => by
    by_cases hkj : k = j
    case pos => exact .inr (hkj ▸ le_refl _)
    case neg =>
      by_cases hki : k = i
      case neg => exact .inl (hk k hki hkj)
      case pos =>
        refine .inr (le_of_lt <| stamp_lt_iff.mpr <| .inl ?_)
        rw [hki, hi, hj]
        exact Nat.lt_succ_self _
  refine ⟨_, _, r₁.trans <| r₂.trans r₃, h.ne.symm, ?_, ?_, hj, hi, ?_, h.choosing⟩
  · exact State.goto_pc_self
  · simp [s₂, h.ne]
  · exact fun k hkj hki => hk k hki hkj

end Contended

theorem exists_contended (hi : i ≠ j) : ∃ s, (machine n).Reachable s ∧ Contended s i j 1 := by
  have hz : Largest (init n) 0 0 0 := ⟨Nat.le_refl _, fun _ _ => Nat.le_refl _, .inl rfl⟩
  obtain ⟨_, r₁⟩ := run_choose (s := init n) (i := i) rfl rfl hz
  let s₁ : State n := { init n with number := update (fun _ => 0) i 1 }.goto i (.waitChoosing 0)
  obtain ⟨_, r₂⟩ := run_enter (s := s₁) (i := i) (by simp [s₁]) (fun _ => rfl) fun k => by
    by_cases hk : k = i
    case pos => exact .inr (hk ▸ le_refl _)
    case neg => exact .inl (by simp [s₁, hk])
  have hl : Largest (s₁.goto i .critical) 0 0 1 := by
    refine ⟨Nat.zero_le _, fun k _ => ?_, .inr ⟨i, Nat.zero_le _, by simp [s₁]⟩⟩
    by_cases hk : k = i
    case pos => simp [s₁, hk]
    case neg => simp [s₁, hk]
  obtain ⟨_, r₃⟩ := run_choose (s := s₁.goto i .critical) (i := j) (by simp [s₁, hi.symm, init])
    rfl hl
  refine ⟨_, (r₁.trans <| r₂.trans r₃).reachable (.init rfl), hi, ?_, ?_, ?_, ?_, ?_, fun _ => rfl⟩
  · simp [hi]
  · exact State.goto_pc_self
  · simp [s₁, hi]
  · simp [uintSize]
  · intro k hki hkj
    simp [s₁, hki, hkj]

theorem contended_reachable (hi : i ≠ j) (hx : x + 2 < uintSize) :
    ∃ s i j, (machine n).Reachable s ∧ Contended s i j (x + 1) := by
  induction x
  case zero =>
    obtain ⟨s, r, h⟩ := exists_contended hi
    exact ⟨s, i, j, r, h⟩
  case succ x ih =>
    obtain ⟨s, i, j, r, h⟩ := ih (by omega)
    obtain ⟨as, s', run, h⟩ := h.handover (by omega)
    exact ⟨s', j, i, run.reachable r, h⟩

-- The steps of thread `i` leave thread `j` where it is.
theorem within_of_alone {r : ℕ} (run : (machine n).Run s (.replicate r i) s') (hj : j ≠ i)
    (h : (s.pc j).Chosen) :
    ((machine n).within fun s => (s.pc j).Chosen).Run s (.replicate r i) s' := by
  induction r generalizing s
  case zero =>
    cases run
    exact .refl
  case succ r ih =>
    cases run
    case step hs run =>
      obtain rfl := Option.some.inj hs
      have h' : ((next s i).pc j).Chosen := by rwa [next_pc_of_ne hj]
      exact .step (Machine.within_step.mpr ⟨hs, h'⟩) (ih run h')

-- The thread which comes back while the maximum unsigned value is waiting gets zero.
theorem Contended.wrap (h : Contended s i j (uintMax - 1)) (r : (machine n).Reachable s) :
    ∃ s as s', (machine n).Reachable s ∧ s.pc i = .setChoosing ∧ (s.pc j).Chosen ∧
      ((machine n).within fun s => (s.pc j).Chosen).Run (next s i) as s' ∧
      s'.pc i = .setNumber uintMax ∧ s'.number j = uintMax ∧ (next s' i).number i = 0 := by
  let s₁ : State n := { s with number := update s.number i 0 }.goto i .setChoosing
  have h₁ : next ({ s with number := update s.number i 0 }.goto i .idle) i = s₁ := by
    simp [next, s₁]
  have r₁ : (machine n).Reachable s₁ :=
    ((run_release h.inside).reachable r).step (h₁ ▸ step_next)
  let t : State n := { s₁ with choosing := update s.choosing i 1 }
  have ht : next s₁ i = t.goto i (.scan 0 0) := by
    simp [next, s₁, t, State.goto]
  obtain ⟨k, run⟩ := run_scan (s := t) (i := i) (h.largest rfl)
  have hj : s₁.pc j = .waitChoosing 0 := by simp [s₁, h.ne.symm, h.waiting]
  have hj' : (t.goto i (.scan 0 0)).pc j = .waitChoosing 0 := by simp [t, h.ne.symm, hj]
  have run := within_of_alone run h.ne.symm (hj' ▸ .inl trivial)
  refine ⟨s₁, _, _, r₁, ?_, hj ▸ .inl trivial, ht ▸ run, State.goto_pc_self, ?_, ?_⟩
  · exact State.goto_pc_self
  · simp [t, s₁, h.ne.symm, h.second, uintMax, uintSize]
  · simp [next, uintMax, uintSize]

end Contention

-- Two threads take turns, and one of them is waiting all the time.
theorem numbers_wrap :
    ∃ (s s' : State 2) (i j : Fin 2) (as : List (Fin 2)),
      (machine 2).Reachable s ∧ s.pc i = .setChoosing ∧ (s.pc j).Chosen ∧
      ((machine 2).within fun s => (s.pc j).Chosen).Run (next s i) as s' ∧
      s'.pc i = .setNumber uintMax ∧ (next s' i).number i = 0 ∧
      ¬s'.number j < (next s' i).number i := by
  obtain ⟨s, i, j, r, h⟩ := contended_reachable (n := 2) (i := 0) (j := 1) (x := uintMax - 2)
    (by decide) (by decide)
  obtain ⟨s, as, s', r, hi, hj, run, hp, hn, hz⟩ := h.wrap r
  refine ⟨s, s', i, j, as, r, hi, hj, run, hp, hz, ?_⟩
  rw [hz]
  exact Nat.not_lt_zero _

section Client

open LockClient (Stage Lock Thread single)

variable {n max b c : ℕ} {s : State n} {i j : Fin n}

def Pc.stage : Pc n → Stage
  | idle     => .idle
  | critical => .inside
  | release  => .unlocking
  | _        => .locking

-- The number which the thread has drawn and not given back.
def Pc.drawn : Pc n → ℕ
  | clearChoosing | waitChoosing _ | testPositive _ | testLess _ | testEqual _ | critical | release => 1
  | _ => 0

def stage (s : State n) (i : Fin n) : Stage :=
  (s.pc i).stage

theorem stage_next : Stage.Next (s.pc i).stage ((next s i).pc i).stage := by
  cases hp : s.pc i <;> simp only [next, hp, State.goto_pc_self]
  case idle     => exact .lock
  case critical => exact .unlock
  case release  => exact .leave
  case waitChoosing =>
    split_ifs
    · exact .stay
    · exact .stay
    · exact .enter
  case scan =>
    split_ifs
    all_goals exact .stay
  case testPositive | testLess | testEqual =>
    split
    all_goals exact .stay
  all_goals exact .stay

theorem stage_step (j : Fin n) : Stage.Next (stage s j) (stage (next s i) j) := by
  by_cases hj : j = i
  case pos =>
    subst hj
    exact stage_next
  case neg =>
    rw [stage, stage, next_pc_of_ne hj]
    exact .stay

theorem lock : Lock ((machine n).within NoOverflow) stage where
  init h := by
    cases h.left
    rfl
  step hs := by
    obtain rfl := Option.some.inj (Machine.within_step.mp hs).left
    exact stage_step _
  unique r hi hj := by
    have inside {p : Pc n} (h : p.stage = .inside) : p.Inside := by
      cases p <;> cases h
      exact .inl rfl
    exact (inv_of_reachable r).left.eq_of_inside (inside hi) (inside hj)

-- Each number is at most the running maximum plus one.
theorem next_number_le (hn : ∀ j, s.number j ≤ b) (hm : ∀ j, (s.pc j).max ≤ b)
    (hc : b + ((next s i).pc i).drawn ≤ c + (s.pc i).drawn) (h : b ≤ c) :
    (next s i).number j ≤ c := by
  have hj := (hn j).trans h
  by_cases hji : j = i
  case neg => rwa [next_number_of_ne hji]
  case pos =>
    subst hji
    cases hp : s.pc j <;> simp only [next, hp, State.goto_number, update_self] <;> try exact hj
    case setNumber max =>
      have := hm j
      simp only [hp, next, Pc.max, Pc.drawn, State.goto_pc_self] at this hc
      have := Nat.mod_le (max + 1) uintSize
      omega
    case release => exact Nat.zero_le _

theorem drawn_le_next (h : s.pc i ≠ .release) : (s.pc i).drawn ≤ ((next s i).pc i).drawn := by
  cases hp : s.pc i <;> simp only [next, hp, State.goto_pc_self, Pc.drawn]
  case release => exact absurd hp h
  all_goals try split_ifs
  all_goals simp

theorem next_max_le (hn : ∀ j, s.number j ≤ b) (hm : ∀ j, (s.pc j).max ≤ b) :
    ((next s i).pc j).max ≤ b := by
  have hj := hm j
  by_cases hji : j = i
  case neg => rwa [next_pc_of_ne hji]
  case pos =>
    subst hji
    cases hp : s.pc j <;> simp only [next, hp, State.goto_pc_self, Pc.max] at hj ⊢
    case assign k => exact hn k
    case scan =>
      split_ifs
      · exact Nat.zero_le _
      · exact hj
      · exact hj
    all_goals try split_ifs
    all_goals exact Nat.zero_le _

-- The calls of `lock` by which the thread has drawn a number.
def drawn (s : LockClient.State (State n) (Fin n) Unit) (i : Fin n) : ℕ :=
  (s.thread i).i + (s.lock.pc i).drawn

-- The numbers which are in use are among those which have been drawn.
structure Few (s : LockClient.State (State n) (Fin n) Unit) : Prop where
  number : ∀ i, s.lock.number i ≤ ∑ j, drawn s j
  max : ∀ i, (s.lock.pc i).max ≤ ∑ j, drawn s j

variable {s s₁ s₂ : LockClient.State (State n) (Fin n) Unit}

-- The client of the plain lock, where nothing keeps the numbers from an overflow.
abbrev client (n max : ℕ) : Machine (LockClient.State (State n) (Fin n) Unit) (LockClient.Label (Fin n) (Fin n)) :=
  LockClient.machine (machine n) stage single max

abbrev clientWithin (n max : ℕ) :
    Machine (LockClient.State (State n) (Fin n) Unit) (LockClient.Label (Fin n) (Fin n)) :=
  LockClient.machine ((machine n).within NoOverflow) stage single max

section Step

variable (hs : s₂.lock = next s₁.lock i)
variable (ht : ∀ t, s₂.thread t = (s₁.thread t).follow (stage s₁.lock t) (stage s₂.lock t))
include hs ht

theorem drawn_of_ne (hj : j ≠ i) : drawn s₂ j = drawn s₁ j := by
  have hg : stage s₂.lock j = stage s₁.lock j := by rw [hs, stage, stage, next_pc_of_ne hj]
  have hth : s₂.thread j = s₁.thread j := by
    rw [ht, hg]
    cases stage s₁.lock j <;> rfl
  rw [drawn, drawn, hth, hs, next_pc_of_ne hj]

-- The thread has given its number back before its next round begins.
theorem drawn_le : drawn s₁ i ≤ drawn s₂ i := by
  by_cases hp : s₁.lock.pc i = .release
  case pos => simp [drawn, ht, hs, stage, hp, next, Pc.stage, Pc.drawn, Thread.follow]
  case neg =>
    rw [drawn, drawn, ht, hs]
    exact Nat.add_le_add Thread.i_le_follow (drawn_le_next hp)

theorem sum_drawn : ∑ j, drawn s₂ j + drawn s₁ i = ∑ j, drawn s₁ j + drawn s₂ i := by
  have hu : drawn s₂ = update (drawn s₁) i (drawn s₂ i) := by
    ext j
    by_cases hj : j = i
    case pos => simp [hj]
    case neg => simp [hj, drawn_of_ne hs ht]
  have h := Threads.sum_update (f := drawn s₁) (i := i) (p := drawn s₂ i) (g := id)
  rwa [← hu] at h

theorem Few.step (h : Few s₁) : Few s₂ := by
  have hsum := sum_drawn hs ht
  have hle := drawn_le hs ht
  constructor
  case number =>
    intro j
    rw [hs]
    apply next_number_le h.number h.max
    · have : (s₁.thread i).i ≤ (s₂.thread i).i := ht i ▸ Thread.i_le_follow
      rw [drawn, drawn, hs] at hsum
      omega
    · omega
  case max =>
    intro j
    rw [hs]
    exact (next_max_le h.number h.max).trans (by omega)

end Step

-- The loops end before the numbers get too large.
theorem noOverflow_of_few (h : Few s)
    (hi : ∀ i, (s.thread i).Fits single max s.counter (stage s.lock i)) (hm : n * max < uintMax) :
    NoOverflow s.lock := by
  intro i
  have hd (j : Fin n) : drawn s j ≤ max := by
    have hf := hi j
    cases hp : s.lock.pc j <;> simp only [stage, drawn, hp, Pc.stage, Pc.drawn] at hf ⊢
    case idle => exact hf.right
    all_goals
      have := hf.right
      omega
  have hs := Finset.sum_le_card_nsmul Finset.univ (drawn s) max fun j _ => hd j
  rw [Finset.card_univ, Fintype.card_fin, Nat.nsmul_eq_mul] at hs
  exact ((h.number i).trans hs).trans_lt hm

theorem client_reachable (hm : n * max < uintMax) (r : (client n max).Reachable s) :
    (clientWithin n max).Reachable s ∧ Few s := by
  refine r.invariant (I := fun s => (clientWithin n max).Reachable s ∧ Few s) ?init ?step
  case init =>
    rintro s ⟨hl, ht, hc⟩
    have hn (i : Fin n) : s.lock.number i = 0 := congrArg (fun s => s.number i) hl
    have hp (i : Fin n) : s.lock.pc i = .idle := congrArg (fun s => s.pc i) hl
    refine ⟨.init ⟨⟨hl, fun i => ?_⟩, ht, hc⟩, fun i => ?_, fun i => ?_⟩
    · rw [hn]
      exact Nat.zero_lt_of_lt hm
    · exact hn i ▸ Nat.zero_le _
    · exact hp i ▸ Nat.zero_le _
  case step =>
    rintro s₁ a s₂ - ⟨r, h⟩ hs
    cases a
    case count t =>
      obtain ⟨hl, hi⟩ := LockClient.count_step hs
      have hd (j : Fin n) : drawn s₂ j = drawn s₁ j := by rw [drawn, drawn, hl, hi]
      have hs : (clientWithin n max).step s₁ (.count t) = some s₂ := hs
      refine ⟨r.step hs, fun i => ?_, fun i => ?_⟩
      · simpa only [hl, hd] using h.number i
      · simpa only [hl, hd] using h.max i
    case lock i =>
      obtain ⟨l, hl, hc, hs₂⟩ := LockClient.lock_step.mp hs
      obtain rfl := Option.some.inj hl
      have h' : Few s₂ := h.step (i := i) (hs₂ ▸ rfl) fun _ => hs₂ ▸ rfl
      refine ⟨r.step (LockClient.lock_step.mpr ⟨_, Machine.within_step.mpr ⟨rfl, ?_⟩, hc, hs₂⟩), h'⟩
      have hf (j : Fin n) : (s₂.thread j).Fits single max s₂.counter (stage s₂.lock j) := by
        subst hs₂
        exact (LockClient.inv lock r).fits j |>.follow (stage_step j) (hc j)
      have hn := noOverflow_of_few h' hf hm
      rwa [hs₂] at hn

-- The counter is exact, as long as the program counts to less than the maximum unsigned value.
theorem counter_exact {n max : ℕ} {s : LockClient.State (State n) (Fin n) Unit} (hm : n * max < uintMax)
    (r : (LockClient.machine (machine n) stage single max).Reachable s) :
    s.counter () = ∑ i, (s.thread i).done single () ∧
    (LockClient.Finished stage max s → s.counter () = n * max) := by
  have r := (client_reachable hm r).left
  refine ⟨LockClient.counter_eq lock r, fun hf => ?_⟩
  simpa using LockClient.single_eq_of_finished lock r hf

-- The threads run one after the other.
theorem counter_exact_two :
    ∃ s : LockClient.State (State 2) (Fin 2) Unit, LockClient.Finished stage 1 s ∧ s.counter () = 2 * 1 :=
  have h : (LockClient.machine (machine 2) stage single 1).exec (LockClient.start (init 2))
    (.replicate 14 (.lock 0) ++ [.count 0, .count 0, .lock 0, .lock 0] ++
      .replicate 14 (.lock 1) ++ [.count 1, .count 1, .lock 1, .lock 1]) = some _ := rfl
  have hf := by decide
  ⟨_, hf, (counter_exact (by decide) (LockClient.reachable_of_exec rfl h)).right hf⟩

end Client

end Bakery
