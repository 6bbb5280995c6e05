import Concurrencia.Monitors.Table.Basic
import Mathlib

open Function ObjectMonitor Threads

namespace TableMonitor

variable {n max : ℕ} {t t' : Atomic (Fin n → Bool) (Fin n) Unit Point} {i j f : Fin n}

def Uses (i f : Fin n) : Prop :=
  f = leftFork i ∨ f = rightFork i

structure Inv (max : ℕ) (t : Atomic (Fin n → Bool) (Fin n) Unit Point) : Prop where
  forks  : ∀ f, t.fields f = false ↔ ∃ i, (t.point i).eating = true ∧ Uses i f
  unique : ∀ {i j f}, (t.point i).eating = true → (t.point j).eating = true → Uses i f → Uses j f →
    i = j
  i_le   : ∀ i, (t.point i).i ≤ max ∧ ((t.point i).eating = true → (t.point i).i < max)

theorem effect_pick : (program n max).effect i (.pick (leftFork j) (rightFork j)) t.fields f = false ↔
    Uses j f ∨ t.fields f = false := by
  by_cases hr : f = rightFork j
  case pos => simp [Program.effect, program, body, run, Uses, hr]
  case neg =>
    by_cases hl : f = leftFork j
    case pos => simp [Program.effect, program, body, run, Uses, hl, update_apply]
    case neg => simp [Program.effect, program, body, run, Uses, hl, hr]

theorem effect_release :
    (program n max).effect i (.release (leftFork j) (rightFork j)) t.fields f = false ↔
    ¬Uses j f ∧ t.fields f = false := by
  by_cases hr : f = rightFork j
  case pos => simp [Program.effect, program, body, run, Uses, hr]
  case neg =>
    by_cases hl : f = leftFork j
    case pos => simp [Program.effect, program, body, run, Uses, hl, update_apply]
    case neg => simp [Program.effect, program, body, run, Uses, hl, hr]

theorem fetch_eq_some {x : Point} {a : Act (Call n) Unit} : fetch max i x = some a ↔
    x.eating = true ∧ a = .call (.release (leftFork i) (rightFork i)) ∨
    x.eating = false ∧ x.i < max ∧ a = .call (.pick (leftFork i) (rightFork i)) := by
  cases he : x.eating <;> simp [fetch, he, eq_comm]

namespace Inv

theorem init : Inv (n := n) max ⟨fun _ => ⟨0, false⟩, fun _ => true, ()⟩ where
  forks    := by simp
  unique h := by simp at h
  i_le _   := ⟨Nat.zero_le _, by simp⟩

theorem pick (inv : Inv max t) (hi : (t.point i).eating = false) (hm : (t.point i).i < max)
    (hr : ready (.pick (leftFork i) (rightFork i)) t.fields = true) :
    Inv max ⟨update t.point i { t.point i with eating := true },
      (program n max).effect i (.pick (leftFork i) (rightFork i)) t.fields, t.vars⟩ := by
  have free {f : Fin n} (hf : Uses i f) : t.fields f = true := by
    simp only [ready, Bool.not_eq_true', Bool.or_eq_false_iff, Bool.not_eq_false'] at hr
    obtain rfl | rfl := hf
    · exact hr.left
    · exact hr.right
  -- Nobody uses the forks which have been picked.
  have apart {j f : Fin n} (hj : (t.point j).eating = true) (hf : Uses i f) : ¬Uses j f := by
    intro hu
    have := (inv.forks f).mpr ⟨j, hj, hu⟩
    simp [free hf] at this
  have eats {j : Fin n} (h : (update t.point i { t.point i with eating := true } j).eating = true) :
      j = i ∨ (t.point j).eating = true := by
    by_cases hj : j = i
    case pos => exact .inl hj
    case neg => exact .inr (by simpa [hj] using h)
  constructor
  case forks =>
    intro f
    rw [effect_pick, inv.forks]
    constructor
    case mp =>
      rintro (hf | ⟨j, hj, hf⟩)
      · exact ⟨i, by simp, hf⟩
      · have hji : j ≠ i := by
          rintro rfl
          simp [hi] at hj
        exact ⟨j, by simpa [hji] using hj, hf⟩
    case mpr =>
      rintro ⟨j, hj, hf⟩
      obtain rfl | hj := eats hj
      · exact .inl hf
      · exact .inr ⟨j, hj, hf⟩
  case unique =>
    intro j k f hj hk hfj hfk
    obtain hji | hj := eats hj <;> obtain hki | hk := eats hk
    · exact hji.trans hki.symm
    · exact absurd hfk (apart hk (hji ▸ hfj))
    · exact absurd hfj (apart hj (hki ▸ hfk))
    · exact inv.unique hj hk hfj hfk
  case i_le =>
    intro j
    by_cases hj : j = i
    case pos => simpa [hj] using ⟨hm.le, hm⟩
    case neg => simpa [hj] using inv.i_le j

theorem release (inv : Inv max t) (hi : (t.point i).eating = true) :
    Inv max ⟨update t.point i ⟨(t.point i).i + 1, false⟩,
      (program n max).effect i (.release (leftFork i) (rightFork i)) t.fields, t.vars⟩ := by
  have eats {j : Fin n}
      (h : (update t.point i ⟨(t.point i).i + 1, false⟩ j).eating = true) :
      j ≠ i ∧ (t.point j).eating = true := by
    by_cases hj : j = i
    case pos => simp [hj] at h
    case neg => exact ⟨hj, by simpa [hj] using h⟩
  constructor
  case forks =>
    intro f
    rw [effect_release, inv.forks]
    constructor
    case mp =>
      rintro ⟨hn, j, hj, hf⟩
      have hji : j ≠ i := by
        rintro rfl
        exact hn hf
      exact ⟨j, by simpa [hji] using hj, hf⟩
    case mpr =>
      rintro ⟨j, hj, hf⟩
      have ⟨hji, hj⟩ := eats hj
      exact ⟨fun hn => hji (inv.unique hj hi hf hn), j, hj, hf⟩
  case unique => exact fun hj hk => inv.unique (eats hj).right (eats hk).right
  case i_le =>
    intro j
    by_cases hj : j = i
    case pos => simpa [hj] using Nat.succ_le_of_lt ((inv.i_le i).right hi)
    case neg => simpa [hj] using inv.i_le j

theorem step (inv : Inv max t) (h : (program n max).atomic.step t i = some t') : Inv max t' := by
  obtain ⟨k, hf, hr, rfl⟩ | ⟨g, hf, rfl⟩ := atomic_cases h <;> rw [program, fetch_eq_some] at hf
  case inr => simp at hf
  case inl =>
    obtain ⟨he, hk⟩ | ⟨he, hm, hk⟩ := hf <;> cases hk
    · rw [show (program n max).next (t.point i) = _ from if_pos he]
      exact inv.release he
    · rw [show (program n max).next (t.point i) = _ from if_neg (by simp [he])]
      exact inv.pick he hm hr

end Inv

theorem inv_of_reachable (r : (program n max).atomic.Reachable t) : Inv max t := by
  apply r.invariant
  case init =>
    rintro t rfl
    exact .init
  case step => exact fun _ _ _ _ inv hs => inv.step hs

-- The calls which a philosopher has before it.
def remaining (max : ℕ) (x : Point) : ℕ :=
  if x.eating then 2 * (max - (x.i + 1)) + 1 else 2 * (max - x.i)

-- Only `release` can make the condition of `pick` true.
theorem covers : (program n max).Covers := by
  intro i k k' d hk hk' h
  cases k
  case release => rfl
  case pick l r =>
    have hle {f : Fin n} (hf : (program n max).effect i (.pick l r) d f = true) : d f = true := by
      by_cases hr : f = r
      case pos => simp [Program.effect, program, body, run, hr] at hf
      case neg =>
        by_cases hl : f = l
        case pos =>
          subst hl
          simp [Program.effect, program, body, run, hr] at hf
        case neg => simpa [Program.effect, program, body, run, hr, hl] using hf
    cases k'
    case release => cases hk'
    case pick l' r' =>
      obtain ⟨hl, hr⟩ : (program n max).effect i (.pick l r) d l' = true ∧
          (program n max).effect i (.pick l r) d r' = true := by simpa [program, ready] using h
      simp [program, ready, hle hl, hle hr] at hk'

theorem proceeds : Proceeds (program n max) (remaining max) where
  covers := covers
  next {i x} h := by
    obtain ⟨a, ha⟩ := Option.ne_none_iff_exists'.mp h
    obtain ⟨he, _⟩ | ⟨he, hm, _⟩ := fetch_eq_some.mp ha
    · simp [program, next, remaining, he]
    · simp only [program, next, remaining, he, if_true, if_false, Bool.false_eq_true]
      omega
  live {t} r h := by
    have inv := inv_of_reachable r
    by_cases he : ∃ i, (t.point i).eating = true
    case pos =>
      obtain ⟨i, hi⟩ := he
      exact ⟨i, by simp [Program.atomic, Program.atomicStep, program, fetch, hi, ready]⟩
    case neg =>
      have hf (f : Fin n) : t.fields f = true := by
        by_contra hf
        obtain ⟨i, hi, _⟩ := (inv.forks f).mp (by simpa using hf)
        exact he ⟨i, hi⟩
      obtain ⟨i, hi⟩ := h
      obtain ⟨a, ha⟩ := Option.ne_none_iff_exists'.mp hi
      obtain ⟨hi, _⟩ | ⟨hi, hm, _⟩ := fetch_eq_some.mp ha
      · exact absurd ⟨i, hi⟩ he
      · exact ⟨i, by simp [Program.atomic, Program.atomicStep, program, fetch, hi, hm, ready, hf]⟩

-- The philosopher has returned from `pick`, and has not called `release`.
def Eats (s : State (Fin n → Bool) (Fin n) (Call n) Unit Point) (i : Fin n) : Prop :=
  s.pc i = .outside ∧ (s.point i).eating = true

-- Nobody shares a fork, and a fork which nobody uses is free while no method runs. The program can
-- always be brought to its end, where each of the philosophers has eaten `max` times.
theorem forks_and_end {s : State (Fin n → Bool) (Fin n) (Call n) Unit Point}
    (r : (program n max).machine.Reachable s) :
    (∀ i j f, Eats s i → Eats s j → Uses i f → Uses j f → i = j) ∧
    (s.lock = false → ∀ f, s.fields f = false ↔ ∃ i, (s.point i).eating = true ∧ Uses i f) ∧
    ∃ as s', (program n max).machine.Run s as s' ∧ (program n max).Finished s' ∧
      (∀ i, s'.point i = ⟨max, false⟩) ∧ ∀ f, s'.fields f = true := by
  obtain ⟨t, rt, ref⟩ := exists_refines r
  have inv := inv_of_reachable rt
  refine ⟨?_, ?_, ?_⟩
  · rintro i j f ⟨hi, hei⟩ ⟨hj, hej⟩
    exact inv.unique (ref.point_of_outside hi ▸ hei) (ref.point_of_outside hj ▸ hej)
  · intro hl
    rw [← ref.free hl, ← ref.point_of_free hl]
    exact inv.forks
  · obtain ⟨as, s', hr, hf⟩ := exists_finished proceeds r
    obtain ⟨t, rt, ref⟩ := exists_refines (hr.reachable r)
    obtain ⟨ht, hn⟩ := ref.eq_of_finished hf
    have inv := inv_of_reachable rt
    have hx (i : Fin n) : t.point i = ⟨max, false⟩ := by
      have hm := (inv.i_le i).left
      cases he : (t.point i).eating <;> have hn := hn i <;> simp [program, fetch, he] at hn
      rw [← hm.antisymm hn, ← he]
    have ht' : ∀ f, t.fields f = true := by
      intro f
      by_contra hf
      obtain ⟨i, hi, _⟩ := (inv.forks f).mp (by simpa using hf)
      simp [hx] at hi
    rw [ht] at hx ht'
    exact ⟨as, s', hr, hf, hx, ht'⟩

-- The constants of the program.
theorem forks_and_end_five :
    ∃ as s, (program 5 100).machine.Run (program 5 100).init as s ∧ (program 5 100).Finished s ∧
      (∀ i, s.point i = ⟨100, false⟩) ∧ ∀ f, s.fields f = true :=
  (forks_and_end (.init rfl)).right.right

end TableMonitor
