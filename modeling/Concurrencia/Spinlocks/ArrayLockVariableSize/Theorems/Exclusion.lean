import Concurrencia.Spinlocks.ArrayLock.Theorems.Order
import Concurrencia.Spinlocks.ArrayLockVariableSize.Theorems.Index

open Function

namespace ArrayLockVariableSize

-- The threads are at the same statements, for the same slots.
inductive Same (padding : BitVec 32) : Pc → ArrayLock.Pc → Prop
  | idle : Same padding .idle .idle
  | addTail : Same padding .addTail .addTail
  | spin : Same padding (.spin (index padding b)) (.spin (ArrayLock.index numThreads b))
  | reset : Same padding (.reset (index padding b)) (.reset (ArrayLock.index numThreads b))
  | critical : Same padding (.critical (index padding b)) (.critical (ArrayLock.index numThreads b))
  | store : Same padding (.store (index padding b)) (.store (ArrayLock.index numThreads b))

-- The lock behaves like the one of a fixed size. Only the flags of the slots matter.
structure Resized (padding : BitVec 32) (s : State) (t : ArrayLock.State numThreads) : Prop where
  pc   : ∀ i, Same padding (s.pc i) (t.pc i)
  tail : s.tail = t.tail
  flag : ∀ b, s.flag (index padding b).toNat ≠ 0 ↔
    t.flag (ArrayLock.index numThreads b).toNat = true

variable {padding : BitVec 32} {contents : ℕ → BitVec 8} {s s' : State} {i j : Fin numThreads}
variable {t : ArrayLock.State numThreads} {p : Pc} {q : ArrayLock.Pc} {v b c : BitVec 16} {k : ℕ}

section Fits

variable (hf : Fits padding)
include hf

theorem Fits.index_eq_iff : index padding b = index padding c ↔ b.toNat % 4 = c.toNat % 4 := by
  constructor
  case mp =>
    intro he
    by_contra hn
    exact (hf b c).left hn he
  case mpr =>
    intro he
    apply BitVec.eq_of_toNat_eq
    rw [toNat_index, toNat_index, he]

-- Two slots share their position if and only if they do in the array lock of a fixed size.
theorem Fits.same_iff : (index padding b).toNat = (index padding c).toNat ↔
    (ArrayLock.index numThreads b).toNat = (ArrayLock.index numThreads c).toNat := by
  rw [BitVec.toNat_inj, hf.index_eq_iff, ArrayLock.toNat_index (by decide) (by decide),
    ArrayLock.toNat_index (by decide) (by decide)]
  exact (Nat.mul_left_inj (by decide)).symm

end Fits

namespace Resized

theorem init (hf : Fits padding) (hp : 3 * padding.toNat < 2 ^ 16)
    (hz : ∀ k, 0 < k → k < numThreads → contents (k * padding.toNat) = 0) :
    Resized padding (init contents) (ArrayLock.init numThreads) where
  pc _ := .idle
  tail := rfl
  flag b := by
    have hb : b.toNat % 4 < 4 := Nat.mod_lt _ (by decide)
    have hi : (index padding b).toNat = b.toNat % 4 * padding.toNat := by
      have : b.toNat % 4 * padding.toNat ≤ 3 * padding.toNat := Nat.mul_le_mul_right _ (by omega)
      rw [toNat_index, Nat.mod_eq_of_lt (by omega)]
    have h₀ : (index padding 0).toNat = 0 := by simp [toNat_index]
    have hs : (index padding b).toNat = 0 ↔ (ArrayLock.index numThreads b).toNat = 0 := by
      have := hf.same_iff (b := b) (c := 0)
      rwa [h₀] at this
    simp only [ArrayLockVariableSize.init, ArrayLock.init, decide_eq_true_eq, ← hs]
    by_cases hk : (index padding b).toNat = 0
    case pos => simp [hk]
    case neg =>
      have hc : 0 < b.toNat % 4 := Nat.pos_of_ne_zero fun hz => hk (by rw [hi, hz, Nat.zero_mul])
      have hz := hz _ hc hb
      rw [← hi] at hz
      simp [hk, hz]

variable (h : Resized padding s t)
include h

theorem pc_update (hq : Same padding p q) :
    ∀ j, Same padding (update s.pc i p j) (update t.pc i q j) := by
  intro j
  by_cases hj : j = i
  case pos => simpa [hj] using hq
  case neg => simpa [hj] using h.pc j

-- The flag of slot `b` is written.
theorem flag_update
    (hf : Fits padding) {x : BitVec 8} {y : Bool} (hx : x ≠ 0 ↔ y = true) (c : BitVec 16) :
    update s.flag (index padding b).toNat x (index padding c).toNat ≠ 0 ↔
    update t.flag (ArrayLock.index numThreads b).toNat y
      (ArrayLock.index numThreads c).toNat = true := by
  have hs := hf.same_iff (b := c) (c := b)
  by_cases hc : (index padding c).toNat = (index padding b).toNat
  case pos =>
    rw [hc, hs.mp hc, update_self, update_self]
    exact hx
  case neg =>
    rw [update_of_ne hc, update_of_ne (mt hs.mpr hc)]
    exact h.flag c

theorem goto (hq : Same padding p q) : Resized padding (s.goto i p) (t.goto i q) where
  pc   := h.pc_update hq
  tail := h.tail
  flag := h.flag

theorem step (hf : Fits padding) (hs : step padding s i = some s') :
    ∃ t', ArrayLock.step t i = some t' ∧ Resized padding s' t' := by
  have hi := h.pc i
  generalize hp : s.pc i = p at hi
  generalize hq : t.pc i = q at hi
  cases hi <;> simp only [ArrayLockVariableSize.step, hp, Option.some.injEq] at hs <;> subst hs <;>
    simp only [ArrayLock.step, hq, Option.some.injEq, exists_eq_left']
  case idle     => exact h.goto .addTail
  case critical => exact h.goto .store
  case addTail =>
    exact {
      pc   := h.pc_update (by rw [← h.tail]; exact .spin)
      tail := congrArg (· + 1) h.tail
      flag := h.flag
    }
  case spin b =>
    have hb := h.flag b
    by_cases hs : s.flag (index padding b).toNat ≠ 0
    case pos =>
      rw [if_pos hs, if_pos (hb.mp hs)]
      exact h.goto .reset
    case neg =>
      rw [if_neg hs, if_neg (mt hb.mpr hs)]
      exact h.goto .spin
  case reset b =>
    exact {
      pc   := h.pc_update .critical
      tail := h.tail
      flag := h.flag_update hf (by simp)
    }
  case store b =>
    have hn : (position padding (index padding b)).toNat = (index padding (b + 1)).toNat :=
      (hf b b).right.right
    have hn' := ArrayLock.index_succ (N := numThreads) (b := b) (by decide) (by decide) (by decide)
    exact {
      pc   := h.pc_update .idle
      tail := h.tail
      flag := by
        simp only [State.goto_flag, ArrayLock.State.goto_flag, hn, hn']
        exact h.flag_update hf (by simp)
    }

end Resized

-- At most one thread is in the critical section.
def Exclusive (s : State) : Prop :=
  ∀ i j v w, s.pc i = .critical v → s.pc j = .critical w → i = j

section Small

variable (h₀ : 1 ≤ padding.toNat) (h₁ : 4 * padding.toNat ≤ 65536)
include h₀ h₁

theorem fits_of_le : Fits padding := by
  refine (fits_iff.trans (agree_iff padding.isLt)).mpr (.inl ?_)
  rw [Nat.mod_eq_of_lt (by omega), Nat.sub_self]
  exact ⟨h₀, by omega, Nat.dvd_zero _⟩

theorem resized_of_reachable
    (hz : ∀ k, 0 < k → k < numThreads → contents (k * padding.toNat) = 0)
    (r : (machine padding contents).Reachable s) :
    ∃ t, (ArrayLock.machine numThreads).Reachable t ∧ Resized padding s t := by
  have hf := fits_of_le h₀ h₁
  refine r.invariant
    (I := fun s => ∃ t, (ArrayLock.machine numThreads).Reachable t ∧ Resized padding s t) ?init ?step
  case init =>
    intro s hs
    obtain rfl := hs
    exact ⟨_, .init rfl, .init hf (by omega) hz⟩
  case step =>
    intro s i s' _ h hs
    have ⟨t, rt, h⟩ := h
    have ⟨t', ht, h'⟩ := h.step hf hs
    exact ⟨t', rt.step ht, h'⟩

theorem exclusive_of_zeroed
    (hz : ∀ k, 0 < k → k < numThreads → contents (k * padding.toNat) = 0)
    (r : (machine padding contents).Reachable s) : Exclusive s := by
  intro i j v w hi hj
  have ⟨t, rt, h⟩ := resized_of_reachable h₀ h₁ hz r
  have ⟨l, rl⟩ : ∃ l, ((ArrayLock.machine numThreads).logging ArrayLock.event).Reachable (t, l) :=
    rt.exists_logging
  have ⟨_, _, _, ref⟩ := ArrayLock.refines_of_reachable (by decide) (by decide) rl
  have inside {i : Fin numThreads} {v : BitVec 16} (hi : s.pc i = .critical v) :
      (ArrayLock.Pc.stage ∘ t.pc) i = .inside := by
    have hs := h.pc i
    rw [hi] at hs
    generalize hq : t.pc i = q at hs
    cases hs
    simp [hq, ArrayLock.Pc.stage]
  exact ref.serves.unique (inside hi) (inside hj)

end Small

-- A thread whose flag is set enters.
theorem pass (r : (machine padding contents).Reachable s) (hi : s.pc i = .spin v)
    (hf : s.flag v.toNat ≠ 0) : (machine padding contents).Reachable
      ({ s with flag := update s.flag v.toNat 0 }.goto i (.critical v)) := by
  have h₁ : (machine padding contents).step s i = some (s.goto i (.reset v)) := by
    simp only [machine, step, hi]
    rw [if_pos hf]
  have h₂ : (machine padding contents).step (s.goto i (.reset v)) i =
      some ({ s with flag := update s.flag v.toNat 0 }.goto i (.critical v)) := by
    simp [machine, step, State.goto]
  exact (r.step h₁).step h₂

-- All threads have got their slots.
theorem exists_queued : ∃ s, (machine padding contents).Reachable s ∧
    (∀ i, s.pc i = .spin (index padding (.ofNat 16 i))) ∧ s.flag = update contents 0 1 := by
  have h : (machine padding contents).exec (init contents)
      ([0, 0, 1, 1, 2, 2, 3, 3] : List (Fin 4)) = some _ := rfl
  refine ⟨_, .of_exec rfl h, fun i => ?_, rfl⟩
  match i with
  | ⟨0, _⟩ | ⟨1, _⟩ | ⟨2, _⟩ | ⟨3, _⟩ => rfl

-- Thread `k` finds its flag set while thread 0 is in the critical section.
theorem zero_of_exclusive (h₁ : 4 * padding.toNat ≤ 65536)
    (h : ∀ s, (machine padding contents).Reachable s → Exclusive s) (h₀ : 0 < k)
    (hk : k < numThreads) (hp : 0 < padding.toNat) : contents (k * padding.toNat) = 0 := by
  by_contra hn
  have ⟨s, r, hs, hf⟩ := @exists_queued padding contents
  let i₀ : Fin numThreads := ⟨0, by decide⟩
  let iₖ : Fin numThreads := ⟨k, hk⟩
  have hi : i₀ ≠ iₖ := fun he => h₀.ne (Fin.mk.inj he)
  have hz : (index padding (.ofNat 16 i₀)).toNat = 0 := by simp [toNat_index, i₀]
  have hp' : k * padding.toNat ≤ 3 * padding.toNat := Nat.mul_le_mul_right _ (Nat.le_of_lt_succ hk)
  have hx : (index padding (.ofNat 16 iₖ)).toNat = k * padding.toNat := by
    have hk' : (BitVec.ofNat 16 iₖ).toNat = k := Nat.mod_eq_of_lt (hk.trans (by decide))
    rw [toNat_index, hk', Nat.mod_eq_of_lt (b := 4) hk, Nat.mod_eq_of_lt (by omega)]
  have hx₀ : k * padding.toNat ≠ 0 := (Nat.mul_pos h₀ hp).ne'
  have r₁ := pass r (hs i₀) (by simp [hf, hz])
  have r₂ := pass r₁ (i := iₖ) (v := index padding (.ofNat 16 iₖ)) (by simp [hi.symm, hs])
    (by simpa [hf, hz, hx, hx₀] using hn)
  exact hi (h _ r₂ i₀ iₖ _ _ (by simp [hi]; rfl) (by simp; rfl))

-- The lock depends on the contents of the other slots in the block which `malloc` returns.
theorem exclusive_iff_zeroed (h₀ : 1 ≤ padding.toNat) (h₁ : 4 * padding.toNat ≤ 65536) :
    (∀ s, (machine padding contents).Reachable s → Exclusive s) ↔
    ∀ k, 0 < k → k < numThreads → contents (k * padding.toNat) = 0 := by
  constructor
  case mp  => exact fun h k hk hl => zero_of_exclusive h₁ h hk hl h₀
  case mpr => exact fun hz _ r => exclusive_of_zeroed h₀ h₁ hz r

theorem exclusive_iff_zeroed_measured :
    (∀ s, (machine 64 fun _ => 0).Reachable s → Exclusive s) ↔
    ∀ k, 0 < k → k < numThreads → (0 : BitVec 8) = 0 :=
  @exclusive_iff_zeroed 64 (fun _ => 0) (by decide) (by decide)

-- With a block of ones, a second thread enters beside the first one.
theorem critical_twice :
    ¬∀ (padding : BitVec 32) (contents : ℕ → BitVec 8) (s : State),
      1 ≤ padding.toNat → 4 * padding.toNat ≤ 65536 →
      (machine padding contents).Reachable s → Exclusive s := by
  intro h
  have he := @zero_of_exclusive 1 (fun _ => 1) 1 (by decide)
    (fun s r => h _ _ s (by decide) (by decide) r) (by decide) (by decide) (by decide)
  exact absurd he (by decide)

end ArrayLockVariableSize
