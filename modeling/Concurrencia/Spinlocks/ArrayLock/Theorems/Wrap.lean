import Concurrencia.Spinlocks.ArrayLock.Theorems.Order

open Function Threads

namespace ArrayLock

open FifoLock (Event)

variable {N : ℕ} {s : State N} {i : Fin N} {v : BitVec 16} {pc : Fin N → Pc} {k m : ℕ}
variable {l : List (Event (Fin N))}

section Run

variable (r : (machine N).Reachable s)
include r

theorem run_call (h : s.pc i = .idle) : (machine N).Reachable (s.goto i .addTail) :=
  r.step (a := i) (by simp [machine, step, h])

theorem run_addTail (h : s.pc i = .addTail) :
    (machine N).Reachable ({ s with tail := s.tail + 1 }.goto i (.spin (index N s.tail))) :=
  r.step (a := i) (by simp [machine, step, h])

theorem run_seen (h : s.pc i = .spin v) (hf : s.flag v.toNat = true) :
    (machine N).Reachable (s.goto i (.reset v)) :=
  r.step (a := i) (by simp [machine, step, h, hf])

theorem run_reset (h : s.pc i = .reset v) :
    (machine N).Reachable
      ({ s with flag := update s.flag v.toNat false }.goto i (.critical v)) :=
  r.step (a := i) (by simp [machine, step, h])

theorem run_leave (h : s.pc i = .critical v) : (machine N).Reachable (s.goto i (.store v)) :=
  r.step (a := i) (by simp [machine, step, h])

theorem run_store (h : s.pc i = .store v) :
    (machine N).Reachable
      ({ s with flag := update s.flag ((v.toNat + padding) % size N) true }.goto i .idle) :=
  r.step (a := i) (by simp [machine, step, h])

end Run

-- Nobody is inside, and only the flag of the given slot is set.
def paused (pc : Fin N → Pc) (tail slot : ℕ) : State N where
  pc     := pc
  tail   := .ofNat 16 tail
  flag x := x = slot % N * padding

theorem init_eq_paused : init N = paused (fun _ => .idle) 0 0 := by
  simp [init, paused]

theorem toNat_index_ofNat (hp : size N ≤ 2 ^ 16) (hN : 0 < N) (hk : k < 2 ^ 16) :
    (index N (.ofNat 16 k)).toNat = k % N * padding := by
  rw [toNat_index hp hN, BitVec.toNat_ofNat, Nat.mod_eq_of_lt hk]

theorem move_flag (a b : ℕ) :
    update (update (fun x => decide (x = a)) a false) b true = fun x => decide (x = b) := by
  funext x
  by_cases hb : x = b
  case pos => simp [hb]
  case neg =>
    by_cases ha : x = a
    case pos => simp [ha ▸ hb, ha]
    case neg => simp [hb, ha]

-- An idle thread locks and unlocks.
theorem run_cycle (hp : size N ≤ 2 ^ 16) (hi : pc i = .idle) (hk : k < 2 ^ 16)
    (r : (machine N).Reachable (paused pc k k)) :
    (machine N).Reachable (paused pc (k + 1) (k + 1)) := by
  have hv := toNat_index_ofNat hp (Fin.pos i) hk
  have r := run_call (i := i) r hi
  have r := run_addTail (i := i) r (by simp)
  have r := run_seen (i := i) r (update_self ..) (by simp [paused, hv])
  have r := run_reset (i := i) r (update_self ..)
  have r := run_leave (i := i) r (update_self ..)
  have r := run_store (i := i) r (update_self ..)
  refine cast (congrArg _ ?_) r
  have hpc : update pc i .idle = pc := hi ▸ update_eq_self i pc
  have hs : (k % N * padding + padding) % size N = (k + 1) % N * padding := by
    rw [size, ← Nat.succ_mul, Nat.mul_mod_mul_right]
    simp [Nat.add_mod]
  simp only [paused, State.goto, update_idem, hpc, State.mk.injEq, true_and]
  refine ⟨(BitVec.ofNat_add ..).symm, ?_⟩
  rw [hv, hs, move_flag]

theorem run_cycles (hp : size N ≤ 2 ^ 16) (hi : pc i = .idle) (hk : k ≤ m) (hm : m ≤ 2 ^ 16)
    (r : (machine N).Reachable (paused pc k k)) : (machine N).Reachable (paused pc m m) := by
  induction m, hk using Nat.le_induction
  case base         => exact r
  case succ m _ hr => exact run_cycle hp hi hm <| hr (Nat.le_of_succ_le hm)

-- The threads from 1 to `m` have taken the slots from 0 on and wait.
def queued (m : ℕ) (j : Fin N) : Pc :=
  if 1 ≤ j.val ∧ j.val ≤ m then .spin (.ofNat 16 ((j.val - 1) * padding)) else .idle

theorem queued_succ (hm : m + 1 < N) :
    update (queued m) ⟨m + 1, hm⟩ (.spin (.ofNat 16 (m * padding))) = queued (N := N) (m + 1) := by
  funext j
  by_cases hj : j = ⟨m + 1, hm⟩
  case pos => simp [hj, queued]
  case neg =>
    have hn : j.val ≠ m + 1 := fun h => hj (Fin.ext h)
    have hle : j.val ≤ m ↔ j.val ≤ m + 1 := by omega
    simp [hj, queued, hle]

theorem run_queue (hp : size N ≤ 2 ^ 16) (hm : m + 1 < N)
    (r : (machine N).Reachable (paused (queued m) m k)) :
    (machine N).Reachable (paused (queued (m + 1)) (m + 1) k) := by
  have hN : N ≤ size N := Nat.le_mul_of_pos_right N (by decide)
  have hv : index N (.ofNat 16 m) = .ofNat 16 (m * padding) := by
    rw [index, BitVec.toNat_ofNat, Nat.mod_eq_of_lt (a := m) (by omega),
      Nat.mod_eq_of_lt (by omega)]
  have r := run_call (i := ⟨m + 1, hm⟩) r (by simp [paused, queued])
  have r := run_addTail (i := ⟨m + 1, hm⟩) r (by simp)
  refine cast (congrArg _ ?_) r
  simp only [paused, State.goto, update_idem, hv, queued_succ, State.mk.injEq, true_and, and_true]
  exact (BitVec.ofNat_add ..).symm

theorem run_queues (hp : size N ≤ 2 ^ 16) (hm : m < N)
    (r : (machine N).Reachable (paused (queued 0) 0 k)) :
    (machine N).Reachable (paused (queued m) m k) := by
  induction m
  case zero      => exact r
  case succ m hr => exact run_queue hp hm <| hr (Nat.lt_of_succ_lt hm)

-- Thread 0 takes slot `N` while thread 1 still waits at the same flag, which is set.
theorem run_clash (hp : size N ≤ 2 ^ 16) (h : 1 < N) (hm : 0 < m)
    (r : (machine N).Reachable (paused (queued m) N N)) :
    ∃ s, (machine N).Reachable s ∧ ∃ i j, i ≠ j ∧ (s.pc i).Inside ∧ (s.pc j).Inside := by
  have hN : N ≤ size N := Nat.le_mul_of_pos_right N (by decide)
  have hl : N < 2 ^ 16 := by
    have : size N = N * 32 := rfl
    omega
  have hv : (index N (.ofNat 16 N)).toNat = 0 := by
    rw [toNat_index_ofNat hp (by omega) hl, Nat.mod_self, Nat.zero_mul]
  have ⟨i₀, h₀⟩ : ∃ i : Fin N, i.val = 0 := ⟨⟨0, by omega⟩, rfl⟩
  have ⟨i₁, h₁⟩ : ∃ i : Fin N, i.val = 1 := ⟨⟨1, h⟩, rfl⟩
  have hne : i₁ ≠ i₀ := by
    rw [Ne, Fin.ext_iff]
    omega
  have r := run_call (i := i₀) r (by simp [paused, queued, h₀])
  have r := run_addTail (i := i₀) r (update_self ..)
  have r := run_seen (i := i₀) r (update_self ..) (by simp [paused, hv])
  have r := run_seen (i := i₁) (v := 0) r (by simp [hne, paused, queued, h₁, hm.ne'])
    (by simp [paused])
  have r := run_reset (i := i₀) r ((update_of_ne hne.symm ..).trans (update_self ..))
  have r := run_reset (i := i₁) r ((update_of_ne hne ..).trans (update_self ..))
  exact ⟨_, r, i₀, i₁, hne.symm, by simp [hne.symm, Pc.Inside, Pc.stage],
    by simp [Pc.Inside, Pc.stage]⟩

theorem exists_clash (hp : size N ≤ 2 ^ 16) (hN : 0 < N) (hd : ¬N ∣ 2 ^ 16) :
    ∃ s, (machine N).Reachable s ∧ ∃ i j, i ≠ j ∧ (s.pc i).Inside ∧ (s.pc j).Inside := by
  let m := 2 ^ 16 % N
  have hm : 0 < m := Nat.pos_of_ne_zero fun h => hd (Nat.dvd_of_mod_eq_zero h)
  have hl : m < N := Nat.mod_lt _ hN
  have hle : N ≤ 2 ^ 16 := (Nat.le_mul_of_pos_right N (by decide)).trans hp
  have hq : (fun _ => .idle) = queued (N := N) 0 := by
    funext j
    simp [queued]
    omega
  have r : (machine N).Reachable (paused (fun _ => .idle) 0 0) := .init init_eq_paused.symm
  have r := run_cycles (i := ⟨0, hN⟩) (m := 2 ^ 16) hp rfl (Nat.zero_le _) le_rfl r
  have r : (machine N).Reachable (paused (queued 0) 0 (2 ^ 16)) := hq ▸ r
  have r := run_queues hp hl r
  have r : (machine N).Reachable (paused (queued m) m m) := by
    have hs : m % N = 2 ^ 16 % N := Nat.mod_mod ..
    simpa [paused, hs] using r
  have r := run_cycles (i := ⟨0, hN⟩) hp (by simp [queued]) hl.le hle r
  exact run_clash hp (by omega) hm r

theorem slots_divide (hN : 0 < N) (hp : size N ≤ 2 ^ 16) :
    ((∀ s, (machine N).Reachable s → ∀ i j, (s.pc i).Inside → (s.pc j).Inside → i = j) ↔
      N ∣ 2 ^ 16) ∧
    (N ∣ 2 ^ 16 → ∀ s l, ((machine N).logging event).Reachable (s, l) →
      FifoLock.entered l <+: FifoLock.enqueued l ∧ flags s + count s.pc Pc.Inside = 1) := by
  refine ⟨⟨?_, ?_⟩, ?_⟩
  · intro h
    by_contra hd
    have ⟨s, r, i, j, hn, hi, hj⟩ := exists_clash hp hN hd
    exact hn (h s r i j hi hj)
  · intro hd s r i j hi hj
    have ⟨_, r⟩ : ∃ l, ((machine N).logging event).Reachable (s, l) := r.exists_logging
    have ⟨_, _, _, ref⟩ := refines_of_reachable hp hd r
    exact ref.serves.unique hi hj
  · intro hd s l r
    have ⟨_, run, _, ref⟩ := refines_of_reachable hp hd r
    exact ⟨FifoLock.entered_enqueued run, ref.flags_add_inside hp hN⟩

-- The program has four slots. With three of them two threads can be inside.
theorem slots_divide_four :
    (∀ s, (machine 4).Reachable s → ∀ i j, (s.pc i).Inside → (s.pc j).Inside → i = j) ∧
    ¬∀ s, (machine 3).Reachable s → ∀ i j, (s.pc i).Inside → (s.pc j).Inside → i = j :=
  ⟨(slots_divide (by decide) (by decide)).left.mpr (by decide),
    fun h => absurd ((slots_divide (by decide) (by decide)).left.mp h) (by decide)⟩

end ArrayLock
