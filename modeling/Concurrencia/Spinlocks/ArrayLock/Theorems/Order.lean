import Concurrencia.FifoLock.Tickets
import Concurrencia.LockClient.Basic
import Concurrencia.Spinlocks.ArrayLock.Basic
import Concurrencia.Threads.Count
import Mathlib.Tactic.SplitIfs

open Function Threads

namespace ArrayLock

open FifoLock (Event Stage Serves Distinct turns)

-- One constructor for each way through a statement, with the event it causes.
inductive Step {N : ℕ} (s : State N) : Option (Event (Fin N)) → State N → Prop
  | call : (s.pc i = .idle) → Step s none (s.goto i .addTail)
  | addTail : (s.pc i = .addTail) →
    Step s (some (.enqueue i)) ({ s with tail := s.tail + 1 }.goto i (.spin (index N s.tail)))
  | spin : (s.pc i = .spin v) → Step s none (s.goto i (.spin v))
  | seen : (s.pc i = .spin v) → (s.flag v.toNat = true) → Step s none (s.goto i (.reset v))
  | reset : (s.pc i = .reset v) →
    Step s (some (.enter i)) ({ s with flag := update s.flag v.toNat false }.goto i (.critical v))
  | leave : (s.pc i = .critical v) → Step s none (s.goto i (.store v))
  | store : (s.pc i = .store v) →
    Step s (some (.leave i))
      ({ s with flag := update s.flag ((v.toNat + padding) % size N) true }.goto i .idle)

namespace Pc

def stage : Pc → Stage (BitVec 16)
  | idle | addTail       => .outside
  | spin v | reset v     => .waiting v
  | critical _ | store _ => .inside

-- Between the reset of the own flag and the store of `unlock`.
def Inside (p : Pc) : Prop :=
  p.stage = .inside

instance : DecidablePred Inside
  | idle | addTail | spin _ | reset _ => .isFalse (by simp [Inside, stage])
  | critical _ | store _              => .isTrue rfl

end Pc

variable {N : ℕ} {s s' : State N} {i j : Fin N} {p : Pc} {v b : BitVec 16} {k : ℕ}
variable {t : FifoLock.State (Fin N)} {l : List (Event (Fin N))}

theorem Step.of_step (h : step s i = some s') : Step s (event s i) s' := by
  cases hp : s.pc i <;> simp only [step, event, hp] at h ⊢
  case spin v =>
    split_ifs at h with hf
    all_goals cases h
    · exact .seen hp hf
    · exact .spin hp
  all_goals cases h
  case idle     => exact .call hp
  case addTail  => exact .addTail hp
  case reset    => exact .reset hp
  case critical => exact .leave hp
  case store    => exact .store hp

section Index

theorem toNat_index (hp : size N ≤ 2 ^ 16) (hN : 0 < N) :
    (index N b).toNat = b.toNat % N * padding := by
  have hl : b.toNat % N < N := Nat.mod_lt _ hN
  have : b.toNat % N * padding < size N := Nat.mul_lt_mul_of_pos_right hl (by decide)
  rw [index, BitVec.toNat_ofNat, Nat.mod_eq_of_lt (this.trans_le hp)]

theorem index_lt (hp : size N ≤ 2 ^ 16) (hN : 0 < N) : (index N b).toNat < size N := by
  rw [toNat_index hp hN]
  exact Nat.mul_lt_mul_of_pos_right (Nat.mod_lt _ hN) (by decide)

theorem turns_mod (hd : N ∣ 2 ^ 16) : (turns b k).toNat % N = (b.toNat + k) % N := by
  rw [turns, BitVec.toNat_add, BitVec.toNat_ofNat, Nat.mod_mod_of_dvd _ hd, Nat.add_mod,
    Nat.mod_mod_of_dvd _ hd, ← Nat.add_mod]

variable (hp : size N ≤ 2 ^ 16) (hd : N ∣ 2 ^ 16)
include hp hd

-- The flag which is set by `unlock` is the one of the next slot.
theorem index_succ (hN : 0 < N) :
    ((index N b).toNat + padding) % size N = (index N (b + 1)).toNat := by
  have hb : (b + 1).toNat % N = (b.toNat + 1) % N := turns_mod hd (k := 1)
  rw [toNat_index hp hN, toNat_index hp hN, hb, size, ← Nat.succ_mul, Nat.mul_mod_mul_right]
  simp [Nat.add_mod]

theorem distinct (hl : t.queue.length ≤ N) : Distinct (fun k => index N (turns b k)) t := by
  intro k hk he
  have hN : 0 < N := by omega
  have he := congrArg BitVec.toNat he
  rw [toNat_index hp hN, toNat_index hp hN, turns_mod hd, turns_mod hd] at he
  have he := Nat.eq_of_mul_eq_mul_right (by decide) he
  have hm := Nat.sub_mod_eq_zero_of_mod_eq he
  simpa [Nat.mod_eq_of_lt (hk.trans_le hl)] using hm

end Index

-- A thread which has seen its flag is at the slot of the head.
def Own (v : BitVec 16) : Pc → Prop
  | .idle | .addTail | .spin _           => True
  | .reset w | .critical w | .store w => w = v

structure Refines (b : BitVec 16) (s : State N) (t : FifoLock.State (Fin N)) : Prop where
  serves : Serves (Pc.stage ∘ s.pc) (fun k => index N (turns b k)) t
  tail   : s.tail = turns b t.queue.length
  flag   : ∀ x, s.flag x = true ↔ t.inside = false ∧ x = (index N b).toNat
  own    : ∀ i, Own (index N b) (s.pc i)

namespace Refines

theorem init : Refines 0 (init N) (FifoLock.init (Fin N)) where
  serves := .init
  tail   := rfl
  own _  := trivial
  flag x := by simp [ArrayLock.init, FifoLock.init, index]

theorem own_update (hf : Own v p) (hn : ∀ j ≠ i, Own v (s.pc j)) (j : Fin N) :
    Own v (update s.pc i p j) := by
  by_cases hj : j = i
  case pos => simpa [hj] using hf
  case neg => simpa [hj] using hn j hj

variable (ref : Refines b s t)
include ref

theorem length_le : t.queue.length ≤ N := by
  simpa using ref.serves.length_le

theorem stay (hs : p.stage = (s.pc i).stage) (ho : Own (index N b) p) :
    Refines b (s.goto i p) t where
  serves := ref.serves.keep hs
  tail   := ref.tail
  flag   := ref.flag
  own    := own_update ho fun j _ => ref.own j

variable (hp : size N ≤ 2 ^ 16) (hd : N ∣ 2 ^ 16)
include hp hd

theorem reset (hi : s.pc i = .reset v) :
    ∃ t', FifoLock.Step t (.enter i) t' ∧
      Refines b ({ s with flag := update s.flag v.toNat false }.goto i (.critical v)) t' := by
  have hv : v = index N b := by simpa [Own, hi] using ref.own i
  have hw : (Pc.stage ∘ s.pc) i = .waiting (index N (turns b 0)) := by
    simp [hi, Pc.stage, FifoLock.turns_zero, hv]
  have ⟨ht, hs⟩ := ref.serves.enter (distinct hp hd ref.length_le) hw
  refine ⟨_, ht, ?_⟩
  exact {
    serves := by
      rw [State.goto_pc, comp_update]
      exact hs
    tail   := ref.tail
    own    := own_update hv fun j _ => ref.own j
    flag x := by
      by_cases hx : x = v.toNat
      case pos => simp [hx]
      case neg => simp [hx, ref.flag, ← hv]
  }

theorem store (hi : s.pc i = .store v) :
    ∃ t', FifoLock.Step t (.leave i) t' ∧
      Refines (b + 1) ({ s with
        flag := update s.flag ((v.toNat + padding) % size N) true }.goto i .idle) t' := by
  have hv : v = index N b := by simpa [Own, hi] using ref.own i
  have hin : (Pc.stage ∘ s.pc) i = .inside := by simp [hi, Pc.stage]
  have ⟨q, hq, ht, hs⟩ := ref.serves.leave hin
  have hN : 0 < N := Fin.pos i
  refine ⟨_, ht, ?_⟩
  exact {
    serves := by
      rw [State.goto_pc, comp_update, ← FifoLock.turns_succ]
      exact hs
    tail   := by
      rw [State.goto_tail, ref.tail, ← FifoLock.turns_succ, hq]
      rfl
    own    := by
      refine own_update trivial fun j hj => ?_
      have ho := ref.own j
      cases hpj : s.pc j <;> rw [hpj] at ho
      case idle | addTail | spin => trivial
      case critical | store =>
        have hjn : (Pc.stage ∘ s.pc) j = .inside := by simp [hpj, Pc.stage]
        exact absurd (ref.serves.unique hjn hin) hj
      case reset w =>
        have hw : (Pc.stage ∘ s.pc) j = .waiting (index N (turns b 0)) := by
          simp [hpj, Pc.stage, FifoLock.turns_zero, show w = _ from ho]
        have hf := (ref.serves.head_of_turn (distinct hp hd ref.length_le) hw).right
        exact absurd hin (ref.serves.not_inside hf i)
    flag x := by
      have hf : s.flag x = false := by
        simp [← Bool.not_eq_true, ref.flag, (ref.serves.inside hin).right]
      rw [State.goto_flag, hv, index_succ hp hd hN]
      generalize (index N (b + 1)).toNat = y
      by_cases hx : x = y
      case pos => simp [hx]
      case neg => simp [hx, hf]
  }

-- Each step of the lock is one of the specification, or none.
theorem step {e : Option (Event (Fin N))} (h : Step s e s') :
    ∃ b t', (FifoLock.machine (Fin N)).Run t e.toList t' ∧ Refines b s' t' := by
  have run {e : Event (Fin N)} {b : BitVec 16}
      (h : ∃ t', FifoLock.Step t e t' ∧ Refines b s' t') :
      ∃ b t', (FifoLock.machine (Fin N)).Run t [e] t' ∧ Refines b s' t' :=
    have ⟨t', ht, hr⟩ := h
    ⟨b, t', .single (FifoLock.step_iff.mpr ht), hr⟩
  have own {i : Fin N} {p : Pc} (hp : s.pc i = p) : Own (index N b) p := hp ▸ ref.own i
  cases h <;> simp only [Option.toList]
  case call hi | spin hi | leave hi =>
    have ho := own hi
    exact ⟨b, t, .refl, ref.stay (by simp [hi, Pc.stage]) ho⟩
  case seen hi hf =>
    have ho := BitVec.eq_of_toNat_eq ((ref.flag _).mp hf).right
    exact ⟨b, t, .refl, ref.stay (by simp [hi, Pc.stage]) ho⟩
  case reset hi => exact run <| ref.reset hp hd hi
  case store hi => exact run <| ref.store hp hd hi
  case addTail i hi =>
    have ⟨ht, hs⟩ := ref.serves.draw (i := i) (by simp [hi, Pc.stage])
    refine run (b := b) ⟨_, ht, ?_⟩
    exact {
      serves := by
        rw [State.goto_pc, comp_update, Pc.stage, ref.tail]
        exact hs
      tail   := by
        simp only [State.goto_tail, List.length_append, List.length_singleton]
        rw [FifoLock.turns_add_one, ref.tail]
      flag   := ref.flag
      own    := own_update trivial fun j _ => ref.own j
    }

end Refines

theorem refines_of_reachable (hp : size N ≤ 2 ^ 16) (hd : N ∣ 2 ^ 16)
    (r : ((machine N).logging event).Reachable (s, l)) :
    ∃ t, (FifoLock.machine (Fin N)).Run (FifoLock.init (Fin N)) l t ∧ ∃ b, Refines b s t := by
  apply r.simulation (R := fun s _ t => ∃ b, Refines b s t)
  case init =>
    intro s hs
    exact ⟨0, hs ▸ .init⟩
  case step =>
    intro s i s' l t _ ⟨_, ref⟩ h
    have ⟨b, t', run, ref⟩ := ref.step hp hd (.of_step h)
    exact ⟨t', run, b, ref⟩

-- The number of the flags which are set.
def flags (s : State N) : ℕ :=
  ((Finset.range (size N)).filter fun x => s.flag x = true).card

theorem Refines.flags_add_inside (ref : Refines b s t) (hp : size N ≤ 2 ^ 16) (hN : 0 < N) :
    flags s + count s.pc Pc.Inside = 1 := by
  cases ht : t.inside
  case false =>
    have hf : (Finset.range (size N)).filter (fun x => s.flag x = true) = {(index N b).toNat} := by
      ext x
      simp only [Finset.mem_filter, Finset.mem_range, Finset.mem_singleton, ref.flag, ht, true_and,
        and_iff_right_iff_imp]
      intro hx
      exact hx ▸ index_lt hp hN
    rw [flags, hf, count_eq_zero (ref.serves.not_inside ht), Finset.card_singleton]
  case true =>
    have hf : (Finset.range (size N)).filter (fun x => s.flag x = true) = ∅ := by
      simp [ref.flag, ht]
    have ⟨i, hi⟩ := ref.serves.exists_inside ht
    rw [flags, hf, count_eq_one (f := s.pc) hi fun j hj => ref.serves.unique hj hi,
      Finset.card_empty]

section Client

open LockClient (Lock Live)

def Pc.phase : Pc → LockClient.Stage
  | idle                       => .idle
  | addTail | spin _ | reset _ => .locking
  | critical _                 => .inside
  | store _                    => .unlocking

def phase (s : State N) (i : Fin N) : LockClient.Stage :=
  (s.pc i).phase

theorem Step.moves {e : Option (Event (Fin N))} (h : Step s e s') :
    ∃ i p, s'.pc = update s.pc i p ∧ LockClient.Stage.Next (s.pc i).phase p.phase := by
  cases h
  case call hi              => exact ⟨_, _, rfl, hi ▸ .lock⟩
  case reset hi             => exact ⟨_, _, rfl, hi ▸ .enter⟩
  case leave hi             => exact ⟨_, _, rfl, hi ▸ .unlock⟩
  case store hi             => exact ⟨_, _, rfl, hi ▸ .leave⟩
  case addTail hi | spin hi => exact ⟨_, _, rfl, hi ▸ .stay⟩
  case seen hi _            => exact ⟨_, _, rfl, hi ▸ .stay⟩

variable (hp : size N ≤ 2 ^ 16) (hd : N ∣ 2 ^ 16)
include hp hd

theorem exists_refines (r : (machine N).Reachable s) : ∃ b t, Refines b s t :=
  have ⟨_, r⟩ := r.exists_logging
  have ⟨t, _, b, ref⟩ := refines_of_reachable hp hd r
  ⟨b, t, ref⟩

theorem lock : Lock (machine N) phase := by
  apply Lock.of_moves
  case init =>
    rintro s i rfl
    rfl
  case step => exact fun hs => (Step.of_step hs).moves
  case unique =>
    intro s i j r hi hj
    have ⟨_, _, ref⟩ := exists_refines hp hd r
    have inside {p : Pc} (h : p.phase = .inside) : p.stage = .inside := by
      cases p <;> cases h
      rfl
    exact ref.serves.unique (inside hi) (inside hj)

omit hp hd

-- The statements a thread has before it in its call, if it need not wait.
def Pc.rank : Pc → ℕ
  | addTail => 2
  | spin _  => 1
  | _       => 0

theorem moves (h : step s i = some s') (hp : s'.pc = update s.pc i p) :
    LockClient.Moves (machine N) State.pc s i p :=
  ⟨i, s', h, hp⟩

include hp hd

theorem live : Live (machine N) phase := by
  apply Live.of_moves Pc.rank
  case call =>
    intro s i _ hi
    cases h : s.pc i <;> simp only [h, Pc.phase, reduceCtorEq, or_self, or_true, true_or] at hi
    case idle     => exact ⟨.addTail, moves (by rw [step, h]) rfl, by simp [Pc.phase]⟩
    case critical => exact ⟨.store _, moves (by rw [step, h]) rfl, by simp [Pc.phase]⟩
  case work =>
    intro s r hn ⟨i, hi⟩
    by_cases hw : ∃ j, s.pc j ≠ .idle ∧ ∀ v, s.pc j ≠ .spin v
    case pos =>
      obtain ⟨j, hj, hs⟩ := hw
      have hn := hn j
      cases h : s.pc j
      case idle     => exact absurd h hj
      case spin v   => exact absurd h (hs v)
      case critical => simp [h, Pc.phase] at hn
      case addTail =>
        exact ⟨j, .spin _, moves (by rw [step, h]) rfl, by simp [h, Pc.phase, Pc.rank]⟩
      case reset v =>
        exact ⟨j, .critical v, moves (by rw [step, h]) rfl, by simp [h, Pc.phase]⟩
      case store v => exact ⟨j, .idle, moves (by rw [step, h]) rfl, by simp [h, Pc.phase]⟩
    case neg =>
      -- All of them spin, and the flag of the head is set.
      have hs (j : Fin N) (hj : s.pc j ≠ .idle) : ∃ v, s.pc j = .spin v := by
        by_contra h
        exact hw ⟨j, hj, not_exists.mp h⟩
      have ⟨b, t, ref⟩ := exists_refines hp hd r
      have hin (j : Fin N) : (s.pc j).stage ≠ .inside := by
        intro h
        have ⟨v, hv⟩ := hs j fun hj => by simp [hj, Pc.stage] at h
        simp [hv, Pc.stage] at h
      obtain ⟨v, hv⟩ := hs i fun h => hi (by rw [h]; rfl)
      have hv : (s.pc i).stage = .waiting v := by rw [hv]; rfl
      have hd := distinct hp hd (b := b) ref.length_le
      have ⟨j, hj, _⟩ := ref.serves.exists_unique_turn hd hin hv
      have ht : t.inside = false := (ref.serves.head_of_turn hd hj).right
      rw [FifoLock.turns_zero] at hj
      have hj : s.pc j = .spin (index N b) := by
        cases h : s.pc j <;> simp only [Function.comp_apply, h, Pc.stage, reduceCtorEq] at hj
        case spin w => rw [FifoLock.Stage.waiting.inj hj]
        case reset w =>
          have ⟨w, hw⟩ := hs j (by simp [h])
          simp [h] at hw
      have hf : s.flag (index N b).toNat = true := (ref.flag _).mpr ⟨ht, rfl⟩
      have he : step s j = some (s.goto j (.reset (index N b))) := by simp [step, hj, hf]
      exact ⟨j, .reset _, moves he rfl, by simp [hj, Pc.phase, Pc.rank]⟩

end Client

end ArrayLock
