import Concurrencia.Spinlocks.RwLock.Basic
import Concurrencia.PackedWord.Basic
import Concurrencia.Threads.Basic
import Concurrencia.Threads.Count
import Mathlib.Tactic.SplitIfs

open Function Threads

namespace RwLock

section Step

-- One constructor for each way through a statement.
inductive Step {n : ℕ} (s : State n) : State n → Prop
  | callReader : (s.pc i = .idle) → Step s (s.goto i .readerSpin)
  | callWriter : (s.pc i = .idle) → Step s (s.goto i .writerSpin)
  | readerSpin : (s.pc i = .readerSpin) → Step s (s.goto i .readerSpin)
  | readerFree : (s.pc i = .readerSpin) → Step s (s.goto i .readerLoad)
  | readerLoad : (s.pc i = .readerLoad) →
    Step s (s.goto i (.readerExchange (s.rwLock &&& 0x7fffffff)))
  | readerEnter : (s.pc i = .readerExchange s.rwLock) →
    Step s ({ s with rwLock := s.rwLock + 1 }.goto i .reading)
  | readerRetry : (s.pc i = .readerExchange v) → Step s (s.goto i .readerSpin)
  | readerLeave : (s.pc i = .reading) → Step s (s.goto i .fetchAdd)
  | fetchAdd : (s.pc i = .fetchAdd) → Step s ({ s with rwLock := s.rwLock + -1 }.goto i .idle)
  | writerSpin : (s.pc i = .writerSpin) → Step s (s.goto i .writerSpin)
  | writerFree : (s.pc i = .writerSpin) → Step s (s.goto i .writerLoad)
  | writerLoad : (s.pc i = .writerLoad) →
    Step s (s.goto i (.writerExchange (s.rwLock &&& 0x7fffffff)))
  | writerEnter : (s.pc i = .writerExchange s.rwLock) →
    Step s ({ s with rwLock := s.rwLock ||| 0x80000000 }.goto i .drain)
  | writerRetry : (s.pc i = .writerExchange v) → Step s (s.goto i .writerSpin)
  | drain : (s.pc i = .drain) → Step s (s.goto i .drain)
  | drained : (s.pc i = .drain) → (s.rwLock &&& 0x7fffffff = 0) → Step s (s.goto i .writing)
  | writerLeave : (s.pc i = .writing) → Step s (s.goto i .store)
  | store : (s.pc i = .store) → Step s ({ s with rwLock := 0 }.goto i .idle)

variable {n : ℕ} {s s' : State n} {i : Fin n} {l : Label n}

theorem Step.of_thread (h : threadStep s i = some s') : Step s s' := by
  cases hp : s.pc i <;> simp only [threadStep, spin, compareExchange, hp] at h
  case readerSpin =>
    split_ifs at h
    all_goals cases h
    · exact .readerSpin hp
    · exact .readerFree hp
  case writerSpin =>
    split_ifs at h
    all_goals cases h
    · exact .writerSpin hp
    · exact .writerFree hp
  case readerExchange old =>
    split_ifs at h with hv
    all_goals cases h
    · subst hv
      exact .readerEnter hp
    · exact .readerRetry hp
  case writerExchange old =>
    split_ifs at h with hv
    all_goals cases h
    · subst hv
      exact .writerEnter hp
    · exact .writerRetry hp
  case drain =>
    split_ifs at h with hd
    all_goals cases h
    · exact .drain hp
    · exact .drained hp (not_not.mp hd)
  all_goals cases h
  case readerLoad => exact .readerLoad hp
  case reading    => exact .readerLeave hp
  case fetchAdd   => exact .fetchAdd hp
  case writerLoad => exact .writerLoad hp
  case writing    => exact .writerLeave hp
  case store      => exact .store hp

theorem Step.of_step (h : step s l = some s') : Step s s' := by
  cases l <;> simp only [step, Option.ite_none_right_eq_some, Option.some.injEq] at h
  case thread     => exact .of_thread h
  case readerLock => exact h.right ▸ .callReader h.left
  case writerLock => exact h.right ▸ .callWriter h.left

end Step

namespace Pc

-- Between the exchange of `reader_lock` and the addition of `reader_unlock`.
def Reads (p : Pc) : Prop :=
  p = reading ∨ p = fetchAdd

instance : DecidablePred Reads :=
  fun _ => inferInstanceAs <| Decidable (_ ∨ _)

-- All readers have finished.
def Writes (p : Pc) : Prop :=
  p = writing ∨ p = store

instance : DecidablePred Writes :=
  fun _ => inferInstanceAs <| Decidable (_ ∨ _)

-- Between the exchange of `writer_lock` and the store of `writer_unlock`.
def Owns (p : Pc) : Prop :=
  p = drain ∨ p.Writes

instance : DecidablePred Owns :=
  fun _ => inferInstanceAs <| Decidable (_ ∨ _)

-- The value of `old` is a number of readers without the thread itself.
def Fits (n : ℕ) : Pc → Prop
  | readerExchange old | writerExchange old                     => old.toNat < n
  | idle | readerSpin | readerLoad | reading | fetchAdd         => True
  | writerSpin | writerLoad | drain | writing | store           => True

end Pc

variable {n : ℕ} {s s' : State n} {i j : Fin n} {p : Pc} {v : BitVec 32}

structure Inv (s : State n) : Prop where
  word   : s.rwLock.toNat = count s.pc Pc.Reads + 2 ^ 31 * count s.pc Pc.Owns
  one    : count s.pc Pc.Owns ≤ 1
  writes : ∀ {i}, (s.pc i).Writes → count s.pc Pc.Reads = 0
  fits   : ∀ i, (s.pc i).Fits n

namespace Inv

theorem init : Inv (init n) where
  word     := by simp [RwLock.init, count_eq_zero, Pc.Reads, Pc.Owns, Pc.Writes]
  one      := by simp [RwLock.init, count_eq_zero, Pc.Owns, Pc.Writes]
  writes h := by simp [RwLock.init, Pc.Writes] at h
  fits _   := trivial

theorem not_writes (h : count s.pc Pc.Owns = 0) (j : Fin n) : ¬(s.pc j).Writes :=
  fun hj => (count_pos (f := s.pc) (P := Pc.Owns) (i := j) (.inr hj)).ne' h

theorem reads_lt (hn : n < 2 ^ 31) : count s.pc Pc.Reads < 2 ^ 31 := by
  have := count_le_card (f := s.pc) (P := Pc.Reads)
  rw [Fintype.card_fin] at this
  omega

variable (inv : Inv s)
include inv

-- The step of a thread which stays in each of the counts it is in.
theorem goto
    (hr : p.Reads ↔ (s.pc i).Reads) (ho : p.Owns ↔ (s.pc i).Owns)
    (hw : p.Writes → count s.pc Pc.Reads = 0) (hf : p.Fits n) : Inv (s.goto i p) where
  word := by
    rw [State.goto_pc, count_keep hr, count_keep ho]
    exact inv.word
  one := by
    rw [State.goto_pc, count_keep ho]
    exact inv.one
  writes {j} h := by
    rw [State.goto_pc, count_keep hr]
    by_cases hj : j = i
    case pos => exact hw (by simpa [hj] using h)
    case neg => exact inv.writes (i := j) (by simpa [hj] using h)
  fits := forall_update hf fun j _ => inv.fits j

theorem fits_of (h : s.pc i = p) : p.Fits n :=
  h ▸ inv.fits i

theorem writes_of (h : s.pc i = p) (hp : p.Writes) : count s.pc Pc.Reads = 0 :=
  inv.writes (i := i) (h ▸ hp)

-- A word which fits has no flag.
theorem not_owned (hn : n < 2 ^ 31) (h : s.rwLock.toNat < n) : count s.pc Pc.Owns = 0 := by
  have := inv.word
  omega

theorem readers (hn : n < 2 ^ 31) : (s.rwLock &&& 0x7fffffff).toNat = count s.pc Pc.Reads := by
  have := PackedWord.toNat_and_counterMask (w := 31) (x := s.rwLock)
  have hw := inv.word
  have hr := reads_lt (s := s) hn
  calc
    _ = s.rwLock.toNat % 2 ^ 31 := this
    _ = _                       := by omega

theorem owned (hn : n < 2 ^ 31) : s.rwLock &&& 0x80000000 ≠ 0 ↔ ∃ i, (s.pc i).Owns := by
  have h : s.rwLock &&& 0x80000000 = 0 ↔ s.rwLock.toNat < 2 ^ 31 :=
    PackedWord.and_flagMask_eq_zero (w := 31)
  have hw := inv.word
  have hr := reads_lt (s := s) hn
  rw [ne_eq, h]
  constructor
  case mp  => exact fun _ => exists_of_count_pos (by omega)
  case mpr =>
    intro ⟨i, hi⟩
    have := count_pos (f := s.pc) (P := Pc.Owns) hi
    omega

theorem load (hn : n < 2 ^ 31) (hi : ¬(s.pc i).Reads) :
    (s.rwLock &&& 0x7fffffff).toNat < n := by
  have := count_lt_card (f := s.pc) (P := Pc.Reads) hi
  rwa [Fintype.card_fin, ← inv.readers hn] at this

theorem readerEnter (hn : n < 2 ^ 31) (hi : s.pc i = .readerExchange s.rwLock) :
    Inv ({ s with rwLock := s.rwLock + 1 }.goto i .reading) := by
  have hf : s.rwLock.toNat < n := inv.fits_of hi
  have hc := inv.not_owned hn hf
  have ho : count (update s.pc i .reading) Pc.Owns = count s.pc Pc.Owns :=
    count_keep (by simp [hi, Pc.Owns, Pc.Writes])
  have hr := count_enter (f := s.pc) (P := Pc.Reads) (i := i) (p := .reading)
    (by simp [hi, Pc.Reads]) (.inl rfl)
  have hw := inv.word
  exact {
    word := by
      have h1 : (1 : BitVec 32).toNat = 1 := rfl
      rw [State.goto_pc, hr, ho, State.goto_rwLock, BitVec.toNat_add, h1]
      omega
    one  := by simp [ho, hc]
    writes h := absurd h (not_update (by simp [Pc.Writes]) (fun j _ => not_writes hc j) _)
    fits := forall_update trivial fun j _ => inv.fits j
  }

theorem fetchAdd (hi : s.pc i = .fetchAdd) :
    Inv ({ s with rwLock := s.rwLock + -1 }.goto i .idle) := by
  have ho : count (update s.pc i .idle) Pc.Owns = count s.pc Pc.Owns :=
    count_keep (by simp [hi, Pc.Owns, Pc.Writes])
  have hr := count_leave (f := s.pc) (P := Pc.Reads) (i := i) (p := .idle)
    (by simp [hi, Pc.Reads]) (by simp [Pc.Reads])
  have hw := inv.word
  have hv := s.rwLock.isLt
  exact {
    word := by
      rw [State.goto_pc, ho, State.goto_rwLock, BitVec.toNat_add]
      simp only [BitVec.reduceNeg, BitVec.toNat_ofNat, Nat.reducePow, Nat.reduceMod]
      omega
    one  := by simpa [ho] using inv.one
    writes {j} h := by
      have hj := inv.writes <| (update_iff (P := Pc.Writes) (by simp [hi, Pc.Writes]) j).mp h
      rw [hj] at hr
      cases hr
    fits := forall_update trivial fun j _ => inv.fits j
  }

theorem writerEnter (hn : n < 2 ^ 31) (hi : s.pc i = .writerExchange s.rwLock) :
    Inv ({ s with rwLock := s.rwLock ||| 0x80000000 }.goto i .drain) := by
  have hf : s.rwLock.toNat < n := inv.fits_of hi
  have hc := inv.not_owned hn hf
  have ho := count_enter (f := s.pc) (P := Pc.Owns) (i := i) (p := .drain)
    (by simp [hi, Pc.Owns, Pc.Writes]) (.inl rfl)
  have hr : count (update s.pc i .drain) Pc.Reads = count s.pc Pc.Reads :=
    count_keep (by simp [hi, Pc.Reads])
  have hw := inv.word
  exact {
    word := by
      have : (s.rwLock ||| 0x80000000).toNat = s.rwLock.toNat + 2 ^ 31 :=
        PackedWord.toNat_or_flagMask (w := 31) (by omega)
      rw [State.goto_pc, hr, ho, State.goto_rwLock, this, hw]
      omega
    one  := by simp [ho, hc]
    writes h := absurd h (not_update (by simp [Pc.Writes]) (fun j _ => not_writes hc j) _)
    fits := forall_update trivial fun j _ => inv.fits j
  }

theorem store (hi : s.pc i = .store) : Inv ({ s with rwLock := 0 }.goto i .idle) := by
  have ho := count_leave (f := s.pc) (P := Pc.Owns) (i := i) (p := .idle)
    (by simp [hi, Pc.Owns, Pc.Writes]) (by simp [Pc.Owns, Pc.Writes])
  have hr : count (update s.pc i .idle) Pc.Reads = count s.pc Pc.Reads :=
    count_keep (by simp [hi, Pc.Reads])
  have h1 := inv.one
  have hz := inv.writes_of hi (.inr rfl)
  exact {
    word := by
      rw [State.goto_pc, hr, hz, State.goto_rwLock]
      simp only [BitVec.ofNat_eq_ofNat, BitVec.toNat_ofNat, Nat.zero_mod]
      omega
    one  := by
      dsimp only [State.goto_pc]
      omega
    writes _ := by rw [State.goto_pc, hr, hz]
    fits := forall_update trivial fun j _ => inv.fits j
  }

theorem step (hn : n < 2 ^ 31) (h : Step s s') : Inv s' := by
  cases h
  case readerEnter hp => exact inv.readerEnter hn hp
  case fetchAdd hp    => exact inv.fetchAdd hp
  case writerEnter hp => exact inv.writerEnter hn hp
  case store hp       => exact inv.store hp
  all_goals apply inv.goto
  all_goals try simp [*, Pc.Reads, Pc.Owns, Pc.Writes, Pc.Fits]
  case readerLoad.hf i hp => exact inv.load (i := i) hn (by simp [hp, Pc.Reads])
  case writerLoad.hf i hp => exact inv.load (i := i) hn (by simp [hp, Pc.Reads])
  case drained.hw hp hd =>
    rw [← inv.readers hn, hd]
    rfl
  case writerLeave.hw hp => exact inv.writes_of hp (.inl rfl)

end Inv

theorem reachable (hn : n < 2 ^ 31) (r : (machine n).Reachable s) : Inv s := by
  apply r.invariant
  case init =>
    intro s hs
    obtain rfl : s = RwLock.init n := hs
    exact .init
  case step => exact fun _ _ _ _ inv h => inv.step hn (.of_step h)

-- The counter is exact, the flag is set while a writer drains or writes, and no step of one of them
-- touches the other.
theorem counter_and_flag (hn : n < 2 ^ 31) (r : (machine n).Reachable s) :
    (s.rwLock &&& 0x7fffffff).toNat = count s.pc Pc.Reads ∧
    (s.rwLock &&& 0x80000000 ≠ 0 ↔ ∃ i, (s.pc i).Owns) ∧
    (∀ i old, s.pc i = .readerExchange old → old.toNat + 1 < 2 ^ 31) ∧
    (∀ i, s.pc i = .fetchAdd → 0 < (s.rwLock &&& 0x7fffffff).toNat) ∧
    (∀ i, s.pc i = .store → s.rwLock &&& 0x7fffffff = 0) ∧
    ∀ i j, (s.pc i).Writes → ¬(s.pc j).Reads ∧ ((s.pc j).Writes → i = j) := by
  have inv := reachable hn r
  have readers := inv.readers hn
  refine ⟨readers, inv.owned hn, ?_, ?_, ?_, ?_⟩
  · intro i old hi
    have hf : old.toNat < n := inv.fits_of hi
    exact Nat.lt_of_le_of_lt hf hn
  · intro i hi
    rw [readers]
    exact count_pos (i := i) (.inr hi)
  · intro i hi
    rw [← BitVec.toNat_inj, readers]
    exact inv.writes_of hi (.inr rfl)
  · intro i j hi
    constructor
    · intro hj
      exact (count_pos (f := s.pc) hj).ne' (inv.writes hi)
    · intro hj
      exact eq_of_count_le_one inv.one (.inr hi) (.inr hj)

-- Thread 1 drains thread 0, which reads.
theorem counter_and_flag_two :
    ∃ s : State 2, s.pc 0 = .reading ∧ s.pc 1 = .drain ∧ s.rwLock = 0x80000001 ∧
      (s.rwLock &&& 0x7fffffff).toNat = count s.pc Pc.Reads ∧
      (s.rwLock &&& 0x80000000 ≠ 0 ↔ ∃ i, (s.pc i).Owns) :=
  have ⟨s, h, h₀, h₁, hw⟩ : ∃ s, (machine 2).exec (init 2) (Machine.schedule [(1, .readerLock 0),
      (3, .thread 0), (1, .writerLock 1), (3, .thread 1)]) = some s ∧ s.pc 0 = .reading ∧
      s.pc 1 = .drain ∧ s.rwLock = 0x80000001 :=
    ⟨_, rfl, rfl, rfl, rfl⟩
  have ⟨hr, ho, _⟩ := counter_and_flag (by decide) (.of_exec rfl h)
  ⟨s, h₀, h₁, hw, hr, ho⟩

end RwLock
