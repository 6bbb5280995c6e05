import Concurrencia.Futex.FairMutexBitset.Basic
import Concurrencia.FifoLock.Tickets
import Concurrencia.Threads.Basic
import Mathlib.Tactic.SplitIfs

open Function

namespace FairMutexBitset

section Mask

variable {v b : BitVec 32}

theorem mask_toNat : mask v.toNat = some ((1 : BitVec 32) <<< (v.toNat % 32)) := by
  have h : (v.toNat : ℤ).tmod 32 = (v.toNat % 32 : ℕ) := by
    rw [Int.tmod_eq_emod_of_nonneg (Int.natCast_nonneg _)]
    rfl
  rw [mask, h, CInt.bit_of_lt (Nat.mod_lt _ (by decide))]

theorem mask_toInt (h : Fits v) : mask v.toInt = mask v.toNat := by
  by_cases hl : v.toNat < 2 ^ 31
  case pos => rw [CInt.toInt_of_lt hl]
  case neg =>
    have hd : 32 ∣ v.toNat := h.resolve_left hl
    have hr : v.toInt.tmod 32 = (v.toNat : ℤ).tmod 32 := by
      rw [CInt.toInt_of_ge (Nat.le_of_not_lt hl), Int.tmod_eq_emod, Int.tmod_eq_emod]
      split_ifs <;> omega
    rw [mask, mask, hr]

theorem mask_undefined (h : ¬Fits v) : mask v.toInt = none := by
  have ⟨hl, hd⟩ := not_or.mp h
  have hr : v.toInt.tmod 32 < 0 := by
    rw [CInt.toInt_of_ge (Nat.le_of_not_lt hl), Int.tmod_eq_emod]
    have := v.isLt
    split_ifs <;> omega
  rw [mask, CInt.bit, if_neg fun h => absurd h.left (Int.not_le.mpr hr)]

theorem agree_iff : (∃ b, mask v.toInt = some b ∧ mask v.toNat = some b) ↔ Fits v := by
  constructor
  case mpr =>
    intro h
    exact ⟨_, (mask_toInt h).trans mask_toNat, mask_toNat⟩
  case mp =>
    intro ⟨b, h, _⟩
    by_contra hf
    rw [mask_undefined hf] at h
    cases h

-- A sleeper gets the wake with its own mask.
theorem woken_of_mask (h : mask v.toNat = some b) : (Pc.asleep v b).woken b = .loadTurn v := by
  have hb : b ≠ 0 := by
    rw [mask_toNat] at h
    obtain rfl := Option.some.inj h
    intro hz
    have hp := CInt.toNat_one_shiftLeft (Nat.mod_lt v.toNat (by decide : 0 < 32))
    rw [hz] at hp
    exact absurd hp (Nat.two_pow_pos _).ne
  rw [Pc.woken, BitVec.and_self, if_pos hb]

end Mask

section Step

open FifoLock (Event)

-- One constructor for each way through a statement, with the event it causes.
inductive Step {n : ℕ} (s : State n) : Option (Event (Fin n)) → State n → Prop
  | call : (s.pc i = .idle) → Step s none (s.goto i .fetchAdd)
  | fetchAdd : (s.pc i = .fetchAdd) →
    Step s (some (.enqueue i)) ({ s with number := s.number + 1 }.goto i (.loadTurn s.number))
  | enter : (s.pc i = .loadTurn s.turn) →
    Step s (some (.enter i)) (s.goto i (.storeCurrent s.turn))
  | early : (s.pc i = .loadTurn v) → (v ≠ s.turn) → Step s none (s.goto i (.wait v s.turn))
  | sleep : (s.pc i = .wait v s.turn) → (mask v.toNat = some b) →
    Step s none (s.goto i (.asleep v b))
  | retry : (s.pc i = .wait v t ∨ s.pc i = .asleep v b) → Step s none (s.goto i (.loadTurn v))
  | storeCurrent : (s.pc i = .storeCurrent v) →
    Step s none ({ s with current := v }.goto i .critical)
  | leave : (s.pc i = .critical) → Step s none (s.goto i .addFetch)
  | addFetch : (s.pc i = .addFetch) →
    Step s (some (.leave i)) ({ s with turn := s.turn + 1 }.goto i (.test (s.turn + 1).toInt))
  | rouse : (s.pc i = .test c) → (s.number ≥ .ofInt 32 c) → Step s none (s.goto i (.wake c))
  | done : (s.pc i = .test c) → (¬s.number ≥ .ofInt 32 c) → Step s none (s.goto i .idle)
  | wake : (s.pc i = .wake c) → (mask c = some b) →
    Step s none ({ s with pc := fun j => (s.pc j).woken b }.goto i .idle)

variable {n : ℕ} {s s' : State n} {i : Fin n} {l : Label n}

theorem Step.of_thread (h : threadStep s i = some s') : Step s (event s (.thread i)) s' := by
  cases hp : s.pc i <;> simp only [threadStep, event, hp] at h ⊢
  case loadTurn v =>
    split_ifs at h with hv
    all_goals cases h
    · rw [if_neg hv]
      exact .early hp hv
    · obtain rfl := not_not.mp hv
      rw [if_pos rfl]
      exact .enter hp
  case wait v t =>
    obtain ⟨b, hb, h⟩ := Option.map_eq_some_iff.mp h
    split_ifs at h with ht
    all_goals cases h
    · exact .sleep (ht ▸ hp) hb
    · exact .retry (b := b) (.inl hp)
  case test c =>
    split_ifs at h with hc
    all_goals cases h
    · exact .rouse hp hc
    · exact .done hp hc
  case wake c =>
    obtain ⟨b, hb, h⟩ := Option.map_eq_some_iff.mp h
    cases h
    exact .wake hp hb
  all_goals cases h
  case idle         => exact .call hp
  case fetchAdd     => exact .fetchAdd hp
  case storeCurrent => exact .storeCurrent hp
  case critical     => exact .leave hp
  case addFetch     => exact .addFetch hp

theorem Step.of_step (h : step s l = some s') : Step s (event s l) s' := by
  cases l <;> simp only [step] at h
  case thread => exact .of_thread h
  case spurious i =>
    cases hp : s.pc i <;> simp only [spuriousStep, hp] at h
    case wait =>
      cases h
      exact .retry (b := 0) (.inl hp)
    case asleep =>
      cases h
      exact .retry (t := 0) (.inr hp)
    all_goals cases h

end Step

open FifoLock (Event Stage Distinct Counted turns)

namespace Pc

def stage : Pc → Stage (BitVec 32)
  | idle | fetchAdd | test _ | wake _    => .outside
  | loadTurn v | wait v _ | asleep v _   => .waiting v
  | storeCurrent _ | critical | addFetch => .inside

theorem stage_woken {p : Pc} {b : BitVec 32} : (p.woken b).stage = p.stage := by
  cases p <;> simp only [woken]
  case asleep =>
    split_ifs
    all_goals rfl

-- What the local variables tell.
def Holds : Pc → Prop
  | wait v u                                      => v ≠ u
  | asleep v b                                    => mask v.toNat = some b
  | idle | fetchAdd | loadTurn _ | storeCurrent _ => True
  | critical | addFetch | test _ | wake _         => True

theorem holds_woken {p : Pc} {b : BitVec 32} (h : p.Holds) : (p.woken b).Holds := by
  cases p <;> simp only [woken]
  case asleep =>
    split_ifs
    · trivial
    · exact h
  all_goals exact h

end Pc

variable {n : ℕ} {s s' : State n} {i j : Fin n} {p : Pc} {v u b : BitVec 32}
variable {t : FifoLock.State (Fin n)} {l : List (Event (Fin n))} {e : Option (Event (Fin n))}

structure Refines (s : State n) (l : List (Event (Fin n))) (t : FifoLock.State (Fin n)) : Prop where
  counted : Counted (Pc.stage ∘ s.pc) s.turn s.number t
  holds   : ∀ i, (s.pc i).Holds
  turn    : s.turn.toNat = (FifoLock.left l).length

namespace Refines

theorem init : Refines (init n) [] (FifoLock.init (Fin n)) where
  counted := .init
  holds _ := trivial
  turn    := rfl

variable (ref : Refines s l t)
include ref

theorem waits (hi : s.pc i = .wait v u) : v ≠ u := by
  simpa [hi, Pc.Holds] using ref.holds i

theorem sleeps (hi : s.pc i = .asleep v b) : mask v.toNat = some b := by
  simpa [hi, Pc.Holds] using ref.holds i

theorem holds_update (hp : p.Holds) : ∀ j, (update s.pc i p j).Holds :=
  Threads.forall_update (P := Pc.Holds) hp fun j _ => ref.holds j

-- The ticket of the next call has not been served yet.
theorem turn_le_number (hq : (FifoLock.left l).length + t.queue.length < 2 ^ 32) :
    s.turn ≤ s.number := by
  rw [BitVec.le_def, ref.counted.number, FifoLock.toNat_turns, ref.turn, Nat.mod_eq_of_lt hq]
  exact Nat.le_add_right ..

theorem goto (hs : p.stage = (s.pc i).stage) (hp : p.Holds) : Refines (s.goto i p) l t where
  counted := ref.counted.keep hs
  holds   := ref.holds_update hp
  turn    := ref.turn

theorem woken : Refines { s with pc := fun j => (s.pc j).woken b } l t where
  holds i := Pc.holds_woken (ref.holds i)
  turn    := ref.turn
  counted := by
    have hc : (Pc.stage ∘ fun j => (s.pc j).woken b) = Pc.stage ∘ s.pc :=
      funext fun _ => Pc.stage_woken
    exact hc ▸ ref.counted

theorem storeCurrent (hi : s.pc i = .storeCurrent v) :
    Refines ({ s with current := v }.goto i .critical) l t where
  counted := ref.counted.keep (by simp [hi, Pc.stage])
  holds   := ref.holds_update trivial
  turn    := ref.turn

theorem fetchAdd (hi : s.pc i = .fetchAdd) :
    ∃ t', FifoLock.Step t (.enqueue i) t' ∧
      Refines ({ s with number := s.number + 1 }.goto i (.loadTurn s.number)) (l ++ [.enqueue i])
        t' := by
  have ⟨ht, hc⟩ := ref.counted.draw (i := i) (p := .loadTurn s.number) (by simp [hi, Pc.stage]) rfl
  have hl : FifoLock.left (l ++ [.enqueue i]) = FifoLock.left l := by
    simp [FifoLock.left_append, Event.left]
  exact ⟨_, ht, hc, ref.holds_update trivial, hl ▸ ref.turn⟩

theorem enter (hq : t.queue.length < 2 ^ 32) (hi : s.pc i = .loadTurn s.turn) :
    ∃ t', FifoLock.Step t (.enter i) t' ∧
      Refines (s.goto i (.storeCurrent s.turn)) (l ++ [.enter i]) t' := by
  have hd : Distinct (turns s.turn) t := FifoLock.distinct_turns hq.le
  have ⟨ht, hc⟩ := ref.counted.enter (i := i) (p := .storeCurrent s.turn) hd
    (by simp [hi, Pc.stage]) rfl
  have hl : FifoLock.left (l ++ [.enter i]) = FifoLock.left l := by
    simp [FifoLock.left_append, Event.left]
  exact ⟨_, ht, hc, ref.holds_update trivial, hl ▸ ref.turn⟩

theorem addFetch (hq : (FifoLock.left l).length + t.queue.length < 2 ^ 32)
    (hi : s.pc i = .addFetch) :
    ∃ t', FifoLock.Step t (.leave i) t' ∧
      Refines ({ s with turn := s.turn + 1 }.goto i (.test (s.turn + 1).toInt))
        (l ++ [.leave i]) t' := by
  have ⟨q, hc, ht, hr⟩ := ref.counted.leave (i := i) (p := .test (s.turn + 1).toInt)
    (by simp [hi, Pc.stage]) rfl
  have hs : (s.turn + 1).toNat = s.turn.toNat + 1 := by
    apply BitVec.toNat_add_of_lt
    rw [hc, List.length_cons] at hq
    have ht := ref.turn
    change s.turn.toNat + 1 < 2 ^ 32
    omega
  refine ⟨_, ht, hr, ref.holds_update trivial, ?_⟩
  rw [State.goto_turn, hs, ref.turn]
  simp [FifoLock.left_append, Event.left]

-- Each step of the mutex is one of the specification, or none.
theorem step (hq : (FifoLock.left l).length + t.queue.length < 2 ^ 32) (h : Step s e s') :
    ∃ t', (FifoLock.machine (Fin n)).Run t e.toList t' ∧ Refines s' (l ++ e.toList) t' := by
  cases h <;> simp only [Option.toList, List.append_nil]
  case fetchAdd hp     => exact FifoLock.run_of_step <| ref.fetchAdd hp
  case addFetch hp     => exact FifoLock.run_of_step <| ref.addFetch hq hp
  case storeCurrent hp => exact ⟨t, .refl, ref.storeCurrent hp⟩
  case enter hp        =>
    exact FifoLock.run_of_step <| ref.enter ((Nat.le_add_left ..).trans_lt hq) hp
  case early hp hv     => exact ⟨t, .refl, ref.goto (by simp [hp, Pc.stage]) hv⟩
  case sleep hp hb     => exact ⟨t, .refl, ref.goto (by simp [hp, Pc.stage]) hb⟩
  case retry hp        =>
    refine ⟨t, .refl, ref.goto ?_ trivial⟩
    cases hp <;> simp [*, Pc.stage]
  case wake hp _       =>
    exact ⟨t, .refl, ref.woken.goto (by simp [hp, Pc.woken, Pc.stage]) trivial⟩
  case call hp | leave hp | rouse hp _ | done hp _ =>
    exact ⟨t, .refl, ref.goto (by simp [hp, Pc.stage]) trivial⟩

end Refines

-- Before the tickets wrap.
theorem refines_of_reachable (r : ((machine n).logging event).Reachable (s, l))
    (hl : (FifoLock.enqueued l).length < 2 ^ 32) :
    ∃ t, (FifoLock.machine (Fin n)).Run (FifoLock.init (Fin n)) l t ∧ Refines s l t := by
  apply FifoLock.simulation_below r hl
  case start =>
    intro s hs
    obtain rfl : s = FairMutexBitset.init n := hs
    exact .init
  case step => exact fun s a s' l t ref hq h => ref.step hq (.of_step h)

end FairMutexBitset
