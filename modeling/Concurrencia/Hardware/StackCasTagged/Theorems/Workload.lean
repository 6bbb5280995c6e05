import Concurrencia.Hardware.StackCasTagged.Theorems.Refinement
import Concurrencia.LifoStacks.Memory

open Function

namespace StackCasTagged

open LifoStacks (Event Conserved)

instance : Fintype Loc where
  elems      := {.stackHead, .freeNodes}
  complete k := by cases k <;> simp

section Workload

variable {n w : ℕ} {α : Type*} {s s' : State n w α} {t t' : LifoStacks.State (Fin n) Loc α}
variable {i : Fin n} {k : Loc} {p q : Pc w α} {e : Option (Event (Fin n) Loc α)}

namespace Pc

-- The thread has pushed its node on `stack_head`, and has popped none since.
def owed : Pc w α → Bool
  | popLoad k | popNext k _ _ | popCas k _ _ _                     => k = .stackHead
  | loop | malloc | pushLoad _ _ | pushNext _ _ _ | pushCas _ _ _ => false

-- The thread has found the list of the free nodes empty.
def allocates : Pc w α → Bool
  | malloc => true
  | loop | popLoad _ | popNext _ _ _ | popCas _ _ _ _ | pushLoad _ _ | pushNext _ _ _
  | pushCas _ _ _ => false

def busy (p : Pc w α) : Bool :=
  p.owed || p.allocates || p.held.isSome

-- A thread is busy for one reason only.
theorem busy_eq (p : Pc w α) : (if p.busy = true then 1 else 0) =
    (if p.owed = true then 1 else 0) + (if p.allocates = true then 1 else 0) +
      (if p.held.isSome = true then 1 else 0) := by
  cases p <;> simp [busy, owed, allocates, held]

theorem count_busy (f : Fin n → Pc w α) :
    Threads.count f (·.busy = true) = Threads.count f (·.owed = true) +
      Threads.count f (·.allocates = true) + Threads.count (held ∘ f) (·.isSome = true) := by
  simp only [Threads.count, ← Finset.sum_add_distrib]
  exact Finset.sum_congr rfl fun i _ => busy_eq (f i)

end Pc

-- There is a node on `stack_head` for each thread which will pop one. The threads which are going
-- to allocate a node count as if they had one.
structure Balanced (s : State n w α) (t : LifoStacks.State (Fin n) Loc α) : Prop where
  stack : (t.lists .stackHead).length = Threads.count s.pc (·.owed = true)
  bound : t.allocated.length + Threads.count s.pc (·.allocates = true) ≤ n

namespace Balanced

theorem init (h : Init s) : Balanced s (LifoStacks.init ..) where
  stack := (Threads.count_eq_zero fun i => by simp [h.pc, Pc.owed]).symm
  bound := by
    rw [Threads.count_eq_zero fun i => by simp [h.pc, Pc.allocates]]
    exact Nat.zero_le _

variable (h : Balanced s t)
include h

theorem update (hp : s'.pc = Function.update s.pc i p)
    (hs : (t'.lists .stackHead).length + (s.pc i).owed.toNat =
      (t.lists .stackHead).length + p.owed.toNat)
    (ha : t'.allocated.length + p.allocates.toNat ≤
      t.allocated.length + (s.pc i).allocates.toNat) : Balanced s' t' where
  stack := by
    have := Threads.count_update_toNat (f := s.pc) (i := i) (p := p) (g := Pc.owed)
    have := h.stack
    rw [hp]
    omega
  bound := by
    have := Threads.count_update_toNat (f := s.pc) (i := i) (p := p) (g := Pc.allocates)
    have := h.bound
    rw [hp]
    omega

theorem keep (hp : s'.pc = Function.update s.pc i p) (hs : p.owed = (s.pc i).owed)
    (ha : p.allocates = (s.pc i).allocates) : Balanced s' t :=
  h.update hp (by rw [hs]) (by rw [ha])

-- A thread which will pop a node finds one.
theorem stack_ne_nil (hi : (s.pc i).owed = true) : t.lists .stackHead ≠ [] := by
  have := Threads.count_pos (f := s.pc) (P := (·.owed = true)) hi
  have := h.stack
  apply List.ne_nil_of_length_pos
  omega

-- Thread `i` is the one for which there is no node yet.
theorem allocated_lt (hc : Conserved t) (hh : t.held = Pc.held ∘ s.pc)
    (hf : t.lists .freeNodes = []) (hi : (s.pc i).busy = false) :
    t.allocated.length + Threads.count s.pc (·.allocates = true) < n := by
  have hb := Threads.count_lt_card (f := s.pc) (P := (·.busy = true)) (i := i) (by simp [hi])
  have hl : ∑ k, (t.lists k).length = (t.lists .stackHead).length := by
    have hk : ∑ k, (t.lists k).length =
        (t.lists .stackHead).length + (t.lists .freeNodes).length := rfl
    rw [hk, hf, List.length_nil, Nat.add_zero]
  rw [Conserved, hl, hh, h.stack] at hc
  rw [Pc.count_busy, Fintype.card_fin] at hb
  omega

-- Thread `i` has found the list of the free nodes empty.
theorem miss (hc : Conserved t) (hh : t.held = Pc.held ∘ s.pc) (hf : t.lists .freeNodes = [])
    (hi : (s.pc i).busy = false) (hp : s'.pc = Function.update s.pc i .malloc) : Balanced s' t := by
  have hb := h.allocated_lt hc hh hf hi
  obtain ⟨⟨ho, ha⟩, _⟩ : ((s.pc i).owed = false ∧ (s.pc i).allocates = false) ∧
      (s.pc i).held.isSome = false := by simpa [Pc.busy] using hi
  constructor <;> rw [hp]
  case stack =>
    rw [Threads.count_keep (f := s.pc) (P := (·.owed = true)) (by rw [ho]; rfl)]
    exact h.stack
  case bound =>
    rw [Threads.count_enter (f := s.pc) (P := (·.allocates = true)) (by simp [ha]) rfl]
    exact hb

variable [DecidableEq α]

-- The step goes along with the one of the specification, and it does not find `stack_head` empty.
theorem step (ref : Refines s t) (hc : Conserved t) (hs : Step s e s')
    (r : (LifoStacks.machine (Fin n) Loc α).Run t e.toList t') :
    Balanced s' t' ∧ ∀ i, e ≠ some (.pop i .stackHead none) := by
  cases hs
  case loop hi =>
    cases r
    exact ⟨h.keep rfl (by simp [hi, Pc.owed]) (by simp [hi, Pc.allocates]), by simp⟩
  case popNext hi =>
    cases r
    exact ⟨h.keep rfl (by simp [hi, Pc.owed]) (by simp [hi, Pc.allocates]), by simp⟩
  case pushNext hi =>
    cases r
    exact ⟨h.keep rfl (by simp [hi, Pc.owed]) (by simp [hi, Pc.allocates]), by simp⟩
  case popLoad hi _ =>
    cases r
    refine ⟨?_, by simp⟩
    obtain hi | ⟨b, v, x, hi⟩ := hi
    all_goals exact h.keep rfl (by simp [hi, Pc.owed]) (by simp [hi, Pc.allocates])
  case pushLoad hi =>
    cases r
    refine ⟨?_, by simp⟩
    obtain hi | ⟨o, hi⟩ := hi
    all_goals exact h.keep rfl (by simp [hi, Pc.owed]) (by simp [hi, Pc.allocates])
  case malloc i a hi ha =>
    cases LifoStacks.step_of_run r
    exact ⟨h.update rfl (by simp [hi, Pc.owed]) (by simp [hi, Pc.allocates]), by simp⟩
  case push i k a o hi hk =>
    cases LifoStacks.step_of_run r
    refine ⟨h.update rfl ?_ ?_, by simp⟩
    all_goals cases k <;> simp [hi, Pc.owed, Pc.allocates, Pc.pushed]
  case pop i k a v x hi hk hw =>
    cases LifoStacks.step_of_run r
    case pop as _ hl =>
      refine ⟨h.update rfl ?_ ?_, by simp⟩
      all_goals cases k <;> simp [hi, hl, Pc.owed, Pc.allocates, Pc.popped]
  case popNone i k hi hn =>
    have hl : t.lists k = [] := ref.memory.lists_eq_nil hn
    have hp : (s.pc i).owed = (k = .stackHead) ∧ (s.pc i).busy = (k = .stackHead) := by
      obtain hi | ⟨b, v, x, hi⟩ := hi
      all_goals simp [hi, Pc.busy, Pc.owed, Pc.allocates, Pc.held]
    cases LifoStacks.step_of_run r
    cases k
    case stackHead => exact absurd hl <| h.stack_ne_nil (i := i) (by simp [hp])
    case freeNodes =>
      exact ⟨h.miss (i := i) hc ref.memory.held hl (by simpa using hp.right) rfl, by simp⟩

end Balanced

theorem balanced_of_reachable [DecidableEq α] {l : List (Event (Fin n) Loc α)}
    (r : (((machine n w α).only NoWrap).logging event).Reachable (s, l)) :
    ∃ t, (LifoStacks.machine (Fin n) Loc α).Run (LifoStacks.init ..) l t ∧
      Refines s t ∧ Conserved t ∧ Balanced s t ∧ ∀ i, .pop i .stackHead none ∉ l := by
  apply r.simulation
    (R := fun s l t => Refines s t ∧ Conserved t ∧ Balanced s t ∧ ∀ i, .pop i .stackHead none ∉ l)
  case init => exact fun _ h => ⟨.init h, .init, .init h, fun _ => List.not_mem_nil⟩
  case step =>
    intro s a s' l t _ inv h
    have ⟨ref, hc, hb, hl⟩ := inv
    have h := Machine.only_step.mp h
    have hs : Step s (event s a) s' := .of_step h.left h.right
    have ⟨t', run, ref'⟩ := ref.step hs
    have ⟨hb', he⟩ := hb.step ref hc hs run
    refine ⟨t', run, ref', hc.run run, hb', fun i hi => ?_⟩
    obtain hi | hi := List.mem_append.mp hi
    · exact hl i hi
    · exact he i (Option.mem_toList.mp hi)

end Workload

-- No thread finds `stack_head` empty, and there are never more nodes than threads.
theorem workload_bounded {n w : ℕ} {α : Type*} [DecidableEq α] {s : State n w α}
    {l : List (Event (Fin n) Loc α)}
    (r : (((machine n w α).only NoWrap).logging event).Reachable (s, l)) :
    (∀ i, .pop i .stackHead none ∉ l) ∧ s.allocated.length ≤ n := by
  have ⟨t, _, ref, _, hb, hl⟩ := balanced_of_reachable r
  refine ⟨hl, ?_⟩
  rw [show s.allocated = t.allocated from ref.memory.allocated.symm]
  exact (Nat.le_add_right ..).trans hb.bound

-- Both threads have found the list of the free nodes empty, and have pushed their nodes.
theorem workload_bounded_two :
    ∃ (s : State 2 64 ℕ) (l : List (Event (Fin 2) Loc ℕ)),
      s.head .stackHead = ⟨some 1, 2⟩ ∧
      (∀ i, .pop i .stackHead none ∉ l) ∧ s.allocated.length ≤ 2 :=
  let s₀ : State 2 64 ℕ :=
    ⟨fun _ => .loop, fun _ => ⟨none, 0⟩, fun _ => none, [], fun _ => 0, fun _ => 0⟩
  have ⟨s, l, h, hk⟩ : ∃ s l, (((machine 2 64 ℕ).only NoWrap).logging event).exec (s₀, [])
      (Machine.schedule [(2, .thread 0), (2, .thread 1), (1, .malloc 0 0), (1, .malloc 1 1),
        (3, .thread 0), (3, .thread 1)]) = some (s, l) ∧ s.head .stackHead = ⟨some 1, 2⟩ :=
    ⟨_, _, rfl, rfl⟩
  ⟨s, l, hk, workload_bounded (.of_exec ⟨⟨fun _ => rfl, fun _ => rfl, rfl, fun _ => rfl⟩, rfl⟩ h)⟩

end StackCasTagged
