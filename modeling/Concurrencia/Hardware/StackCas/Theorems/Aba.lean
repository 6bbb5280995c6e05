import Concurrencia.Hardware.StackCas.Theorems.Refinement

open Function

namespace StackCas

section Alone

open LifoStacks (Event)
open StackLlsc (Loc)

variable {n : ℕ} {α : Type*} {s s' s₁ : State n α} {i : Fin n} {k : Loc} {p : Pc α}
variable {l : Label n α} {e : Option (Event (Fin n) Loc α)}

-- The head with which `pop` goes on.
def Pc.reads : Pc α → Option Loc
  | popNext k _ | popCas k _ _                                                     => some k
  | loop | popLoad _ | malloc | clear _ | pushLoad _ _ | pushNext _ _ _ | pushCas _ _ => none

-- Makes the equations before the proofs below, many of which need them at the same time.
attribute [local grind =] Pc.reads

-- Nobody has exchanged the head since it was read.
def Fresh (s : State n α) : Prop :=
  ∀ i k, (s.pc i).reads = some k → s.seen i = some k

theorem reads_popped (k : Loc) (x : Option α) : (Pc.popped k x).reads = none := by
  cases k <;> cases x <;> rfl

theorem reads_pushed (k : Loc) : (Pc.pushed k : Pc α).reads = none := by
  cases k <;> rfl

theorem Fresh.noAba (h : Fresh s) [DecidableEq α] : NoAba s l := by
  cases l
  case malloc => trivial
  case thread i =>
    cases hi : s.pc i <;> simp only [NoAba, aba, hi]
    case popCas k a x => simp [h i k (by simp [hi, Pc.reads])]

variable [Subsingleton (Fin n)]

theorem Fresh.goto (hp : ∀ k, p.reads = some k → s.seen i = some k) : Fresh (s.goto i p) := by
  intro j k hj
  obtain rfl : j = i := Subsingleton.elim _ _
  rw [State.goto_pc_self] at hj
  exact hp k hj

theorem Fresh.step [DecidableEq α] (h : Fresh s) (hs : Step s l e s') : Fresh s' := by
  cases hs
  case popNext i k a hi => exact .goto fun m hm => h i m (by simpa [hi, Pc.reads] using hm)
  case popLoad i k a hi _ => exact .goto fun m hm => by simpa [State.read, Pc.reads] using hm
  case popAgain i k a x b hi _ => exact .goto fun m hm => by simpa [State.read, Pc.reads] using hm
  case popNone => exact .goto fun m hm => by simp [reads_popped] at hm
  case popLost => exact .goto fun m hm => by simp [reads_popped] at hm
  case pop     => exact .goto fun m hm => by simp [reads_popped] at hm
  case push    => exact .goto fun m hm => by simp [reads_pushed] at hm
  all_goals exact .goto fun m hm => by simp [Pc.reads] at hm

theorem reachable_only_of_alone [DecidableEq α] {l : List (Event (Fin n) Loc α)}
    (r : ((machine n α).logging event).Reachable (s, l)) :
    (((machine n α).only NoAba).logging event).Reachable (s, l) := by
  refine (r.logging_invariant (I := fun s l =>
    Fresh s ∧ (((machine n α).only NoAba).logging event).Reachable (s, l)) ?init ?step).right
  case init =>
    intro s h
    exact ⟨fun i k hi => by simp [h.pc, Pc.reads] at hi, .init ⟨h, rfl⟩⟩
  case step =>
    intro s₁ a s₂ l _ hi hs
    have hn := Machine.only_step.mpr ⟨hi.left.noAba, hs⟩
    exact ⟨hi.left.step (.of_step hs), hi.right.step (Machine.logging_step.mpr ⟨hn, rfl⟩)⟩

end Alone

section Embedding

open LifoStacks (Event)
open StackLlsc (Loc)

variable {m n : ℕ} {α : Type*} {f : Fin m ↪ Fin n} {s s' : State m α} {t : State n α}
variable {i : Fin m} {k : Loc} {p : Pc α} {a : α} {x : Option α}

def rename (f : Fin m ↪ Fin n) : Event (Fin m) Loc α → Event (Fin n) Loc α
  | .alloc i a  => .alloc (f i) a
  | .push i k a => .push (f i) k a
  | .pop i k a  => .pop (f i) k a

-- The threads of the smaller program are among those of the other one.
structure Embeds (f : Fin m ↪ Fin n) (s : State m α) (t : State n α) : Prop where
  pc        : ∀ i, t.pc (f i) = s.pc i
  head      : t.head = s.head
  next      : t.next = s.next
  allocated : t.allocated = s.allocated

namespace Embeds

theorem goto (h : Embeds f s t) : Embeds f (s.goto i p) (t.goto (f i) p) where
  head      := h.head
  next      := h.next
  allocated := h.allocated
  pc j := by
    by_cases hj : j = i
    case pos => simp [hj]
    case neg => simpa [hj] using h.pc j

theorem read (h : Embeds f s t) : Embeds f (s.read i k) (t.read (f i) k) :=
  ⟨h.pc, h.head, h.next, h.allocated⟩

theorem exchange (h : Embeds f s t) : Embeds f (s.exchange k x) (t.exchange k x) :=
  ⟨h.pc, by simp [State.exchange, h.head], h.next, h.allocated⟩

variable [DecidableEq α]

theorem store (h : Embeds f s t) : Embeds f (s.store a x) (t.store a x) :=
  ⟨h.pc, h.head, by simp [State.store, h.next], h.allocated⟩

theorem thread (h : Embeds f s t) (hs : threadStep s i = some s') :
    ∃ t', threadStep t (f i) = some t' ∧ Embeds f s' t' ∧
      event t (.thread (f i)) = (event s (.thread i)).map (rename f) := by
  have ht := h.pc i
  cases hi : s.pc i
  all_goals
    rw [hi] at ht
    simp only [threadStep, event, hi, ht, h.head, h.next] at hs ⊢
  case popCas k a x =>
    split_ifs at hs ⊢
    all_goals cases hs
    · exact ⟨_, rfl, h.exchange.goto, rfl⟩
    · exact ⟨_, rfl, h.read.goto, rfl⟩
    · exact ⟨_, rfl, h.read.goto, rfl⟩
  case pushCas k e =>
    split_ifs at hs ⊢
    all_goals cases hs
    · exact ⟨_, rfl, h.exchange.goto, rfl⟩
    · exact ⟨_, rfl, h.goto, rfl⟩
  all_goals cases hs
  case popLoad k => exact ⟨_, rfl, h.read.goto, by split_ifs <;> rfl⟩
  case clear     => exact ⟨_, rfl, h.store.goto, rfl⟩
  case pushNext  => exact ⟨_, rfl, h.store.goto, rfl⟩
  all_goals exact ⟨_, rfl, h.goto, rfl⟩

theorem malloc (h : Embeds f s t) (hs : mallocStep s i a = some s') :
    ∃ t', mallocStep t (f i) a = some t' ∧ Embeds f s' t' := by
  cases hi : s.pc i <;> simp only [mallocStep, hi, reduceCtorEq] at hs
  split_ifs at hs with ha
  cases hs
  have hm : Embeds f { s with allocated := a :: s.allocated }
      { t with allocated := a :: s.allocated } := ⟨h.pc, h.head, h.next, rfl⟩
  exact ⟨_, by simp [mallocStep, h.pc, hi, h.allocated, ha], hm.goto⟩

end Embeds

variable [DecidableEq α]

-- Threads which take no step do not matter.
theorem embeds_of_reachable (f : Fin m ↪ Fin n) {l : List (Event (Fin m) Loc α)}
    (r : ((machine m α).logging event).Reachable (s, l)) :
    ∃ t, ((machine n α).logging event).Reachable (t, l.map (rename f)) ∧ Embeds f s t := by
  apply r.logging_invariant (I := fun s l =>
    ∃ t, ((machine n α).logging event).Reachable (t, l.map (rename f)) ∧ Embeds f s t)
  case init =>
    intro s h
    exact ⟨⟨fun _ => .loop, s.head, s.next, s.allocated, fun _ => none⟩,
      .init ⟨⟨fun _ => rfl, h.head, h.allocated⟩, rfl⟩, fun i => (h.pc i).symm, rfl, rfl, rfl⟩
  case step =>
    intro s a s' l _ hi hs
    obtain ⟨t, rt, h⟩ := hi
    have ⟨b, t', ht, h', he⟩ : ∃ b t', step t b = some t' ∧ Embeds f s' t' ∧
        event t b = (event s a).map (rename f) := by
      cases a
      case thread i =>
        have ⟨t', ht⟩ := h.thread hs
        exact ⟨.thread (f i), t', ht⟩
      case malloc i a =>
        have ⟨t', ht, h'⟩ := h.malloc hs
        exact ⟨.malloc (f i) a, t', ht, h', rfl⟩
    refine ⟨t', rt.step (Machine.logging_step.mpr ⟨ht, ?_⟩), h'⟩
    rw [he, List.map_append, Option.toList_map]

deriving instance DecidableEq for Event

-- Thread 1 pops node 1, which thread 0 has read, puts it on the free list, takes it from there, and
-- pushes it again. Thread 0 has found no node behind it, and its exchange drops node 0.
theorem exists_lost_two : ∃ (s : State 2 ℕ) (l : List (Event (Fin 2) Loc ℕ)),
    ((machine 2 ℕ).logging event).Reachable (s, l) ∧ .pop 1 .head none ∈ l := by
  let s₀ : State 2 ℕ := ⟨fun _ => .loop, fun _ => none, fun _ => none, [], fun _ => none⟩
  have h : (((machine 2 ℕ).logging event).exec (s₀, [])
      (Machine.schedule [(2, .thread 0), (1, .malloc 0 0), (3, .thread 0), (2, .thread 1),
        (1, .malloc 1 1), (3, .thread 1), (1, .thread 0), (4, .thread 1), (1, .thread 0),
        (10, .thread 1), (1, .thread 0), (1, .thread 1)])).map (·.snd.getLast?) =
      some (some (.pop 1 .head none)) := by
    decide +kernel
  obtain ⟨⟨s, l⟩, hs, hl⟩ := Option.map_eq_some_iff.mp h
  exact ⟨s, l, .of_exec ⟨⟨fun _ => rfl, fun _ => rfl, rfl⟩, rfl⟩ hs, List.mem_of_getLast? hl⟩

theorem exists_lost (hn : 2 ≤ n) : ∃ (s : State n ℕ) (l : List (Event (Fin n) Loc ℕ)) (i : Fin n),
    ((machine n ℕ).logging event).Reachable (s, l) ∧ .pop i .head none ∈ l := by
  have ⟨s, l, r, hl⟩ := exists_lost_two
  have ⟨t, rt, _⟩ := embeds_of_reachable (Fin.castLEEmb hn) r
  exact ⟨t, _, _, rt, List.mem_map_of_mem hl⟩

end Embedding

open LifoStacks (Event)
open StackLlsc (Loc)

theorem error_iff (n : ℕ) : (∃ (s : State n ℕ) (l : List (Event (Fin n) Loc ℕ)) (i : Fin n),
    ((machine n ℕ).logging event).Reachable (s, l) ∧ .pop i .head none ∈ l) ↔ 2 ≤ n := by
  refine ⟨?_, exists_lost⟩
  rintro ⟨s, l, i, r, hl⟩
  by_contra hn
  have hs : Subsingleton (Fin n) := Fin.subsingleton_iff_le_one.mpr (by omega)
  exact (lifo_without_aba (reachable_only_of_alone r)).right.left i hl

end StackCas
