import Concurrencia.Hardware.StackLlsc.Theorems.Refinement
import Concurrencia.LifoStacks.Workload

open Function

namespace StackLlsc

section Workload

open LifoStacks (Event Phase)
open LifoStacks.Phase (Turn Bounded)

variable {n : ℕ} {α : Type*} {s s' : State n α} {t : LifoStacks.State (Fin n) Loc α}
variable {i : Fin n} {k : Loc} {p : Pc α} {e : Option (Event (Fin n) Loc α)}

namespace Pc

def phase : Pc α → Phase
  | loop                                                   => .start
  | popLdrex k | popLdr k _ | popStrex k _ _               =>
    match k with
    | .freeNodes => .start
    | .head      => .pushed
  | malloc                                                 => .empty
  | clear _                                                => .popped
  | pushLdr k _ | pushStr k _ _ | pushLdrex k _ _ | pushStrex k _ =>
    match k with
    | .head      => .holds
    | .freeNodes => .popped

end Pc

def phases (s : State n α) (i : Fin n) : Phase :=
  (s.pc i).phase

theorem phases_goto (hp : s'.pc = s.pc) : phases (s'.goto i p) = update (phases s) i p.phase := by
  funext j
  by_cases hj : j = i
  case pos => simp [phases, hj]
  case neg => simp [phases, hj, hp]

-- A step which causes no event stays in its phase, and the others end one.
def Turns (s s' : State n α) : Option (Event (Fin n) Loc α) → Prop
  | none   => phases s' = phases s
  | some e => ∃ i p, Turn .head .freeNodes i (phases s i) e p ∧ phases s' = update (phases s) i p

theorem Step.turns [DecidableEq α] (h : Step s e s') : Turns s s' e := by
  have stay {s₁ : State n α} {i : Fin n} {p q : Pc α} (hi : s.pc i = q) (h₁ : s₁.pc = s.pc)
      (hp : p.phase = q.phase) : Turns s (s₁.goto i p) none := by
    rw [Turns, phases_goto h₁, hp, ← hi]
    exact update_eq_self ..
  have turn {s₁ : State n α} {e : Event (Fin n) Loc α} {i : Fin n} {p q : Pc α}
      (hi : s.pc i = q) (h₁ : s₁.pc = s.pc) (ht : Turn .head .freeNodes i q.phase e p.phase) :
      Turns s (s₁.goto i p) (some e) :=
    ⟨i, p.phase, by rwa [phases, hi], phases_goto h₁⟩
  cases h
  case malloc hi _    => exact turn hi rfl .alloc
  case loop hi        => exact stay hi rfl rfl
  case popLdrex hi _  => exact stay hi rfl rfl
  case popLdr hi      => exact stay hi rfl rfl
  case popFail hi     => exact stay hi rfl rfl
  case clear hi       => exact stay hi rfl rfl
  case pushLdr hi     => exact stay hi rfl rfl
  case pushStr hi     => exact stay hi rfl rfl
  case pushLdrex hi _ => exact stay hi rfl rfl
  case pushAgain hi   => exact stay hi rfl rfl
  case pushFail hi    => exact stay hi rfl rfl
  case popNone i k hi _ =>
    cases k
    case head      => exact turn hi rfl .lost
    case freeNodes => exact turn hi rfl .miss
  case pop i k a x hi _ =>
    cases k
    case head      => exact turn hi rfl .pop
    case freeNodes => exact turn hi rfl .take
  case push i k e hi _ =>
    cases k
    case head      => exact turn hi rfl .push
    case freeNodes => exact turn hi rfl .free

variable {t' : LifoStacks.State (Fin n) Loc α}

theorem Turns.bounded [DecidableEq α] (h : Turns s s' e) (hb : Bounded .head .freeNodes t (phases s))
    (r : (LifoStacks.machine (Fin n) Loc α).Run t e.toList t') :
    Bounded .head .freeNodes t' (phases s') ∧ ∀ i, e ≠ some (.pop i .head none) := by
  cases e
  case none =>
    cases r
    exact ⟨h ▸ hb, nofun⟩
  case some e =>
    obtain ⟨i, p, ht, hp⟩ := h
    have ⟨hb, he⟩ := hb.step nofun (LifoStacks.step_of_run r) ht
    exact ⟨hp ▸ hb, fun i h => he i (Option.some.inj h)⟩

theorem bounded_of_reachable [DecidableEq α] {l : List (Event (Fin n) Loc α)}
    (r : ((machine n α).logging event).Reachable (s, l)) :
    ∃ t, (LifoStacks.machine (Fin n) Loc α).Run (LifoStacks.init ..) l t ∧
      Refines s t ∧ Bounded .head .freeNodes t (phases s) ∧ ∀ i, .pop i .head none ∉ l := by
  apply r.simulation (R := fun s l t =>
    Refines s t ∧ Bounded .head .freeNodes t (phases s) ∧ ∀ i, .pop i .head none ∉ l)
  case init =>
    intro s h
    have hp : phases s = fun _ => .start := funext fun i => by rw [phases, h.pc]; rfl
    exact ⟨.init h, hp ▸ .init, fun _ => List.not_mem_nil⟩
  case step =>
    intro s a s' l t _ inv h
    have ⟨ref, hb, hl⟩ := inv
    have hs : Step s (event s a) s' := .of_step h
    have ⟨t', run, ref'⟩ := ref.step hs
    have ⟨hb', he⟩ := hs.turns.bounded hb run
    refine ⟨t', run, ref', hb', fun i hi => ?_⟩
    obtain hi | hi := List.mem_append.mp hi
    · exact hl i hi
    · exact he i (Option.mem_toList.mp hi)

end Workload

open LifoStacks (Event Linked)

-- No thread finds the stack empty, and there are never more nodes than threads. At the end all of
-- them are on the free list.
theorem nodes_bounded {n : ℕ} {α : Type*} [DecidableEq α] {s : State n α}
    {l : List (Event (Fin n) Loc α)} (r : ((machine n α).logging event).Reachable (s, l)) :
    (∀ i, .pop i .head none ∉ l) ∧ s.allocated.length ≤ n ∧
    ((∀ i, s.pc i = .loop) → s.head .head = none ∧
      ∃ as, Linked s.next (s.head .freeNodes) as ∧ as.Nodup ∧ ∀ a, a ∈ as ↔ a ∈ s.allocated) := by
  have ⟨t, _, ref, hb, hl⟩ := bounded_of_reachable r
  have mem := ref.memory
  have ha : t.allocated = s.allocated := mem.allocated
  refine ⟨hl, ?_, fun hp => ?_⟩
  · have := hb.bound
    rw [ha, Fintype.card_fin] at this
    exact (Nat.le_add_right ..).trans this
  · have hh (i : Fin n) : t.held i = none := (congrFun mem.held i).trans (held_of (hp i))
    have ⟨hs, hf⟩ := hb.lists_of_start mem.inv (fun i => by rw [phases, hp]; rfl) hh
      (by rintro (_ | _) <;> simp)
    refine ⟨?_, _, mem.linked .freeNodes, mem.inv.nodup .freeNodes, ha ▸ hf⟩
    have hn := mem.linked .head
    rw [hs] at hn
    exact hn

-- Thread 0 has taken the node of thread 1, and has put it on the free list.
theorem nodes_bounded_two :
    ∃ (s : State 2 ℕ) (l : List (Event (Fin 2) Loc ℕ)),
      s.head .head = some 0 ∧ s.head .freeNodes = some 1 ∧
      (∀ i, .pop i .head none ∉ l) ∧ s.allocated.length ≤ 2 ∧
      ((∀ i, s.pc i = .loop) → s.head .head = none ∧
        ∃ as, Linked s.next (s.head .freeNodes) as ∧ as.Nodup ∧ ∀ a, a ∈ as ↔ a ∈ s.allocated) :=
  let s₀ : State 2 ℕ := ⟨fun _ => .loop, fun _ => none, fun _ => none, [], fun _ => none⟩
  have ⟨s, l, h, hk, hf⟩ : ∃ s l, ((machine 2 ℕ).logging event).exec (s₀, [])
      (Machine.schedule [(2, .thread 0), (1, .malloc 0 0), (4, .thread 0), (2, .thread 1),
        (1, .malloc 1 1), (4, .thread 1), (8, .thread 0)]) = some (s, l) ∧
      s.head .head = some 0 ∧ s.head .freeNodes = some 1 :=
    ⟨_, _, rfl, rfl, rfl⟩
  ⟨s, l, hk, hf, nodes_bounded (.of_exec ⟨⟨fun _ => rfl, fun _ => rfl, rfl⟩, rfl⟩ h)⟩

end StackLlsc
