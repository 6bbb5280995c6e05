import Concurrencia.FifoLock.Basic
import Concurrencia.Threads.Basic
import Mathlib.Algebra.Ring.Nat
import Mathlib.Data.Fintype.Card
import Mathlib.Logic.Function.Basic

open Function

-- How tickets implement the queue: the thread at position `k` waits with the ticket `place k`. When
-- the head leaves, everybody moves up by one.
namespace FifoLock

inductive Stage (τ : Type*)
  | outside
  | waiting (ticket : τ)
  | inside

variable {ι τ : Type*}

def At (place : ℕ → τ) (t : State ι) (i : ι) : Stage τ → Prop
  | .outside   => i ∉ t.queue
  | .waiting v => ∃ k, t.queue[k]? = some i ∧ v = place k ∧ (k = 0 → t.inside = false)
  | .inside    => t.queue.head? = some i ∧ t.inside = true

structure Serves (stage : ι → Stage τ) (place : ℕ → τ) (t : State ι) : Prop where
  nodup    : t.queue.Nodup
  at_place : ∀ i, At place t i (stage i)
  nonempty : t.inside = true → t.queue ≠ []

-- No position behind the head has the ticket of the head.
def Distinct (place : ℕ → τ) (t : State ι) : Prop :=
  ∀ k < t.queue.length, place k = place 0 → k = 0

namespace Serves

variable {stage : ι → Stage τ} {place : ℕ → τ} {t : State ι} {i j : ι} {v : τ}

theorem init : Serves (fun _ => .outside) place (init ι) where
  nodup      := .nil
  at_place _ := List.not_mem_nil
  nonempty h := by simp [FifoLock.init] at h

theorem keep [DecidableEq ι] {α : Type*} {f : α → Stage τ} {pc : ι → α} {p : α}
    (h : Serves (f ∘ pc) place t) (hp : f p = f (pc i)) :
    Serves (f ∘ update pc i p) place t := by
  rw [comp_update, hp]
  exact (update_eq_self i (f ∘ pc)).symm ▸ h

variable (h : Serves stage place t)
include h

theorem outside (hi : stage i = .outside) : i ∉ t.queue := by
  simpa [At, hi] using h.at_place i

theorem waiting (hi : stage i = .waiting v) :
    ∃ k, t.queue[k]? = some i ∧ v = place k ∧ (k = 0 → t.inside = false) := by
  simpa [At, hi] using h.at_place i

theorem inside (hi : stage i = .inside) : t.queue.head? = some i ∧ t.inside = true := by
  simpa [At, hi] using h.at_place i

theorem unique (hi : stage i = .inside) (hj : stage j = .inside) : i = j :=
  Option.some.inj <| (h.inside hi).left.symm.trans (h.inside hj).left

-- While somebody is inside, the thread whose turn it is does not wait any more.
theorem head_of_turn (hd : Distinct place t) (hi : stage i = .waiting (place 0)) :
    t.queue.head? = some i ∧ t.inside = false := by
  have ⟨k, hk, hp, hz⟩ := h.waiting hi
  have hk₀ := hd k (List.getElem?_eq_some_iff.mp hk).choose hp.symm
  subst hk₀
  exact ⟨by rw [List.head?_eq_getElem?, hk], hz rfl⟩

theorem not_inside (hi : t.inside = false) (j : ι) : stage j ≠ .inside :=
  fun hj => Bool.false_ne_true <| hi.symm.trans (h.inside hj).right

theorem waiting_head {q : List ι} (hq : t.queue = i :: q) (hi : stage i = .waiting v) :
    v = place 0 ∧ t.inside = false := by
  have ⟨k, hk, hv, hz⟩ := h.waiting hi
  have hl : 0 < t.queue.length := by simp [hq]
  have hk₀ : 0 = k := (List.getElem?_inj hl h.nodup).mp (by rw [hk]; simp [hq])
  exact ⟨hk₀ ▸ hv, hz hk₀.symm⟩

theorem exists_inside (ht : t.inside = true) : ∃ i, stage i = .inside := by
  obtain ⟨i, q, hq⟩ := List.exists_cons_of_ne_nil (h.nonempty ht)
  refine ⟨i, ?_⟩
  cases hi : stage i
  case outside => simpa [hq] using h.outside hi
  case inside  => rfl
  case waiting => simp [(h.waiting_head hq hi).right] at ht

-- If nobody is inside then exactly one thread has the turn.
theorem exists_unique_turn (hd : Distinct place t) (hn : ∀ j, stage j ≠ .inside)
    (hi : stage i = .waiting v) : ∃! j, stage j = .waiting (place 0) := by
  have ⟨k, hk, _, _⟩ := h.waiting hi
  have hq : t.queue ≠ [] := fun hq => by simp [hq] at hk
  obtain ⟨j, q, hq⟩ := List.exists_cons_of_ne_nil hq
  refine ⟨j, ?_, ?_⟩
  · cases hj : stage j
    case outside => simpa [hq] using h.outside hj
    case inside  => exact absurd hj (hn j)
    case waiting => rw [hj, (h.waiting_head hq hj).left]
  · intro j' hj'
    simpa [hq, eq_comm] using (h.head_of_turn hd hj').left

variable [DecidableEq ι]

theorem draw (hi : stage i = .outside) :
    Step t (.enqueue i) ⟨t.queue ++ [i], t.inside⟩ ∧
    Serves (update stage i (.waiting (place t.queue.length))) place ⟨t.queue ++ [i], t.inside⟩ := by
  have hq := h.outside hi
  refine ⟨.enqueue hq, ?_⟩
  exact {
    nodup      := (List.perm_append_singleton ..).nodup_iff.mpr <| List.nodup_cons.mpr ⟨hq, h.nodup⟩
    nonempty _ := by simp
    at_place j := by
      by_cases hj : j = i
      case pos =>
        rw [hj, update_self]
        refine ⟨t.queue.length, by simp, rfl, fun hl => ?_⟩
        by_contra ht
        exact h.nonempty (Bool.not_eq_false _ ▸ ht) (List.length_eq_zero_iff.mp hl)
      case neg =>
        rw [update_of_ne hj]
        cases hs : stage j
        case outside => simpa [At, hj] using h.outside hs
        case inside  =>
          have ⟨hh, ht⟩ := h.inside hs
          exact ⟨by simp [hh], ht⟩
        case waiting v =>
          have ⟨k, hk, hv⟩ := h.waiting hs
          have hl := (List.getElem?_eq_some_iff.mp hk).choose
          exact ⟨k, by rw [List.getElem?_append_left hl, hk], hv⟩
  }

theorem enter (hd : Distinct place t) (hi : stage i = .waiting (place 0)) :
    Step t (.enter i) ⟨t.queue, true⟩ ∧ Serves (update stage i .inside) place ⟨t.queue, true⟩ := by
  have ⟨hh, ht⟩ := h.head_of_turn hd hi
  have ⟨q, hq⟩ := List.head?_eq_some_iff.mp hh
  refine ⟨hq ▸ .enter hq ht, ?_⟩
  exact {
    nodup      := h.nodup
    nonempty _ := by simp [hq]
    at_place j := by
      by_cases hj : j = i
      case pos =>
        rw [hj, update_self]
        exact ⟨hh, rfl⟩
      case neg =>
        rw [update_of_ne hj]
        cases hs : stage j
        case outside => exact h.outside hs
        case inside  => exact absurd hs (h.not_inside ht j)
        case waiting v =>
          have ⟨k, hk, hv, _⟩ := h.waiting hs
          refine ⟨k, hk, hv, fun hk₀ => absurd ?_ hj⟩
          simpa [hk₀, hq, eq_comm] using hk
  }

theorem leave (hi : stage i = .inside) :
    ∃ q, t.queue = i :: q ∧ Step t (.leave i) ⟨q, false⟩ ∧
    Serves (update stage i .outside) (fun k => place (k + 1)) ⟨q, false⟩ := by
  have ⟨hh, ht⟩ := h.inside hi
  have ⟨q, hq⟩ := List.head?_eq_some_iff.mp hh
  have hn := hq ▸ h.nodup
  refine ⟨q, hq, .leave hq ht, ?_⟩
  exact {
    nodup      := hn.of_cons
    nonempty h := by simp at h
    at_place j := by
      by_cases hj : j = i
      case pos =>
        rw [hj, update_self]
        exact (List.nodup_cons.mp hn).left
      case neg =>
        rw [update_of_ne hj]
        cases hs : stage j
        case outside => simpa [At, hq, hj] using h.outside hs
        case inside  => exact absurd (h.unique hs hi) hj
        case waiting v =>
          have ⟨k, hk, hv, hz⟩ := h.waiting hs
          cases k
          case zero   => simp [hz rfl] at ht
          case succ k => exact ⟨k, by simpa [hq] using hk, hv, fun _ => rfl⟩
  }

omit [DecidableEq ι] in
theorem length_le [Fintype ι] : t.queue.length ≤ Fintype.card ι :=
  h.nodup.length_le_card

end Serves

-- The tickets are the values of a counter of `w` bits, which wraps.
def turns {w : ℕ} (turn : BitVec w) (k : ℕ) : BitVec w :=
  turn + .ofNat w k

variable {w k : ℕ} {turn : BitVec w} {t : State ι}

theorem turns_zero : turns turn 0 = turn := by
  simp [turns]

theorem turns_add_one : turns turn (k + 1) = turns turn k + 1 := by
  rw [turns, turns, BitVec.ofNat_add, ← BitVec.add_assoc]
  rfl

theorem turns_succ : (fun k => turns turn (k + 1)) = turns (turn + 1) := by
  funext k
  rw [turns_add_one, turns, turns]
  ac_rfl

theorem distinct_turns (h : t.queue.length ≤ 2 ^ w) : Distinct (turns turn) t := by
  intro k hk he
  have hz : BitVec.ofNat w k = 0 := by simpa [turns] using he
  have hz := congrArg BitVec.toNat hz
  simpa [Nat.mod_eq_of_lt (hk.trans_le h)] using hz

theorem toNat_turns : (turns turn k).toNat = (turn.toNat + k) % 2 ^ w := by
  simp [turns]

-- The next ticket is the value of the counter `number`, and the head of the queue has the ticket
-- `turn`.
structure Counted (stage : ι → Stage (BitVec w)) (turn number : BitVec w) (t : State ι) : Prop where
  serves : Serves stage (turns turn) t
  number : number = turns turn t.queue.length

namespace Counted

variable {α : Type*} {f : α → Stage (BitVec w)} {pc : ι → α} {p : α} {i : ι} {number : BitVec w}

theorem init : Counted (fun _ : ι => .outside) turn turn (init ι) where
  serves := .init
  number := by simp [FifoLock.init, turns]

variable (h : Counted (f ∘ pc) turn number t)
include h

theorem distinct [Fintype ι] (hn : Fintype.card ι ≤ 2 ^ w) : Distinct (turns turn) t :=
  distinct_turns <| h.serves.length_le.trans hn

variable [DecidableEq ι]

theorem keep (hp : f p = f (pc i)) : Counted (f ∘ update pc i p) turn number t where
  serves := h.serves.keep hp
  number := h.number

theorem draw (hi : f (pc i) = .outside) (hp : f p = .waiting number) :
    Step t (.enqueue i) ⟨t.queue ++ [i], t.inside⟩ ∧
    Counted (f ∘ update pc i p) turn (number + 1) ⟨t.queue ++ [i], t.inside⟩ := by
  have ⟨ht, hs⟩ := h.serves.draw hi
  refine ⟨ht, ?_, ?_⟩
  · rw [comp_update, hp, h.number]
    exact hs
  · rw [h.number, List.length_append, List.length_singleton, turns_add_one]

theorem enter (hd : Distinct (turns turn) t) (hi : f (pc i) = .waiting turn) (hp : f p = .inside) :
    Step t (.enter i) ⟨t.queue, true⟩ ∧
    Counted (f ∘ update pc i p) turn number ⟨t.queue, true⟩ := by
  have ⟨ht, hs⟩ := h.serves.enter hd (hi.trans (turns_zero.symm ▸ rfl))
  refine ⟨ht, ?_, h.number⟩
  rw [comp_update, hp]
  exact hs

theorem leave (hi : f (pc i) = .inside) (hp : f p = .outside) :
    ∃ q, t.queue = i :: q ∧ Step t (.leave i) ⟨q, false⟩ ∧
    Counted (f ∘ update pc i p) (turn + 1) number ⟨q, false⟩ := by
  have ⟨q, hq, ht, hs⟩ := h.serves.leave hi
  refine ⟨q, hq, ht, ?_, ?_⟩
  · rw [comp_update, hp, ← turns_succ]
    exact hs
  · rw [h.number, hq, List.length_cons, ← turns_succ]

end Counted

-- Whoever sleeps is attended by the thread which has left last.
def Attended {α : Type*} (Sleeps Attends : α → Prop) (pc : ι → α) (l : List (Event ι)) : Prop :=
  ∀ i, Sleeps (pc i) → ∃ j, (left l).getLast? = some j ∧ Attends (pc j)

namespace Attended

variable {α : Type*} {S A : α → Prop} {pc : ι → α} {p : α} {i : ι} {l l' : List (Event ι)}

theorem of_none (h : ∀ i, ¬S (pc i)) : Attended S A pc l :=
  fun i hi => absurd hi (h i)

-- Nobody falls asleep when the threads change all at once.
theorem map {g : α → α} (h : Attended S A pc l) (hs : ∀ i, S (g (pc i)) → S (pc i))
    (ha : ∀ i, A (pc i) → A (g (pc i))) : Attended S A (fun i => g (pc i)) l :=
  fun i hi => (h i (hs i hi)).imp fun _ hj => hj.imp_right (ha _)

variable [DecidableEq ι]

theorem keep (h : Attended S A pc l) (hl : left l' = left l) (hs : S p → S (pc i))
    (ha : A (pc i) → A p) : Attended S A (update pc i p) l' := by
  intro j hj
  have hj : S (pc j) := by
    by_cases hji : j = i
    case pos => exact hji ▸ hs (by simpa [hji] using hj)
    case neg => simpa [hji] using hj
  have ⟨k, hk, hp⟩ := h j hj
  refine ⟨k, hl ▸ hk, ?_⟩
  by_cases hki : k = i
  case pos => simpa [hki] using ha (hki ▸ hp)
  case neg => simpa [hki] using hp

-- The thread which has left last may go on when nobody sleeps.
theorem finish (h : Attended S A pc l) (hp : ¬S p) (hn : ∀ {j}, S (pc j) → left l = []) :
    Attended S A (update pc i p) l' := by
  refine of_none <| Threads.not_update hp fun j _ hj => ?_
  obtain ⟨_, hl, _⟩ := h j hj
  simp [hn hj] at hl

theorem leave (h : A p) : Attended S A (update pc i p) (l ++ [.leave i]) :=
  fun _ _ => ⟨i, by simp [left_append, Event.left], by simpa⟩

end Attended

end FifoLock
