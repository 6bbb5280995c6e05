import Concurrencia.LockClient.Basic
import Concurrencia.Spinlocks.Mcs.Theorems.Refinement
import Mathlib

open Relation

namespace Mcs

open FifoLock (Event entered enqueued)

variable {n : ℕ} {s : State n} {i a : Fin n} {p : Pc n} {q : List (Fin n)}

namespace Pc

-- Inside of `unlock`, with the lock not handed over yet.
def Unlocks : Pc n → Prop
  | testNext | compareExchange | waitNext | loadNext | clearNext _ => True
  | _                                                              => False

end Pc

-- The thread has the lock: it may return from `lock`, or has done so.
def Owns (s : State n) (i : Fin n) : Prop :=
  s.pc i = .spin ∧ s.locked i = false ∨ s.pc i = .clearLocked ∨ s.pc i = .critical

theorem Head.cases {inside : Bool} (h : Head s inside i q p) (hp : s.pc i = p) :
    Owns s i ∨ p.Unlocks := by
  cases p <;> simp_all [Head, Owns, Pc.Unlocks]

theorem Linked.transGen (h : Linked s a q) (hi : i ∈ q) : TransGen (Behind s) a i := by
  induction q generalizing a
  case nil => cases hi
  case cons b q ih =>
    have ⟨hb, _, h⟩ := h
    cases hi
    case head    => exact .single hb
    case tail hi => exact .head hb (ih h hi)

namespace Refines

variable {t : FifoLock.State (Fin n)} (ref : Refines s t)
include ref

theorem eq_of_inside {j : Fin n} (hi : s.pc i = .critical ∨ (s.pc i).Unlocks)
    (hj : s.pc j = .critical ∨ (s.pc j).Unlocks) : i = j := by
  have head {i : Fin n} (hi : s.pc i = .critical ∨ (s.pc i).Unlocks) : ∃ q, t.queue = i :: q := by
    have ⟨q, hq, _⟩ : ∃ q, t.queue = i :: q ∧ Head s t.inside i q (s.pc i) := by
      cases hp : s.pc i <;> simp [hp, Pc.Unlocks] at hi
      all_goals exact ref.eq_head hp trivial (by simp) (by simp)
    exact ⟨q, hq⟩
  have ⟨q, hq⟩ := head hi
  have ⟨r, hr⟩ := head hj
  exact (List.cons.inj (hq.symm.trans hr)).left

theorem chain (hp : s.pc i = .spin) (hl : s.locked i = true) :
    ∃ j, TransGen (Behind s) j i ∧ (Owns s j ∨ (s.pc j).Unlocks ∧ s.tail ≠ some j) := by
  have hi := (ref.queued i).mpr (by simp [hp, Pc.Queued])
  cases hq : t.queue
  case nil => simp [hq] at hi
  case cons j q =>
    obtain ⟨hh, hw⟩ := ref.head hq
    obtain ⟨hj, _⟩ := List.nodup_cons.mp (hq ▸ ref.nodup)
    rw [hq] at hi
    cases hi
    case head    => simp [hp, hl, Head] at hh
    case tail hi =>
      refine ⟨j, hw.transGen hi, (hh.cases rfl).imp_right fun hu => ⟨hu, ?_⟩⟩
      cases q
      case nil => cases hi
      case cons b q =>
        intro ht
        rw [ref.tail, hq, List.getLast?_cons_cons] at ht
        exact hj (List.mem_of_getLast? ht)

end Refines

theorem no_lost_hand_over {l : List (Event (Fin n))}
    (r : ((machine n).logging event).Reachable (s, l)) :
    {i | s.pc i = .critical ∨ (s.pc i).Unlocks}.Subsingleton ∧ entered l <+: enqueued l ∧
    ∀ i, s.pc i = .spin → s.locked i = true →
      ∃ j, TransGen (Behind s) j i ∧ (Owns s j ∨ (s.pc j).Unlocks ∧ s.tail ≠ some j) :=
  have ⟨_, run, ref⟩ := refines_of_reachable r
  ⟨fun _ hi _ hj => ref.eq_of_inside hi hj, FifoLock.entered_enqueued run,
    fun _ hp hl => ref.chain hp hl⟩

-- Thread 0 has found no successor and cannot take itself out of the queue, since thread 1 has come
-- but is not linked yet. Thread 2 is linked to thread 1.
theorem no_lost_hand_over_three :
    ∃ s : State 3, s.pc 0 = .waitNext ∧ s.pc 1 = .link 0 ∧ s.pc 2 = .spin ∧ s.locked 2 = true ∧
      ∃ j, TransGen (Behind s) j 2 ∧ (Owns s j ∨ (s.pc j).Unlocks ∧ s.tail ≠ some j) :=
  have ⟨s, h, h₀, h₁, h₂, hl⟩ : ∃ s : State 3, ((machine 3).logging event).exec
      (⟨fun _ => .idle, fun _ => none, fun _ => false, none⟩, [])
      (Machine.schedule [(7, 0), (4, 1), (5, 2), (1, 0)]) =
        some (s, [.enqueue 0, .enter 0, .enqueue 1, .enqueue 2]) ∧
        s.pc 0 = .waitNext ∧ s.pc 1 = .link 0 ∧ s.pc 2 = .spin ∧ s.locked 2 = true :=
    ⟨_, rfl, rfl, rfl, rfl, rfl⟩
  ⟨s, h₀, h₁, h₂, hl,
    (no_lost_hand_over (.of_exec (by exact ⟨⟨fun _ => rfl, rfl⟩, rfl⟩) h)).right.right 2 h₂ hl⟩

section Client

open LockClient (Stage Lock Live single)

variable {s' : State n}

def Pc.stage : Pc n → Stage
  | idle                                                            => .idle
  | setNext | setLocked | exchange | link _ | spin | clearLocked    => .locking
  | critical                                                        => .inside
  | testNext | compareExchange | waitNext | loadNext | clearNext _  => .unlocking

def stage (s : State n) (i : Fin n) : Stage :=
  (s.pc i).stage

theorem Step.moves {e : Option (Event (Fin n))} (h : Step s e s') :
    ∃ i p, s'.pc = Function.update s.pc i p ∧ Stage.Next (s.pc i).stage p.stage := by
  cases h
  case call hp              => exact ⟨_, _, rfl, hp ▸ .lock⟩
  case clearLocked hp       => exact ⟨_, _, rfl, hp ▸ .enter⟩
  case leave hp             => exact ⟨_, _, rfl, hp ▸ .unlock⟩
  case compareExchange hp _ => exact ⟨_, _, rfl, hp ▸ .leave⟩
  case clearNext hp         => exact ⟨_, _, rfl, hp ▸ .leave⟩
  case linked hp _          => exact ⟨_, _, rfl, by obtain hp | hp := hp <;> exact hp ▸ .stay⟩
  case setNext hp | setLocked hp | link hp => exact ⟨_, _, rfl, hp ▸ .stay⟩
  case exchangeFree hp _ | exchange hp _ | spin hp _ | pass hp _ | last hp _ | fail hp _ |
      waitNext hp _ | loadNext hp _ =>
    exact ⟨_, _, rfl, hp ▸ .stay⟩

theorem exists_refines (r : (machine n).Reachable s) : ∃ t, Refines s t :=
  have ⟨_, r⟩ := r.exists_logging
  have ⟨t, _, ref⟩ := refines_of_reachable r
  ⟨t, ref⟩

theorem lock : Lock (machine n) stage := by
  apply Lock.of_moves
  case init =>
    intro s t h
    rw [h.left t]
    rfl
  case step => exact fun hs => (Step.of_step hs).moves
  case unique =>
    intro s i j r hi hj
    have ⟨_, ref⟩ := exists_refines r
    have inside {p : Pc n} (h : p.stage = .inside) : p = .critical ∨ p.Unlocks := by
      cases p <;> cases h
      exact .inl rfl
    exact ref.eq_of_inside (inside hi) (inside hj)

-- The statements a thread has before it, if it need not wait.
def Pc.rank : Pc n → ℕ
  | setNext         => 5
  | setLocked       => 4
  | exchange        => 3
  | link _          => 2
  | spin            => 1
  | testNext        => 4
  | compareExchange => 3
  | waitNext        => 2
  | loadNext        => 1
  | _               => 0

theorem moves (h : step s i = some s') (hp : s'.pc = Function.update s.pc i p) :
    LockClient.Moves (machine n) State.pc s i p :=
  ⟨i, s', h, hp⟩

-- A thread which does not wait.
theorem exists_move (hi : s.pc i ≠ .idle) (hc : s.pc i ≠ .critical)
    (hs : s.pc i = .spin → s.locked i = false) (hw : s.pc i = .waitNext → s.next i ≠ none)
    (hl : s.pc i = .loadNext → s.next i ≠ none) :
    ∃ p, LockClient.Moves (machine n) State.pc s i p ∧
      (p.stage = (s.pc i).stage → p.rank < (s.pc i).rank) := by
  cases hp : s.pc i
  case idle     => exact absurd hp hi
  case critical => exact absurd hp hc
  case spin =>
    exact ⟨.clearLocked, moves (by rw [step, hp]) (by simp [State.goto, hs hp]), by simp [Pc.rank]⟩
  case waitNext =>
    exact ⟨.loadNext, moves (by rw [step, hp]) (by simp [State.goto, hw hp]), by simp [Pc.rank]⟩
  case loadNext =>
    obtain ⟨k, hk⟩ := Option.ne_none_iff_exists'.mp (hl hp)
    have he : step s i = some (s.goto i (.clearNext k)) := by simp [step, hp, hk]
    exact ⟨.clearNext k, moves he rfl, by simp [Pc.rank]⟩
  case exchange =>
    cases ht : s.tail
    case none   => exact ⟨.clearLocked, moves (by rw [step, hp, ht]) rfl, by simp [Pc.rank]⟩
    case some k => exact ⟨.link k, moves (by rw [step, hp, ht]) rfl, by simp [Pc.rank]⟩
  case testNext =>
    by_cases hn : s.next i = none
    case pos => exact ⟨.compareExchange, moves (by rw [step, hp]) (by simp [State.goto, hn]), by simp [Pc.rank]⟩
    case neg => exact ⟨.loadNext, moves (by rw [step, hp]) (by simp [State.goto, hn]), by simp [Pc.rank]⟩
  case compareExchange =>
    by_cases ht : s.tail = some i
    case pos =>
      have he : step s i = some ({ s with tail := none }.goto i .idle) := by simp [step, hp, ht]
      exact ⟨.idle, moves he rfl, by simp [Pc.stage]⟩
    case neg =>
      have he : step s i = some (s.goto i .waitNext) := by simp [step, hp, ht]
      exact ⟨.waitNext, moves he rfl, by simp [Pc.rank]⟩
  case setNext     => exact ⟨.setLocked, moves (by rw [step, hp]) rfl, by simp [Pc.rank]⟩
  case setLocked   => exact ⟨.exchange, moves (by rw [step, hp]) rfl, by simp [Pc.rank]⟩
  case link        => exact ⟨.spin, moves (by rw [step, hp]) rfl, by simp [Pc.rank]⟩
  case clearLocked => exact ⟨.critical, moves (by rw [step, hp]) rfl, by simp [Pc.stage]⟩
  case clearNext   => exact ⟨.idle, moves (by rw [step, hp]) rfl, by simp [Pc.stage]⟩

-- Either some thread has not come so far that it waits, or the head of the queue need not wait.
theorem exists_not_waiting (r : (machine n).Reachable s) (hi : s.pc i ≠ .idle) :
    ∃ i, s.pc i ≠ .idle ∧ (s.pc i = .spin → s.locked i = false) ∧
      (s.pc i = .waitNext → s.next i ≠ none) := by
  by_cases hw : ∃ j, s.pc j ≠ .idle ∧ s.pc j ≠ .spin ∧ s.pc j ≠ .waitNext
  case pos =>
    obtain ⟨j, hj, hs, hw⟩ := hw
    exact ⟨j, hj, fun h => absurd h hs, fun h => absurd h hw⟩
  case neg =>
    have hw (j : Fin n) (hj : s.pc j ≠ .idle) : s.pc j = .spin ∨ s.pc j = .waitNext := by
      by_contra h
      exact hw ⟨j, hj, not_or.mp h⟩
    obtain ⟨t, ref⟩ := exists_refines r
    have hq : i ∈ t.queue := by
      rw [ref.queued]
      obtain h | h := hw i hi <;> simp [h, Pc.Queued]
    cases hq' : t.queue
    case nil => simp [hq'] at hq
    case cons j q =>
      obtain ⟨hh, hl⟩ := ref.head hq'
      have hj : s.pc j ≠ .idle := by
        intro hj
        simp [hj, Head] at hh
      refine ⟨j, hj, fun h => ?_, fun h => ?_⟩
      · rw [h] at hh
        exact hh.right
      · rw [h] at hh
        cases q
        case nil => exact absurd rfl hh.right
        case cons b q =>
          obtain ⟨hb, _⟩ | ⟨_, hb⟩ := hl.left
          · have := hw b (by simp [hb])
            simp [hb] at this
          · simp [hb]

theorem live : Live (machine n) stage := by
  apply Live.of_moves Pc.rank
  case call =>
    intro s t _ ht
    cases hp : s.pc t <;> simp only [hp, Pc.stage, reduceCtorEq, or_self, or_true, true_or] at ht
    case idle     => exact ⟨.setNext, moves (by rw [step, hp]) rfl, by simp [Pc.stage]⟩
    case critical => exact ⟨.testNext, moves (by rw [step, hp]) rfl, by simp [Pc.stage]⟩
  case work =>
    rintro s r hn ⟨t, ht⟩
    have hn (i : Fin n) : s.pc i ≠ .critical := fun hp => hn i (by rw [hp]; rfl)
    obtain ⟨i, hi, hs, hw⟩ := exists_not_waiting r (i := t) fun hp => ht (by rw [hp]; rfl)
    obtain ⟨_, ref⟩ := exists_refines r
    obtain ⟨p, hm, hr⟩ := exists_move hi (hn i) hs hw fun hp => by
      obtain ⟨_, _, hh⟩ := ref.eq_head hp trivial (by simp) (by simp)
      exact hh.right
    refine ⟨i, p, hm, ?_, hr⟩
    have := hn i
    cases hp : s.pc i <;> simp_all [Pc.stage]

end Client

end Mcs
