import Concurrencia.LockClient.Basic
import Concurrencia.Spinlocks.Clh.Theorems.Refinement
import Mathlib.Data.Fintype.Option
import Mathlib.Data.Fintype.EquivFin
import Mathlib.Data.Set.Subsingleton

open Function

namespace Clh

open FifoLock (Event entered enqueued)

variable {n : ℕ} {s : State n} {i j k : Fin n} {q : List (Fin n)} {a b x : Node n}

namespace Pc

-- Between `lock` and the write of `unlock` which frees the node.
def Inside : Pc n → Prop
  | critical | loadPrev | adopt _ | clear _ => True
  | _                                       => False

end Pc

-- The implicit queue consists of the predecessors of the threads in it and of the node at the tail.
def InQueue (s : State n) (a : Node n) : Prop :=
  s.tail = a ∨ ∃ i, Watches s i a

namespace Chain

theorem tail (h : Chain s a q) : s.tail = a ∨ ∃ k ∈ q, s.tail = s.enq k := by
  induction q generalizing a
  case nil => exact .inl h
  case cons i q hi =>
    cases hi h.right.right
    case inl ht => exact .inr ⟨i, by simp, ht⟩
    case inr hk =>
      have ⟨k, hk, ht⟩ := hk
      exact .inr ⟨k, by simp [hk], ht⟩

theorem front (h : Chain s a q) : InQueue s a := by
  cases q
  case nil       => exact .inl h
  case cons i q  => exact .inr ⟨i, h.left⟩

theorem enq (h : Chain s a q) (hi : i ∈ q) : InQueue s (s.enq i) := by
  induction q generalizing a
  case nil => cases hi
  case cons j q ih =>
    cases hi
    case head    => exact h.right.right.front
    case tail hi => exact ih h.right.right hi

theorem unique
    (h : Chain s a q) (hn : ∀ k ∈ q, s.enq k ≠ a) (he : ∀ {i j}, s.enq i = s.enq j → i = j)
    (hd : q.Nodup) (hi : i ∈ q) (hj : j ∈ q) (hwi : Watches s i b) (hwj : Watches s j b) :
    i = j := by
  induction q generalizing a
  case nil => cases hi
  case cons k q ih =>
    have ⟨hw, _, h⟩ := h
    have ⟨hk, hd⟩ := List.nodup_cons.mp hd
    have front_ne {j : Fin n} (hj : j ∈ q) : ¬Watches s j a := by
      intro ha
      have ⟨c, hwc, hc⟩ := h.watched hj
      have hac := ha.unique hwc
      cases hc
      case inl hc => exact hn k (by simp) (hc.symm.trans hac.symm)
      case inr hc =>
        have ⟨m, hm, hc, _⟩ := hc
        exact hn m (by simp [hm]) (hc.symm.trans hac.symm)
    cases List.mem_cons.mp hi <;> cases List.mem_cons.mp hj
    case inl.inl hi hj => exact hi.trans hj.symm
    case inl.inr hi hj => exact absurd ((hi ▸ hwi).unique hw ▸ hwj) (front_ne hj)
    case inr.inl hi hj => exact absurd ((hj ▸ hwj).unique hw ▸ hwi) (front_ne hi)
    case inr.inr hi hj => exact ih h (fun m hm hmk => hk (he hmk ▸ hm)) hd hi hj

end Chain

namespace Refines

variable {t : FifoLock.State (Fin n)} (ref : Refines s x t)
include ref

theorem enq_inj (h : s.enq i = s.enq j) : i = j := by
  by_contra hn
  exact ref.enq_ne hn h

theorem watches_unique (hi : Watches s i a) (hj : Watches s j a) : i = j :=
  ref.chain.unique (fun _ _ => ref.front_ne.symm) ref.enq_inj ref.nodup
    ((ref.queued i).mpr hi.queued) ((ref.queued j).mpr hj.queued) hi hj

theorem inQueue_iff : InQueue s a ↔ a = x ∨ ∃ k ∈ t.queue, a = s.enq k := by
  constructor
  case mp =>
    intro h
    cases h
    case inl ht => exact ht ▸ ref.chain.tail
    case inr hi =>
      have ⟨i, hw⟩ := hi
      have ⟨b, hb, hab⟩ := ref.chain.watched ((ref.queued i).mpr hw.queued)
      rw [hw.unique hb]
      exact hab.imp_right fun ⟨k, hk, hb, _⟩ => ⟨k, hk, hb⟩
  case mpr =>
    intro h
    cases h
    case inl ha => exact ha ▸ ref.chain.front
    case inr hk =>
      have ⟨k, hk, ha⟩ := hk
      exact ha ▸ ref.chain.enq hk

omit ref in
theorem node_eq (hi : ¬(s.pc i).Queued) : s.node i = s.enq i := by
  cases hp : s.pc i <;> simp_all [State.enq, Pc.Queued]

theorem not_inQueue (hi : ¬(s.pc i).Queued) : ¬InQueue s (s.node i) := by
  rw [ref.inQueue_iff, node_eq hi]
  intro h
  cases h
  case inl h => exact ref.front_ne h.symm
  case inr h =>
    have ⟨k, hk, he⟩ := h
    exact hi <| (ref.queued i).mp (ref.enq_inj he ▸ hk)

theorem node_cases (a : Node n) :
    (∃ i, ∀ j, ¬(s.pc j).Queued ∧ s.node j = a ↔ j = i) ∧ ¬InQueue s a ∨
    (∀ i, ¬(s.pc i).Queued → s.node i ≠ a) ∧ InQueue s a ∧ {i | Watches s i a}.Subsingleton := by
  by_cases ha : InQueue s a
  case pos =>
    exact .inr ⟨fun i hi hn => ref.not_inQueue hi (hn ▸ ha), ha,
      fun _ hi _ hj => ref.watches_unique hi hj⟩
  case neg =>
    refine .inl ⟨?_, ha⟩
    have ⟨o, ho⟩ := Finite.surjective_of_injective ref.slots a
    cases o
    case none => exact absurd (ref.inQueue_iff.mpr (.inl ho.symm)) ha
    case some i =>
      have hi : ¬(s.pc i).Queued := fun hi =>
        ha <| ref.inQueue_iff.mpr <| .inr ⟨i, (ref.queued i).mpr hi, ho.symm⟩
      refine ⟨i, fun j => ⟨fun ⟨hj, hn⟩ => ?_, fun hji => ?_⟩⟩
      · exact ref.enq_inj <| (node_eq hj ▸ hn).trans ho.symm
      · exact hji ▸ ⟨hi, (node_eq hi).trans ho⟩

theorem eq_of_inside (hi : (s.pc i).Inside) (hj : (s.pc j).Inside) : i = j := by
  have head {i : Fin n} (hi : (s.pc i).Inside) : ∃ q, t.queue = i :: q := by
    have ⟨q, hq, _⟩ : ∃ q, t.queue = i :: q ∧ (s.pc i).Head t.inside := by
      cases hp : s.pc i <;> simp [hp, Pc.Inside] at hi
      all_goals exact ref.eq_head hp trivial id
    exact ⟨q, hq⟩
  have ⟨q, hq⟩ := head hi
  have ⟨r, hr⟩ := head hj
  exact (List.cons.inj (hq.symm.trans hr)).left

theorem not_spin_of_setLocked (hi : s.pc i = .setLocked) : s.pc j ≠ .spin (s.node i) := by
  intro hj
  have hni := ref.not_inQueue (i := i) (by simp [hi, Pc.Queued])
  obtain ⟨b, hw, _⟩ := ref.chain.watched ((ref.queued j).mpr (by simp [hj, Pc.Queued]))
  have hb : s.node i = b := by
    have hw' := hw
    simp only [Watches, hj] at hw'
    exact hw'.left
  exact hni <| .inr ⟨j, hb ▸ hw⟩

end Refines

theorem nodes_apart {l : List (Event (Fin n))} (r : ((machine n).logging event).Reachable (s, l)) :
    {i | (s.pc i).Inside}.Subsingleton ∧ entered l <+: enqueued l ∧
    (∀ a, (∃ i, ∀ j, ¬(s.pc j).Queued ∧ s.node j = a ↔ j = i) ∧ ¬InQueue s a ∨
      (∀ i, ¬(s.pc i).Queued → s.node i ≠ a) ∧ InQueue s a ∧
        {i | Watches s i a}.Subsingleton) ∧
    ∀ i j, s.pc i = .setLocked → s.pc j ≠ .spin (s.node i) :=
  have ⟨_, _, run, ref⟩ := refines_of_reachable r
  ⟨fun _ hi _ hj => ref.eq_of_inside hi hj, FifoLock.entered_enqueued run, ref.node_cases,
    fun _ _ hi => ref.not_spin_of_setLocked hi⟩

-- Thread 0 has taken over `lock_node` and is about to write to it while thread 1 has not noticed yet
-- that the node which it watches is free.
theorem nodes_apart_two :
    ∃ s : State 2, s.pc 0 = .setLocked ∧ s.node 0 = none ∧ s.pc 1 = .spin (some 0) ∧
      ((∃ i, ∀ j, ¬(s.pc j).Queued ∧ s.node j = none ↔ j = i) ∧ ¬InQueue s none ∨
        (∀ i, ¬(s.pc i).Queued → s.node i ≠ none) ∧ InQueue s none ∧
          {i | Watches s i none}.Subsingleton) :=
  have ⟨s, h, h₀, hn, h₁⟩ : ∃ s : State 2, ((machine 2).logging event).exec
      (⟨fun _ => .idle, some, fun _ => false, id, none⟩, [])
      (Machine.schedule [(5, 0), (4, 1), (5, 0)]) =
        some (s, [.enqueue 0, .enter 0, .enqueue 1, .leave 0]) ∧
        s.pc 0 = .setLocked ∧ s.node 0 = none ∧ s.pc 1 = .spin (some 0) :=
    ⟨_, rfl, rfl, rfl, rfl⟩
  ⟨s, h₀, hn, h₁, (nodes_apart (.of_exec
    (by exact ⟨⟨fun _ => ⟨rfl, rfl⟩, rfl, rfl⟩, rfl⟩) h)).right.right.left none⟩

section Client

open LockClient (Stage Lock Live)

def Pc.stage : Pc n → Stage
  | idle                                       => .idle
  | setLocked | exchange | setPrev _ | spin _  => .locking
  | critical                                   => .inside
  | loadPrev | adopt _ | clear _               => .unlocking

def stage (s : State n) (i : Fin n) : Stage :=
  (s.pc i).stage

-- The program point which follows. All the steps but the read of a locked node go on.
def Pc.after (s : State n) (i : Fin n) : Pc n → Pc n
  | idle      => setLocked
  | setLocked => exchange
  | exchange  => setPrev s.tail
  | setPrev p => spin p
  | spin p    => if s.locked p then spin p else critical
  | critical  => loadPrev
  | loadPrev  => adopt (s.prev (s.node i))
  | adopt _   => clear (s.node i)
  | clear _   => idle

theorem next_pc : (next s i).pc = update s.pc i ((s.pc i).after s i) := by
  cases hp : s.pc i <;> simp only [next, hp, Pc.after, State.goto]

theorem moves : LockClient.Moves (machine n) State.pc s i ((s.pc i).after s i) :=
  ⟨i, next s i, rfl, next_pc⟩

theorem lock : Lock (machine n) stage := by
  apply Lock.of_moves
  case init =>
    intro s t h
    rw [(h.left t).left]
    rfl
  case step =>
    intro s i s' hs
    cases hs
    refine ⟨i, _, next_pc, ?_⟩
    cases s.pc i <;> simp only [Pc.after]
    case idle     => exact .lock
    case critical => exact .unlock
    case clear    => exact .leave
    case spin     => split <;> constructor
    all_goals exact .stay
  case unique =>
    intro s i j r hi hj
    have ⟨_, r⟩ : ∃ l, ((machine n).logging event).Reachable (s, l) := r.exists_logging
    have ⟨_, _, _, ref⟩ := refines_of_reachable r
    have inside {p : Pc n} (h : p.stage = .inside) : p.Inside := by
      cases p <;> cases h
      trivial
    exact ref.eq_of_inside (inside hi) (inside hj)

-- The statements a thread has before it in its call, if it need not wait.
def Pc.rank : Pc n → ℕ
  | setLocked => 3
  | exchange  => 2
  | setPrev _ => 1
  | loadPrev  => 2
  | adopt _   => 1
  | _         => 0

theorem live : Live (machine n) stage := by
  apply Live.of_moves Pc.rank
  case call =>
    intro s i _ hi
    refine ⟨_, moves, ?_⟩
    cases hp : s.pc i <;> simp_all [Pc.stage, Pc.after]
  case work =>
    intro s r hn ⟨i, hi⟩
    have ⟨_, r⟩ : ∃ l, ((machine n).logging event).Reachable (s, l) := r.exists_logging
    have ⟨x, t, _, ref⟩ := refines_of_reachable r
    by_cases hw : ∃ j, (s.pc j).stage ≠ .idle ∧ ∀ p, s.pc j ≠ .spin p
    case pos =>
      obtain ⟨j, hj, hs⟩ := hw
      have hn := hn j
      refine ⟨j, _, moves, ?_⟩
      cases hp : s.pc j <;> simp_all [Pc.stage, Pc.after, Pc.rank]
    case neg =>
      -- All of them spin, and the node at the front of the queue is free.
      have hs (j : Fin n) (hj : (s.pc j).stage ≠ .idle) : ∃ p, s.pc j = .spin p := by
        by_contra h
        exact hw ⟨j, hj, not_exists.mp h⟩
      have hq : i ∈ t.queue := by
        have ⟨p, hp⟩ := hs i hi
        simp [ref.queued, hp, Pc.Queued]
      cases hq' : t.queue
      case nil => simp [hq'] at hq
      case cons j q =>
        have hj : (s.pc j).Queued := (ref.queued j).mp (by simp [hq'])
        have ⟨p, hp⟩ := hs j fun h => by cases hp : s.pc j <;> simp_all [Pc.stage, Pc.Queued]
        have hc := ref.chain
        rw [hq'] at hc
        have hx : p = x := by
          have hw := hc.left
          rw [Watches, hp] at hw
          exact hw.left
        refine ⟨j, _, moves, ?_⟩
        simp [hp, hx, Pc.stage, Pc.after, ref.free]

end Client

end Clh
