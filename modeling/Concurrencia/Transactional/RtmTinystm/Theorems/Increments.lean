import Concurrencia.SoftwareTransactions.GlobalLock
import Concurrencia.Transactional.RtmTinystm.Theorems.Apart
import Mathlib.Algebra.Ring.Int.Defs

open Function Threads

namespace RtmTinystm

open TransactionalMemory SoftwareTransactions

variable {n m : ℕ} {σ : Type*}

-- The operations of a thread which increments the element `k`, up to where it is.
def Pc.ops (k : Fin m) : Pc → Option (List (Op (Fin m) ℤ))
  | stmLoad     => some []
  | stmStore c  => some [.load k (c - 1)]
  | stmCommit c => some (increment k (c - 1))
  | _           => none

theorem ops_eq_none {p : Pc} {k : Fin m} (h : ¬p.Software) : p.ops k = none := by
  cases p <;> first | rfl | exact absurd trivial h

theorem call_eq_none {p : Pc} {k : Fin m} (h : ¬p.Software) : p.call k = none := by
  cases p <;> first | rfl | exact absurd trivial h

structure Doing (k : Fin m) (p : Pc) (x : Client (Fin m) ℤ) : Prop where
  ops  : x.ops = p.ops k
  call : x.call = none ∨ x.call = p.call k

variable {k : Fin m} {p : Pc} {x : Client (Fin m) ℤ} {e : SoftwareTransactions.Action (Fin m) ℤ}

namespace Doing

theorem idle (ho : p.ops k = none) : Doing k p .idle where
  ops  := ho.symm
  call := .inl rfl

theorem eq_idle (h : Doing k p x) (ho : p.ops k = none) (hc : p.call k = none) : x = .idle := by
  cases x
  case mk ops call =>
    cases h.ops.trans ho
    cases h.call.elim id (·.trans hc)
    rfl

theorem step (h : Doing k p x) (hc : p.call k = some e.call) (hr : e ≠ .restart .start) :
    ∃ x', x.step e = some x' ∧ Doing k (p.after e) x' := by
  have hg : x.call = none ∨ x.call = some e.call := hc ▸ h.call
  have ho := h.ops
  cases e <;> simp only [Client.step, if_pos hg, ho]
  case start =>
    cases p <;> cases hc
    exact ⟨_, rfl, rfl, .inl rfl⟩
  case load =>
    cases p <;> cases hc
    exact ⟨_, rfl, by simp [Pc.after, Pc.ops, Client.within], .inl rfl⟩
  case store =>
    cases p <;> cases hc
    exact ⟨_, rfl, by simp [Pc.after, Pc.ops, Client.within, increment], .inl rfl⟩
  case commit =>
    cases p <;> cases hc
    exact ⟨_, rfl, rfl, .inl rfl⟩
  case pending =>
    cases p <;> cases hc
    all_goals exact ⟨_, rfl, rfl, .inr rfl⟩
  case restart =>
    cases p <;> cases hc
    case stmStart => exact absurd rfl hr
    all_goals exact ⟨_, rfl, rfl, .inl rfl⟩

end Doing

variable [NeZero m] {stm : Stm (Fin n) (Fin m) ℤ σ} {s s' : State n m σ} {i : Fin n} {max : ℕ}
variable {l l' old : List (Fin m)} {d : σ} {c : Fin m → ℤ} {w : Session (Fin n) (Fin m) ℤ σ}
variable {a : Label n m} {y : Memory (Fin n) (Cell m) ℤ}

-- The software transactions since nobody was in one: `l` are the increments so far and `old` those
-- before the first of these transactions.
structure Window (stm : Stm (Fin n) (Fin m) ℤ σ) (s : State n m σ) (l : List (Fin m)) (d : σ)
    (c : Fin m → ℤ) (w : Session (Fin n) (Fin m) ℤ σ) (old : List (Fin m)) : Prop where
  quiescent : stm.Quiescent d
  reachable : (stm.session d c).Reachable w
  data      : w.data = s.stm
  cells     : w.cells = s.counters
  doing     : ∀ i, Doing (position s i) (s.pc i) (w.client i)
  done      : ∀ t ∈ w.done, ∃ k a, t = increment k a
  start     : ∀ p, c p = old.count p
  log       : l = old ++ w.done.filterMap target

def Explained (stm : Stm (Fin n) (Fin m) ℤ σ) (s : State n m σ) (l : List (Fin m)) : Prop :=
  ∃ d c w old, Window stm s l d c w old

theorem Explained.of_settled (hd : stm.Quiescent s.stm) (hc : ∀ p, s.counters p = l.count p)
    (hs : ∀ i, ¬(s.pc i).Software) : Explained stm s l :=
  ⟨s.stm, s.counters, .init s.stm s.counters, l, {
    quiescent := hd
    reachable := .init rfl
    data      := rfl
    cells     := rfl
    doing i   := .idle (ops_eq_none (hs i))
    done _ ht := by cases ht
    start     := hc
    log       := (List.append_nil l).symm }⟩

theorem Explained.init : Explained stm (init n m stm.init) [] :=
  .of_settled .init (fun _ => rfl) fun _ => id

-- A thread has done its increment when it commits.
theorem Doing.committed (h : Doing (position s i) p x) (hc : p.call (position s i) = some e.call) :
    (x.committed e).toList = [] ∧ event s (.stm i e) = none ∨
    ∃ a, (x.committed e).toList = [increment (position s i) a] ∧
      event s (.stm i e) = some (position s i) := by
  cases e
  case commit =>
    have ho := h.ops
    cases p <;> cases hc
    exact .inr ⟨_, by rw [Client.committed, ho]; rfl, rfl⟩
  all_goals exact .inl ⟨rfl, rfl⟩

namespace Window

variable (win : Window stm s l d c w old)
include win

theorem settled (hm : stm.Serializable) (hs : ∀ i, ¬(s.pc i).Software) :
    stm.Quiescent s.stm ∧ ∀ p, s.counters p = l.count p := by
  have hc : w.Closed := fun i => (win.doing i).eq_idle (ops_eq_none (hs i)) (call_eq_none (hs i))
  constructor
  case left => exact win.data ▸ win.quiescent.closed win.reachable hc
  case right =>
    intro p
    have h := hm.count win.quiescent win.reachable hc win.done p
    rw [← win.cells, h, win.start, win.log, List.count_append, Nat.cast_add]

-- The steps outside of the software transactions which do not touch the array.
theorem keep (hs : s'.stm = s.stm) (hc : s'.counters = s.counters)
    (hd : ∀ i, s'.index i = s.index i ∧ s'.pc i = s.pc i ∨
      (s.pc i).call (position s i) = none ∧ (s.pc i).ops (position s i) = none ∧
      (s'.pc i).ops (position s' i) = none) : Window stm s' l d c w old := by
  refine { win with
    data    := win.data.trans hs.symm
    cells   := win.cells.trans hc.symm
    doing i := ?_ }
  cases hd i
  case inl h =>
    rw [h.right, position, h.left]
    exact win.doing i
  case inr h =>
    rw [(win.doing i).eq_idle h.right.left h.left]
    exact .idle h.right.right

theorem move {q : Pc} (hp : s.pc i = q) (he : event s a = none) (hs : s'.stm = s.stm)
    (hc : s'.counters = s.counters) (hp' : s'.pc = update s.pc i p)
    (hi : ∀ j ≠ i, s'.index j = s.index j) (hn : q.call (position s i) = none)
    (ho : q.ops (position s i) = none) (hq : p.ops (position s' i) = none) :
    Explained stm s' (l ++ (event s a).toList) := by
  rw [he, Option.toList_none, List.append_nil]
  refine ⟨d, c, w, old, win.keep hs hc fun j => ?_⟩
  by_cases hj : j = i
  case pos =>
    subst hj
    exact .inr ⟨by rwa [hp], by rwa [hp], by rwa [hp', update_self]⟩
  case neg => exact .inl ⟨hi j hj, by rw [hp', update_of_ne hj]⟩

theorem abort (hy : s.memory.abort i = some y) (he : event s a = none) :
    Explained stm (setMemory s y) (l ++ (event s a).toList) := by
  rw [he, Option.toList_none, List.append_nil]
  refine ⟨d, c, w, old, win.keep rfl ?_ fun _ => .inl ⟨rfl, rfl⟩⟩
  ext1 p
  simp [State.counters, setMemory, Memory.abort_cells hy]

-- A step inside of a call is one of the session.
theorem call {d' : σ} {ws : List (Fin m × ℤ)} (ho : s.memory.mode i = .outside)
    (hc : (s.pc i).call (position s i) = some e.call) (hr : e ≠ .restart .start)
    (hx : stm.step s.stm s.counters i e = some (d', ws)) :
    Explained stm ({ storeAll s i ws with stm := d' }.goto i ((s.pc i).after e))
      (l ++ (event s (.stm i e)).toList) := by
  obtain ⟨x, hs, hd⟩ := (win.doing i).step hc hr
  have r := win.reachable.step (Session.step_eq hs (win.data ▸ win.cells ▸ hx))
  have he := (win.doing i).committed hc
  refine ⟨d, c, _, old, win.quiescent, r, rfl, ?_, ?_, ?_, win.start, ?_⟩
  · exact win.cells ▸ (storeAll_counters ho).symm
  · intro j
    by_cases hj : j = i
    case pos =>
      subst hj
      simpa [storeAll_index, position] using hd
    case neg => simpa [storeAll_index, storeAll_pc, position, hj] using win.doing j
  · intro t ht
    cases List.mem_append.mp ht
    case inl ht => exact win.done t ht
    case inr ht =>
      cases he
      case inl he => simp [he.left] at ht
      case inr he =>
        obtain ⟨a, ha, _⟩ := he
        exact ⟨_, a, by simpa [ha] using ht⟩
  · rw [win.log, List.filterMap_append, List.append_assoc]
    cases he
    case inl he => simp [he]
    case inr he =>
      obtain ⟨a, ha, hv⟩ := he
      simp [ha, hv, increment, target]

end Window

theorem no_software (inv : Inv s) (hz : s.memory.cells .inStm = 0) (j : Fin n) :
    ¬(s.pc j).Software := by
  intro hj
  have hc := inv.count
  rw [hz] at hc
  have := count_pos (f := s.pc) hj
  omega

omit [NeZero m] in
theorem load_counters {k : Cell m} : (load s i k).counters = s.counters := by
  ext1 p
  simp [State.counters, load]

omit [NeZero m] in
theorem store_inside_counters {k : Cell m} {b : ℤ} {t : Transaction (Cell m) ℤ}
    (ht : s.memory.mode i = .inside t) : (store s i k b).counters = s.counters := by
  ext1 p
  simp [State.counters, store, Memory.store_inside ht]

omit [NeZero m] in
theorem store_inStm_counters {b : ℤ} (ho : s.memory.mode i = .outside) :
    (store s i .inStm b).counters = s.counters := by
  ext1 p
  simp [State.counters, store, Memory.store_outside ho]

namespace Explained

variable (h : Explained stm s l)
include h

theorem xend (hm : stm.Serializable) (inv : Inv s) (ha : s.memory.mode i ≠ .aborted)
    (hp : s.pc i = .xend) (hy : s.memory.commit i = some y) :
    Explained stm (next (setMemory s y) i) (l ++ [position s i]) := by
  have ⟨t, v, ht, hz, hv, hw⟩ := inv.xend_inside ha hp
  have hs := no_software inv hz
  have ⟨_, _, _, _, win⟩ := h
  have ⟨hq, hc⟩ := win.settled hm hs
  rw [Memory.commit_inside ht, Transaction.read_of_single hw] at hy
  cases hy
  refine .of_settled hq ?_ ?_
  · intro p
    rw [List.count_append, Nat.cast_add, ← hc]
    by_cases hk : p = position s i
    case pos => simp [next, State.counters, setMemory, hk, ← hv]
    case neg => simp [next, State.counters, setMemory, hk, Ne.symm hk]
  · intro j
    by_cases hj : j = i
    case pos => simp [next, hj, Pc.Software]
    case neg => simpa [next, setMemory, hj] using hs j

theorem statement (hm : stm.Serializable) (inv : Inv s) (ha : s.memory.mode i ≠ .aborted)
    (hs : Statement max s i s') : Explained stm s' (l ++ (event s (.thread i)).toList) := by
  obtain ⟨d, c, w, old, win⟩ := id h
  cases hs
  case xend hp hy   => simpa [event, hp] using h.xend hm inv ha hp hy
  case xabort hp hy => exact win.abort hy (by simp [event, hp])
  case alone hp _ =>
    exact win.move hp (by simp [event, hp]) rfl load_counters rfl (fun _ _ => rfl) rfl rfl rfl
  case busy hp _ =>
    exact win.move hp (by simp [event, hp]) rfl load_counters rfl (fun _ _ => rfl) rfl rfl rfl
  case load hp =>
    exact win.move hp (by simp [event, hp]) rfl load_counters rfl (fun _ _ => rfl) rfl rfl rfl
  case store hp =>
    obtain ⟨t, ht⟩ := inv.inside_of ha (by simp [hp, Pc.Hardware])
    exact win.move hp (by simp [event, hp]) rfl (store_inside_counters ht) rfl (fun _ _ => rfl)
      rfl rfl rfl
  case fetchAdd hp =>
    have ho := inv.outside_of ha (by simp [hp, Pc.Hardware])
    exact win.move hp (by simp [event, hp]) rfl (store_inStm_counters ho) rfl (fun _ _ => rfl)
      rfl rfl rfl
  case fetchSub hp =>
    have ho := inv.outside_of ha (by simp [hp, Pc.Hardware])
    have hi (j : Fin n) (hj : j ≠ i) : update s.index i (s.index i + 1) j = s.index j :=
      update_of_ne hj ..
    exact win.move hp (by simp [event, hp]) rfl (store_inStm_counters ho) rfl hi rfl rfl rfl
  case enter hp _ =>
    exact win.move hp (by simp [event, hp]) rfl rfl rfl (fun _ _ => rfl) rfl rfl rfl
  case finish hp =>
    exact win.move hp (by simp [event, hp]) rfl rfl rfl (fun _ _ => rfl) rfl rfl rfl
  case start hp =>
    exact win.move hp (by simp [event, hp]) rfl rfl rfl (fun _ _ => rfl) rfl rfl rfl

theorem resume (inv : Inv s) (hy : s.memory.resume i = some y) :
    Explained stm ((setMemory s y).goto i .fetchAdd) (l ++ (event s (.resume i)).toList) := by
  have ⟨d, c, w, old, win⟩ := h
  have hc : (setMemory s y).counters = s.counters := by
    ext1 p
    simp [State.counters, setMemory, Memory.resume_cells hy]
  cases hm : s.memory.mode i
  case aborted =>
    have hs := not_software (inv.fits_of hm rfl)
    exact win.move rfl rfl rfl hc rfl (fun _ _ => rfl) (call_eq_none hs) (ops_eq_none hs) rfl
  all_goals simp [Memory.resume, hm] at hy

theorem step (hm : stm.Serializable) (inv : Inv s) (hs : Step stm max s a s') :
    Explained stm s' (l ++ (event s a).toList) := by
  have ⟨d, c, w, old, win⟩ := h
  cases hs
  case statement ha hs => exact h.statement hm inv ha hs
  case abort hy        => exact win.abort hy rfl
  case resume hy       => exact h.resume inv hy
  case stm hc hr hx    =>
    exact win.call (inv.outside_of_software (software_of_call hc)) hc hr hx

end Explained

theorem explained_of_reachable (hm : stm.Serializable)
    (r : ((machine stm max).logging event).Reachable (s, l)) : Explained stm s l := by
  apply r.logging_invariant
  case init =>
    rintro _ rfl
    exact .init
  case step => exact fun _ _ _ _ r h hs => h.step hm (inv_of_reachable r) (.of_step hs)

-- `l` are the elements of the array in the order of their increments.
theorem increments_kept (hm : stm.Serializable)
    (r : ((machine stm max).logging event).Reachable (s, l)) :
    s.memory.cells .inStm = count s.pc Pc.Software ∧
    (∀ i s', s.pc i = .xend → step stm max s (.thread i) = some s' → ∀ j, ¬(s.pc j).Software) ∧
    ((∀ i, ¬(s.pc i).Software) → ∀ p, s.memory.cells (.counter p) = l.count p) := by
  have inv := inv_of_reachable r.of_logging
  refine ⟨inv.count, ?_, ?_⟩
  · intro i s' hp hs
    cases Step.of_step hs
    case statement ha _ =>
      have ⟨_, _, _, hz, _⟩ := inv.xend_inside ha hp
      exact no_software inv hz
  · intro hs
    have ⟨_, _, _, _, win⟩ := explained_of_reachable hm r
    exact (win.settled hm hs).right

-- Thread 1 falls back while thread 0 is in its transaction, which aborts, and so does thread 0. The
-- second increment of thread 1 is in hardware.
theorem increments_kept_two : ∃ s : State 2 1 (GlobalLock.Data (Fin 2) (Fin 1) ℤ),
    s.memory.cells (.counter 0) = 3 :=
  have ⟨s, h, hs⟩ : ∃ s,
      ((machine (GlobalLock.stm (Fin 2) (Fin 1) ℤ) 2).logging event).exec (init 2 1 none, [])
        (Machine.schedule [
          (5, .thread 0), (2, .thread 1), (1, .abort 1), (1, .resume 1), (1, .thread 1),
          (1, .stm 1 .start), (1, .stm 1 (.load 0 0)), (1, .stm 1 (.store 0 1)),
          (1, .stm 1 .commit), (1, .thread 1),
          (1, .resume 0), (1, .thread 0), (1, .stm 0 .start), (1, .stm 0 (.load 0 1)),
          (1, .stm 0 (.store 0 2)), (1, .stm 0 .commit), (1, .thread 0), (6, .thread 1)]) =
      some (s, [0, 0, 0]) ∧ ∀ i, ¬(s.pc i).Software := ⟨_, rfl, by decide⟩
  have h := increments_kept GlobalLock.stm_serializable (.of_exec (by exact ⟨rfl, rfl⟩) h)
  ⟨s, h.right.right hs 0⟩

end RtmTinystm
