import Concurrencia.Transactional.RtmTinystm.Basic
import Concurrencia.Threads.Count
import Mathlib.Tactic.SplitIfs

open Function Threads

namespace RtmTinystm

section Step

open TransactionalMemory SoftwareTransactions

variable {n m : ℕ} {σ : Type*} [NeZero m]

-- One constructor for each way through a statement.
inductive Statement (max : ℕ) (s : State n m σ) (i : Fin n) : State n m σ → Prop
  | enter : (s.pc i = .loop) → (s.index i < max) → Statement max s i (s.goto i .begin)
  | finish : (s.pc i = .loop) → Statement max s i (s.goto i .finished)
  | start : (s.pc i = .begin) →
    Statement max s i ((setMemory s (s.memory.start i)).goto i .testStm)
  | alone : (s.pc i = .testStm) → (s.memory.read i .inStm = 0) →
    Statement max s i ((load s i .inStm).goto i .load)
  | busy : (s.pc i = .testStm) → (s.memory.read i .inStm ≠ 0) →
    Statement max s i ((load s i .inStm).goto i .xabort)
  | xabort : (s.pc i = .xabort) → (s.memory.abort i = some x) →
    Statement max s i (setMemory s x)
  | load : (s.pc i = .load) → Statement max s i ((load s i (.counter (position s i))).goto i
    (.store (s.memory.read i (.counter (position s i)))))
  | store : (s.pc i = .store v) →
    Statement max s i ((store s i (.counter (position s i)) (v + 1)).goto i .xend)
  | xend : (s.pc i = .xend) → (s.memory.commit i = some x) →
    Statement max s i (next (setMemory s x) i)
  | fetchAdd : (s.pc i = .fetchAdd) →
    Statement max s i ((store s i .inStm (s.memory.read i .inStm + 1)).goto i .stmStart)
  | fetchSub : (s.pc i = .fetchSub) →
    Statement max s i (next (store s i .inStm (s.memory.read i .inStm - 1)) i)

inductive Step (stm : Stm (Fin n) (Fin m) ℤ σ) (max : ℕ) (s : State n m σ) :
    Label n m → State n m σ → Prop
  | statement : (s.memory.mode i ≠ .aborted) → (Statement max s i s') →
    Step stm max s (.thread i) s'
  | abort : (s.memory.abort i = some x) → Step stm max s (.abort i) (setMemory s x)
  | resume : (s.memory.resume i = some x) →
    Step stm max s (.resume i) ((setMemory s x).goto i .fetchAdd)
  | stm : ((s.pc i).call (position s i) = some e.call) → (e ≠ .restart .start) →
    (stm.step s.stm s.counters i e = some (d, ws)) →
    Step stm max s (.stm i e) ({ storeAll s i ws with stm := d }.goto i ((s.pc i).after e))

variable {stm : Stm (Fin n) (Fin m) ℤ σ} {max : ℕ} {s s' : State n m σ} {i : Fin n}
variable {l : Label n m} {e : SoftwareTransactions.Action (Fin m) ℤ}

theorem Statement.of_step (h : programStep max s i = some s') : Statement max s i s' := by
  cases hp : s.pc i <;> simp only [programStep, hp] at h
  case loop =>
    split_ifs at h with hi
    all_goals cases h
    · exact .enter hp hi
    · exact .finish hp
  case testStm =>
    split_ifs at h with hm
    all_goals cases h
    · exact .alone hp hm
    · exact .busy hp hm
  case xabort =>
    have ⟨_, hx, h⟩ := Option.map_eq_some_iff.mp h
    exact h ▸ .xabort hp hx
  case xend =>
    have ⟨_, hx, h⟩ := Option.map_eq_some_iff.mp h
    exact h ▸ .xend hp hx
  all_goals cases h
  case begin    => exact .start hp
  case load     => exact .load hp
  case store    => exact .store hp
  case fetchAdd => exact .fetchAdd hp
  case fetchSub => exact .fetchSub hp

theorem Step.of_thread (h : threadStep max s i = some s') : Step stm max s (.thread i) s' := by
  cases hm : s.memory.mode i <;> simp only [threadStep, hm] at h
  case aborted => cases h
  all_goals exact .statement (by simp [hm]) (.of_step h)

theorem Step.of_stm (h : stmStep stm s i e = some s') : Step stm max s (.stm i e) s' := by
  rw [stmStep] at h
  split_ifs at h with hc
  have ⟨_, hx, h⟩ := Option.map_eq_some_iff.mp h
  exact h ▸ .stm hc.left hc.right hx

theorem Step.of_step (h : step stm max s l = some s') : Step stm max s l s' := by
  cases l <;> simp only [step] at h
  case thread => exact .of_thread h
  case stm    => exact .of_stm h
  case abort  =>
    have ⟨_, hx, h⟩ := Option.map_eq_some_iff.mp h
    exact h ▸ .abort hx
  case resume =>
    have ⟨_, hx, h⟩ := Option.map_eq_some_iff.mp h
    exact h ▸ .resume hx

end Step

open TransactionalMemory SoftwareTransactions

variable {n m : ℕ} {σ : Type*}

-- The statements of a hardware transaction.
def Pc.Hardware : Pc → Prop
  | testStm | xabort | load | store _ | xend => True
  | _                                        => False

-- A transaction past its test has found `in_stm` at 0.
def Fits (k : Fin m) : Mode (Cell m) ℤ → Pc → Prop
  | .outside, p           => ¬p.Hardware
  | .inside t, .testStm   => t.writes = []
  | .inside _, .xabort    => True
  | .inside t, .load      => (.inStm, 0) ∈ t.reads ∧ t.writes = []
  | .inside t, .store v   => (.inStm, 0) ∈ t.reads ∧ t.writes = [] ∧ (.counter k, v) ∈ t.reads
  | .inside t, .xend      =>
    (.inStm, 0) ∈ t.reads ∧ ∃ v, t.writes = [(.counter k, v + 1)] ∧ (.counter k, v) ∈ t.reads
  | .inside _, _          => False
  | .aborted, p           => p.Hardware

-- Makes the equations before the proofs below, many of which need them at the same time.
attribute [local grind =] Pc.Hardware Fits

variable {k : Fin m} {x : Mode (Cell m) ℤ} {p : Pc} {ks : List (Cell m)}
variable {t : Transaction (Cell m) ℤ}

theorem Fits.hardware (h : Fits k (.inside t) p) : p.Hardware := by
  cases p <;> first | exact h | trivial

theorem Fits.conflict (h : Fits k x p) : Fits k (x.conflict ks) p := by
  cases x <;> simp only [Mode.conflict]
  case inside =>
    split_ifs
    · exact h.hardware
    · exact h
  all_goals exact h

theorem not_software (h : p.Hardware) : ¬p.Software := by
  intro hs
  cases p <;> first | exact h | exact hs

theorem software_of_call {c : Call (Fin m) ℤ} (h : p.call k = some c) : p.Software := by
  cases p <;> trivial

theorem software_after {e : SoftwareTransactions.Action (Fin m) ℤ} (h : p.Software) :
    (p.after e).Software := by
  cases e <;> trivial

variable {s s' : State n m σ} {i j : Fin n} {ws : List (Fin m × ℤ)}

-- The stores of a software transaction, one after the other.
section StoreAll

theorem storeAll_pc : (storeAll s i ws).pc = s.pc := by
  induction ws generalizing s
  case nil        => rfl
  case cons w _ h => exact h (s := store s i _ _)

theorem storeAll_index : (storeAll s i ws).index = s.index := by
  induction ws generalizing s
  case nil        => rfl
  case cons w _ h => exact h (s := store s i _ _)

theorem storeAll_current (h : s.memory.Current) : (storeAll s i ws).memory.Current := by
  induction ws generalizing s
  case nil         => exact h
  case cons w _ hi => exact hi (s := store s i _ _) h.store

theorem storeAll_elsewhere : s.memory.Elsewhere i (storeAll s i ws).memory := by
  induction ws generalizing s
  case nil         => exact .refl
  case cons w _ hi => exact Memory.Elsewhere.store.trans (hi (s := store s i _ _))

theorem storeAll_outside (h : s.memory.mode i = .outside) :
    (storeAll s i ws).memory.mode i = .outside := by
  induction ws generalizing s
  case nil         => exact h
  case cons w _ hi => exact hi (s := store s i _ _) (Memory.store_outside_iff.mpr h)

theorem storeAll_inStm (h : s.memory.mode i = .outside) :
    (storeAll s i ws).memory.cells .inStm = s.memory.cells .inStm := by
  induction ws generalizing s
  case nil         => rfl
  case cons w _ hi =>
    refine (hi (s := store s i _ _) (Memory.store_outside_iff.mpr h)).trans ?_
    simp [store, Memory.store_outside h]

theorem store_counters {a : ℤ} (h : s.memory.mode i = .outside) :
    (store s i (.counter k) a).counters = update s.counters k a := by
  ext1 p
  by_cases hp : p = k
  case pos => simp [State.counters, store, Memory.store_outside h, hp]
  case neg => simp [State.counters, store, Memory.store_outside h, hp]

theorem storeAll_counters (h : s.memory.mode i = .outside) :
    (storeAll s i ws).counters = assign s.counters ws := by
  induction ws generalizing s
  case nil         => rfl
  case cons w _ hi =>
    rw [assign_cons, ← store_counters h]
    exact hi (s := store s i _ _) (Memory.store_outside_iff.mpr h)

end StoreAll

variable [NeZero m] {max : ℕ} {l : Label n m} {v : ℤ}
variable {stm : Stm (Fin n) (Fin m) ℤ σ} {y : Memory (Fin n) (Cell m) ℤ}

structure Inv (s : State n m σ) : Prop where
  current : s.memory.Current
  fits    : ∀ i, Fits (position s i) (s.memory.mode i) (s.pc i)
  count   : s.memory.cells .inStm = count s.pc Pc.Software

namespace Inv

theorem init : Inv (init n m d : State n m σ) where
  current _ _ h := by cases h
  fits _        := id
  count         := (congrArg Nat.cast (count_eq_zero fun _ => id)).symm

variable (inv : Inv s)
include inv

theorem step_of (hx : s'.memory.Current) (he : s.memory.Elsewhere i s'.memory)
    (hp : s'.pc = update s.pc i p) (hi : ∀ j ≠ i, s'.index j = s.index j)
    (hf : Fits (position s' i) (s'.memory.mode i) p)
    (hc : s'.memory.cells .inStm = Threads.count (update s.pc i p) Pc.Software) : Inv s' where
  current := hx
  count   := by rw [hc, hp]
  fits j  := by
    rw [hp]
    by_cases hj : j = i
    case pos =>
      subst hj
      simpa
    case neg =>
      obtain ⟨ks, hk⟩ := he j hj
      rw [hk, position, hi j hj, update_of_ne hj]
      exact (inv.fits j).conflict

theorem quiet (hx : s'.memory.Current) (he : s.memory.Elsewhere i s'.memory)
    (hp : s'.pc = update s.pc i p) (hi : ∀ j ≠ i, s'.index j = s.index j)
    (hf : Fits (position s' i) (s'.memory.mode i) p)
    (hc : s'.memory.cells .inStm = s.memory.cells .inStm)
    (hs : p.Software ↔ (s.pc i).Software) : Inv s' :=
  inv.step_of hx he hp hi hf (by rw [hc, inv.count, count_keep hs])

theorem fits_of (hm : s.memory.mode i = x) (hp : s.pc i = p) : Fits (position s i) x p :=
  hm ▸ hp ▸ inv.fits i

theorem outside_of (hm : s.memory.mode i ≠ .aborted) (hp : ¬(s.pc i).Hardware) :
    s.memory.mode i = .outside := by
  cases hx : s.memory.mode i
  case outside  => rfl
  case inside t => exact absurd (inv.fits_of hx rfl).hardware hp
  case aborted  => exact absurd hx hm

theorem inside_of (hm : s.memory.mode i ≠ .aborted) (hp : (s.pc i).Hardware) :
    ∃ t, s.memory.mode i = .inside t := by
  cases hx : s.memory.mode i
  case outside  => exact absurd hp (inv.fits_of hx rfl)
  case inside t => exact ⟨t, rfl⟩
  case aborted  => exact absurd hx hm

theorem abort (hy : s.memory.abort i = some y) : Inv (setMemory s y) := by
  have hc := inv.current.abort hy
  have he := Memory.Elsewhere.abort hy
  have hcells := Memory.abort_cells hy
  cases hm : s.memory.mode i <;> simp only [Memory.abort, hm] at hy
  all_goals cases hy
  refine inv.quiet hc he (update_eq_self i s.pc).symm (fun _ _ => rfl) ?_ rfl Iff.rfl
  simpa [setMemory, Fits] using (inv.fits_of hm rfl).hardware

theorem resume (hy : s.memory.resume i = some y) :
    Inv ((setMemory s y).goto i .fetchAdd) := by
  have hc := inv.current.resume hy
  have he := Memory.Elsewhere.resume hy
  cases hm : s.memory.mode i <;> simp only [Memory.resume, hm] at hy
  all_goals cases hy
  have hs := not_software (inv.fits_of hm rfl)
  refine inv.quiet hc he rfl (fun _ _ => rfl) ?_ rfl (iff_of_false id hs)
  simp [setMemory, Fits, Pc.Hardware]

theorem start (hp : s.pc i = .begin) :
    Inv ((setMemory s (s.memory.start i)).goto i .testStm) := by
  refine inv.quiet inv.current.start .start rfl (fun _ _ => rfl) ?_ rfl (by simp [hp, Pc.Software])
  simp [setMemory, Memory.start, Fits, Transaction.empty]

section Statement

variable (hm : s.memory.mode i ≠ .aborted)
include hm

theorem goto (hp : ¬(s.pc i).Hardware) (hs : ¬(s.pc i).Software) (hq : ¬p.Hardware)
    (hr : ¬p.Software) : Inv (s.goto i p) := by
  refine inv.quiet inv.current .refl rfl (fun _ _ => rfl) ?_ rfl (iff_of_false hr hs)
  rwa [State.goto_memory, inv.outside_of hm hp]

theorem alone (hp : s.pc i = .testStm) (hz : s.memory.read i .inStm = 0) :
    Inv ((load s i .inStm).goto i .load) := by
  have ⟨t, ht⟩ := inv.inside_of hm (by simp [hp, Pc.Hardware])
  have hw : t.writes = [] := inv.fits_of ht hp
  rw [Memory.read_inside ht, Transaction.read_of_empty hw] at hz
  refine inv.quiet inv.current.load .load rfl (fun _ _ => rfl) ?_ (by simp [load])
    (by simp [hp, Pc.Software])
  simp [load, Memory.load_inside ht, Fits, hz, hw]

theorem busy (hp : s.pc i = .testStm) : Inv ((load s i .inStm).goto i .xabort) := by
  have ⟨t, ht⟩ := inv.inside_of hm (by simp [hp, Pc.Hardware])
  refine inv.quiet inv.current.load .load rfl (fun _ _ => rfl) ?_ (by simp [load])
    (by simp [hp, Pc.Software])
  simp [load, Memory.load_inside ht, Fits]

theorem load_counter (hp : s.pc i = .load) : Inv ((load s i (.counter (position s i))).goto i
    (.store (s.memory.read i (.counter (position s i))))) := by
  have ⟨t, ht⟩ := inv.inside_of hm (by simp [hp, Pc.Hardware])
  have ⟨hr, hw⟩ := inv.fits_of ht hp
  refine inv.quiet inv.current.load .load rfl (fun _ _ => rfl) ?_ (by simp [load])
    (by simp [hp, Pc.Software])
  rw [Memory.read_inside ht, Transaction.read_of_empty hw]
  simp [load, Memory.load_inside ht, Fits, hr, hw, position]

theorem store_counter (hp : s.pc i = .store v) :
    Inv ((store s i (.counter (position s i)) (v + 1)).goto i .xend) := by
  have ⟨t, ht⟩ := inv.inside_of hm (by simp [hp, Pc.Hardware])
  have ⟨hr, hw, hv⟩ := inv.fits_of ht hp
  refine inv.quiet inv.current.store .store rfl (fun _ _ => rfl) ?_ ?_ (by simp [hp, Pc.Software])
  · simpa [store, Memory.store_inside ht, Fits, hr, hw, position] using hv
  · simp [store, Memory.store_inside ht]

-- A transaction which commits has found `in_stm` at 0 and its element of the array as it is.
theorem xend_inside (hp : s.pc i = .xend) :
    ∃ t v, s.memory.mode i = .inside t ∧ s.memory.cells .inStm = 0 ∧
      s.counters (position s i) = v ∧ t.writes = [(.counter (position s i), v + 1)] := by
  have ⟨t, ht⟩ := inv.inside_of hm (by simp [hp, Pc.Hardware])
  have ⟨hr, v, hw, hv⟩ := inv.fits_of ht hp
  exact ⟨t, v, ht, inv.current i t ht _ _ hr, inv.current i t ht _ _ hv, hw⟩

theorem xend (hp : s.pc i = .xend) (hy : s.memory.commit i = some y) :
    Inv (next (setMemory s y) i) := by
  have ⟨t, v, ht, hz, hv, hw⟩ := inv.xend_inside hm hp
  have hc := inv.current.commit hy
  have he := Memory.Elsewhere.commit hy
  rw [Memory.commit_inside ht, Transaction.read_of_single hw] at hy
  cases hy
  refine inv.quiet hc he rfl (fun j hj => update_of_ne hj ..) ?_ ?_ (by simp [hp, Pc.Software])
  · simp [next, setMemory, Fits, Pc.Hardware]
  · simp [next, setMemory]

theorem fetch_add (hp : s.pc i = .fetchAdd) :
    Inv ((store s i .inStm (s.memory.read i .inStm + 1)).goto i .stmStart) := by
  have ho := inv.outside_of hm (by simp [hp, Pc.Hardware])
  have hc : Threads.count (update s.pc i .stmStart) Pc.Software =
      Threads.count s.pc Pc.Software + 1 :=
    count_enter (by simp [hp, Pc.Software]) trivial
  refine inv.step_of inv.current.store .store rfl (fun _ _ => rfl) ?_ ?_
  · simp [store, Memory.store_outside ho, Fits, Pc.Hardware]
  · simp [store, Memory.store_outside ho, Memory.read_outside ho, hc, inv.count]

theorem fetch_sub (hp : s.pc i = .fetchSub) :
    Inv (next (store s i .inStm (s.memory.read i .inStm - 1)) i) := by
  have ho := inv.outside_of hm (by simp [hp, Pc.Hardware])
  have hc : Threads.count (update s.pc i .loop) Pc.Software + 1 =
      Threads.count s.pc Pc.Software :=
    count_leave (by simp [hp, Pc.Software]) id
  refine inv.step_of inv.current.store .store rfl (fun j hj => update_of_ne hj ..) ?_ ?_
  · simp [next, store, Memory.store_outside ho, Fits, Pc.Hardware]
  · simp [next, store, Memory.store_outside ho, Memory.read_outside ho, ← hc, inv.count]

theorem statement (h : Statement max s i s') : Inv s' := by
  cases h
  case enter hp _  =>
    exact inv.goto hm (by simp [hp, Pc.Hardware]) (by simp [hp, Pc.Software]) id id
  case finish hp   =>
    exact inv.goto hm (by simp [hp, Pc.Hardware]) (by simp [hp, Pc.Software]) id id
  case start hp    => exact inv.start hp
  case alone hp hz => exact inv.alone hm hp hz
  case busy hp _   => exact inv.busy hm hp
  case xabort hx   => exact inv.abort hx
  case load hp     => exact inv.load_counter hm hp
  case store hp    => exact inv.store_counter hm hp
  case xend hp hy  => exact inv.xend hm hp hy
  case fetchAdd hp => exact inv.fetch_add hm hp
  case fetchSub hp => exact inv.fetch_sub hm hp

end Statement

theorem outside_of_software (h : (s.pc i).Software) : s.memory.mode i = .outside := by
  apply inv.outside_of
  · intro hm
    exact not_software (inv.fits_of hm rfl) h
  · exact fun hp => not_software hp h

theorem call {d : σ} {e : SoftwareTransactions.Action (Fin m) ℤ}
    (hc : (s.pc i).call (position s i) = some e.call) :
    Inv ({ storeAll s i ws with stm := d }.goto i ((s.pc i).after e)) := by
  have hs := software_of_call hc
  have ho := inv.outside_of_software hs
  have ha := software_after (e := e) hs
  refine inv.quiet (storeAll_current inv.current) storeAll_elsewhere ?_ ?_ ?_ (storeAll_inStm ho)
    (iff_of_true ha hs)
  · simp [storeAll_pc]
  · simp [storeAll_index]
  · rw [State.goto_memory, storeAll_outside ho]
    exact fun hp => not_software hp ha

theorem step (h : Step stm max s l s') : Inv s' := by
  cases h
  case statement hm h => exact inv.statement hm h
  case abort hy       => exact inv.abort hy
  case resume hy      => exact inv.resume hy
  case stm hc _ _     => exact inv.call hc

end Inv

theorem inv_of_reachable (r : (machine stm max).Reachable s) : Inv s := by
  apply r.invariant
  case init =>
    rintro _ rfl
    exact .init
  case step => exact fun _ _ _ _ inv h => inv.step (.of_step h)

end RtmTinystm
