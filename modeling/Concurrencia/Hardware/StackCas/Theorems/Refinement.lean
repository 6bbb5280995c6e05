import Concurrencia.Hardware.StackCas.Basic
import Concurrencia.Hardware.StackLlsc.Theorems.Workload
import Concurrencia.Machine.History
import Mathlib

open Function

namespace StackCas

section Step

open LifoStacks (Event)
open StackLlsc (Loc)

variable {n : ℕ} {α : Type*}

-- One constructor for each way through a statement, with the event it causes.
inductive Step (s : State n α) [DecidableEq α] :
    Label n α → Option (Event (Fin n) Loc α) → State n α → Prop
  | loop : (s.pc i = .loop) → Step s (.thread i) none (s.goto i (.popLoad .freeNodes))
  | popLoad : (s.pc i = .popLoad k) → (s.head k = some a) →
    Step s (.thread i) none ((s.read i k).goto i (.popNext k a))
  | popNone : (s.pc i = .popLoad k) → (s.head k = none) →
    Step s (.thread i) (some (.pop i k none)) ((s.read i k).goto i (.popped k none))
  | popNext : (s.pc i = .popNext k a) →
    Step s (.thread i) none (s.goto i (.popCas k a (s.next a)))
  | pop : (s.pc i = .popCas k a x) → (s.head k = some a) →
    Step s (.thread i) (some (.pop i k (some a))) ((s.exchange k x).goto i (.popped k (some a)))
  | popAgain : (s.pc i = .popCas k a x) → (s.head k = some b) →
    Step s (.thread i) none ((s.read i k).goto i (.popNext k b))
  | popLost : (s.pc i = .popCas k a x) → (s.head k = none) →
    Step s (.thread i) (some (.pop i k none)) ((s.read i k).goto i (.popped k none))
  | malloc : (s.pc i = .malloc) → (a ∉ s.allocated) → Step s (.malloc i a) (some (.alloc i a))
    ({ s with allocated := a :: s.allocated }.goto i (.pushLoad .head a))
  | clear : (s.pc i = .clear e) →
    Step s (.thread i) none ((s.store e none).goto i (.pushLoad .freeNodes e))
  | pushLoad : (s.pc i = .pushLoad k e) →
    Step s (.thread i) none (s.goto i (.pushNext k e (s.head k)))
  | pushNext : (s.pc i = .pushNext k e o) →
    Step s (.thread i) none ((s.store e o).goto i (.pushCas k e))
  | push : (s.pc i = .pushCas k e) → (s.head k = s.next e) →
    Step s (.thread i) (some (.push i k e)) ((s.exchange k (some e)).goto i (.pushed k))
  | pushAgain : (s.pc i = .pushCas k e) → (s.head k ≠ s.next e) →
    Step s (.thread i) none (s.goto i (.pushNext k e (s.head k)))

variable [DecidableEq α] {s s' : State n α} {i : Fin n} {l : Label n α}

theorem Step.of_thread (h : threadStep s i = some s') :
    Step s (.thread i) (event s (.thread i)) s' := by
  cases hp : s.pc i <;> simp only [threadStep, event, hp] at h ⊢
  case popLoad k =>
    cases h
    cases hk : s.head k <;> simp only [Pc.test, reduceCtorEq, if_true, if_false]
    case none => exact .popNone hp hk
    case some => exact .popLoad hp hk
  case popCas k a x =>
    split_ifs at h ⊢ with ha hk
    all_goals cases h
    · exact .pop hp ha
    · rw [hk]
      exact .popLost hp hk
    · obtain ⟨b, hb⟩ := Option.ne_none_iff_exists'.mp hk
      rw [hb]
      exact .popAgain hp hb
  case pushCas k e =>
    split_ifs at h ⊢ with hk
    all_goals cases h
    · exact .push hp hk
    · exact .pushAgain hp hk
  all_goals cases h
  case loop     => exact .loop hp
  case popNext  => exact .popNext hp
  case clear    => exact .clear hp
  case pushLoad => exact .pushLoad hp
  case pushNext => exact .pushNext hp

theorem Step.of_step (h : step s l = some s') : Step s l (event s l) s' := by
  cases l <;> simp only [step] at h
  case thread => exact .of_thread h
  case malloc i a =>
    cases hp : s.pc i <;> simp only [mallocStep, hp, reduceCtorEq] at h
    split_ifs at h with ha
    cases h
    exact .malloc hp ha

end Step

section Simulation

open LifoStacks (Event)
open StackLlsc (Loc)

variable {n : ℕ} {α : Type*} {s s' u : State n α} {t t' v : StackLlsc.State n α} {i : Fin n}
variable {l : Label n α} {o : Option (Event (Fin n) Loc α)} {p : Pc α} {q : StackLlsc.Pc α}

-- Where the thread of the other program is. What `ldrex` expects is still in its register.
def Matches : Pc α → StackLlsc.Pc α → Prop
  | .loop, q           => q = .loop
  | .popLoad k, q      => q = .popLdrex k
  | .popNext k a, q    => q = .popLdr k a
  | .popCas k a x, q   => q = .popStrex k a x
  | .malloc, q         => q = .malloc
  | .clear e, q        => q = .clear e
  | .pushLoad k e, q   => q = .pushLdr k e
  | .pushNext k e o, q => q = .pushStr k e o
  | .pushCas k e, q    => ∃ x, q = .pushLdrex k e x

-- The thread goes on with the head it has read in `pop`.
def Reading : Pc α → Prop
  | .popNext _ _ | .popCas _ _ _ => True
  | .loop | .popLoad _ | .malloc | .clear _ | .pushLoad _ _ | .pushNext _ _ _ | .pushCas _ _ => False

structure Simulates (s : State n α) (t : StackLlsc.State n α) : Prop where
  head      : t.head = s.head
  next      : t.next = s.next
  allocated : t.allocated = s.allocated
  pc        : ∀ i, Matches (s.pc i) (t.pc i)
  seen      : ∀ i, Reading (s.pc i) → t.monitor i = s.seen i

theorem matches_popped (k : Loc) (x : Option α) : Matches (.popped k x) (.popped k x) := by
  cases k <;> cases x <;> rfl

theorem matches_pushed (k : Loc) : Matches (.pushed k : Pc α) (.pushed k) := by
  cases k <;> rfl

theorem not_reading_popped (k : Loc) (x : Option α) : ¬Reading (.popped k x) := by
  cases k <;> cases x <;> exact id

theorem not_reading_pushed (k : Loc) : ¬Reading (.pushed k : Pc α) := by
  cases k <;> exact id

namespace Simulates

variable (sim : Simulates s t)
include sim

-- Both threads are somewhere else, and the others see the same change.
theorem goto
    (hh : v.head = u.head) (hn : v.next = u.next) (ha : v.allocated = u.allocated)
    (hs : u.pc = s.pc) (ht : ∀ j ≠ i, v.pc j = t.pc j)
    (hm : ∀ j ≠ i, t.monitor j = s.seen j → v.monitor j = u.seen j)
    (hp : Matches p q) (hr : Reading p → v.monitor i = u.seen i) :
    Simulates (u.goto i p) (v.goto i q) where
  head      := hh
  next      := hn
  allocated := ha
  pc j := by
    by_cases hj : j = i
    case pos => simpa [hj] using hp
    case neg => simpa [hj, hs, ht j hj] using sim.pc j
  seen j := by
    by_cases hj : j = i
    case pos =>
      subst hj
      rw [State.goto_pc_self]
      exact hr
    case neg =>
      rw [State.goto_pc_of_ne hj, hs]
      exact fun h => hm j hj (sim.seen j h)

-- Neither program changes more than the place of the thread, ...
theorem move (hp : Matches p q) (hr : Reading p → Reading (s.pc i)) :
    Simulates (s.goto i p) (t.goto i q) := by
  apply sim.goto (u := s) (v := t)
  case hh => exact sim.head
  case hn => exact sim.next
  case ha => exact sim.allocated
  case hs => rfl
  case ht => exact fun _ _ => rfl
  case hm => exact fun _ _ => id
  case hp => exact hp
  case hr => exact fun h => sim.seen i (hr h)

-- ... or the thread reads the head, ...
theorem read {k : Loc} (hp : Matches p q) :
    Simulates ((s.read i k).goto i p) ((t.ldrex i k).goto i q) := by
  apply sim.goto (u := s.read i k) (v := t.ldrex i k)
  case hh => exact sim.head
  case hn => exact sim.next
  case ha => exact sim.allocated
  case hs => rfl
  case ht => exact fun _ _ => rfl
  case hm => exact fun j hj h => by simpa [State.read, StackLlsc.State.ldrex, hj] using h
  case hp => exact hp
  case hr => exact fun _ => by simp [State.read, StackLlsc.State.ldrex]

-- ... also after a `strex` which fails, ...
theorem readAgain {k : Loc} (hp : Matches p q) :
    Simulates ((s.read i k).goto i p) ((((t.fail i).goto i (.popLdrex k)).ldrex i k).goto i q) := by
  apply sim.goto (u := s.read i k) (v := ((t.fail i).goto i (.popLdrex k)).ldrex i k)
  case hh => exact sim.head
  case hn => exact sim.next
  case ha => exact sim.allocated
  case hs => rfl
  case ht => exact fun _ hj => StackLlsc.State.goto_pc_of_ne hj
  case hp => exact hp
  case hr => exact fun _ => by simp [State.read, StackLlsc.State.ldrex]
  case hm =>
    intro j hj h
    simpa [State.read, StackLlsc.State.goto, StackLlsc.State.ldrex, StackLlsc.State.fail, hj] using h

theorem reload {k : Loc} {e : α} (hp : Matches p q) (hr : ¬Reading p) :
    Simulates (s.goto i p) (((t.ldrex i k).goto i (.pushLdr k e)).goto i q) := by
  apply sim.goto (u := s) (v := (t.ldrex i k).goto i (.pushLdr k e))
  case hh => exact sim.head
  case hn => exact sim.next
  case ha => exact sim.allocated
  case hs => rfl
  case ht => exact fun _ hj => StackLlsc.State.goto_pc_of_ne hj
  case hm => exact fun j hj h => by simpa [StackLlsc.State.goto, StackLlsc.State.ldrex, hj] using h
  case hp => exact hp
  case hr => exact fun h => absurd h hr

-- ... or it stores to a node, ...
theorem store [DecidableEq α] {e : α} {x : Option α} (hp : Matches p q) (hr : ¬Reading p) :
    Simulates ((s.store e x).goto i p) ({ t with next := update t.next e x }.goto i q) := by
  apply sim.goto (u := s.store e x) (v := { t with next := update t.next e x })
  case hh => exact sim.head
  case hn => exact congrArg (update · e x) sim.next
  case ha => exact sim.allocated
  case hs => rfl
  case ht => exact fun _ _ => rfl
  case hm => exact fun _ _ => id
  case hp => exact hp
  case hr => exact fun h => absurd h hr

omit sim in
theorem malloc (sim : Simulates s t) (a : α) :
    Simulates { s with allocated := a :: s.allocated } { t with allocated := a :: t.allocated } where
  head      := sim.head
  next      := sim.next
  allocated := congrArg _ sim.allocated
  pc        := sim.pc
  seen      := sim.seen

-- ... or it exchanges the head.
theorem exchange {k : Loc} {x : Option α} (hp : Matches p q) (hr : ¬Reading p)
    (hh : v.head = t.head) (hn : v.next = t.next) (ha : v.allocated = t.allocated)
    (ht : ∀ j ≠ i, v.pc j = t.pc j ∧ v.monitor j = t.monitor j) :
    Simulates ((s.exchange k x).goto i p) ((v.strex k x).goto i q) := by
  apply sim.goto (u := s.exchange k x) (v := v.strex k x)
  case hh => exact congrArg (update · k x) (hh.trans sim.head)
  case hn => exact hn.trans sim.next
  case ha => exact ha.trans sim.allocated
  case hs => rfl
  case ht => exact fun j hj => (ht j hj).left
  case hp => exact hp
  case hr => exact fun h => absurd h hr
  case hm =>
    intro j hj h
    exact congrArg (Option.filter _) ((ht j hj).right.trans h)

end Simulates

open Machine (Trace)

variable [DecidableEq α]

-- One step of the other program.
theorem silent {es : List (Event (Fin n) Loc α)} (hs : StackLlsc.threadStep t i = some v)
    (he : StackLlsc.event t (.thread i) = none)
    (r : (StackLlsc.machine n α).Trace StackLlsc.event v es t') :
    (StackLlsc.machine n α).Trace StackLlsc.event t es t' :=
  .silent (a := StackLlsc.Label.thread i) hs he r

theorem visible {e : Event (Fin n) Loc α} (hs : StackLlsc.threadStep t i = some t')
    (he : StackLlsc.event t (.thread i) = some e) :
    (StackLlsc.machine n α).Trace StackLlsc.event t [e] t' :=
  .visible (a := StackLlsc.Label.thread i) hs he

-- A `strex` may always fail, and `pop` reads the head again.
theorem failed {k : Loc} {a : α} {x : Option α} {es : List (Event (Fin n) Loc α)}
    (hi : t.pc i = .popStrex k a x)
    (r : (StackLlsc.machine n α).Trace StackLlsc.event ((t.fail i).goto i (.popLdrex k)) es t') :
    (StackLlsc.machine n α).Trace StackLlsc.event t es t' := by
  refine .silent (a := .spurious i) ?_ rfl r
  simp [StackLlsc.machine, StackLlsc.step, StackLlsc.failStep, hi]

-- What `push` has stored is what its `ldrex` expects.
theorem expected {k : Loc} {e : α} {x : Option α} (hr : (StackLlsc.machine n α).Reachable t)
    (hi : t.pc i = .pushLdrex k e x) : t.next e = x :=
  have ⟨_, r⟩ : ∃ l, ((StackLlsc.machine n α).logging StackLlsc.event).Reachable (t, l) :=
    hr.exists_logging
  have ⟨_, _, ref⟩ := StackLlsc.refines_of_reachable r
  ref.fits_of hi

-- Each step is made of one or two of the other program, unless it takes a node from a head which has
-- been exchanged since it was read.
theorem Simulates.step (sim : Simulates s t) (hn : NoAba s l) (h : Step s l o s')
    (hr : (StackLlsc.machine n α).Reachable t) :
    ∃ t', (StackLlsc.machine n α).Trace StackLlsc.event t o.toList t' ∧ Simulates s' t' := by
  have hpc := sim.pc
  cases h
  case loop i hi =>
    have hq : t.pc i = .loop := by simpa [Matches, hi] using hpc i
    refine ⟨_, silent (i := i) ?_ ?_ .refl, sim.move (q := .popLdrex .freeNodes) rfl (by simp [Reading])⟩
    · simp [StackLlsc.threadStep, hq]
    · simp [StackLlsc.event, hq]
  case popLoad i k a hi ha =>
    have hq : t.pc i = .popLdrex k := by simpa [Matches, hi] using hpc i
    refine ⟨_, silent (i := i) ?_ ?_ .refl, sim.read (q := .popLdr k a) rfl⟩
    · simp [StackLlsc.threadStep, hq, sim.head, ha, StackLlsc.Pc.test]
    · simp [StackLlsc.event, hq, sim.head, ha]
  case popNone i k hi hk =>
    have hq : t.pc i = .popLdrex k := by simpa [Matches, hi] using hpc i
    refine ⟨_, visible (i := i) ?_ ?_, sim.read (matches_popped k none)⟩
    · simp [StackLlsc.threadStep, hq, sim.head, hk, StackLlsc.Pc.test]
    · simp [StackLlsc.event, hq, sim.head, hk]
  case popNext i k a hi =>
    have hq : t.pc i = .popLdr k a := by simpa [Matches, hi] using hpc i
    have hp : Reading (s.pc i) := by simp [hi, Reading]
    refine ⟨_, silent (i := i) ?_ ?_ .refl, sim.move (q := .popStrex k a (s.next a)) rfl fun _ => hp⟩
    · simp [StackLlsc.threadStep, hq, sim.next]
    · simp [StackLlsc.event, hq]
  case pop i k a x hi ha =>
    have hq : t.pc i = .popStrex k a x := by simpa [Matches, hi] using hpc i
    have hm : t.monitor i = some k := by
      rw [sim.seen i (by simp [hi, Reading])]
      simpa [NoAba, aba, hi, ha] using hn
    refine ⟨_, visible (i := i) ?_ ?_, sim.exchange (v := t) (matches_popped k (some a))
      (not_reading_popped k _) rfl rfl rfl fun _ _ => ⟨rfl, rfl⟩⟩
    · simp [StackLlsc.threadStep, hq, hm]
    · simp [StackLlsc.event, hq, hm]
  case popAgain i k a x b hi hb =>
    have hq : t.pc i = .popStrex k a x := by simpa [Matches, hi] using hpc i
    have hb : ((t.fail i).goto i (.popLdrex k)).head k = some b := (congrFun sim.head k).trans hb
    refine ⟨_, failed hq (silent (i := i) ?_ ?_ .refl), sim.readAgain (q := .popLdr k b) rfl⟩
    · simp [StackLlsc.threadStep, hb, StackLlsc.Pc.test]
    · simp [StackLlsc.event, hb]
  case popLost i k a x hi hk =>
    have hq : t.pc i = .popStrex k a x := by simpa [Matches, hi] using hpc i
    have hk : ((t.fail i).goto i (.popLdrex k)).head k = none := (congrFun sim.head k).trans hk
    refine ⟨_, failed hq (visible (i := i) ?_ ?_), sim.readAgain (matches_popped k none)⟩
    · simp [StackLlsc.threadStep, hk, StackLlsc.Pc.test]
    · simp [StackLlsc.event, hk]
  case malloc i a hi ha =>
    have hq : t.pc i = .malloc := by simpa [Matches, hi] using hpc i
    refine ⟨{ t with allocated := a :: t.allocated }.goto i (.pushLdr .head a),
      .visible (a := .malloc i a) ?_ rfl, ?_⟩
    · simp [StackLlsc.machine, StackLlsc.step, StackLlsc.mallocStep, hq, sim.allocated, ha]
    · exact (sim.malloc a).move rfl (by simp [Reading])
  case clear i e hi =>
    have hq : t.pc i = .clear e := by simpa [Matches, hi] using hpc i
    refine ⟨_, silent (i := i) ?_ ?_ .refl, sim.store (q := .pushLdr .freeNodes e) rfl id⟩
    · simp [StackLlsc.threadStep, hq]
    · simp [StackLlsc.event, hq]
  case pushLoad i k e hi =>
    have hq : t.pc i = .pushLdr k e := by simpa [Matches, hi] using hpc i
    refine ⟨_, silent (i := i) ?_ ?_ .refl, sim.move (q := .pushStr k e (s.head k)) rfl (by simp [Reading])⟩
    · simp [StackLlsc.threadStep, hq, sim.head]
    · simp [StackLlsc.event, hq]
  case pushNext i k e x hi =>
    have hq : t.pc i = .pushStr k e x := by simpa [Matches, hi] using hpc i
    refine ⟨_, silent (i := i) ?_ ?_ .refl, sim.store (q := .pushLdrex k e x) ⟨x, rfl⟩ id⟩
    · simp [StackLlsc.threadStep, hq]
    · simp [StackLlsc.event, hq]
  case push i k e hi hk =>
    obtain ⟨x, hq⟩ : ∃ x, t.pc i = .pushLdrex k e x := by simpa [Matches, hi] using hpc i
    have hx : t.head k = x := by rw [sim.head, hk, ← sim.next, expected hr hq]
    have hs : StackLlsc.threadStep t i = some ((t.ldrex i k).goto i (.pushStrex k e)) := by
      simp [StackLlsc.threadStep, hq, hx]
    refine ⟨_, silent hs (by simp [StackLlsc.event, hq]) (visible (i := i) ?_ ?_),
      sim.exchange (v := (t.ldrex i k).goto i (.pushStrex k e)) (matches_pushed k)
        (not_reading_pushed k) rfl rfl rfl ?_⟩
    · simp [StackLlsc.threadStep, StackLlsc.State.goto, StackLlsc.State.ldrex]
    · simp [StackLlsc.event, StackLlsc.State.goto, StackLlsc.State.ldrex]
    · exact fun j hj => ⟨StackLlsc.State.goto_pc_of_ne hj, update_of_ne hj ..⟩
  case pushAgain i k e hi hk =>
    obtain ⟨x, hq⟩ : ∃ x, t.pc i = .pushLdrex k e x := by simpa [Matches, hi] using hpc i
    have hx : t.head k ≠ x := by rwa [sim.head, ← expected hr hq, sim.next]
    have hs : StackLlsc.threadStep t i = some ((t.ldrex i k).goto i (.pushLdr k e)) := by
      simp [StackLlsc.threadStep, hq, hx]
    refine ⟨_, silent hs (by simp [StackLlsc.event, hq]) (silent (i := i) ?_ ?_ .refl),
      sim.reload (k := k) (e := e) (q := .pushStr k e (s.head k)) rfl id⟩
    · have hh : ((t.ldrex i k).goto i (.pushLdr k e)).head k = s.head k := congrFun sim.head k
      simp [StackLlsc.threadStep, hh]
    · simp [StackLlsc.event, StackLlsc.State.goto]

omit [DecidableEq α] in
theorem Simulates.init (h : Init s) (m : Fin n → Option Loc) :
    Simulates s ⟨fun _ => .loop, s.head, s.next, [], m⟩ where
  head      := rfl
  next      := rfl
  allocated := h.allocated.symm
  pc i      := by simp [h.pc, Matches]
  seen i    := by simp [h.pc, Reading]

-- As long as no head is taken which has been exchanged in between, a compare-and-exchange is as good
-- as a pair of `ldrex` and `strex`.
theorem simulation : Machine.Simulation ((machine n α).only NoAba) event (StackLlsc.machine n α)
    StackLlsc.event fun s t => Simulates s t ∧ (StackLlsc.machine n α).Reachable t where
  init {s} h :=
    have hi : StackLlsc.Init ⟨fun _ => .loop, s.head, s.next, [], fun _ => none⟩ :=
      ⟨fun _ => rfl, h.head, rfl⟩
    ⟨_, hi, .init h _, .init hi⟩
  step {s a s' t} hr hs := by
    have ⟨sim, r⟩ := hr
    have ⟨hn, hs⟩ := Machine.only_step.mp hs
    have ⟨t', rt, sim'⟩ := sim.step hn (.of_step hs) r
    have ⟨_, rl⟩ : ∃ l, ((StackLlsc.machine n α).logging StackLlsc.event).Reachable (t, l) :=
      r.exists_logging
    exact ⟨t', rt, sim', (rt.reachable rl).of_logging⟩

end Simulation

open LifoStacks (Event Linked At)
open StackLlsc (Loc)

def Pc.held {α : Type*} : Pc α → Option α
  | clear e | pushLoad _ e | pushNext _ e _ | pushCas _ e          => some e
  | loop | popLoad _ | popNext _ _ | popCas _ _ _ | malloc => none

theorem Matches.held {α : Type*} {p : Pc α} {q : StackLlsc.Pc α} (h : Matches p q) :
    q.held = p.held := by
  cases p
  case pushCas =>
    obtain ⟨_, rfl⟩ := h
    rfl
  all_goals
    obtain rfl := h
    rfl

theorem lifo_without_aba {n : ℕ} {α : Type*} [DecidableEq α] {s : State n α}
    {l : List (Event (Fin n) Loc α)}
    (r : (((machine n α).only NoAba).logging event).Reachable (s, l)) :
    (∃ t, (LifoStacks.machine (Fin n) Loc α).Run (LifoStacks.init ..) l t ∧
      (∀ k, Linked s.next (s.head k) (t.lists k) ∧ (t.lists k).Nodup) ∧
      (∀ i, t.held i = (s.pc i).held) ∧
      ∀ a ∈ s.allocated, ∃! p, At t a p) ∧
    (∀ i, .pop i .head none ∉ l) ∧ s.allocated.length ≤ n := by
  have ⟨t, rt, sim, _⟩ := simulation.reachable r
  have ⟨u, run, ref, hb, hl⟩ := StackLlsc.bounded_of_reachable rt
  have mem := ref.memory
  have ha : u.allocated = s.allocated := mem.allocated.trans sim.allocated
  refine ⟨⟨u, run, fun k => ?_, fun i => ?_, fun a h => ?_⟩, hl, ?_⟩
  · have hk : Linked t.next (t.head k) (u.lists k) := mem.linked k
    rw [sim.next, sim.head] at hk
    exact ⟨hk, mem.inv.nodup k⟩
  · exact (congrFun mem.held i).trans (sim.pc i).held
  · exact mem.inv.existsUnique (ha ▸ h)
  · have := hb.bound
    rw [ha, Fintype.card_fin] at this
    exact (Nat.le_add_right ..).trans this

-- Thread 0 has read node 1, and thread 1 pops it: the exchange of thread 0 fails, and it takes node 0.
theorem lifo_without_aba_two :
    ∃ (s : State 2 ℕ) (l : List (Event (Fin 2) Loc ℕ)),
      s.pc 0 = .clear 0 ∧ s.pc 1 = .clear 1 ∧
      (∃ t, (LifoStacks.machine (Fin 2) Loc ℕ).Run (LifoStacks.init ..) l t ∧
        (∀ k, Linked s.next (s.head k) (t.lists k) ∧ (t.lists k).Nodup) ∧
        (∀ i, t.held i = (s.pc i).held) ∧
        ∀ a ∈ s.allocated, ∃! p, At t a p) ∧
      (∀ i, .pop i .head none ∉ l) ∧ s.allocated.length ≤ 2 :=
  let s₀ : State 2 ℕ := ⟨fun _ => .loop, fun _ => none, fun _ => none, [], fun _ => none⟩
  have ⟨s, l, h, hp, hq⟩ : ∃ s l, (((machine 2 ℕ).only NoAba).logging event).exec (s₀, [])
      (Machine.schedule [(2, .thread 0), (1, .malloc 0 0), (3, .thread 0), (2, .thread 1),
        (1, .malloc 1 1), (3, .thread 1), (1, .thread 0), (3, .thread 1), (4, .thread 0)]) =
        some (s, l) ∧
      s.pc 0 = .clear 0 ∧ s.pc 1 = .clear 1 :=
    ⟨_, _, rfl, rfl, rfl⟩
  ⟨s, l, hp, hq, lifo_without_aba (.of_exec ⟨⟨fun _ => rfl, fun _ => rfl, rfl⟩, rfl⟩ h)⟩

end StackCas
