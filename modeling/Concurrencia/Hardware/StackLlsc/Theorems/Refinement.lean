import Concurrencia.Hardware.StackLlsc.Basic
import Concurrencia.LifoStacks.Memory
import Mathlib.Tactic.SplitIfs

open Function

namespace StackLlsc

section Step

open LifoStacks (Event)

variable {n : ℕ} {α : Type*}

-- One constructor for each way through an instruction, with the event it causes.
inductive Step (s : State n α) [DecidableEq α] :
    Option (Event (Fin n) Loc α) → State n α → Prop
  | loop : (s.pc i = .loop) → Step s none (s.goto i (.popLdrex .freeNodes))
  | popLdrex : (s.pc i = .popLdrex k) → (s.head k = some a) →
    Step s none ((s.ldrex i k).goto i (.popLdr k a))
  | popNone : (s.pc i = .popLdrex k) → (s.head k = none) →
    Step s (some (.pop i k none)) ((s.ldrex i k).goto i (.popped k none))
  | popLdr : (s.pc i = .popLdr k a) → Step s none (s.goto i (.popStrex k a (s.next a)))
  | pop : (s.pc i = .popStrex k a x) → (s.monitor i = some k) →
    Step s (some (.pop i k (some a))) ((s.strex k x).goto i (.popped k (some a)))
  | popFail : (s.pc i = .popStrex k a x) → Step s none ((s.fail i).goto i (.popLdrex k))
  | malloc : (s.pc i = .malloc) → (a ∉ s.allocated) → Step s (some (.alloc i a))
    ({ s with allocated := a :: s.allocated }.goto i (.pushLdr .head a))
  | clear : (s.pc i = .clear e) →
    Step s none ({ s with next := update s.next e none }.goto i (.pushLdr .freeNodes e))
  | pushLdr : (s.pc i = .pushLdr k e) → Step s none (s.goto i (.pushStr k e (s.head k)))
  | pushStr : (s.pc i = .pushStr k e x) →
    Step s none ({ s with next := update s.next e x }.goto i (.pushLdrex k e x))
  | pushLdrex : (s.pc i = .pushLdrex k e x) → (s.head k = x) →
    Step s none ((s.ldrex i k).goto i (.pushStrex k e))
  | pushAgain : (s.pc i = .pushLdrex k e x) → Step s none ((s.ldrex i k).goto i (.pushLdr k e))
  | push : (s.pc i = .pushStrex k e) → (s.monitor i = some k) →
    Step s (some (.push i k e)) ((s.strex k (some e)).goto i (.pushed k))
  | pushFail : (s.pc i = .pushStrex k e) → Step s none ((s.fail i).goto i (.pushLdr k e))

variable [DecidableEq α] {s s' : State n α} {i : Fin n} {l : Label n α}

theorem Step.of_fail (h : failStep s i = some s') : Step s none s' := by
  cases hp : s.pc i <;> simp only [failStep, hp, reduceCtorEq] at h
  all_goals cases h
  case popStrex  => exact .popFail hp
  case pushStrex => exact .pushFail hp

theorem Step.of_thread (h : threadStep s i = some s') : Step s (event s (.thread i)) s' := by
  cases hp : s.pc i <;> simp only [threadStep, event, hp] at h ⊢
  case popLdrex k =>
    cases h
    cases hk : s.head k <;> simp only [Pc.test, reduceCtorEq, if_true, if_false]
    case none => exact .popNone hp hk
    case some => exact .popLdrex hp hk
  case popStrex k a x =>
    split_ifs at h ⊢ with hm
    · cases h
      exact .pop hp hm
    · exact .of_fail h
  case pushLdrex k e x =>
    cases h
    split_ifs with hk
    · exact .pushLdrex hp hk
    · exact .pushAgain hp
  case pushStrex k e =>
    split_ifs at h ⊢ with hm
    · cases h
      exact .push hp hm
    · exact .of_fail h
  all_goals cases h
  case loop    => exact .loop hp
  case popLdr  => exact .popLdr hp
  case clear   => exact .clear hp
  case pushLdr => exact .pushLdr hp
  case pushStr => exact .pushStr hp

theorem Step.of_step (h : step s l = some s') : Step s (event s l) s' := by
  cases l <;> simp only [step] at h
  case thread   => exact .of_thread h
  case spurious => exact .of_fail h
  case malloc i a =>
    cases hp : s.pc i <;> simp only [mallocStep, hp, reduceCtorEq] at h
    split_ifs at h with ha
    cases h
    exact .malloc hp ha

end Step

section Refinement

open LifoStacks (Event Represents Memory)

variable {n : ℕ} {α : Type*} {s s' : State n α} {i j : Fin n} {k : Loc} {p : Pc α}
variable {a e : α} {x : Option α}

def State.memory (s : State n α) : Memory (Fin n) Loc α where
  head      := s.head
  next      := s.next
  held i    := (s.pc i).held
  allocated := s.allocated

-- As long as the monitor of thread `i` holds the address of the head, the head has not changed since
-- its `ldrex`. `push` does not rely on anything older than that: only its own node does.
def Fits (s : State n α) (i : Fin n) : Pc α → Prop
  | .popLdr k a      => s.monitor i = some k → s.head k = some a
  | .popStrex k a x  => s.monitor i = some k → s.head k = some a ∧ x = s.next a
  | .pushLdrex _ e x => s.next e = x
  | .pushStrex k e   => s.monitor i = some k → s.next e = s.head k
  | .loop | .popLdrex _ | .malloc | .clear _ | .pushLdr _ _ | .pushStr _ _ _ => True

structure Refines (s : State n α) (t : LifoStacks.State (Fin n) Loc α) : Prop where
  memory : Represents s.memory t
  fits   : ∀ i, Fits s i (s.pc i)

-- The step of another thread.
theorem Fits.keep
    (h : Fits s i p)
    (hm : ∀ k, s'.monitor i = some k → s.monitor i = some k ∧ s'.head k = s.head k)
    (hn : ∀ k a, s.head k = some a → s'.next a = s.next a)
    (he : ∀ e, p.held = some e → s'.next e = s.next e) : Fits s' i p := by
  cases p
  case popLdr k a =>
    intro hk
    have ⟨hk, hh⟩ := hm k hk
    exact hh.trans (h hk)
  case popStrex k a x =>
    intro hk
    have ⟨hk, hh⟩ := hm k hk
    have ⟨ha, hx⟩ := h hk
    exact ⟨hh.trans ha, hx.trans (hn k a ha).symm⟩
  case pushLdrex k e x => exact (he e rfl).trans h
  case pushStrex k e =>
    intro hk
    have ⟨hk, hh⟩ := hm k hk
    exact (he e rfl).trans <| (h hk).trans hh.symm
  all_goals trivial

theorem Pc.held_pushed : (pushed k : Pc α).held = none := by
  cases k <;> rfl

theorem Pc.held_popped : (popped k x : Pc α).held = x := by
  cases k <;> cases x <;> rfl

theorem fits_pushed : Fits s i (.pushed k) := by
  cases k <;> trivial

theorem fits_popped : Fits s i (.popped k x) := by
  cases k <;> cases x <;> trivial

theorem held_of (hi : s.pc i = p) : s.memory.held i = p.held :=
  congrArg Pc.held hi

theorem memory_goto :
    (s.goto i p).memory = { s.memory with held := update s.memory.held i p.held } := by
  simp only [State.memory, Memory.mk.injEq]
  refine ⟨rfl, rfl, funext fun j => ?_, rfl⟩
  by_cases hj : j = i
  case pos => simp [hj]
  case neg => simp [hj]

theorem memory_goto_of_held (hq : p.held = (s.pc i).held) : (s.goto i p).memory = s.memory := by
  rw [memory_goto, hq]
  exact congrArg (Memory.mk _ _ · _) <| update_eq_self ..

-- No monitor which still holds an address after a `strex` has seen the address change.
theorem monitor_strex {m : Loc} (h : (s.strex k x).monitor i = some m) :
    s.monitor i = some m ∧ (s.strex k x).head m = s.head m := by
  have ⟨hi, hm⟩ := Option.filter_eq_some_iff.mp h
  exact ⟨hi, update_of_ne (of_decide_eq_true hm) ..⟩

namespace Refines

variable {t t' : LifoStacks.State (Fin n) Loc α}

theorem init (h : Init s) : Refines s (LifoStacks.init ..) where
  fits i := by simp [h.pc, Fits]
  memory := by
    have hm : s.memory = ⟨fun _ => none, s.next, fun _ => none, []⟩ := by
      simp [State.memory, funext h.head, h.pc, h.allocated, Pc.held]
    exact hm ▸ .init

variable (ref : Refines s t)
include ref

theorem fits_of (hi : s.pc i = p) : Fits s i p :=
  hi ▸ ref.fits i

-- The step of thread `i`: what has to be shown of it and of the others.
theorem update
    (hp : s'.pc = Function.update s.pc i p)
    (hm : ∀ j ≠ i, ∀ k, s'.monitor j = some k → s.monitor j = some k ∧ s'.head k = s.head k)
    (hn : ∀ k a, s.head k = some a → s'.next a = s.next a)
    (he : ∀ j ≠ i, ∀ e, (s.pc j).held = some e → s'.next e = s.next e)
    (hr : Represents s'.memory t') (hf : Fits s' i p) : Refines s' t' where
  memory := hr
  fits j := by
    rw [hp]
    by_cases hj : j = i
    case pos => simpa [hj]
    case neg => simpa [hj] using (ref.fits j).keep (hm j hj) hn (he j hj)

-- Thread `i` keeps the node it holds, and at most its own monitor changes.
theorem goto {m : Fin n → Option Loc}
    (hm : ∀ j ≠ i, m j = s.monitor j) (hq : p.held = (s.pc i).held)
    (hf : Fits ({ s with monitor := m }.goto i p) i p) :
    Refines ({ s with monitor := m }.goto i p) t := by
  have hp : ({ s with monitor := m }.goto i p).pc = Function.update s.pc i p := rfl
  have hr : ({ s with monitor := m }.goto i p).memory = s.memory := memory_goto_of_held hq
  apply ref.update hp
  case hm => exact fun j hj k hk => ⟨(hm j hj).symm.trans hk, rfl⟩
  case hn => exact fun _ _ _ => rfl
  case he => exact fun _ _ _ _ => rfl
  case hr => exact hr ▸ ref.memory
  case hf => exact hf

-- Thread `i` stores to the node it holds.
theorem write [DecidableEq α]
    (hi : (s.pc i).held = some e) (hq : p.held = some e)
    (hf : Fits ({ s with next := Function.update s.next e x }.goto i p) i p) :
    Refines ({ s with next := Function.update s.next e x }.goto i p) t := by
  have hne {a : α} (ha : a ≠ e) : Function.update s.next e x a = s.next a := update_of_ne ha ..
  have hp : ({ s with next := Function.update s.next e x }.goto i p).pc =
      Function.update s.pc i p := rfl
  have hr : ({ s with next := Function.update s.next e x }.goto i p).memory =
      s.memory.write e x := memory_goto_of_held (hq.trans hi.symm)
  apply ref.update hp
  case hm => exact fun _ _ _ hk => ⟨hk, rfl⟩
  case hn => exact fun k a ha => hne <| ref.memory.ne_of_held hi ha
  case he => exact fun j hj b hb => hne fun h => hj <| ref.memory.held_inj hb (h ▸ hi)
  case hf => exact hf
  case hr => exact hr ▸ ref.memory.write hi

-- A successful `strex`.
theorem strex
    (hr : Represents ((s.strex k x).goto i p).memory t')
    (hf : Fits ((s.strex k x).goto i p) i p) : Refines ((s.strex k x).goto i p) t' := by
  have hp : ((s.strex k x).goto i p).pc = Function.update s.pc i p := rfl
  apply ref.update hp
  case hm => exact fun _ _ _ => monitor_strex
  case hn => exact fun _ _ _ => rfl
  case he => exact fun _ _ _ _ => rfl
  case hr => exact hr
  case hf => exact hf

theorem push (hi : s.pc i = .pushStrex k e) (hm : s.monitor i = some k) :
    ∃ t', LifoStacks.Step t (.push i k e) t' ∧
      Refines ((s.strex k (some e)).goto i (.pushed k)) t' := by
  have ⟨t', hs, hr⟩ := ref.memory.push (held_of hi) (ref.fits_of hi hm)
  refine ⟨t', hs, ref.strex ?_ fits_pushed⟩
  rwa [memory_goto, Pc.held_pushed]

theorem pop (hi : s.pc i = .popStrex k a x) (hm : s.monitor i = some k) :
    ∃ t', LifoStacks.Step t (.pop i k (some a)) t' ∧
      Refines ((s.strex k x).goto i (.popped k (some a))) t' := by
  have ⟨ha, hx⟩ : s.head k = some a ∧ x = s.next a := ref.fits_of hi hm
  have ⟨t', hs, hr⟩ := ref.memory.pop (held_of hi) ha
  subst hx
  refine ⟨t', hs, ref.strex ?_ fits_popped⟩
  rwa [memory_goto, Pc.held_popped]

theorem malloc (hi : s.pc i = .malloc) (ha : a ∉ s.allocated) :
    ∃ t', LifoStacks.Step t (.alloc i a) t' ∧
      Refines ({ s with allocated := a :: s.allocated }.goto i (.pushLdr .head a)) t' := by
  have ⟨t', hs, hr⟩ := ref.memory.alloc (held_of hi) ha
  have hp : ({ s with allocated := a :: s.allocated }.goto i (.pushLdr .head a)).pc =
      Function.update s.pc i (.pushLdr .head a) := rfl
  refine ⟨t', hs, ref.update hp ?_ ?_ ?_ ?_ trivial⟩
  · exact fun _ _ _ hk => ⟨hk, rfl⟩
  · exact fun _ _ _ => rfl
  · exact fun _ _ _ _ => rfl
  · rwa [memory_goto]

-- Each step is one of the specification, or none.
theorem step [DecidableEq α] {e : Option (Event (Fin n) Loc α)} (h : Step s e s') :
    ∃ t', (LifoStacks.machine (Fin n) Loc α).Run t e.toList t' ∧ Refines s' t' := by
  have stay (hr : Refines s' t) :
      ∃ t', (LifoStacks.machine (Fin n) Loc α).Run t [] t' ∧ Refines s' t' :=
    ⟨t, .refl, hr⟩
  have other {i : Fin n} {o : Option Loc} : ∀ j ≠ i, Function.update s.monitor i o j = s.monitor j :=
    fun _ hj => update_of_ne hj ..
  cases h
  case push hi hm   => exact LifoStacks.run_of_step <| ref.push hi hm
  case pop hi hm    => exact LifoStacks.run_of_step <| ref.pop hi hm
  case malloc hi ha => exact LifoStacks.run_of_step <| ref.malloc hi ha
  case popNone i k hi hk =>
    refine LifoStacks.run_of_step ⟨t, ref.memory.empty i hk, ref.goto other ?_ fits_popped⟩
    rw [Pc.held_popped, hi]
    rfl
  case loop hi        => exact stay <| ref.goto (fun _ _ => rfl) (by simp [hi, Pc.held]) trivial
  case popLdrex hi hk => exact stay <| ref.goto other (by simp [hi, Pc.held]) fun _ => hk
  case popLdr i k a hi =>
    have hr : s.monitor i = some k → s.head k = some a := ref.fits_of hi
    exact stay <| ref.goto (fun _ _ => rfl) (by simp [hi, Pc.held]) fun hm => ⟨hr hm, rfl⟩
  case popFail hi     => exact stay <| ref.goto other (by simp [hi, Pc.held]) trivial
  case clear hi       => exact stay <| ref.write (by simp [hi, Pc.held]) rfl trivial
  case pushLdr hi     => exact stay <| ref.goto (fun _ _ => rfl) (by simp [hi, Pc.held]) trivial
  case pushStr hi     => exact stay <| ref.write (by simp [hi, Pc.held]) rfl (update_self ..)
  case pushLdrex i k e x hi hk =>
    have hr : s.next e = x := ref.fits_of hi
    exact stay <| ref.goto other (by simp [hi, Pc.held]) fun _ => hr.trans hk.symm
  case pushAgain hi   => exact stay <| ref.goto other (by simp [hi, Pc.held]) trivial
  case pushFail hi    => exact stay <| ref.goto other (by simp [hi, Pc.held]) trivial

end Refines

variable [DecidableEq α]

theorem refines_of_reachable {l : List (Event (Fin n) Loc α)}
    (r : ((machine n α).logging event).Reachable (s, l)) :
    ∃ t, (LifoStacks.machine (Fin n) Loc α).Run (LifoStacks.init ..) l t ∧ Refines s t := by
  apply r.simulation (R := fun s _ t => Refines s t)
  case init => exact fun _ => .init
  case step =>
    intro s a s' l t _ ref h
    exact ref.step (.of_step h)

end Refinement

open LifoStacks (Event Linked At)

theorem reserved_lifo {n : ℕ} {α : Type*} [DecidableEq α] {s : State n α}
    {l : List (Event (Fin n) Loc α)} (r : ((machine n α).logging event).Reachable (s, l)) :
    ∃ t, (LifoStacks.machine (Fin n) Loc α).Run (LifoStacks.init ..) l t ∧
      (∀ k, Linked s.next (s.head k) (t.lists k) ∧ (t.lists k).Nodup) ∧
      (t.lists .head).Disjoint (t.lists .freeNodes) ∧
      (∀ i, t.held i = (s.pc i).held) ∧
      ∀ a ∈ s.allocated, ∃! p, At t a p :=
  have ⟨t, run, ref⟩ := refines_of_reachable r
  have mem := ref.memory
  ⟨t, run, fun k => ⟨mem.linked k, mem.inv.nodup k⟩, mem.inv.disjoint nofun, congrFun mem.held,
    fun _ ha => mem.inv.existsUnique (mem.allocated ▸ ha)⟩

-- Between the `ldr` and the `ldrex` of thread 1 thread 0 pops node 0 and pushes it again. Thread 1
-- does not notice, and its `strex` succeeds.
theorem reserved_lifo_two :
    ∃ (s : State 2 ℕ) (l : List (Event (Fin 2) Loc ℕ)),
      s.head .head = some 1 ∧ s.next 1 = some 0 ∧
      ∃ t, (LifoStacks.machine (Fin 2) Loc ℕ).Run (LifoStacks.init ..) l t ∧
        (∀ k, Linked s.next (s.head k) (t.lists k) ∧ (t.lists k).Nodup) ∧
        (t.lists .head).Disjoint (t.lists .freeNodes) ∧
        (∀ i, t.held i = (s.pc i).held) ∧
        ∀ a ∈ s.allocated, ∃! p, At t a p :=
  let s₀ : State 2 ℕ := ⟨fun _ => .loop, fun _ => none, fun _ => none, [], fun _ => none⟩
  have ⟨s, l, h, hk, hn⟩ : ∃ s l, ((machine 2 ℕ).logging event).exec (s₀, [])
      (Machine.schedule [(2, .thread 0), (1, .malloc 0 0), (4, .thread 0), (2, .thread 1),
        (1, .malloc 1 1), (2, .thread 1), (16, .thread 0), (2, .thread 1)]) = some (s, l) ∧
      s.head .head = some 1 ∧ s.next 1 = some 0 :=
    ⟨_, _, rfl, rfl, rfl⟩
  ⟨s, l, hk, hn, reserved_lifo (.of_exec ⟨⟨fun _ => rfl, fun _ => rfl, rfl⟩, rfl⟩ h)⟩

end StackLlsc
