import Concurrencia.Hardware.StackCasTagged.Basic
import Concurrencia.LifoStacks.Memory
import Mathlib.Tactic.SplitIfs

open Function

namespace StackCasTagged

section Step

open LifoStacks (Event)

variable {n w : ℕ} {α : Type*}

-- One constructor for each way through a statement, with the event it causes. The exchange of `pop`
-- only succeeds while the tag has not wrapped.
inductive Step (s : State n w α) [DecidableEq α] :
    Option (Event (Fin n) Loc α) → State n w α → Prop
  | loop : (s.pc i = .loop) → Step s none (s.goto i (.popLoad .freeNodes))
  | popLoad : (s.pc i = .popLoad k ∨ ∃ b v x, s.pc i = .popCas k b v x) →
    ((s.head k).node = some a) → Step s none ((s.read i k).goto i (.popNext k a (s.head k).aba))
  | popNone : (s.pc i = .popLoad k ∨ ∃ a v x, s.pc i = .popCas k a v x) → ((s.head k).node = none) →
    Step s (some (.pop i k none)) ((s.read i k).goto i (.popped k none))
  | popNext : (s.pc i = .popNext k a v) → Step s none (s.goto i (.popCas k a v (s.next a)))
  | pop : (s.pc i = .popCas k a v x) → (s.head k = ⟨some a, v⟩) →
    (s.exchanges k - s.since i < 2 ^ w) →
    Step s (some (.pop i k (some a))) ((s.exchange k ⟨x, v + 1⟩).goto i (.popped k (some a)))
  | malloc : (s.pc i = .malloc) → (a ∉ s.allocated) → Step s (some (.alloc i a))
    ({ s with allocated := a :: s.allocated }.goto i (.pushLoad .stackHead a))
  | pushLoad : (s.pc i = .pushLoad k e ∨ ∃ o, s.pc i = .pushCas k e o) →
    Step s none ((s.read i k).goto i (.pushNext k e (s.head k)))
  | pushNext : (s.pc i = .pushNext k e o) →
    Step s none ({ s with next := update s.next e o.node }.goto i (.pushCas k e o))
  | push : (s.pc i = .pushCas k e o) → (s.head k = o) →
    Step s (some (.push i k e)) ((s.exchange k ⟨some e, o.aba + 1⟩).goto i (.pushed k))

variable [DecidableEq α] {s s' : State n w α} {i : Fin n} {l : Label n α}

theorem Step.of_thread (hw : age s i < 2 ^ w) (h : threadStep s i = some s') :
    Step s (event s (.thread i)) s' := by
  cases hp : s.pc i <;> simp only [threadStep, event, age, hp] at h hw ⊢
  case popLoad k =>
    cases h
    cases hn : (s.head k).node <;> simp only [Pc.test, hn, reduceCtorEq, if_true, if_false]
    case none => exact .popNone (.inl hp) hn
    case some => exact .popLoad (.inl hp) hn
  case popCas k a v x =>
    split_ifs at h ⊢ with hk hn
    all_goals cases h
    · exact .pop hp hk hw
    · simp only [Pc.test, hn]
      exact .popNone (.inr ⟨a, v, x, hp⟩) hn
    · obtain ⟨b, hb⟩ := Option.ne_none_iff_exists'.mp hn
      simp only [Pc.test, hb]
      exact .popLoad (.inr ⟨a, v, x, hp⟩) hb
  case pushCas k e o =>
    split_ifs at h ⊢ with hk
    all_goals cases h
    · exact .push hp hk
    · exact .pushLoad (.inr ⟨o, hp⟩)
  all_goals cases h
  case loop     => exact .loop hp
  case popNext  => exact .popNext hp
  case pushLoad => exact .pushLoad (.inl hp)
  case pushNext => exact .pushNext hp

theorem Step.of_step (hw : NoWrap s l) (h : step s l = some s') : Step s (event s l) s' := by
  cases l <;> simp only [step] at h
  case thread => exact .of_thread hw h
  case malloc i a =>
    cases hp : s.pc i <;> simp only [mallocStep, hp, reduceCtorEq] at h
    split_ifs at h with ha
    cases h
    exact .malloc hp ha

end Step

section Refinement

open LifoStacks (Event Represents Memory)

variable {n w : ℕ} {α : Type*} {s s' : State n w α} {i j : Fin n} {k : Loc} {p : Pc w α}
variable {old : NodeHead w α} {a e : α} {v : BitVec w} {x : Option α}

def State.memory (s : State n w α) : Memory (Fin n) Loc α where
  head k    := (s.head k).node
  next      := s.next
  held i    := (s.pc i).held
  allocated := s.allocated

-- What thread `i` knows of the head which it has read: unless the head has been exchanged since, it
-- is still the same.
structure Reads (s : State n w α) (i : Fin n) (k : Loc) (old : NodeHead w α) : Prop where
  aba   : old.aba = .ofNat w (s.since i)
  since : s.since i ≤ s.exchanges k
  same  : s.exchanges k = s.since i → s.head k = old

def Fits (s : State n w α) (i : Fin n) : Pc w α → Prop
  | .popNext k a v  => Reads s i k ⟨some a, v⟩
  | .popCas k a v x => Reads s i k ⟨some a, v⟩ ∧ (s.exchanges k = s.since i → x = s.next a)
  | .pushCas _ e o  => s.next e = o.node
  | .loop | .popLoad _ | .malloc | .pushLoad _ _ | .pushNext _ _ _ => True

structure Refines (s : State n w α) (t : LifoStacks.State (Fin n) Loc α) : Prop where
  memory : Represents s.memory t
  tags   : ∀ k, (s.head k).aba = .ofNat w (s.exchanges k)
  fits   : ∀ i, Fits s i (s.pc i)

namespace Reads

-- A thread which finds the head it has read, with the same tag, knows that there has been no exchange.
theorem fresh
    (h : Reads s i k old) (ht : (s.head k).aba = .ofNat w (s.exchanges k)) (hk : s.head k = old)
    (hw : s.exchanges k - s.since i < 2 ^ w) : s.exchanges k = s.since i := by
  have he : s.exchanges k % 2 ^ w = s.since i % 2 ^ w := by
    have hb : BitVec.ofNat w (s.exchanges k) = .ofNat w (s.since i) := by
      rw [← ht, hk, h.aba]
    simpa using congrArg BitVec.toNat hb
  have hz := Nat.sub_mod_eq_zero_of_mod_eq he
  rw [Nat.mod_eq_of_lt hw] at hz
  exact Nat.le_antisymm (Nat.le_of_sub_eq_zero hz) h.since

theorem keep
    (h : Reads s i k old) (hs : s'.since i = s.since i)
    (hk : s'.exchanges k = s.exchanges k ∧ s'.head k = s.head k ∨
      s.exchanges k < s'.exchanges k) : Reads s' i k old where
  aba := hs ▸ h.aba
  since := by
    have := h.since
    omega
  same he := by
    have := h.since
    cases hk
    case inl hk => exact hk.right.trans (h.same (by omega))
    case inr hk => omega

end Reads

-- The step of another thread.
theorem Fits.keep
    (h : Fits s i p) (hs : s'.since i = s.since i)
    (hk : ∀ k, s'.exchanges k = s.exchanges k ∧ s'.head k = s.head k ∨
      s.exchanges k < s'.exchanges k)
    (hn : ∀ k a, (s.head k).node = some a → s'.next a = s.next a)
    (he : ∀ e, p.held = some e → s'.next e = s.next e) : Fits s' i p := by
  cases p
  case popNext k a v  => exact Reads.keep h hs (hk k)
  case pushCas k e o  => exact (he e rfl).trans h
  case popCas k a v x =>
    refine ⟨h.left.keep hs (hk k), fun hf => ?_⟩
    have hsince := h.left.since
    cases hk k
    case inr hk => omega
    case inl hk =>
      have hf : s.exchanges k = s.since i := by omega
      rw [hn k a (by rw [h.left.same hf])]
      exact h.right hf
  all_goals trivial

theorem Pc.held_pushed : (pushed k : Pc w α).held = none := by
  cases k <;> rfl

theorem Pc.held_popped : (popped k x : Pc w α).held = x := by
  cases k <;> cases x <;> rfl

theorem fits_pushed : Fits s i (.pushed k) := by
  cases k <;> trivial

theorem fits_popped : Fits s i (.popped k x) := by
  cases k <;> cases x <;> trivial

theorem held_of (hi : s.pc i = p) : s.memory.held i = p.held :=
  congrArg Pc.held hi

theorem memory_goto :
    (s.goto i p).memory = { s.memory with held := update s.memory.held i p.held } := by
  simp only [State.memory, Memory.mk.injEq]
  refine ⟨rfl, rfl, funext fun j => ?_, rfl⟩
  by_cases hj : j = i
  case pos => simp [hj]
  case neg => simp [hj]

theorem memory_goto_of_held (hq : p.held = (s.pc i).held) : (s.goto i p).memory = s.memory := by
  rw [memory_goto, hq]
  exact congrArg (Memory.mk _ _ · _) <| update_eq_self ..

theorem memory_exchange {h : NodeHead w α} :
    (s.exchange k h).memory = { s.memory with head := update s.memory.head k h.node } := by
  simp only [State.memory, Memory.mk.injEq]
  refine ⟨funext fun m => ?_, rfl, rfl, rfl⟩
  by_cases hm : m = k
  case pos => simp [hm, State.exchange]
  case neg => simp [hm, State.exchange]

namespace Refines

variable {t t' : LifoStacks.State (Fin n) Loc α}

theorem init (h : Init s) : Refines s (LifoStacks.init ..) where
  tags k := by simp [h.head, h.exchanges]
  fits i := by simp [h.pc, Fits]
  memory := by
    have hm : s.memory = ⟨fun _ => none, s.next, fun _ => none, []⟩ := by
      simp [State.memory, h.head, h.pc, h.allocated, Pc.held]
    exact hm ▸ .init

variable (ref : Refines s t)
include ref

-- The step of thread `i`: what has to be shown of it and of the others.
theorem update
    (hp : s'.pc = Function.update s.pc i p) (hs : ∀ j ≠ i, s'.since j = s.since j)
    (hk : ∀ k, s'.exchanges k = s.exchanges k ∧ s'.head k = s.head k ∨
      s.exchanges k < s'.exchanges k)
    (hn : ∀ k a, (s.head k).node = some a → s'.next a = s.next a)
    (he : ∀ j ≠ i, ∀ e, (s.pc j).held = some e → s'.next e = s.next e)
    (hm : Represents s'.memory t') (ht : ∀ k, (s'.head k).aba = .ofNat w (s'.exchanges k))
    (hf : Fits s' i p) : Refines s' t' where
  memory := hm
  tags   := ht
  fits j := by
    rw [hp]
    by_cases hj : j = i
    case pos => simpa [hj]
    case neg => simpa [hj] using (ref.fits j).keep (hs j hj) hk hn (he j hj)

-- Thread `i` keeps the node it holds, ...
theorem goto (hq : p.held = (s.pc i).held) (hf : Fits (s.goto i p) i p) : Refines (s.goto i p) t := by
  have hp : (s.goto i p).pc = Function.update s.pc i p := rfl
  apply ref.update hp
  case hs => exact fun _ _ => rfl
  case hk => exact fun _ => .inl ⟨rfl, rfl⟩
  case hn => exact fun _ _ _ => rfl
  case he => exact fun _ _ _ _ => rfl
  case hm => exact memory_goto_of_held hq ▸ ref.memory
  case ht => exact ref.tags
  case hf => exact hf

-- ... also when it reads a head.
theorem read (hq : p.held = (s.pc i).held) (hf : Fits ((s.read i k).goto i p) i p) :
    Refines ((s.read i k).goto i p) t := by
  have hp : ((s.read i k).goto i p).pc = Function.update s.pc i p := rfl
  have hm : ((s.read i k).goto i p).memory = (s.read i k).memory := memory_goto_of_held hq
  apply ref.update hp
  case hs => exact fun _ hj => update_of_ne hj ..
  case hk => exact fun _ => .inl ⟨rfl, rfl⟩
  case hn => exact fun _ _ _ => rfl
  case he => exact fun _ _ _ _ => rfl
  case hm => exact hm ▸ ref.memory
  case ht => exact ref.tags
  case hf => exact hf

theorem reads (hn : (s.head k).node = x) :
    Reads ((s.read i k).goto i p) i k ⟨x, (s.head k).aba⟩ where
  aba    := by simp [State.goto, State.read, ref.tags]
  since  := by simp [State.goto, State.read]
  same _ := hn ▸ rfl

theorem fits_of (hi : s.pc i = p) : Fits s i p :=
  hi ▸ ref.fits i

-- An exchange on head `k` by thread `i`.
theorem exchange {h : NodeHead w α}
    (hv : h.aba = (s.head k).aba + 1) (hm : Represents ((s.exchange k h).goto i p).memory t')
    (hf : Fits ((s.exchange k h).goto i p) i p) : Refines ((s.exchange k h).goto i p) t' := by
  have hp : ((s.exchange k h).goto i p).pc = Function.update s.pc i p := rfl
  apply ref.update hp
  case hs => exact fun _ _ => rfl
  case hn => exact fun _ _ _ => rfl
  case he => exact fun _ _ _ _ => rfl
  case hm => exact hm
  case hf => exact hf
  case hk =>
    intro m
    by_cases hm : m = k
    case pos => simp [hm, State.goto, State.exchange]
    case neg => simp [hm, State.goto, State.exchange]
  case ht =>
    intro m
    by_cases hm : m = k
    case pos => simp [hm, State.goto, State.exchange, hv, ref.tags, BitVec.ofNat_add]
    case neg => simp [hm, State.goto, State.exchange, ref.tags]

theorem push (hi : s.pc i = .pushCas k e old) (hk : s.head k = old) :
    ∃ t', LifoStacks.Step t (.push i k e) t' ∧
      Refines ((s.exchange k ⟨some e, old.aba + 1⟩).goto i (.pushed k)) t' := by
  have hn : s.next e = (s.head k).node := hk ▸ ref.fits_of hi
  have ⟨t', hs, hr⟩ := ref.memory.push (held_of hi) hn
  refine ⟨t', hs, ref.exchange (hk ▸ rfl) ?_ fits_pushed⟩
  rwa [memory_goto, memory_exchange, Pc.held_pushed]

theorem pop
    (hi : s.pc i = .popCas k a v x) (hk : s.head k = ⟨some a, v⟩)
    (hw : s.exchanges k - s.since i < 2 ^ w) :
    ∃ t', LifoStacks.Step t (.pop i k (some a)) t' ∧
      Refines ((s.exchange k ⟨x, v + 1⟩).goto i (.popped k (some a))) t' := by
  have ⟨hr, hx⟩ : Reads s i k ⟨some a, v⟩ ∧ (s.exchanges k = s.since i → x = s.next a) :=
    ref.fits_of hi
  obtain rfl : x = s.next a := hx <| hr.fresh (ref.tags k) hk hw
  have ⟨t', hs, hr⟩ := ref.memory.pop (held_of hi) (congrArg NodeHead.node hk)
  refine ⟨t', hs, ref.exchange (hk ▸ rfl) ?_ fits_popped⟩
  rwa [memory_goto, memory_exchange, Pc.held_popped]

theorem malloc (hi : s.pc i = .malloc) (ha : a ∉ s.allocated) :
    ∃ t', LifoStacks.Step t (.alloc i a) t' ∧
      Refines ({ s with allocated := a :: s.allocated }.goto i (.pushLoad .stackHead a)) t' := by
  have ⟨t', hs, hr⟩ := ref.memory.alloc (held_of hi) ha
  have hp : ({ s with allocated := a :: s.allocated }.goto i (.pushLoad .stackHead a)).pc =
      Function.update s.pc i (.pushLoad .stackHead a) := rfl
  refine ⟨t', hs, ref.update hp ?_ ?_ ?_ ?_ ?_ ref.tags trivial⟩
  · exact fun _ _ => rfl
  · exact fun _ => .inl ⟨rfl, rfl⟩
  · exact fun _ _ _ => rfl
  · exact fun _ _ _ _ => rfl
  · rwa [memory_goto]

-- A node which is linked is in no stack yet.
theorem pushNext [DecidableEq α] (hi : s.pc i = .pushNext k e old) :
    Refines ({ s with next := Function.update s.next e old.node }.goto i (.pushCas k e old)) t := by
  have he : s.memory.held i = some e := held_of hi
  have hne {a : α} (ha : a ≠ e) : Function.update s.next e old.node a = s.next a := update_of_ne ha ..
  have hp : ({ s with next := Function.update s.next e old.node }.goto i (.pushCas k e old)).pc =
      Function.update s.pc i (.pushCas k e old) := rfl
  apply ref.update hp
  case hs => exact fun _ _ => rfl
  case hk => exact fun _ => .inl ⟨rfl, rfl⟩
  case hn => exact fun m a ha => hne <| ref.memory.ne_of_held he ha
  case he => exact fun j hj b hb => hne fun h => hj <| ref.memory.held_inj hb (h ▸ he)
  case ht => exact ref.tags
  case hf => exact update_self ..
  case hm =>
    rw [memory_goto_of_held (by simp [hi, Pc.held])]
    exact ref.memory.write he

-- Each step is one of the specification, or none.
theorem step [DecidableEq α] {e : Option (Event (Fin n) Loc α)} (h : Step s e s') :
    ∃ t', (LifoStacks.machine (Fin n) Loc α).Run t e.toList t' ∧ Refines s' t' := by
  cases h
  case push hi hk   => exact LifoStacks.run_of_step <| ref.push hi hk
  case pop hi hk hw => exact LifoStacks.run_of_step <| ref.pop hi hk hw
  case malloc hi ha => exact LifoStacks.run_of_step <| ref.malloc hi ha
  case pushNext hi  => exact ⟨t, .refl, ref.pushNext hi⟩
  case loop hi      => exact ⟨t, .refl, ref.goto (by simp [hi, Pc.held]) trivial⟩
  case popNext i k a v hi =>
    have hr : Reads s i k ⟨some a, v⟩ := ref.fits_of hi
    refine ⟨t, .refl, ref.goto (by simp [hi, Pc.held]) ?_⟩
    exact ⟨hr.keep rfl <| .inl ⟨rfl, rfl⟩, fun _ => rfl⟩
  case popNone i k hi hn =>
    refine LifoStacks.run_of_step ⟨t, ref.memory.empty i hn, ref.read ?_ fits_popped⟩
    rw [Pc.held_popped]
    cases hi
    case inl hi => simp [hi, Pc.held]
    case inr hi =>
      have ⟨_, _, _, hi⟩ := hi
      simp [hi, Pc.held]
  case popLoad i k a hi hn =>
    refine ⟨t, .refl, ref.read ?_ (ref.reads hn)⟩
    cases hi
    case inl hi => simp [hi, Pc.held]
    case inr hi =>
      have ⟨_, _, _, hi⟩ := hi
      simp [hi, Pc.held]
  case pushLoad i k e hi =>
    refine ⟨t, .refl, ref.read ?_ trivial⟩
    cases hi
    case inl hi => simp [hi, Pc.held]
    case inr hi =>
      have ⟨_, hi⟩ := hi
      simp [hi, Pc.held]

end Refines

variable [DecidableEq α]

theorem refines_of_reachable {l : List (Event (Fin n) Loc α)}
    (r : (((machine n w α).only NoWrap).logging event).Reachable (s, l)) :
    ∃ t, (LifoStacks.machine (Fin n) Loc α).Run (LifoStacks.init ..) l t ∧ Refines s t := by
  apply r.simulation (R := fun s _ t => Refines s t)
  case init => exact fun _ => .init
  case step =>
    intro s a s' l t _ ref h
    have h := Machine.only_step.mp h
    exact ref.step (.of_step h.left h.right)

end Refinement

open LifoStacks (Event Linked At)

theorem tagged_lifo {n w : ℕ} {α : Type*} [DecidableEq α] {s : State n w α}
    {l : List (Event (Fin n) Loc α)}
    (r : (((machine n w α).only NoWrap).logging event).Reachable (s, l)) :
    ∃ t, (LifoStacks.machine (Fin n) Loc α).Run (LifoStacks.init ..) l t ∧
      (∀ k, Linked s.next (s.head k).node (t.lists k) ∧ (t.lists k).Nodup) ∧
      (∀ i, t.held i = (s.pc i).held) ∧
      ∀ a ∈ s.allocated, ∃! p, At t a p :=
  have ⟨t, run, ref⟩ := refines_of_reachable r
  have mem := ref.memory
  ⟨t, run, fun k => ⟨mem.linked k, mem.inv.nodup k⟩, congrFun mem.held,
    fun _ ha => mem.inv.existsUnique (mem.allocated ▸ ha)⟩

-- Thread 1 is about to exchange the head for node 0. Meanwhile thread 0 has popped node 1, has put it
-- on the free list, and has pushed it again: only the tag of the head is another one.
theorem tagged_lifo_two :
    ∃ (s : State 2 64 ℕ) (l : List (Event (Fin 2) Loc ℕ)),
      s.pc 1 = .popCas .stackHead 1 2 (some 0) ∧ s.head .stackHead = ⟨some 1, 4⟩ ∧
      ∃ t, (LifoStacks.machine (Fin 2) Loc ℕ).Run (LifoStacks.init ..) l t ∧
        (∀ k, Linked s.next (s.head k).node (t.lists k) ∧ (t.lists k).Nodup) ∧
        (∀ i, t.held i = (s.pc i).held) ∧
        ∀ a ∈ s.allocated, ∃! p, At t a p :=
  let s₀ : State 2 64 ℕ := ⟨fun _ => .loop, fun _ => ⟨none, 0⟩, fun _ => none, [], fun _ => 0, fun _ => 0⟩
  have ⟨s, l, h, hp, hk⟩ : ∃ s l, (((machine 2 64 ℕ).only NoWrap).logging event).exec (s₀, [])
      (Machine.schedule [(2, .thread 0), (1, .malloc 0 0), (3, .thread 0),
        (2, .thread 1), (1, .malloc 1 1), (5, .thread 1), (13, .thread 0)]) = some (s, l) ∧
      s.pc 1 = .popCas .stackHead 1 2 (some 0) ∧ s.head .stackHead = ⟨some 1, 4⟩ :=
    ⟨_, _, rfl, rfl, rfl⟩
  ⟨s, l, hp, hk, tagged_lifo (.of_exec ⟨⟨fun _ => rfl, fun _ => rfl, rfl, fun _ => rfl⟩, rfl⟩ h)⟩

end StackCasTagged
