import Concurrencia.Semaphores.ReaderWriterFaster.Theorems.Count

open Function Threads

namespace ReaderWriterFaster

namespace Pc

-- A writer which has set `wait` and has not cleared it yet.
def Waits : Pc → Prop
  | writer .releaseExitWaiting | writer .acquireWriter | writer .clearWait => True
  | _                                                                     => False

-- A reader which is counted by `readersIn` and may still find out that it is the last one.
def Inside : Pc → Prop
  | reader .releaseEntry | reader .reading | reader .acquireExit | reader .loadOut
  | reader (.storeOut _) | reader .testWait | reader .testIn | reader (.testOut _)
  | reader .releaseWriter => True
  | _                     => False

variable {p : Pc}

theorem Waits.holdsEntry (h : p.Waits) : p.HoldsEntry := by
  cases p <;> try exact h.elim
  case writer w => cases w <;> first | exact h.elim | trivial

theorem Inside.cases (h : p.Inside) : p.Present ∨ p.HoldsExit := by
  cases p <;> try exact h.elim
  case reader r => cases r <;> first | exact h.elim | exact .inl trivial | exact .inr trivial

end Pc

variable {n : ℕ} {s s' : State n} {i j k : Fin n} {r : Reader} {w : Writer} {l : Label n} {p : Pc}

def Waiting (s : State n) : Prop :=
  ∃ j, (s.pc j).Waits

-- If the lock `writer` is free, it is about to be taken.
def Expected (s : State n) : Prop :=
  s.writer = false → ∃ j, s.pc j = .writer .acquireWriter

-- What a thread knows about the lock `writer`. Between its tests, the counters do not change if a
-- writer waits.
def Tested (s : State n) : Pc → Prop
  | .reader .testIn        => Expected s
  | .reader (.testOut v)   => Expected s ∧ (Waiting s → v = s.readersIn)
  | .reader .releaseWriter => s.writer = true ∧ (Waiting s → s.readersIn = s.readersOut)
  | .writer .clearWait     => s.writer = true ∨ ∀ i, ¬(s.pc i).Inside
  | .failed                => False
  | _                      => True

structure Handshake (s : State n) : Prop extends Counted s where
  wait   : s.wait = true → Waiting s
  tested : ∀ i, Tested s (s.pc i)

theorem Tested.mono (h : Tested s p)
    (ht : p.HoldsExit → (s.writer = true → s'.writer = true) ∧ (Expected s → Expected s') ∧
      (Waiting s' → Waiting s ∧ s'.readersIn = s.readersIn ∧ s'.readersOut = s.readersOut))
    (hc : p = .writer .clearWait → s'.writer = true ∨ ∀ i, ¬(s'.pc i).Inside) : Tested s' p := by
  cases p
  case failed => exact h
  case idle => trivial
  case writer w =>
    cases w
    case clearWait => exact hc rfl
    all_goals trivial
  case reader r =>
    cases r
    case testIn => exact (ht trivial).right.left h
    case testOut =>
      have ⟨_, he, hk⟩ := ht trivial
      exact ⟨he h.left, fun hw => (h.right (hk hw).left).trans (hk hw).right.left.symm⟩
    case releaseWriter =>
      have ⟨ht, _, hk⟩ := ht trivial
      refine ⟨ht h.left, fun hw => ?_⟩
      have ⟨hw, hi, ho⟩ := hk hw
      rw [hi, ho, h.right hw]
    all_goals trivial

theorem Expected.update (h : Expected s) (hp : s'.pc = update s.pc i p)
    (hl : s'.writer = s.writer) (ha : s.pc i ≠ .writer .acquireWriter) : Expected s' := by
  intro hf
  have ⟨j, hj⟩ := h (hl ▸ hf)
  have hji : j ≠ i := fun hji => ha (hji ▸ hj)
  exact ⟨j, by simpa [hp, hji] using hj⟩

theorem Waiting.of_update (h : Waiting s') (hp : s'.pc = Function.update s.pc i p)
    (hw : p.Waits → (s.pc i).Waits) : Waiting s := by
  have ⟨j, hj⟩ := h
  by_cases hji : j = i
  case pos => exact ⟨i, hw (by simpa [hp, hji] using hj)⟩
  case neg => exact ⟨j, by simpa [hp, hji] using hj⟩

namespace Handshake

theorem init : Handshake (init n) where
  toCounted := .init
  wait h    := by cases h
  tested _  := trivial

theorem move (c : Counted s') (hp : s'.pc = update s.pc i p) (hw : s'.wait = true → Waiting s')
    (ht : Tested s' p) (hk : ∀ k ≠ i, Tested s' (s.pc k)) : Handshake s' where
  toCounted := c
  wait      := hw
  tested    := hp ▸ forall_update ht hk

theorem not_inside_update (hp : s'.pc = update s.pc i p) (hi : p.Inside → (s.pc i).Inside)
    (hn : ∀ i, ¬(s.pc i).Inside) : ∀ j, ¬(s'.pc j).Inside := by
  rw [hp]
  exact forall_update (P := fun p : Pc => ¬p.Inside) (fun hi' => hn i (hi hi')) fun j _ => hn j

variable (h : Handshake s)
include h

theorem tested_of (hi : s.pc i = p) : Tested s p :=
  hi ▸ h.tested i

theorem waiting_update (hp : s'.pc = update s.pc i p) (hw : (s.pc i).Waits → p.Waits)
    (hs : s.wait = true) : Waiting s' := by
  have ⟨j, hj⟩ := h.wait hs
  by_cases hji : j = i
  case pos => exact ⟨i, by simpa [hp] using hw (hji ▸ hj)⟩
  case neg => exact ⟨j, by simpa [hp, hji] using hj⟩

-- A step which changes neither the lock `writer` nor the counters.
theorem quiet (c : Counted s') (hp : s'.pc = update s.pc i p) (hl : s'.writer = s.writer)
    (hi : s'.readersIn = s.readersIn) (ho : s'.readersOut = s.readersOut)
    (ha : s.pc i ≠ .writer .acquireWriter) (hs : s'.wait = true → Waiting s')
    (hw : p.Waits → (s.pc i).Waits) (hin : p.Inside → (s.pc i).Inside) (ht : Tested s' p) :
    Handshake s' := by
  refine move c hp hs ht fun k _ => (h.tested k).mono ?_ ?_
  · exact fun _ => ⟨(hl ▸ ·), (·.update hp hl ha), fun hs => ⟨hs.of_update hp hw, hi, ho⟩⟩
  · intro hk
    cases h.tested_of hk
    case inl hf => exact .inl (hl ▸ hf)
    case inr hn => exact .inr (not_inside_update hp hin hn)

-- A step of a thread which holds `exit`: the others do not test.
theorem busy (c : Counted s') (hp : s'.pc = update s.pc i p) (hx : (s.pc i).HoldsExit)
    (hs : s'.wait = true → Waiting s') (ht : Tested s' p)
    (hc : Waiting s → s.writer = true ∨ (∀ i, ¬(s.pc i).Inside) →
      s'.writer = true ∨ ∀ i, ¬(s'.pc i).Inside) : Handshake s' := by
  refine move c hp hs ht fun k hk => (h.tested k).mono ?_ ?_
  · exact fun hx' => absurd hx' (h.exit.not_of_ne hx hk)
  · intro hk
    have hw : Waiting s := ⟨k, by rw [hk]; trivial⟩
    exact hc hw (h.tested_of hk)

-- A step of a thread which holds `entry`: the others do not wait.
theorem lone (c : Counted s') (hp : s'.pc = update s.pc i p) (he : (s.pc i).HoldsEntry)
    (hs : s'.wait = true → Waiting s') (ht : Tested s' p)
    (hk : (s.writer = true → s'.writer = true) ∧ (Expected s → Expected s') ∧
      (Waiting s' → Waiting s ∧ s'.readersIn = s.readersIn ∧ s'.readersOut = s.readersOut)) :
    Handshake s' := by
  refine move c hp hs ht fun k hki => (h.tested k).mono (fun _ => hk) ?_
  intro hk
  exact absurd (by rw [hk]; trivial) (h.entry.not_of_ne he hki)

theorem not_raises : ¬Raises s (s.pc i) := by
  intro hr
  cases hr
  case entry hl hr =>
    have hi : (s.pc i).HoldsEntry := by cases hr <;> simp_all [Pc.HoldsEntry]
    exact absurd (h.entry.locked hi) (by simp [hl])
  case exit hl hr =>
    have hi : (s.pc i).HoldsExit := by rcases hr with hr | hr | hr <;> simp_all [Pc.HoldsExit]
    exact absurd (h.exit.locked hi) (by simp [hl])
  case writer hl hr => exact absurd (h.tested_of hr).left (by simp [hl])

-- A reader which finds `wait` set, holds `exit`, so the writer has released it.
theorem expected (hp : s.pc i = .reader .testWait) (hs : s.wait = true) : Expected s := by
  intro hf
  have ⟨j, hj⟩ := h.wait hs
  cases hq : s.pc j <;> rw [hq] at hj <;> try exact hj.elim
  case writer w =>
    cases w <;> try exact hj.elim
    case acquireWriter => exact ⟨j, hq⟩
    case releaseExitWaiting =>
      have he : j = i := h.exit.unique (by rw [hq]; trivial) (by rw [hp]; trivial)
      rw [he, hp] at hq
      cases hq
    case clearWait =>
      cases h.tested_of hq
      case inl hl => exact absurd hl (by simp [hf])
      case inr hn => exact absurd (by rw [hp]; trivial) (hn i)

-- A step of a reader which changes the locks at most.
theorem turn {q : Reader} (c : Counted s') (hp : s.pc i = .reader r)
    (hp' : s'.pc = update s.pc i (.reader q)) (hl : s'.writer = s.writer)
    (hi : s'.readersIn = s.readersIn) (ho : s'.readersOut = s.readersOut) (hw : s'.wait = s.wait)
    (hin : (Pc.reader q).Inside → (Pc.reader r).Inside) (ht : Tested s' (.reader q)) :
    Handshake s' := by
  refine h.quiet c hp' hl hi ho (by simp [hp]) ?_ False.elim (by rwa [hp]) ht
  intro hs
  exact h.waiting_update hp' (by rw [hp]; exact False.elim) (hw ▸ hs)

theorem testWait (hp : s.pc i = .reader .testWait) :
    Handshake (s.goto i (.reader (if s.wait then .testIn else .releaseExit))) := by
  cases hw : s.wait
  case false =>
    have c := h.toCounted.reader hp (.testWait (.inr rfl))
    exact h.turn c hp rfl rfl rfl rfl rfl False.elim trivial
  case true =>
    have c := h.toCounted.reader hp (.testWait (.inl rfl))
    exact h.turn c hp rfl rfl rfl rfl rfl id ((h.expected hp hw).update rfl rfl (by simp [hp]))

theorem testOut (hp : s.pc i = .reader (.testOut v))
    (hl : v = s.readersOut → s.writer = false → ∀ j, s.pc j ≠ .writer .acquireWriter) :
    Handshake (s.goto i (.reader (if v = s.readersOut then .releaseWriter else .releaseExit))) := by
  have ⟨he, hv⟩ := h.tested_of hp
  by_cases ho : v = s.readersOut
  case neg =>
    rw [if_neg ho]
    have c := h.toCounted.reader hp (.testOut (.inr rfl))
    exact h.turn c hp rfl rfl rfl rfl rfl False.elim trivial
  case pos =>
    rw [if_pos ho]
    have c := h.toCounted.reader hp (.testOut (.inl rfl))
    refine h.turn c hp rfl rfl rfl rfl rfl id ⟨?_, ?_⟩
    · by_contra hf
      have ⟨j, hj⟩ := he (Bool.eq_false_iff.mpr hf)
      exact hl ho (Bool.eq_false_iff.mpr hf) j hj
    · intro hs
      exact (hv (hs.of_update rfl False.elim)).symm.trans ho

-- The last reader gives the lock to the writer, and there is no other reader.
theorem releaseWriter (hp : s.pc i = .reader .releaseWriter) (hl : s.writer = true) :
    Handshake ({ s with writer := false }.goto i (.reader .releaseExit)) := by
  have c := h.toCounted.reader hp (.releaseWriter hl)
  have hx : (s.pc i).HoldsExit := by
    rw [hp]
    trivial
  refine h.busy c rfl hx (h.waiting_update rfl (by rw [hp]; exact False.elim)) trivial ?_
  intro hw _
  refine .inr <| forall_update (P := fun p : Pc => ¬p.Inside) id fun j hj hin => ?_
  cases hin.cases
  case inl hin => exact h.not_present ((h.tested_of hp).right hw) j hin
  case inr hin => exact h.exit.not_of_ne hx hj hin

theorem reader (hp : s.pc i = .reader r) (hs : ReaderStep s i r s') (hw : r ≠ .testWait)
    (ho : ∀ v, r ≠ .testOut v) : Handshake s' := by
  have c := h.toCounted.reader hp hs
  have hwt {q : Pc} (hq : s'.pc = update s.pc i q) (hf : s'.wait = s.wait) :
      s'.wait = true → Waiting s' :=
    fun hs => h.waiting_update hq (by rw [hp]; exact False.elim) (hf ▸ hs)
  cases hs
  case testWait        => exact absurd rfl hw
  case testOut         => exact absurd rfl (ho _)
  case raises hr       => exact absurd (hp ▸ hr) h.not_raises
  case releaseWriter hl => exact h.releaseWriter hp hl
  case storeIn =>
    have he : (s.pc i).HoldsEntry := by
      rw [hp]
      trivial
    refine h.lone c rfl he (hwt rfl rfl) trivial ⟨id, ?_, ?_⟩
    · exact (·.update rfl rfl (by simp [hp]))
    · intro hs
      have ⟨j, hj⟩ := hs.of_update (s := s) rfl False.elim
      have hn : j = i := h.entry.unique hj.holdsEntry he
      rw [hn, hp] at hj
      exact hj.elim
  case storeOut =>
    have hx : (s.pc i).HoldsExit := by
      rw [hp]
      trivial
    refine h.busy c rfl hx (hwt rfl rfl) trivial fun _ ht => ?_
    cases ht
    case inl hl => exact .inl hl
    case inr hn => exact .inr (not_inside_update rfl (by rw [hp]; exact id) hn)
  case releaseExit =>
    exact h.quiet c rfl rfl rfl rfl (by simp [hp]) (hwt rfl rfl) False.elim False.elim trivial
  case testIn =>
    have he : Expected s := h.tested_of hp
    exact h.turn c hp rfl rfl rfl rfl rfl id ⟨he.update rfl rfl (by simp [hp]), fun _ => rfl⟩
  case acquireEntry | loadIn =>
    exact h.turn c hp rfl rfl rfl rfl rfl False.elim trivial
  case releaseEntry | reading | acquireExit | loadOut =>
    exact h.turn c hp rfl rfl rfl rfl rfl id trivial

theorem writer (hp : s.pc i = .writer w) (hs : WriterStep s i w s') : Handshake s' := by
  have c := h.toCounted.writer hp hs
  have hwt {q : Pc} (hq : s'.pc = update s.pc i q) (hf : s'.wait = s.wait)
      (hw : (Pc.writer w).Waits → q.Waits) : s'.wait = true → Waiting s' :=
    fun hs => h.waiting_update hq (by rwa [hp]) (hf ▸ hs)
  cases hs
  case raises hr => exact absurd (hp ▸ hr) h.not_raises
  case setWait =>
    have hw : Waiting ({ s with wait := true }.goto i (.writer .releaseExitWaiting)) :=
      ⟨i, by simp [State.goto, Pc.Waits]⟩
    refine h.busy c rfl (by rw [hp]; trivial) (fun _ => hw) trivial fun _ ht => ?_
    cases ht
    case inl hl => exact .inl hl
    case inr hn => exact .inr (not_inside_update rfl False.elim hn)
  case acquireWriter =>
    have he : (s.pc i).HoldsEntry := by
      rw [hp]
      trivial
    refine h.lone c rfl he (hwt rfl rfl id) (.inl rfl) ⟨fun _ => rfl, ?_, ?_⟩
    · intro _ hf
      cases hf
    · exact fun hs => ⟨hs.of_update rfl (by rw [hp]; exact id), rfl, rfl⟩
  case clearWait =>
    exact h.quiet c rfl rfl rfl rfl (by simp [hp]) (fun hs => by cases hs) False.elim False.elim
      trivial
  case releaseExitWaiting =>
    exact h.quiet c rfl rfl rfl rfl (by simp [hp]) (hwt rfl rfl id) (by rw [hp]; exact id)
      False.elim trivial
  all_goals
    exact h.quiet c rfl rfl rfl rfl (by simp [hp]) (hwt rfl rfl False.elim) False.elim False.elim
      trivial

end Handshake

-- No reader finds out that it is the last one while a writer is about to take the free lock
-- `writer`.
def Waited (s : State n) : Label n → Prop
  | .thread i => s.pc i = .reader (.testOut s.readersOut) → s.writer = false →
    ∀ j, s.pc j ≠ .writer .acquireWriter
  | _         => True

instance (s : State n) : (l : Label n) → Decidable (Waited s l)
  | .readerLock _ | .writerLock _ => .isTrue trivial
  | .thread i                     => inferInstanceAs <| Decidable (s.pc i = _ → _ → _)

theorem Handshake.step (h : Handshake s) (hw : Waited s l)
    (hs : ReaderWriterFaster.step s l = some s') : Handshake s' := by
  have c := h.toCounted.step (.of_step hs)
  cases l
  case readerLock i | writerLock i =>
    obtain ⟨hp, hs⟩ := Option.ite_none_right_eq_some.mp hs
    cases hs
    refine h.quiet c rfl rfl rfl rfl (by simp [hp]) ?_ False.elim False.elim trivial
    exact h.waiting_update rfl (by rw [hp]; exact False.elim)
  case thread i =>
    simp only [ReaderWriterFaster.step, threadStep] at hs
    cases hp : s.pc i <;> simp only [hp] at hs
    case idle | failed => cases hs
    case writer w      => exact h.writer hp (.of_step hs)
    case reader r =>
      cases hr : r
      case testWait =>
        subst hr
        cases hs
        exact h.testWait hp
      case testOut v =>
        subst hr
        cases hs
        exact h.testOut hp fun ho => hw (ho ▸ hp)
      all_goals exact h.reader hp (.of_step hs) (by simp [hr]) (by simp [hr])

theorem handshake_of_reachable (r : ((machine n).only Waited).Reachable s) : Handshake s := by
  apply r.invariant
  case init =>
    intro _ h
    exact h ▸ .init
  case step =>
    intro _ _ _ _ h hs
    have ⟨hw, hs⟩ := Machine.only_step.mp hs
    exact h.step hw hs

theorem counted_of_reachable (r : (machine n).Reachable s) : Counted s := by
  apply r.invariant
  case init =>
    intro _ h
    exact h ▸ .init
  case step => exact fun _ _ _ _ c hs => c.step (.of_step hs)

-- The reader releases the free lock, and `exit` remains locked.
theorem failed_of_not_waited (r : (machine n).Reachable s) (hw : ¬Waited s (.thread i)) :
    ∃ s', (machine n).Run s [.thread i, .thread i] s' ∧ s'.pc i = .failed ∧ s'.exit = true := by
  simp only [Waited, Classical.not_imp] at hw
  obtain ⟨hp, hl, _⟩ := hw
  have hx : s.exit = true := (counted_of_reachable r).exit.locked (i := i) (by rw [hp]; trivial)
  have h₁ : (machine n).step s (.thread i) = some (s.goto i (.reader .releaseWriter)) := by
    simp [machine, step, threadStep, readerStep, hp]
  have h₂ : (machine n).step (s.goto i (.reader .releaseWriter)) (.thread i) =
      some ((s.goto i (.reader .releaseWriter)).goto i .failed) := by
    simp [machine, step, threadStep, readerStep, State.goto, hl]
  exact ⟨_, .step h₁ (.step h₂ .refl), by simp [State.goto], hx⟩

-- If no reader signals too early, the lock `writer` is never released while it is free. A reader
-- which does gets an exception in its next step, unless the writer takes the lock in between.
theorem released_locked (n : ℕ) :
    (∀ s, ((machine n).only Waited).Reachable s →
      ∀ i, (s.pc i = .reader .releaseWriter → s.writer = true) ∧ s.pc i ≠ .failed) ∧
    ∀ s i, (machine n).Reachable s → ¬Waited s (.thread i) →
      ∃ s', (machine n).Run s [.thread i, .thread i] s' ∧ s'.pc i = .failed ∧ s'.exit = true := by
  refine ⟨fun s r i => ⟨fun hi => ?_, fun hi => ?_⟩, fun s i r => failed_of_not_waited r⟩
  · exact ((handshake_of_reachable r).tested_of hi).left
  · exact (handshake_of_reachable r).tested_of hi

-- In the second round, the writer waits until the last reader signals.
theorem released_locked_two :
    ∃ s : State 2, s.pc 0 = .writer .acquireWriter ∧ s.pc 1 = .reader .releaseWriter ∧
      s.writer = true :=
  have ⟨s, h, hw, hr⟩ : ∃ s, ((machine 2).only Waited).exec (init 2)
      (.readerLock 1 :: .writerLock 0 ::
        Machine.schedule [(4, .thread 1), (10, .thread 0), (6, .thread 1), (1, .readerLock 1),
          (1, .writerLock 0), (4, .thread 1), (6, .thread 0), (7, .thread 1)]) = some s ∧
        s.pc 0 = .writer .acquireWriter ∧ s.pc 1 = .reader .releaseWriter :=
    ⟨_, rfl, rfl, rfl⟩
  ⟨s, hw, hr, ((released_locked 2).left s (.of_exec rfl h) 1).left hr⟩

-- The writer has set `wait`, and the last reader is faster than the writer.
theorem released_free :
    ¬∀ (n : ℕ) (s : State n), (machine n).Reachable s →
      ∀ i, (s.pc i = .reader .releaseWriter → s.writer = true) ∧
        ¬(s.pc i = .failed ∧ s.exit = true) := by
  intro h
  have ⟨s, he, hp, hx⟩ : ∃ s, (machine 2).exec (init 2)
      (.readerLock 1 :: .writerLock 0 ::
        Machine.schedule [(4, .thread 1), (6, .thread 0), (8, .thread 1)]) =
        some s ∧ s.pc 1 = .failed ∧ s.exit = true :=
    ⟨_, rfl, rfl, rfl⟩
  exact (h 2 s (.of_exec rfl he) 1).right ⟨hp, hx⟩

end ReaderWriterFaster
