import Concurrencia.Semaphores.ReaderWriterFaster.Theorems.Count

open Function Threads

namespace ReaderWriterFaster

namespace Pc

-- A writer which has found all readers gone.
def Alone : Pc → Prop
  | writer .releaseExit | writer .clearWait | writer .writing | writer .releaseEntry => True
  | _ => False

theorem Alone.holdsEntry {p : Pc} (h : p.Alone) : p.HoldsEntry := by
  cases p <;> try exact h.elim
  case writer w => cases w <;> first | exact h.elim | trivial

end Pc

variable {n : ℕ} {s s' : State n} {i j : Fin n} {r : Reader} {w : Writer} {l : Label n} {p : Pc}

structure Inv (s : State n) : Prop where
  entry  : Exclusive s.pc Pc.HoldsEntry s.entry
  exit   : Exclusive s.pc Pc.HoldsExit s.exit
  loaded : ∀ i, Loaded s.readersIn s.readersOut (s.pc i)
  count  : s.readersIn = s.readersOut + count s.pc Pc.Present
  alone  : ∀ {i}, (s.pc i).Alone → s.readersIn = s.readersOut

namespace Inv

theorem of_counted (c : Counted s) (ha : ∀ i, (s.pc i).Alone → s.readersIn = s.readersOut) :
    Inv s where
  entry  := c.entry
  exit   := c.exit
  loaded := c.loaded
  count  := c.count
  alone  := ha _

theorem init : Inv (init n) :=
  .of_counted .init fun _ => False.elim

variable (inv : Inv s)
include inv

theorem counted : Counted s where
  entry  := inv.entry
  exit   := inv.exit
  loaded := inv.loaded
  count  := inv.count

-- A step which leaves the counters alone.
theorem move (c : Counted s') (hp : s'.pc = update s.pc i p) (hi : s'.readersIn = s.readersIn)
    (ho : s'.readersOut = s.readersOut) (ha : p.Alone → s.readersIn = s.readersOut) : Inv s' := by
  refine .of_counted c ?_
  rw [hi, ho, hp]
  exact forall_update (P := fun p : Pc => p.Alone → s.readersIn = s.readersOut) ha
    fun _ _ => inv.alone

theorem reader (c : Counted s') (hp : s.pc i = .reader r) (h : ReaderStep s i r s') : Inv s' := by
  cases h
  case storeIn =>
    -- The thread and a lone writer would both hold `entry`.
    refine .of_counted c <| forall_update (P := fun p : Pc => p.Alone → _) False.elim ?_
    intro j hj ha
    exact absurd ha.holdsEntry <| inv.entry.not_of_ne (by simp [hp, Pc.HoldsEntry]) hj
  case storeOut =>
    refine .of_counted c <| forall_update (P := fun p : Pc => p.Alone → _) False.elim ?_
    intro j _ ha
    have hi : (s.pc i).Present := by
      rw [hp]
      trivial
    exact absurd hi (inv.counted.not_present (inv.alone ha) i)
  case testWait hr | testOut hr =>
    rcases hr with rfl | rfl
    all_goals exact inv.move c rfl rfl rfl False.elim
  all_goals exact inv.move c rfl rfl rfl False.elim

theorem writer (c : Counted s') (hp : s.pc i = .writer w) (h : WriterStep s i w s')
    (hs : w = .acquireWriter → s.readersIn = s.readersOut) : Inv s' := by
  have ha : (Pc.writer w).Alone → s.readersIn = s.readersOut := by
    rw [← hp]
    exact inv.alone
  cases h
  case pass v hv =>
    have hl : v = s.readersIn := by simpa [hp, Loaded] using inv.loaded i
    exact inv.move c rfl rfl rfl fun _ => hl.symm.trans hv
  case acquireWriter => exact inv.move c rfl rfl rfl fun _ => hs rfl
  case releaseExit | clearWait | writing => exact inv.move c rfl rfl rfl fun _ => ha trivial
  all_goals exact inv.move c rfl rfl rfl False.elim

end Inv

-- No writer takes the lock `writer` while there is a reader which has not left.
def Signalled (s : State n) : Label n → Prop
  | .thread i => s.pc i = .writer .acquireWriter → s.readersIn = s.readersOut
  | _         => True

instance (s : State n) : (l : Label n) → Decidable (Signalled s l)
  | .readerLock _ | .writerLock _ => .isTrue trivial
  | .thread i                     => inferInstanceAs <| Decidable (s.pc i = _ → _)

theorem Inv.step (inv : Inv s) (h : Step s l s') (hs : Signalled s l) : Inv s' := by
  have c := inv.counted.step h
  cases h
  case reader hp h => exact inv.reader c hp h
  case writer hp h => exact inv.writer c hp h fun hw => hs (hw ▸ hp)
  case readerLock | writerLock => exact inv.move c rfl rfl rfl False.elim

theorem inv_of_reachable (r : ((machine n).only Signalled).Reachable s) : Inv s := by
  apply r.invariant
  case init =>
    intro _ h
    exact h ▸ .init
  case step =>
    intro _ _ _ _ inv h
    have ⟨hs, h⟩ := Machine.only_step.mp h
    exact inv.step (.of_step h) hs

end ReaderWriterFaster
