import Concurrencia.Semaphores.ReaderWriterFaster.Basic
import Concurrencia.Threads.Basic
import Concurrencia.Threads.Count
import Mathlib.Tactic.SplitIfs

open Function Threads

namespace ReaderWriterFaster

section Step

variable {n : ℕ}

-- The release of a lock which is free.
inductive Raises (s : State n) : Pc → Prop
  | entry : (s.entry = false) → (p = .reader .releaseEntry ∨ p = .writer .releaseEntry) → Raises s p
  | exit  : (s.exit = false) →
    (p = .reader .releaseExit ∨ p = .writer .releaseExit ∨ p = .writer .releaseExitWaiting) →
    Raises s p
  | writer : (s.writer = false) → (p = .reader .releaseWriter) → Raises s p

inductive ReaderStep (s : State n) (i : Fin n) : Reader → State n → Prop
  | acquireEntry : (s.entry = false) →
    ReaderStep s i .acquireEntry ({ s with entry := true }.goto i (.reader .loadIn))
  | loadIn : ReaderStep s i .loadIn (s.goto i (.reader (.storeIn s.readersIn)))
  | storeIn : ReaderStep s i (.storeIn v)
      ({ s with readersIn := v + 1 }.goto i (.reader .releaseEntry))
  | releaseEntry : (s.entry = true) →
    ReaderStep s i .releaseEntry ({ s with entry := false }.goto i (.reader .reading))
  | reading : ReaderStep s i .reading (s.goto i (.reader .acquireExit))
  | acquireExit : (s.exit = false) →
    ReaderStep s i .acquireExit ({ s with exit := true }.goto i (.reader .loadOut))
  | loadOut : ReaderStep s i .loadOut (s.goto i (.reader (.storeOut s.readersOut)))
  | storeOut : ReaderStep s i (.storeOut v)
      ({ s with readersOut := v + 1 }.goto i (.reader .testWait))
  | testWait : (r = .testIn ∨ r = .releaseExit) → ReaderStep s i .testWait (s.goto i (.reader r))
  | testIn : ReaderStep s i .testIn (s.goto i (.reader (.testOut s.readersIn)))
  | testOut : (r = .releaseWriter ∨ r = .releaseExit) →
    ReaderStep s i (.testOut v) (s.goto i (.reader r))
  | releaseWriter : (s.writer = true) →
    ReaderStep s i .releaseWriter ({ s with writer := false }.goto i (.reader .releaseExit))
  | releaseExit : (s.exit = true) →
    ReaderStep s i .releaseExit ({ s with exit := false }.goto i .idle)
  | raises : (Raises s (.reader r)) → ReaderStep s i r (s.goto i .failed)

inductive WriterStep (s : State n) (i : Fin n) : Writer → State n → Prop
  | acquireEntry : (s.entry = false) →
    WriterStep s i .acquireEntry ({ s with entry := true }.goto i (.writer .acquireExit))
  | acquireExit : (s.exit = false) →
    WriterStep s i .acquireExit ({ s with exit := true }.goto i (.writer .testIn))
  | testIn : WriterStep s i .testIn (s.goto i (.writer (.testOut s.readersIn)))
  | pass : (v = s.readersOut) → WriterStep s i (.testOut v) (s.goto i (.writer .releaseExit))
  | block : (v ≠ s.readersOut) → WriterStep s i (.testOut v) (s.goto i (.writer .setWait))
  | releaseExit : (s.exit = true) →
    WriterStep s i .releaseExit ({ s with exit := false }.goto i (.writer .writing))
  | setWait : WriterStep s i .setWait
      ({ s with wait := true }.goto i (.writer .releaseExitWaiting))
  | releaseExitWaiting : (s.exit = true) →
    WriterStep s i .releaseExitWaiting ({ s with exit := false }.goto i (.writer .acquireWriter))
  | acquireWriter : (s.writer = false) →
    WriterStep s i .acquireWriter ({ s with writer := true }.goto i (.writer .clearWait))
  | clearWait : WriterStep s i .clearWait ({ s with wait := false }.goto i (.writer .writing))
  | writing : WriterStep s i .writing (s.goto i (.writer .releaseEntry))
  | releaseEntry : (s.entry = true) →
    WriterStep s i .releaseEntry ({ s with entry := false }.goto i .idle)
  | raises : (Raises s (.writer w)) → WriterStep s i w (s.goto i .failed)

inductive Step (s : State n) : Label n → State n → Prop
  | readerLock : (s.pc i = .idle) → Step s (.readerLock i) (s.goto i (.reader .acquireEntry))
  | writerLock : (s.pc i = .idle) → Step s (.writerLock i) (s.goto i (.writer .acquireEntry))
  | reader : (s.pc i = .reader r) → (ReaderStep s i r s') → Step s (.thread i) s'
  | writer : (s.pc i = .writer w) → (WriterStep s i w s') → Step s (.thread i) s'

variable {s s' : State n} {i : Fin n} {r : Reader} {w : Writer} {l : Label n}

theorem ReaderStep.of_step (h : readerStep s i r = some s') : ReaderStep s i r s' := by
  cases r <;> simp only [readerStep] at h
  case acquireEntry =>
    split_ifs at h with hl
    cases h
    exact .acquireEntry (Bool.eq_false_iff.mpr hl)
  case acquireExit =>
    split_ifs at h with hl
    cases h
    exact .acquireExit (Bool.eq_false_iff.mpr hl)
  case releaseEntry =>
    split_ifs at h with hl
    all_goals cases h
    · exact .releaseEntry hl
    · exact .raises <| .entry (Bool.eq_false_iff.mpr hl) (.inl rfl)
  case testWait =>
    cases h
    exact .testWait (by split_ifs <;> simp)
  case testOut =>
    cases h
    exact .testOut (by split_ifs <;> simp)
  case releaseWriter =>
    split_ifs at h with hl
    all_goals cases h
    · exact .releaseWriter hl
    · exact .raises <| .writer (Bool.eq_false_iff.mpr hl) rfl
  case releaseExit =>
    split_ifs at h with hl
    all_goals cases h
    · exact .releaseExit hl
    · exact .raises <| .exit (Bool.eq_false_iff.mpr hl) (.inl rfl)
  all_goals
    cases h
    constructor

theorem WriterStep.of_step (h : writerStep s i w = some s') : WriterStep s i w s' := by
  cases w <;> simp only [writerStep] at h
  case acquireEntry =>
    split_ifs at h with hl
    cases h
    exact .acquireEntry (Bool.eq_false_iff.mpr hl)
  case acquireExit =>
    split_ifs at h with hl
    cases h
    exact .acquireExit (Bool.eq_false_iff.mpr hl)
  case acquireWriter =>
    split_ifs at h with hl
    cases h
    exact .acquireWriter (Bool.eq_false_iff.mpr hl)
  case testOut =>
    split_ifs at h with hv
    all_goals cases h
    · exact .pass hv
    · exact .block hv
  case releaseExit =>
    split_ifs at h with hl
    all_goals cases h
    · exact .releaseExit hl
    · exact .raises <| .exit (Bool.eq_false_iff.mpr hl) (.inr <| .inl rfl)
  case releaseExitWaiting =>
    split_ifs at h with hl
    all_goals cases h
    · exact .releaseExitWaiting hl
    · exact .raises <| .exit (Bool.eq_false_iff.mpr hl) (.inr <| .inr rfl)
  case releaseEntry =>
    split_ifs at h with hl
    all_goals cases h
    · exact .releaseEntry hl
    · exact .raises <| .entry (Bool.eq_false_iff.mpr hl) (.inr rfl)
  all_goals
    cases h
    constructor

theorem Step.of_step (h : step s l = some s') : Step s l s' := by
  cases l <;> simp only [step] at h
  case readerLock =>
    split_ifs at h with hp
    cases h
    exact .readerLock hp
  case writerLock =>
    split_ifs at h with hp
    cases h
    exact .writerLock hp
  case thread i =>
    cases hp : s.pc i <;> simp only [threadStep, hp] at h
    case idle     => cases h
    case failed   => cases h
    case reader r => exact .reader hp (.of_step h)
    case writer w => exact .writer hp (.of_step h)

end Step

namespace Pc

def HoldsEntry : Pc → Prop
  | reader .loadIn | reader (.storeIn _) | reader .releaseEntry => True
  | writer .acquireEntry                                       => False
  | writer _                                                   => True
  | _                                                          => False

def HoldsExit : Pc → Prop
  | reader .loadOut | reader (.storeOut _) | reader .testWait | reader .testIn
  | reader (.testOut _) | reader .releaseWriter | reader .releaseExit => True
  | writer .testIn | writer (.testOut _) | writer .releaseExit | writer .setWait
  | writer .releaseExitWaiting => True
  | _ => False

-- A reader which is counted by `readersIn` and not by `readersOut` yet.
def Present : Pc → Prop
  | reader .releaseEntry | reader .reading | reader .acquireExit | reader .loadOut
  | reader (.storeOut _) => True
  | _                    => False

-- Makes the equations before the proofs below, many of which need them at the same time.
attribute [local grind =] HoldsEntry HoldsExit Present

instance : DecidablePred Present := fun p => by
  unfold Present
  split <;> infer_instance

end Pc

variable {n : ℕ} {s s' : State n} {i j : Fin n} {r : Reader} {w : Writer} {l : Label n} {p : Pc}

-- What a thread has loaded is what it would load now.
def Loaded (readersIn readersOut : ℕ) : Pc → Prop
  | .reader (.storeIn v)  => v = readersIn
  | .reader (.storeOut v) => v = readersOut
  | .writer (.testOut v)  => v = readersIn
  | _                     => True

-- The counters do not rely on the lock `writer`.
structure Counted (s : State n) : Prop where
  entry  : Exclusive s.pc Pc.HoldsEntry s.entry
  exit   : Exclusive s.pc Pc.HoldsExit s.exit
  loaded : ∀ i, Loaded s.readersIn s.readersOut (s.pc i)
  count  : s.readersIn = s.readersOut + count s.pc Pc.Present

namespace Counted

theorem init : Counted (init n) where
  entry    := ⟨fun h => h.elim, fun h => h.elim⟩
  exit     := ⟨fun h => h.elim, fun h => h.elim⟩
  loaded _ := trivial
  count    := by simp [ReaderWriterFaster.init, Threads.count, Pc.Present]

variable (c : Counted s)
include c

-- While a thread holds `entry`, the others cannot rely on the value of `readersIn`, ...
theorem loaded_in (hi : (s.pc i).HoldsEntry) (hj : j ≠ i) (v : ℕ) :
    Loaded v s.readersOut (s.pc j) := by
  have hn := c.entry.not_of_ne hi hj
  have hl := c.loaded j
  cases hp : s.pc j <;> try trivial
  case reader r => cases r <;> simp_all [Loaded, Pc.HoldsEntry]
  case writer w => cases w <;> simp_all [Loaded, Pc.HoldsEntry]

-- ... and while it holds `exit` not on the value of `readersOut`.
theorem loaded_out (hi : (s.pc i).HoldsExit) (hj : j ≠ i) (v : ℕ) :
    Loaded s.readersIn v (s.pc j) := by
  have hn := c.exit.not_of_ne hi hj
  have hl := c.loaded j
  cases hp : s.pc j <;> try trivial
  case reader r => cases r <;> simp_all [Loaded, Pc.HoldsExit]
  case writer w => cases w <;> simp_all [Loaded, Pc.HoldsExit]

theorem lt_of_present (hi : (s.pc i).Present) : s.readersOut < s.readersIn := by
  have hc := c.count
  have hp := count_pos hi
  omega

theorem not_present (h : s.readersIn = s.readersOut) (i : Fin n) : ¬(s.pc i).Present :=
  fun hi => absurd h (c.lt_of_present hi).ne'

-- A step which leaves the counters alone.
theorem move
    (hp : s'.pc = update s.pc i p) (hi : s'.readersIn = s.readersIn)
    (ho : s'.readersOut = s.readersOut) (entry : Exclusive s'.pc Pc.HoldsEntry s'.entry)
    (exit : Exclusive s'.pc Pc.HoldsExit s'.exit) (hl : Loaded s.readersIn s.readersOut p)
    (hc : p.Present ↔ (s.pc i).Present) : Counted s' where
  entry := entry
  exit  := exit
  count := by rw [hi, ho, hp, count_keep hc, c.count]
  loaded := by
    rw [hi, ho, hp]
    exact forall_update hl fun j _ => c.loaded j

theorem raises (hr : Raises s (s.pc i)) : Counted (s.goto i .failed) := by
  refine c.move rfl rfl rfl (c.entry.drop id) (c.exit.drop id) trivial ?_
  cases hr
  case entry hl hr =>
    have hi : (s.pc i).HoldsEntry := by cases hr <;> simp_all [Pc.HoldsEntry]
    exact absurd (c.entry.locked hi) (by simp [hl])
  case exit hr   => rcases hr with hr | hr | hr <;> simp [hr, Pc.Present]
  case writer hr => simp [hr, Pc.Present]

theorem storeIn (hp : s.pc i = .reader (.storeIn v)) :
    Counted ({ s with readersIn := v + 1 }.goto i (.reader .releaseEntry)) where
  entry := c.entry.keep (by simp [hp, Pc.HoldsEntry])
  exit  := c.exit.keep (by simp [hp, Pc.HoldsExit])
  loaded := forall_update (P := (Loaded (v + 1) s.readersOut ·)) trivial fun j hj =>
    c.loaded_in (by simp [hp, Pc.HoldsEntry]) hj (v + 1)
  count := by
    have hv : v = s.readersIn := by simpa [hp, Loaded] using c.loaded i
    have hc := count_enter (f := s.pc) (P := Pc.Present) (i := i) (p := .reader .releaseEntry)
      (by simp [hp, Pc.Present]) trivial
    have := c.count
    simp only [State.goto, hc]
    omega

theorem storeOut (hp : s.pc i = .reader (.storeOut v)) :
    Counted ({ s with readersOut := v + 1 }.goto i (.reader .testWait)) where
  entry := c.entry.keep (by simp [hp, Pc.HoldsEntry])
  exit  := c.exit.keep (by simp [hp, Pc.HoldsExit])
  loaded := forall_update (P := (Loaded s.readersIn (v + 1) ·)) trivial fun j hj =>
    c.loaded_out (by simp [hp, Pc.HoldsExit]) hj (v + 1)
  count := by
    have hv : v = s.readersOut := by simpa [hp, Loaded] using c.loaded i
    have hc := count_leave (f := s.pc) (P := Pc.Present) (i := i) (p := .reader .testWait)
      (by simp [hp, Pc.Present]) id
    have := c.count
    simp only [State.goto]
    omega

theorem reader (hp : s.pc i = .reader r) (h : ReaderStep s i r s') : Counted s' := by
  have he : (Pc.reader r).HoldsEntry ↔ (s.pc i).HoldsEntry := by rw [hp]
  have hx : (Pc.reader r).HoldsExit ↔ (s.pc i).HoldsExit := by rw [hp]
  have hc : (Pc.reader r).Present ↔ (s.pc i).Present := by rw [hp]
  cases h
  case storeIn   => exact c.storeIn hp
  case storeOut  => exact c.storeOut hp
  case raises hr => exact c.raises (hp ▸ hr)
  case acquireEntry hl =>
    exact c.move rfl rfl rfl (c.entry.take (by simp [hl]) rfl) (c.exit.keep hx) trivial hc
  case releaseEntry =>
    exact c.move rfl rfl rfl (c.entry.free (he.mp trivial) id) (c.exit.keep hx) trivial hc
  case acquireExit hl =>
    exact c.move rfl rfl rfl (c.entry.keep he) (c.exit.take (by simp [hl]) rfl) trivial hc
  case releaseExit =>
    exact c.move rfl rfl rfl (c.entry.keep he) (c.exit.free (hx.mp trivial) id) trivial hc
  case testWait hr | testOut hr =>
    rcases hr with rfl | rfl
    all_goals
      exact c.move rfl rfl rfl (c.entry.keep he) (c.exit.keep hx) trivial hc
  case loadIn | reading | loadOut | testIn | releaseWriter =>
    exact c.move rfl rfl rfl (c.entry.keep he) (c.exit.keep hx) (by trivial) hc

theorem writer (hp : s.pc i = .writer w) (h : WriterStep s i w s') : Counted s' := by
  have he : (Pc.writer w).HoldsEntry ↔ (s.pc i).HoldsEntry := by rw [hp]
  have hx : (Pc.writer w).HoldsExit ↔ (s.pc i).HoldsExit := by rw [hp]
  have hc : (Pc.writer w).Present ↔ (s.pc i).Present := by rw [hp]
  cases h
  case raises hr => exact c.raises (hp ▸ hr)
  case acquireEntry hl =>
    exact c.move rfl rfl rfl (c.entry.take (by simp [hl]) rfl) (c.exit.keep hx) trivial hc
  case acquireExit hl =>
    exact c.move rfl rfl rfl (c.entry.keep he) (c.exit.take (by simp [hl]) rfl) trivial hc
  case releaseExit | releaseExitWaiting =>
    exact c.move rfl rfl rfl (c.entry.keep he) (c.exit.free (hx.mp trivial) id) trivial hc
  case releaseEntry =>
    exact c.move rfl rfl rfl (c.entry.free (he.mp trivial) id) (c.exit.keep hx) trivial hc
  case testIn | pass | block | setWait | acquireWriter | clearWait | writing =>
    exact c.move rfl rfl rfl (c.entry.keep he) (c.exit.keep hx) (by trivial) hc

theorem step (h : Step s l s') : Counted s' := by
  cases h
  case reader hp h => exact c.reader hp h
  case writer hp h => exact c.writer hp h
  case readerLock hp | writerLock hp =>
    refine c.move rfl rfl rfl (c.entry.keep ?_) (c.exit.keep ?_) trivial ?_
    all_goals
      rw [hp]
      rfl

end Counted

end ReaderWriterFaster
