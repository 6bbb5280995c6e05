import Concurrencia.Semaphores.ReaderWriter.Basic
import Concurrencia.ReaderGroup.Theorems.Sharing
import Mathlib.Tactic.SplitIfs

open Function Threads

namespace ReaderWriter

section Step

-- The release of a lock which is free.
inductive Raises {n : ℕ} (s : State n) : Pc → Prop
  | writer : (s.writer = false) → (p = .reader .releaseWriter ∨ p = .writer .releaseWriter) →
    Raises s p
  | mx : (s.mx = false) → (p = .reader .releaseMxIn ∨ p = .reader .releaseMxOut) → Raises s p
  | entry : (s.entry = false) → (p = .reader .releaseEntry ∨ p = .writer .releaseEntry) → Raises s p

inductive ReaderStep {n : ℕ} (fair : Bool) (s : State n) (i : Fin n) : Reader → State n → Prop
  | acquireEntry : (s.entry = false) → ReaderStep fair s i .acquireEntry
    ({ s with entry := true }.goto i (.reader .acquireMxIn))
  | acquireMxIn : (s.mx = false) → ReaderStep fair s i .acquireMxIn
    ({ s with mx := true }.goto i (.reader .loadIn))
  | loadIn : ReaderStep fair s i .loadIn (s.goto i (.reader (.storeIn s.readers)))
  | storeIn : ReaderStep fair s i (.storeIn v)
    ({ s with readers := v + 1 }.goto i (.reader .testIn))
  | first : (s.readers = 1) → ReaderStep fair s i .testIn (s.goto i (.reader .acquireWriter))
  | notFirst : (s.readers ≠ 1) → ReaderStep fair s i .testIn (s.goto i (.reader .releaseMxIn))
  | acquireWriter : (s.writer = false) → ReaderStep fair s i .acquireWriter
    ({ s with writer := true }.goto i (.reader .releaseMxIn))
  | releaseMxIn : (s.mx = true) → ReaderStep fair s i .releaseMxIn
    ({ s with mx := false }.goto i (readerIn fair))
  | releaseEntry : (s.entry = true) → ReaderStep fair s i .releaseEntry
    ({ s with entry := false }.goto i (.reader .reading))
  | reading : ReaderStep fair s i .reading (s.goto i (.reader .acquireMxOut))
  | acquireMxOut : (s.mx = false) → ReaderStep fair s i .acquireMxOut
    ({ s with mx := true }.goto i (.reader .loadOut))
  | loadOut : ReaderStep fair s i .loadOut (s.goto i (.reader (.storeOut s.readers)))
  | storeOut : ReaderStep fair s i (.storeOut v)
    ({ s with readers := v - 1 }.goto i (.reader .testOut))
  | last : (s.readers = 0) → ReaderStep fair s i .testOut (s.goto i (.reader .releaseWriter))
  | notLast : (s.readers ≠ 0) → ReaderStep fair s i .testOut (s.goto i (.reader .releaseMxOut))
  | releaseWriter : (s.writer = true) → ReaderStep fair s i .releaseWriter
    ({ s with writer := false }.goto i (.reader .releaseMxOut))
  | releaseMxOut : (s.mx = true) → ReaderStep fair s i .releaseMxOut
    ({ s with mx := false }.goto i .idle)
  | raises : (Raises s (.reader r)) → ReaderStep fair s i r (s.goto i .failed)

inductive WriterStep {n : ℕ} (fair : Bool) (s : State n) (i : Fin n) : Writer → State n → Prop
  | acquireEntry : (s.entry = false) → WriterStep fair s i .acquireEntry
    ({ s with entry := true }.goto i (.writer .acquireWriter))
  | acquireWriter : (s.writer = false) → WriterStep fair s i .acquireWriter
    ({ s with writer := true }.goto i (.writer .writing))
  | writing : WriterStep fair s i .writing (s.goto i (.writer .releaseWriter))
  | releaseWriter : (s.writer = true) → WriterStep fair s i .releaseWriter
    ({ s with writer := false }.goto i (writerOut fair))
  | releaseEntry : (s.entry = true) → WriterStep fair s i .releaseEntry
    ({ s with entry := false }.goto i .idle)
  | raises : (Raises s (.writer w)) → WriterStep fair s i w (s.goto i .failed)

inductive Step {n : ℕ} (fair : Bool) (s : State n) : Label n → State n → Prop
  | readerLock : (s.pc i = .idle) → Step fair s (.readerLock i) (s.goto i (readerStart fair))
  | writerLock : (s.pc i = .idle) → Step fair s (.writerLock i) (s.goto i (writerStart fair))
  | reader : (s.pc i = .reader r) → (ReaderStep fair s i r s') → Step fair s (.thread i) s'
  | writer : (s.pc i = .writer w) → (WriterStep fair s i w s') → Step fair s (.thread i) s'

variable {n : ℕ} {fair : Bool} {s s' : State n} {i : Fin n} {r : Reader} {w : Writer}
variable {l : Label n} {p : Pc}

theorem ReaderStep.of_step (h : readerStep fair s i r = some s') : ReaderStep fair s i r s' := by
  cases r <;> simp only [readerStep, ReaderWriter.acquireEntry, acquireMx,
    ReaderWriter.acquireWriter, releaseMx, ReaderWriter.releaseEntry, ReaderWriter.releaseWriter] at h
  case acquireEntry =>
    split_ifs at h with hl
    cases h
    exact .acquireEntry (Bool.eq_false_iff.mpr hl)
  case acquireMxIn =>
    split_ifs at h with hl
    cases h
    exact .acquireMxIn (Bool.eq_false_iff.mpr hl)
  case acquireWriter =>
    split_ifs at h with hl
    cases h
    exact .acquireWriter (Bool.eq_false_iff.mpr hl)
  case acquireMxOut =>
    split_ifs at h with hl
    cases h
    exact .acquireMxOut (Bool.eq_false_iff.mpr hl)
  all_goals cases h
  case testIn =>
    split_ifs with hr
    · exact .first hr
    · exact .notFirst hr
  case testOut =>
    split_ifs with hr
    · exact .last hr
    · exact .notLast hr
  case releaseMxIn =>
    split_ifs with hl
    · exact .releaseMxIn hl
    · exact .raises <| .mx (Bool.eq_false_iff.mpr hl) (.inl rfl)
  case releaseMxOut =>
    split_ifs with hl
    · exact .releaseMxOut hl
    · exact .raises <| .mx (Bool.eq_false_iff.mpr hl) (.inr rfl)
  case releaseEntry =>
    split_ifs with hl
    · exact .releaseEntry hl
    · exact .raises <| .entry (Bool.eq_false_iff.mpr hl) (.inl rfl)
  case releaseWriter =>
    split_ifs with hl
    · exact .releaseWriter hl
    · exact .raises <| .writer (Bool.eq_false_iff.mpr hl) (.inl rfl)
  all_goals constructor

theorem WriterStep.of_step (h : writerStep fair s i w = some s') : WriterStep fair s i w s' := by
  cases w <;> simp only [writerStep, ReaderWriter.acquireEntry, ReaderWriter.acquireWriter,
    ReaderWriter.releaseEntry, ReaderWriter.releaseWriter] at h
  case acquireEntry =>
    split_ifs at h with hl
    cases h
    exact .acquireEntry (Bool.eq_false_iff.mpr hl)
  case acquireWriter =>
    split_ifs at h with hl
    cases h
    exact .acquireWriter (Bool.eq_false_iff.mpr hl)
  all_goals cases h
  case writing => exact .writing
  case releaseWriter =>
    split_ifs with hl
    · exact .releaseWriter hl
    · exact .raises <| .writer (Bool.eq_false_iff.mpr hl) (.inr rfl)
  case releaseEntry =>
    split_ifs with hl
    · exact .releaseEntry hl
    · exact .raises <| .entry (Bool.eq_false_iff.mpr hl) (.inr rfl)

theorem Step.of_step (h : step fair s l = some s') : Step fair s l s' := by
  cases l <;> simp only [step, Option.ite_none_right_eq_some, Option.some.injEq] at h
  case readerLock => exact h.right ▸ .readerLock h.left
  case writerLock => exact h.right ▸ .writerLock h.left
  case thread i =>
    cases hp : s.pc i <;> simp only [threadStep, hp] at h
    case idle     => cases h
    case failed   => cases h
    case reader r => exact .reader hp (.of_step h)
    case writer w => exact .writer hp (.of_step h)

end Step

open ReaderGroup (Phase)

namespace Pc

-- A reader which tests `readers` will find what it has left there.
def phase (readers : ℤ) : Pc → Phase
  | reader .loadIn | reader (.storeIn _)                             => .counting
  | reader .testIn                                                   =>
    if readers = 1 then .first else .entered
  | reader .acquireWriter                                            => .first
  | reader .releaseMxIn                                              => .entered
  | reader .releaseEntry | reader .reading | reader .acquireMxOut    => .inside
  | reader .loadOut | reader (.storeOut _)                           => .leaving
  | reader .testOut                                                  =>
    if readers = 0 then .last else .left
  | reader .releaseWriter                                            => .last
  | reader .releaseMxOut                                             => .left
  | writer .writing | writer .releaseWriter                          => .writing
  | _                                                                => .outside

-- What a thread has loaded is what it would load now. No thread gets an exception, and only those of
-- the fair lock use `entry`.
def Valid (fair : Bool) (readers : ℤ) : Pc → Prop
  | reader (.storeIn v) | reader (.storeOut v)      => v = readers
  | reader .acquireEntry | reader .releaseEntry     => fair = true
  | writer .acquireEntry | writer .releaseEntry     => fair = true
  | failed                                          => False
  | _                                               => True

def HoldsEntry : Pc → Prop
  | reader .acquireMxIn | reader .loadIn | reader (.storeIn _) | reader .testIn
  | reader .acquireWriter | reader .releaseMxIn | reader .releaseEntry => True
  | writer .acquireEntry                                              => False
  | writer _                                                          => True
  | _                                                                 => False

-- Makes the equations before the proofs below, many of which need them at the same time.
attribute [local grind =] phase Valid HoldsEntry

end Pc

variable {n : ℕ} {fair : Bool} {s s' : State n} {i j : Fin n} {r : Reader} {w : Writer}
variable {l : Label n} {p q : Pc} {x y : ℤ}

theorem phase_congr (h : ¬(p.phase x).HasLock) : p.phase y = p.phase x := by
  cases p
  case idle | failed => rfl
  case writer w      => cases w <;> rfl
  case reader r =>
    cases r <;> try rfl
    case testIn =>
      simp only [Pc.phase] at h
      split_ifs at h <;> exact absurd trivial h
    case testOut =>
      simp only [Pc.phase] at h
      split_ifs at h <;> exact absurd trivial h

theorem valid_congr (h : ¬(p.phase x).HasLock) (hv : p.Valid fair x) : p.Valid fair y := by
  cases p
  case idle | failed => exact hv
  case writer w      => cases w <;> exact hv
  case reader r      => cases r <;> first | exact hv | exact absurd trivial h

-- The readers and writers of the program.
def State.group (s : State n) : ReaderGroup.State (Fin n) where
  phase i := (s.pc i).phase s.readers
  lock    := s.mx
  token   := s.writer
  readers := s.readers

-- A step which changes the number leaves the phases of the other threads alone.
theorem group_goto {b c e : Bool} (h : ∀ j ≠ i, (s.pc j).phase x = (s.pc j).phase s.readers) :
    ({ s with writer := b, mx := c, entry := e, readers := x }.goto i p).group =
      { s.group with lock := c, token := b, readers := x }.goto i (p.phase x) := by
  refine congrArg (ReaderGroup.State.mk · c b x) (funext fun j => ?_)
  by_cases hj : j = i
  case pos => simp [State.goto, hj]
  case neg => simpa [State.goto, State.group, hj] using h j hj

-- The step belongs to the readers and writers, or they do not notice it.
def Follows (s s' : State n) : Prop :=
  s'.group = s.group ∨ ∃ g, ReaderGroup.step s.group g = some s'.group

structure Inv (fair : Bool) (s : State n) : Prop where
  group : ReaderGroup.Inv s.group
  entry : fair = true → Owned s.pc Pc.HoldsEntry (s.entry = true)
  valid : ∀ i, (s.pc i).Valid fair s.readers

namespace Inv

theorem init : Inv fair (init n) where
  group   := .init
  entry _ := ⟨⟨False.elim, False.elim⟩, by simp [ReaderWriter.init]⟩
  valid _ := trivial

variable (inv : Inv fair s)
include inv

theorem stay {e : Bool} (hi : s.pc i = q)
    (he : fair = true → Owned (update s.pc i p) Pc.HoldsEntry (e = true))
    (hp : p.phase s.readers = q.phase s.readers) (hv : p.Valid fair s.readers) :
    Inv fair ({ s with entry := e }.goto i p) ∧ Follows s ({ s with entry := e }.goto i p) := by
  subst hi
  have hg : ({ s with entry := e }.goto i p).group = s.group := by
    rw [group_goto fun _ _ => rfl, hp]
    exact congrArg (ReaderGroup.State.mk · _ _ _) (update_eq_self i _)
  exact ⟨⟨hg ▸ inv.group, he, forall_update hv fun j _ => inv.valid j⟩, .inl hg⟩

theorem go {b c : Bool} (g : ReaderGroup.Label (Fin n))
    (hg : ReaderGroup.step s.group g =
      some ({ s.group with lock := c, token := b, readers := x }.goto i (p.phase x)))
    (hx : x = s.readers ∨ ((s.pc i).phase s.readers).HasLock)
    (he : fair = true → (p.HoldsEntry ↔ (s.pc i).HoldsEntry)) (hv : p.Valid fair x) :
    Inv fair ({ s with writer := b, mx := c, readers := x }.goto i p) ∧
      Follows s ({ s with writer := b, mx := c, readers := x }.goto i p) := by
  have hj (j : Fin n) (hj : j ≠ i) : (s.pc j).phase x = (s.pc j).phase s.readers ∧
      (s.pc j).Valid fair x := by
    cases hx
    case inl hx =>
      rw [hx]
      exact ⟨rfl, inv.valid j⟩
    case inr hx =>
      have hn : ¬((s.pc j).phase s.readers).HasLock := inv.group.lock.not_of_ne hx hj
      exact ⟨phase_congr hn, valid_congr hn (inv.valid j)⟩
  rw [← group_goto (e := s.entry) fun j hn => (hj j hn).left] at hg
  refine ⟨⟨inv.group.step hg, ?_, forall_update hv fun j hn => (hj j hn).right⟩, .inr ⟨g, hg⟩⟩
  exact fun hf => (inv.entry hf).keep (he hf)

theorem not_raises (hp : s.pc i = p) : ¬Raises s p := by
  have hg : s.group.phase i = p.phase s.readers := by
    rw [← hp]
    rfl
  have hv := inv.valid i
  rw [hp] at hv
  intro h
  cases h
  case writer hw hp =>
    cases hp
    case inl hp =>
      rw [hp] at hg
      exact absurd (inv.group.token_of_last hg) (by simp [State.group, hw])
    case inr hp =>
      rw [hp] at hg
      exact absurd (inv.group.token_of_writing hg).left (by simp [State.group, hw])
  case mx hm hp =>
    have hl : (s.group.phase i).HasLock := by cases hp <;> simp_all [Pc.phase, Phase.HasLock]
    exact absurd (inv.group.lock.locked hl) (by simp [State.group, hm])
  case entry he hr =>
    have hf : fair = true := by cases hr <;> simp_all [Pc.Valid]
    have hl : (s.pc i).HoldsEntry := by cases hr <;> simp_all [Pc.HoldsEntry]
    exact absurd ((inv.entry hf).locked hl) (by simp [he])

theorem reader (hp : s.pc i = .reader r) (h : ReaderStep fair s i r s') :
    Inv fair s' ∧ Follows s s' := by
  have hg : s.group.phase i = (Pc.reader r).phase s.readers := by
    rw [← hp]
    rfl
  have hv := inv.valid i
  have he {p : Pc} (hr : p.HoldsEntry ↔ (Pc.reader r).HoldsEntry) :
      fair = true → (p.HoldsEntry ↔ (s.pc i).HoldsEntry) := by
    rw [hp]
    exact fun _ => hr
  have hk {p : Pc} (hr : p.HoldsEntry ↔ (Pc.reader r).HoldsEntry) :
      fair = true → Owned (update s.pc i p) Pc.HoldsEntry (s.entry = true) :=
    fun hf => (inv.entry hf).keep (he hr hf)
  rw [hp] at hv
  cases h
  case raises hr      => exact absurd hr (inv.not_raises hp)
  case acquireEntry hl =>
    exact inv.stay hp (fun hf => (inv.entry hf).take (by simp [hl]) trivial rfl) rfl trivial
  case releaseEntry =>
    exact inv.stay hp (fun hf => (inv.entry hf).free (by rw [hp]; trivial) id (by simp)) rfl trivial
  case loadIn | loadOut => exact inv.stay hp (hk Iff.rfl) rfl rfl
  case reading          => exact inv.stay hp (hk Iff.rfl) rfl trivial
  case first hr | notFirst hr | last hr | notLast hr =>
    exact inv.stay hp (hk Iff.rfl) (by simp [Pc.phase, hr]) trivial
  case acquireMxIn hm   => exact inv.go (.start i) (if_pos ⟨hg, hm⟩) (.inl rfl) (he Iff.rfl) trivial
  case acquireMxOut hm  => exact inv.go (.finish i) (if_pos ⟨hg, hm⟩) (.inl rfl) (he Iff.rfl) trivial
  case acquireWriter hw =>
    exact inv.go (.takeToken i) (if_pos ⟨hg, hw⟩) (.inl rfl) (he Iff.rfl) trivial
  case releaseWriter    => exact inv.go (.giveToken i) (if_pos hg) (.inl rfl) (he Iff.rfl) trivial
  case releaseMxOut     => exact inv.go (.leave i) (if_pos hg) (.inl rfl) (he Iff.rfl) trivial
  case releaseMxIn =>
    have hi : (readerIn fair).phase s.readers = .inside := by cases fair <;> rfl
    refine inv.go (.enter i) ((if_pos hg).trans (by rw [hi]; rfl)) (.inl rfl) ?_ ?_
    · intro hf
      simp [hf, hp, readerIn, Pc.HoldsEntry]
    · cases fair <;> trivial
  case storeIn v =>
    obtain rfl : v = s.readers := hv
    refine inv.go (.count i) ((if_pos hg).trans ?_) (.inr (by rw [hp]; trivial)) (he Iff.rfl) trivial
    simp [Pc.phase]
    rfl
  case storeOut v =>
    obtain rfl : v = s.readers := hv
    refine inv.go (.discount i) ((if_pos hg).trans ?_) (.inr (by rw [hp]; trivial)) (he Iff.rfl)
      trivial
    simp [Pc.phase, sub_eq_zero]
    rfl

theorem writer (hp : s.pc i = .writer w) (h : WriterStep fair s i w s') :
    Inv fair s' ∧ Follows s s' := by
  have hg : s.group.phase i = (Pc.writer w).phase s.readers := by
    rw [← hp]
    rfl
  cases h
  case raises hr       => exact absurd hr (inv.not_raises hp)
  case acquireEntry hl =>
    exact inv.stay hp (fun hf => (inv.entry hf).take (by simp [hl]) trivial rfl) rfl trivial
  case releaseEntry =>
    exact inv.stay hp (fun hf => (inv.entry hf).free (by rw [hp]; trivial) id (by simp)) rfl trivial
  case writing =>
    exact inv.stay hp (fun hf => (inv.entry hf).keep (by simp [hp, Pc.HoldsEntry])) rfl trivial
  case acquireWriter hw =>
    exact inv.go (.write i) (if_pos ⟨hg, hw⟩) (.inl rfl) (fun _ => by simp [hp, Pc.HoldsEntry])
      trivial
  case releaseWriter =>
    have hi : (writerOut fair).phase s.readers = .outside := by cases fair <;> rfl
    refine inv.go (.endWrite i) ((if_pos hg).trans (by rw [hi]; rfl)) (.inl rfl) ?_ ?_
    · intro hf
      simp [hf, hp, writerOut, Pc.HoldsEntry]
    · cases fair <;> trivial

theorem step (h : Step fair s l s') : Inv fair s' ∧ Follows s s' := by
  cases h
  case reader hp h => exact inv.reader hp h
  case writer hp h => exact inv.writer hp h
  case readerLock hp =>
    refine inv.stay hp (fun hf => (inv.entry hf).keep ?_) ?_ ?_
    · simp [hf, hp, readerStart, Pc.HoldsEntry]
    all_goals cases fair <;> trivial
  case writerLock hp =>
    refine inv.stay hp (fun hf => (inv.entry hf).keep ?_) ?_ ?_
    · simp [hf, hp, writerStart, Pc.HoldsEntry]
    all_goals cases fair <;> trivial

end Inv

theorem inv_of_reachable (r : (machine fair n).Reachable s) : Inv fair s := by
  apply r.invariant
  case init =>
    intro _ h
    exact h ▸ .init
  case step =>
    intro _ _ _ _ inv h
    exact (inv.step (.of_step h)).left

-- The program refines the readers and writers.
theorem group_reachable (r : (machine fair n).Reachable s) :
    (ReaderGroup.machine (Fin n)).Reachable s.group := by
  apply r.invariant (I := fun s => (ReaderGroup.machine (Fin n)).Reachable s.group)
  case init =>
    intro _ h
    exact .init (h ▸ rfl)
  case step =>
    intro s₁ l s₂ r h hs
    have ⟨_, hf⟩ := (inv_of_reachable r).step (.of_step hs)
    cases hf
    case inl hg => exact hg ▸ h
    case inr hg =>
      have ⟨_, hg⟩ := hg
      exact h.step hg

end ReaderWriter
