import Concurrencia.Semaphores.ReaderWriter.Theorems.Sharing
import Concurrencia.Machine.Basic

open Function Threads

namespace ReaderWriter

open ReaderGroup (Phase)

namespace Pc

-- A reader between the two methods, which are over when `mx` is released and begin when it is
-- acquired.
def Reads : Pc → Prop
  | reader .releaseEntry | reader .reading | reader .acquireMxOut => True
  | _                                                             => False

def Writes : Pc → Prop
  | writer .writing | writer .releaseWriter => True
  | _                                       => False

-- A reader which has counted itself in and not yet out.
def Counted : Pc → Prop
  | reader .testIn | reader .acquireWriter | reader .releaseMxIn | reader .releaseEntry
  | reader .reading | reader .acquireMxOut | reader .loadOut | reader (.storeOut _) => True
  | _                                                                              => False

-- Makes the equations before the proofs below, many of which need them at the same time.
attribute [local grind =] Reads Writes Counted

instance : DecidablePred Reads := fun p => by
  unfold Reads
  split <;> infer_instance

instance : DecidablePred Counted := fun p => by
  unfold Counted
  split <;> infer_instance

end Pc

variable {n : ℕ} {fair : Bool} {s s' : State n} {i j : Fin n} {p : Pc} {x : ℤ}

theorem reads_iff : p.Reads ↔ p.phase x = .inside := by
  cases p
  case idle | failed => simp [Pc.Reads, Pc.phase]
  case writer w      => cases w <;> simp [Pc.Reads, Pc.phase]
  case reader r      => cases r <;> simp [Pc.Reads, Pc.phase] <;> split_ifs <;> simp

theorem writes_iff : p.Writes ↔ p.phase x = .writing := by
  cases p
  case idle | failed => simp [Pc.Writes, Pc.phase]
  case writer w      => cases w <;> simp [Pc.Writes, Pc.phase]
  case reader r      => cases r <;> simp [Pc.Writes, Pc.phase] <;> split_ifs <;> simp

theorem counted_iff : p.Counted ↔ (p.phase x).Counted := by
  cases p
  case idle | failed => rfl
  case writer w      => cases w <;> rfl
  case reader r =>
    cases r <;> try rfl
    case testIn  => simp only [Pc.phase]; split_ifs <;> rfl
    case testOut => simp only [Pc.phase]; split_ifs <;> rfl

-- The lock which the thread wants to acquire is taken.
def Blocked (s : State n) : Pc → Prop
  | .idle | .failed                                 => True
  | .reader .acquireEntry | .writer .acquireEntry   => s.entry = true
  | .reader .acquireMxIn | .reader .acquireMxOut    => s.mx = true
  | .reader .acquireWriter | .writer .acquireWriter => s.writer = true
  | _                                               => False

-- Makes the equations before the proofs below, many of which need them at the same time.
attribute [local grind =] Blocked

theorem exists_step (h : ¬Blocked s (s.pc i)) :
    ∃ s', (machine fair n).step s (.thread i) = some s' := by
  cases hp : s.pc i <;> rw [hp] at h
  case idle | failed => exact absurd trivial h
  case writer w =>
    cases w <;> simp_all [machine, step, threadStep, writerStep, acquireEntry, acquireWriter, Blocked]
  case reader r =>
    cases r <;> simp_all [machine, step, threadStep, readerStep, acquireEntry, acquireMx,
      acquireWriter, Blocked]

namespace Inv

variable (inv : Inv fair s)
include inv

omit inv in
theorem not_blocked (h : s.group.Movable i) : ¬Blocked s (s.pc i) := by
  simp only [ReaderGroup.State.Movable, State.group] at h
  cases hp : s.pc i <;> simp only [hp, Pc.phase] at h
  case writer w => cases w <;> simp_all [Blocked]
  case reader r => cases r <;> simp_all [Blocked]

omit inv in
-- Whoever has locked `entry` is not blocked, if the other locks are free.
theorem not_blocked_of_holdsEntry (hm : s.mx = false) (hw : s.writer = false)
    (hp : p.HoldsEntry) : ¬Blocked s p := by
  cases p
  case idle | failed => exact absurd hp id
  case writer w      => cases w <;> simp_all [Blocked, Pc.HoldsEntry]
  case reader r      => cases r <;> simp_all [Blocked, Pc.HoldsEntry]

theorem exists_not_blocked (hm : s.mx = false) (hw : s.writer = false) (hi : s.pc i ≠ .idle) :
    ∃ j, ¬Blocked s (s.pc j) := by
  by_cases hb : Blocked s (s.pc i)
  case neg => exact ⟨i, hb⟩
  case pos =>
    have hv := inv.valid i
    have h : fair = true ∧ s.entry = true := by
      cases hp : s.pc i <;> rw [hp] at hv hi hb
      case idle     => exact absurd rfl hi
      case failed   => exact absurd hv id
      case writer w => cases w <;> simp_all [Blocked, Pc.Valid]
      case reader r => cases r <;> simp_all [Blocked, Pc.Valid]
    obtain ⟨j, hj⟩ := (inv.entry h.left).owner h.right
    exact ⟨j, not_blocked_of_holdsEntry hm hw hj⟩

theorem exists_step (hi : s.pc i ≠ .idle) :
    ∃ j s', (machine fair n).step s (.thread j) = some s' := by
  cases inv.group.exists_movable
  case inl h =>
    have ⟨j, hj⟩ := inv.exists_not_blocked h.left h.right hi
    exact ⟨j, ReaderWriter.exists_step hj⟩
  case inr h =>
    have ⟨j, hj⟩ := h
    exact ⟨j, ReaderWriter.exists_step (not_blocked hj)⟩

theorem writes_alone (hi : (s.pc i).Writes) (hj : j ≠ i) : ¬(s.pc j).Reads ∧ ¬(s.pc j).Writes := by
  have ⟨hw, hs⟩ := inv.group.alone (writes_iff.mp hi) hj
  refine ⟨fun hr => ?_, fun h => hw (writes_iff.mp h)⟩
  have hr : s.group.phase j = .inside := reads_iff.mp hr
  exact hs (by rw [hr]; trivial)

theorem readers_eq_counted : s.readers = count s.pc Pc.Counted :=
  inv.group.readers.trans <| congrArg Nat.cast <| count_congr fun _ => counted_iff.symm

theorem readers_eq (hm : s.mx = false) : s.readers = count s.pc Pc.Reads :=
  (inv.group.readers_eq hm).trans <| congrArg Nat.cast <| count_congr fun _ => reads_iff.symm

theorem readers_pos_iff (hm : s.mx = false) :
    0 < s.readers ↔ s.writer = true ∧ ∀ i, ¬(s.pc i).Writes := by
  refine (inv.group.readers_pos_iff hm).trans (and_congr_right fun _ => forall_congr' fun i => ?_)
  exact not_congr writes_iff.symm

theorem writer_taken (hp : s.pc i = .reader .releaseWriter ∨ s.pc i = .writer .releaseWriter) :
    s.writer = true := by
  by_contra hw
  exact inv.not_raises rfl (.writer (Bool.eq_false_iff.mpr hw) hp)

end Inv

end ReaderWriter

namespace ReaderWriter

open Turnstile (Stage)

namespace Pc

-- The lock `entry` is a turnstile, until the writer calls `writer_unlock`.
def stage : Pc → Option Stage
  | reader .acquireMxIn | reader .loadIn | reader (.storeIn _) | reader .testIn
  | reader .acquireWriter | reader .releaseMxIn | reader .releaseEntry => some .reading
  | writer .acquireWriter                                             => some .waiting
  | writer .writing                                                   => some .writing
  | _                                                                 => none

end Pc

variable {n : ℕ} {s s' : State n} {i j : Fin n} {p : Pc} {l : Label n} {f : Fin n → Pc}
variable {t : Option (Fin n × Stage)} {st : Stage}

theorem holdsEntry_of_stage (h : p.stage = some st) : p.HoldsEntry := by
  cases p
  case idle | failed => cases h
  case writer w      => cases w <;> trivial
  case reader r      => cases r <;> trivial

def Passes (f : Fin n → Pc) (t : Option (Fin n × Stage)) : Prop :=
  ∀ i st, t = some (i, st) ↔ (f i).stage = some st

namespace Passes

theorem init : Passes (ReaderWriter.init n).pc none :=
  fun _ _ => by simp [ReaderWriter.init, Pc.stage]

-- The other threads are not in the turnstile.
theorem of_others (h : ∀ j ≠ i, ¬(f j).HoldsEntry) :
    Passes (update f i p) (p.stage.map fun st => (i, st)) := by
  intro j st
  by_cases hj : j = i
  case pos => simp [hj]
  case neg =>
    have hn : (f j).stage ≠ some st := fun hs => h j hj (holdsEntry_of_stage hs)
    simp [hj, Ne.symm hj, hn]

theorem keep (h : Passes f t) (hp : p.stage = (f i).stage) : Passes (update f i p) t :=
  fun j st => (h j st).trans (by rw [update_congr (g := Pc.stage) hp])

theorem eq_none (h : Passes f t) (hn : ∀ i, ¬(f i).HoldsEntry) : t = none := by
  cases t
  case none => rfl
  case some p => exact absurd (holdsEntry_of_stage <| (h p.fst p.snd).mp rfl) (hn p.fst)

variable (inv : Inv true s) (h : Passes s.pc t)
include inv h

-- Nobody is in the turnstile while `entry` is free.
theorem free (hl : s.entry = false) :
    t = none ∧ Passes (update s.pc i p) (p.stage.map fun st => (i, st)) := by
  have hn := (inv.entry rfl).not_of_free (by simp [hl])
  exact ⟨h.eq_none hn, of_others fun j _ => hn j⟩

-- A thread which is in the turnstile is alone there.
theorem alone (hi : (s.pc i).stage = some st) :
    t = some (i, st) ∧ Passes (update s.pc i p) (p.stage.map fun st => (i, st)) :=
  ⟨(h i st).mpr hi, of_others fun _ hj => (inv.entry rfl).not_of_ne (holdsEntry_of_stage hi) hj⟩

theorem reader {r : Reader} (hp : s.pc i = .reader r)
    (hs : ReaderStep true s i r s') :
    ∃ t', (Turnstile.machine (Fin n)).Run t (event s (.thread i)).toList t' ∧ Passes s'.pc t' := by
  cases hs
  case raises hr => exact absurd hr (inv.not_raises hp)
  case acquireEntry hl =>
    obtain ⟨rfl, hn⟩ := h.free inv hl
    simp only [event, hp]
    exact ⟨_, .single rfl, hn⟩
  case releaseEntry =>
    have hi : (s.pc i).stage = some .reading := by rw [hp]; rfl
    obtain ⟨rfl, hn⟩ := h.alone inv (p := .reader .reading) hi
    simp only [event, hp]
    exact ⟨_, .single (if_pos rfl), hn⟩
  all_goals
    simp only [event, hp]
    exact ⟨t, .refl, h.keep (by rw [hp]; rfl)⟩

theorem writer {w : Writer} (hp : s.pc i = .writer w)
    (hs : WriterStep true s i w s') :
    ∃ t', (Turnstile.machine (Fin n)).Run t (event s (.thread i)).toList t' ∧ Passes s'.pc t' := by
  cases hs
  case raises hr => exact absurd hr (inv.not_raises hp)
  case acquireEntry hl =>
    obtain ⟨rfl, hn⟩ := h.free inv hl
    simp only [event, hp]
    exact ⟨_, .single rfl, hn⟩
  case acquireWriter =>
    have hi : (s.pc i).stage = some .waiting := by rw [hp]; rfl
    obtain ⟨rfl, hn⟩ := h.alone inv (p := .writer .writing) hi
    simp only [event, hp]
    exact ⟨_, .single (if_pos rfl), hn⟩
  case writing =>
    have hi : (s.pc i).stage = some .writing := by rw [hp]; rfl
    obtain ⟨rfl, hn⟩ := h.alone inv (p := .writer .releaseWriter) hi
    simp only [event, hp]
    exact ⟨_, .single (if_pos rfl), hn⟩
  case releaseWriter | releaseEntry =>
    simp only [event, hp]
    exact ⟨t, .refl, h.keep (by rw [hp]; rfl)⟩

theorem step (hs : Step true s l s') :
    ∃ t', (Turnstile.machine (Fin n)).Run t (event s l).toList t' ∧ Passes s'.pc t' := by
  cases hs
  case reader hp hs => exact reader inv h hp hs
  case writer hp hs => exact writer inv h hp hs
  case readerLock hp | writerLock hp => exact ⟨t, .refl, h.keep (by rw [hp]; rfl)⟩

end Passes

theorem run_of_reachable {l : List (Turnstile.Event (Fin n))}
    (r : ((machine true n).logging event).Reachable (s, l)) :
    ∃ t, (Turnstile.machine (Fin n)).Run none l t := by
  suffices h : ∃ t, (Turnstile.machine (Fin n)).Run none l t ∧ Passes s.pc t by
    have ⟨t, rt, _⟩ := h
    exact ⟨t, rt⟩
  refine r.simulation (R := fun s _ t => Passes s.pc t) ?init ?step
  case init =>
    intro s h
    obtain rfl := h
    exact .init
  case step => exact fun _ _ _ _ _ r h hs => Passes.step (inv_of_reachable r) h (.of_step hs)

-- A writer which has the token has locked `entry`, too.
theorem Inv.writer_free (inv : Inv true s) (hi : s.pc i = .reader .acquireWriter) :
    s.writer = false := by
  by_contra hw
  have hg : s.group.phase i = .first := by
    simp only [State.group, hi]
    rfl
  obtain ⟨j, hj⟩ := inv.group.exists_writing_of_first hg (by simpa [State.group] using hw)
  have hj : (s.pc j).Writes := writes_iff.mpr hj
  have he : (s.pc j).HoldsEntry := by
    cases hp : s.pc j <;> rw [hp] at hj
    case writer w => cases w <;> trivial
    all_goals exact absurd hj id
  have hn := (inv.entry rfl).unique he (by rw [hi]; trivial)
  rw [hn, hi] at hj
  exact hj

-- The fair lock: exclusion and the number of the readers, no overtaking of a writer which has
-- acquired `entry`, and neither exceptions nor deadlocks.
theorem fair_lock (n : ℕ) :
    ∀ s l, ((machine true n).logging event).Reachable (s, l) →
      (∀ i j, (s.pc i).Writes → j ≠ i → ¬(s.pc j).Reads ∧ ¬(s.pc j).Writes) ∧
      s.readers = count s.pc Pc.Counted ∧
      (∀ l₁ i l₂ e l₃, l = l₁ ++ .writerEntry i :: l₂ ++ e :: l₃ → e.IsEntry →
        [.enter i, .leave i].Sublist l₂) ∧
      (∀ i, s.pc i = .reader .acquireWriter → s.writer = false) ∧
      (∀ i, ¬Raises s (s.pc i)) ∧
      ((∃ i, s.pc i ≠ .idle) → ∃ i s', (machine true n).step s (.thread i) = some s') := by
  intro s l r
  have inv := inv_of_reachable r.of_logging
  have ⟨t, rt⟩ := run_of_reachable r
  refine ⟨fun i j hi hj => inv.writes_alone hi hj, inv.readers_eq_counted, ?_,
    fun i hi => inv.writer_free hi, fun i => inv.not_raises rfl, ?_⟩
  · intro l₁ i l₂ e l₃ hl he
    exact Turnstile.no_overtaking (hl ▸ rt) he
  · intro ⟨i, hi⟩
    exact inv.exists_step hi

-- The writer has acquired `entry` and waits for the reader.
theorem fair_lock_two :
    ∃ s : State 2, s.pc 0 = .writer .acquireWriter ∧ s.pc 1 = .reader .reading ∧
      s.writer = true ∧
      s.readers = count s.pc Pc.Counted ∧ (∀ i, ¬Raises s (s.pc i)) ∧
      ∃ i s', (machine true 2).step s (.thread i) = some s' :=
  have ⟨s, l, h, hw, hr, hl⟩ : ∃ s l, ((machine true 2).logging event).exec (init 2, [])
      (.readerLock 1 :: .writerLock 0 :: Machine.schedule [(8, .thread 1), (1, .thread 0)]) =
        some (s, l) ∧ s.pc 0 = .writer .acquireWriter ∧ s.pc 1 = .reader .reading ∧
        s.writer = true :=
    ⟨_, _, rfl, rfl, rfl, rfl⟩
  have ⟨_, hc, _, _, hn, hs⟩ := fair_lock 2 s l (.of_exec (by exact ⟨rfl, rfl⟩) h)
  ⟨s, hw, hr, hl, hc, hn, hs ⟨0, by simp [hw]⟩⟩

end ReaderWriter
