import Concurrencia.Spinlocks.TicketRw.Basic
import Concurrencia.Machine.Basic
import Concurrencia.Spinlocks.TicketRw.Admission
import Concurrencia.Threads.Count
import Mathlib.Tactic.SplitIfs
import Mathlib.Algebra.Ring.Nat

open Function Threads

namespace TicketRw

section Step

-- One constructor for each way through a statement, with the event it causes.
inductive Step {n : ℕ} (s : State n) : Option (Event (Fin n)) → State n → Prop
  | readerLock : (s.pc i = .idle) → Step s none (s.goto i .readerTicket)
  | readerTicket : (s.pc i = .readerTicket) →
    Step s (some (.request i .reader))
      ({ s with number := s.number + 1 }.goto i (.readerSpin s.number))
  | readerSpin : (s.pc i = .readerSpin v) → Step s none (s.goto i (.readerSpin v))
  | readerTurn : (s.pc i = .readerSpin v) → (v = s.readerTurn) → Step s none (s.goto i .loadTurn)
  | loadTurn : (s.pc i = .loadTurn) → Step s none (s.goto i (.storeTurn s.readerTurn))
  | storeTurn : (s.pc i = .storeTurn v) →
    Step s (some (.enter i .reader)) ({ s with readerTurn := v + 1 }.goto i .reading)
  | reading : (s.pc i = .reading) → Step s none (s.goto i .addTurn)
  | addTurn : (s.pc i = .addTurn) →
    Step s (some (.leave i .reader)) ({ s with writerTurn := s.writerTurn + 1 }.goto i .idle)
  | writerLock : (s.pc i = .idle) → Step s none (s.goto i .writerTicket)
  | writerTicket : (s.pc i = .writerTicket) →
    Step s (some (.request i .writer))
      ({ s with number := s.number + 1 }.goto i (.writerSpin s.number))
  | writerSpin : (s.pc i = .writerSpin v) → Step s none (s.goto i (.writerSpin v))
  | writerTurn : (s.pc i = .writerSpin v) → (v = s.writerTurn) →
    Step s (some (.enter i .writer)) (s.goto i .writing)
  | writing : (s.pc i = .writing) → Step s none (s.goto i .loadWriterTurn)
  | loadWriterTurn : (s.pc i = .loadWriterTurn) →
    Step s none (s.goto i (.loadReaderTurn (s.writerTurn + 1)))
  | loadReaderTurn : (s.pc i = .loadReaderTurn w) →
    Step s none (s.goto i (.storeCombined w (s.readerTurn + 1)))
  | storeCombined : (s.pc i = .storeCombined w r) →
    Step s (some (.leave i .writer)) ({ s with writerTurn := w, readerTurn := r }.goto i .idle)

variable {n : ℕ} {s s' : State n} {i : Fin n} {l : Label n}

theorem Step.of_thread (h : threadStep s i = some s') : Step s (event s (.thread i)) s' := by
  cases hp : s.pc i <;> simp only [threadStep, event, hp] at h ⊢
  case readerSpin v =>
    split_ifs at h with hv
    all_goals cases h
    · exact .readerSpin hp
    · exact .readerTurn hp (not_not.mp hv)
  case writerSpin v =>
    split_ifs at h with hv
    all_goals cases h
    · rw [if_neg hv]
      exact .writerSpin hp
    · rw [if_pos (not_not.mp hv)]
      exact .writerTurn hp (not_not.mp hv)
  all_goals cases h
  case readerTicket   => exact .readerTicket hp
  case loadTurn       => exact .loadTurn hp
  case storeTurn      => exact .storeTurn hp
  case reading        => exact .reading hp
  case addTurn        => exact .addTurn hp
  case writerTicket   => exact .writerTicket hp
  case writing        => exact .writing hp
  case loadWriterTurn => exact .loadWriterTurn hp
  case loadReaderTurn => exact .loadReaderTurn hp
  case storeCombined  => exact .storeCombined hp

theorem Step.of_step (h : step s l = some s') : Step s (event s l) s' := by
  cases l <;> simp only [step] at h
  case readerLock =>
    split_ifs at h with hp
    cases h
    exact .readerLock hp
  case writerLock =>
    split_ifs at h with hp
    cases h
    exact .writerLock hp
  case thread => exact .of_thread h

end Step

namespace Event

variable {ι : Type*}

def isEnter (r : Role) : Event ι → Bool
  | enter _ r' => r = r'
  | _          => false

def isLeave (r : Role) : Event ι → Bool
  | leave _ r' => r = r'
  | _          => false

end Event

-- The operations which are completed.
def completed {ι : Type*} (l : List (Event ι)) : ℕ :=
  l.countP (Event.isLeave .reader) + l.countP (Event.isLeave .writer)

-- The readers which are admitted and the writers which are done.
def passed {ι : Type*} (l : List (Event ι)) : ℕ :=
  l.countP (Event.isEnter .reader) + l.countP (Event.isLeave .writer)

open Admission (Request)

def Reading : Option Request → Prop
  | some q => q.Admits .reader
  | none   => False

instance : DecidablePred Reading
  | some q => inferInstanceAs <| Decidable (q.Admits .reader)
  | none   => inferInstanceAs <| Decidable False

-- What the program point of a thread says about its request, with `c` operations completed and
-- `p` tickets passed.
def Local (c p : ℕ) : Pc → Option Request → Prop
  | .idle, o | .readerTicket, o | .writerTicket, o => o = none
  | .readerSpin v, o      => ∃ k, o = some ⟨k, .reader, false⟩ ∧ v = .ofNat k
  | .loadTurn, o          => o = some ⟨p, .reader, false⟩
  | .storeTurn v, o       => o = some ⟨p, .reader, false⟩ ∧ v = .ofNat p
  | .reading, o           => ∃ k, o = some ⟨k, .reader, true⟩
  | .addTurn, o           => ∃ k, o = some ⟨k, .reader, true⟩
  | .writerSpin v, o      => ∃ k, o = some ⟨k, .writer, false⟩ ∧ v = .ofNat k
  | .writing, o           => o = some ⟨p, .writer, true⟩ ∧ c = p
  | .loadWriterTurn, o    => o = some ⟨p, .writer, true⟩ ∧ c = p
  | .loadReaderTurn w, o  => o = some ⟨p, .writer, true⟩ ∧ c = p ∧ w = .ofNat (p + 1)
  | .storeCombined w r, o =>
    o = some ⟨p, .writer, true⟩ ∧ c = p ∧ w = .ofNat (p + 1) ∧ r = .ofNat (p + 1)

-- The thread whose turn it is.
def Pc.Front : Pc → Prop
  | loadTurn | storeTurn _ | writing | loadWriterTurn | loadReaderTurn _ | storeCombined _ _ => True
  | _ => False

variable {n : ℕ} {s s' : State n} {i j : Fin n} {c d p q k : ℕ} {o : Option Request} {pc : Pc}

namespace Local

theorem front (h : Local c p pc o) (hf : pc.Front) : ∃ r, o = some r ∧ r.ticket = p := by
  cases pc <;> try exact hf.elim
  case loadTurn => exact ⟨_, h, rfl⟩
  all_goals exact ⟨_, h.left, rfl⟩

theorem of_not_front (h : Local c p pc o) (hf : ¬pc.Front) : Local d q pc o := by
  cases pc <;> first | exact h | exact absurd trivial hf

theorem of_ne (h : Local c p pc o) (hn : c ≠ p) : Local d p pc o := by
  cases pc <;> simp_all [Local]

end Local

structure Refines (s : State n) (c p : ℕ) (t : Admission.State (Fin n)) : Prop where
  inv        : Admission.Inv t
  number     : s.number = .ofNat t.number
  writerTurn : s.writerTurn = .ofNat c
  readerTurn : s.readerTurn = .ofNat p
  thread     : ∀ i, Local c p (s.pc i) (t.request i)
  active     : t.number = c + count t.request (·.isSome)
  inside     : p = c + count t.request Reading
  order      : ∀ {i q}, t.request i = some q → (q.ticket < p ↔ Reading (some q))

theorem ofNat_inj {a b : ℕ} (h : UInt16.ofNat a = UInt16.ofNat b) (hl : a ≤ b) (hr : b < a + 2 ^ 16) :
    a = b := by
  have h := congrArg UInt16.toNat h
  simp only [UInt16.toNat_ofNat'] at h
  omega

namespace Refines

variable {t : Admission.State (Fin n)}

theorem init : Refines (init n) 0 0 (Admission.init (Fin n)) where
  inv        := .init
  number     := rfl
  writerTurn := rfl
  readerTurn := rfl
  thread _   := rfl
  active     := by simp [Admission.init, count]
  inside     := by simp [Admission.init, count, Reading]
  order h    := by simp [Admission.init] at h

variable (ref : Refines s c p t)
include ref

-- The step of a thread which does not touch the lock.
theorem goto (h : Local c p pc (t.request i)) : Refines (s.goto i pc) c p t where
  inv        := ref.inv
  number     := ref.number
  writerTurn := ref.writerTurn
  readerTurn := ref.readerTurn
  active     := ref.active
  inside     := ref.inside
  order      := ref.order
  thread j   := by
    by_cases hj : j = i
    case pos => simpa [State.goto, hj] using h
    case neg => simpa [State.goto, hj] using ref.thread j

theorem passed_le : p ≤ t.number := by
  have hm : count t.request Reading ≤ count t.request (·.isSome) :=
    count_mono fun o h => by cases o <;> simp_all [Reading]
  rw [ref.active]
  have := ref.inside
  omega

theorem lt_of_reading (h : Reading (t.request i)) : c < p := by
  have := count_pos (f := t.request) (i := i) h
  have := ref.inside
  omega

theorem eq_of_front (hi : (s.pc i).Front) (hj : (s.pc j).Front) : i = j :=
  have ⟨_, hi, hp⟩ := (ref.thread i).front hi
  have ⟨_, hj, hq⟩ := (ref.thread j).front hj
  ref.inv.unique hi hj (hp.trans hq.symm)

-- Of the tickets which are not passed at most `n` are out, so the turn and a ticket are equal if
-- they are equal modulo 2^16.
theorem turn_eq
    (hn : n ≤ 2 ^ 16) {q : Request} (hq : t.request i = some q) (ha : ¬q.Admits .reader) :
    (UInt16.ofNat q.ticket = .ofNat p → q.ticket = p) ∧
    (UInt16.ofNat q.ticket = .ofNat c → q.ticket = p ∧ c = p) := by
  have hp : p ≤ q.ticket := Nat.le_of_not_lt fun h => ha <| (ref.order hq).mp h
  have hl := ref.inv.lt hq
  have ha := ref.active
  have hi := ref.inside
  have hc := count_le_card (f := t.request) (P := (·.isSome))
  rw [Fintype.card_fin] at hc
  constructor
  · intro h
    exact (ofNat_inj h.symm hp (by omega)).symm
  · intro h
    have := ofNat_inj h.symm (by omega) (by omega)
    omega

omit ref in
theorem thread_update (hp : s'.pc = update s.pc i pc) (h : Local d q pc o)
    (hn : ∀ j ≠ i, Local d q (s.pc j) (t.request j)) (j : Fin n) :
    Local d q (s'.pc j) (update t.request i o j) := by
  by_cases hj : j = i
  case pos => simpa [hp, hj] using h
  case neg => simpa [hp, hj] using hn j hj

theorem thread_of_front (hi : (s.pc i).Front) (j : Fin n) (hj : j ≠ i) :
    Local d q (s.pc j) (t.request j) :=
  (ref.thread j).of_not_front fun h => hj (ref.eq_of_front h hi)

omit ref in
theorem order_update {o : Option Request} {d : ℕ} {q : Request}
    (ho : ∀ {q}, o = some q → (q.ticket < d ↔ Reading (some q)))
    (hn : ∀ {j q}, j ≠ i → t.request j = some q → (q.ticket < d ↔ Reading (some q)))
    (hq : update t.request i o j = some q) : q.ticket < d ↔ Reading (some q) := by
  by_cases hj : j = i
  case pos => exact ho (by simpa [hj] using hq)
  case neg => exact hn hj (by simpa [hj] using hq)

-- Nobody else has the ticket whose turn it is.
theorem order_succ {r : Role} {b : Bool} {q : Request} (ho : t.request i = some ⟨p, r, b⟩)
    (hj : j ≠ i) (hq : t.request j = some q) : q.ticket < p + 1 ↔ Reading (some q) := by
  have hn : q.ticket ≠ p := fun h => hj (ref.inv.unique hq ho h)
  rw [← ref.order hq]
  omega

theorem request {r : Role} (ho : t.request i = none) (hp : s'.pc = update s.pc i pc)
    (h : Local c p pc (some ⟨t.number, r, false⟩)) (hs : s'.number = s.number + 1)
    (hc : s'.writerTurn = s.writerTurn) (ht : s'.readerTurn = s.readerTurn) :
    ∃ t', Admission.Step t (.request i r) t' ∧ Refines s' c p t' := by
  refine ⟨_, .request ho, ?_⟩
  exact {
    inv        := ref.inv.step (.request ho)
    number     := by rw [hs, ref.number, UInt16.ofNat_add]; rfl
    writerTurn := hc ▸ ref.writerTurn
    readerTurn := ht ▸ ref.readerTurn
    thread     := thread_update hp h fun j _ => ref.thread j
    active     := by
      have hn := count_enter (f := t.request) (P := (·.isSome)) (i := i)
        (p := some ⟨t.number, r, false⟩) (by simp [ho]) rfl
      have ha := ref.active
      dsimp only
      omega
    inside     := by
      rw [count_keep (by simp [ho, Reading, Request.Admits])]
      exact ref.inside
    order      := by
      refine order_update (fun h => ?_) fun _ => ref.order
      cases h
      simpa [Reading, Request.Admits] using ref.passed_le
  }

theorem enterReader (ho : t.request i = some ⟨p, .reader, false⟩) (hf : (s.pc i).Front)
    (hp : s'.pc = update s.pc i .reading) (hs : s'.number = s.number)
    (hc : s'.writerTurn = s.writerTurn) (ht : s'.readerTurn = .ofNat (p + 1)) :
    ∃ t', Admission.Step t (.enter i .reader) t' ∧ Refines s' c (p + 1) t' := by
  have ha : Admission.Step t (.enter i .reader) _ :=
    .enter ho fun j q hq hl => (ref.order hq).mp hl
  refine ⟨_, ha, ?_⟩
  exact {
    inv        := ref.inv.step ha
    number     := hs ▸ ref.number
    writerTurn := hc ▸ ref.writerTurn
    readerTurn := ht
    thread     := thread_update hp ⟨p, rfl⟩ fun j hj => ref.thread_of_front hf j hj
    active     := by
      rw [count_keep (by simp [ho])]
      exact ref.active
    inside     := by
      have hn := count_enter (f := t.request) (P := Reading) (i := i)
        (p := some ⟨p, .reader, true⟩) (by simp [ho, Reading, Request.Admits]) ⟨rfl, rfl, rfl⟩
      have hi := ref.inside
      dsimp only
      omega
    order      := by
      refine order_update (fun h => ?_) (ref.order_succ ho)
      cases h
      simp [Reading, Request.Admits]
  }

theorem enterWriter (ho : t.request i = some ⟨p, .writer, false⟩) (hcp : c = p)
    (hp : s'.pc = update s.pc i .writing) (hs : s'.number = s.number)
    (hc : s'.writerTurn = s.writerTurn) (ht : s'.readerTurn = s.readerTurn) :
    ∃ t', Admission.Step t (.enter i .writer) t' ∧ Refines s' c p t' := by
  have ha : Admission.Step t (.enter i .writer) _ := .enter ho fun j q hq hl => by
    have := ref.lt_of_reading (i := j) (hq ▸ (ref.order hq).mp hl)
    omega
  refine ⟨_, ha, ?_⟩
  exact {
    inv        := ref.inv.step ha
    number     := hs ▸ ref.number
    writerTurn := hc ▸ ref.writerTurn
    readerTurn := ht ▸ ref.readerTurn
    thread     := thread_update hp ⟨rfl, hcp⟩ fun j _ => ref.thread j
    active     := by
      rw [count_keep (by simp [ho])]
      exact ref.active
    inside     := by
      rw [count_keep (by simp [ho, Reading, Request.Admits])]
      exact ref.inside
    order      := by
      refine order_update (fun h => ?_) fun _ => ref.order
      cases h
      simp [Reading, Request.Admits]
  }

theorem leaveReader (ho : t.request i = some ⟨k, .reader, true⟩)
    (hp : s'.pc = update s.pc i .idle) (hs : s'.number = s.number)
    (hc : s'.writerTurn = s.writerTurn + 1) (ht : s'.readerTurn = s.readerTurn) :
    ∃ t', Admission.Step t (.leave i .reader) t' ∧ Refines s' (c + 1) p t' := by
  have hr : Reading (t.request i) := by simp [ho, Reading, Request.Admits]
  have hne := ref.lt_of_reading hr
  refine ⟨_, .leave ho, ?_⟩
  exact {
    inv        := ref.inv.step (.leave ho)
    number     := hs ▸ ref.number
    writerTurn := by rw [hc, ref.writerTurn, UInt16.ofNat_add]; rfl
    readerTurn := ht ▸ ref.readerTurn
    thread     := thread_update hp rfl fun j _ => (ref.thread j).of_ne (by omega)
    active     := by
      have hn := count_leave (f := t.request) (P := (·.isSome)) (i := i) (p := none)
        (by simp [ho]) (by simp)
      have ha := ref.active
      dsimp only
      omega
    inside     := by
      have hn := count_leave (f := t.request) (P := Reading) (i := i) (p := none) hr id
      have hi := ref.inside
      dsimp only
      omega
    order      := order_update (fun h => by cases h) fun _ => ref.order
  }

theorem leaveWriter (ho : t.request i = some ⟨p, .writer, true⟩) (hcp : c = p)
    (hf : (s.pc i).Front) (hp : s'.pc = update s.pc i .idle) (hs : s'.number = s.number)
    (hc : s'.writerTurn = .ofNat (p + 1)) (ht : s'.readerTurn = .ofNat (p + 1)) :
    ∃ t', Admission.Step t (.leave i .writer) t' ∧ Refines s' (c + 1) (p + 1) t' := by
  refine ⟨_, .leave ho, ?_⟩
  exact {
    inv        := ref.inv.step (.leave ho)
    number     := hs ▸ ref.number
    writerTurn := hcp ▸ hc
    readerTurn := ht
    thread     := thread_update hp rfl fun j hj => ref.thread_of_front hf j hj
    active     := by
      have hn := count_leave (f := t.request) (P := (·.isSome)) (i := i) (p := none)
        (by simp [ho]) (by simp)
      have ha := ref.active
      dsimp only
      omega
    inside     := by
      rw [count_keep (by simp [ho, Reading, Request.Admits])]
      have hi := ref.inside
      omega
    order      := order_update (fun h => by cases h) (ref.order_succ ho)
  }

end Refines

section Counts

variable {l : List (Event (Fin n))} {r : Role}

@[simp] theorem completed_request : completed (l ++ [.request i r]) = completed l := by
  simp [completed, Event.isLeave]

@[simp] theorem completed_enter : completed (l ++ [.enter i r]) = completed l := by
  simp [completed, Event.isLeave]

@[simp] theorem completed_leave : completed (l ++ [.leave i r]) = completed l + 1 := by
  cases r <;> simp [completed, Event.isLeave] <;> omega

@[simp] theorem passed_request : passed (l ++ [.request i r]) = passed l := by
  simp [passed, Event.isEnter, Event.isLeave]

@[simp] theorem passed_enterReader : passed (l ++ [.enter i .reader]) = passed l + 1 := by
  simp [passed, Event.isEnter, Event.isLeave]
  omega

@[simp] theorem passed_enterWriter : passed (l ++ [.enter i .writer]) = passed l := by
  simp [passed, Event.isEnter, Event.isLeave]

@[simp] theorem passed_leaveReader : passed (l ++ [.leave i .reader]) = passed l := by
  simp [passed, Event.isEnter, Event.isLeave]

@[simp] theorem passed_leaveWriter : passed (l ++ [.leave i .writer]) = passed l + 1 := by
  simp [passed, Event.isEnter, Event.isLeave]
  omega

end Counts

-- Each step of the lock is one of the specification, or none.
theorem Refines.step {t : Admission.State (Fin n)} {e : Option (Event (Fin n))}
    {l : List (Event (Fin n))} (ref : Refines s (completed l) (passed l) t) (hn : n ≤ 2 ^ 16)
    (h : Step s e s') :
    ∃ t', (Admission.machine (Fin n)).Run t e.toList t' ∧
      Refines s' (completed (l ++ e.toList)) (passed (l ++ e.toList)) t' := by
  have run {e : Event (Fin n)} {c p : ℕ} (h : ∃ t', Admission.Step t e t' ∧ Refines s' c p t') :
      ∃ t', (Admission.machine (Fin n)).Run t [e] t' ∧ Refines s' c p t' :=
    have ⟨t', ht, hr⟩ := h
    ⟨t', .single (Admission.step_iff.mpr ht), hr⟩
  have stay (hr : Refines s' (completed l) (passed l) t) :
      ∃ t', (Admission.machine (Fin n)).Run t [] t' ∧
        Refines s' (completed (l ++ [])) (passed (l ++ [])) t' :=
    ⟨t, .refl, by simpa using hr⟩
  cases h <;> simp only [Option.toList]
  case readerLock i hp | writerLock i hp =>
    have ho := ref.thread i
    rw [hp] at ho
    exact stay <| ref.goto ho
  case readerTicket i hp | writerTicket i hp =>
    have ho := ref.thread i
    rw [hp] at ho
    rw [completed_request, passed_request]
    exact run <| ref.request ho rfl ⟨_, rfl, ref.number⟩ rfl rfl rfl
  case readerSpin i v hp | writerSpin i v hp =>
    have ho := ref.thread i
    rw [hp] at ho
    exact stay <| ref.goto ho
  case readerTurn i v hp hv =>
    have ho := ref.thread i
    rw [hp] at ho
    obtain ⟨k, ho, hk⟩ := ho
    rw [hk, ref.readerTurn] at hv
    have hkp : k = passed l := (ref.turn_eq hn ho (by simp [Request.Admits])).left hv
    exact stay <| ref.goto (hkp ▸ ho)
  case loadTurn i hp =>
    have ho := ref.thread i
    rw [hp] at ho
    exact stay <| ref.goto ⟨ho, ref.readerTurn⟩
  case storeTurn i v hp =>
    have ho := ref.thread i
    rw [hp] at ho
    obtain ⟨ho, hv⟩ := ho
    rw [completed_enter, passed_enterReader]
    exact run <| ref.enterReader ho (hp ▸ trivial) rfl rfl rfl (by simp [State.goto, hv])
  case reading i hp =>
    have ho := ref.thread i
    rw [hp] at ho
    exact stay <| ref.goto ho
  case addTurn i hp =>
    have ho := ref.thread i
    rw [hp] at ho
    obtain ⟨k, ho⟩ := ho
    rw [completed_leave, passed_leaveReader]
    exact run <| ref.leaveReader ho rfl rfl rfl rfl
  case writerTurn i v hp hv =>
    have ho := ref.thread i
    rw [hp] at ho
    obtain ⟨k, ho, hk⟩ := ho
    rw [hk, ref.writerTurn] at hv
    obtain ⟨hkp, hc⟩ : k = passed l ∧ _ := (ref.turn_eq hn ho (by simp [Request.Admits])).right hv
    rw [completed_enter, passed_enterWriter]
    exact run <| ref.enterWriter (hkp ▸ ho) hc rfl rfl rfl rfl
  case writing i hp =>
    have ho := ref.thread i
    rw [hp] at ho
    exact stay <| ref.goto ho
  case loadWriterTurn i hp =>
    have ho := ref.thread i
    rw [hp] at ho
    exact stay <| ref.goto ⟨ho.left, ho.right, by simp [ref.writerTurn, ho.right]⟩
  case loadReaderTurn i w hp =>
    have ho := ref.thread i
    rw [hp] at ho
    exact stay <| ref.goto ⟨ho.left, ho.right.left, ho.right.right, by simp [ref.readerTurn]⟩
  case storeCombined i w r hp =>
    have ho := ref.thread i
    rw [hp] at ho
    obtain ⟨ho, hc, hw, hr⟩ := ho
    rw [completed_leave, passed_leaveWriter]
    exact run <| ref.leaveWriter ho hc (hp ▸ trivial) rfl rfl hw hr

theorem refines_of_reachable (hn : n ≤ 2 ^ 16) {l : List (Event (Fin n))}
    (r : ((machine n).logging event).Reachable (s, l)) :
    ∃ t, (Admission.machine (Fin n)).Run (Admission.init (Fin n)) l t ∧
      Refines s (completed l) (passed l) t := by
  apply r.simulation (R := fun s l t => Refines s (completed l) (passed l) t)
  case init =>
    intro s hs
    exact hs ▸ .init
  case step =>
    intro s a s' l t _ ref h
    exact ref.step hn (.of_step h)

end TicketRw

namespace TicketRw

namespace Pc

-- Between `reader_lock` and the end of `reader_unlock`.
def Reads : Pc → Prop
  | reading | addTurn => True
  | _                 => False

-- Between `writer_lock` and the end of `writer_unlock`.
def Writes : Pc → Prop
  | writing | loadWriterTurn | loadReaderTurn _ | storeCombined _ _ => True
  | _                                                              => False

end Pc

variable {n : ℕ} {s : State n} {i j : Fin n} {c p : ℕ} {pc : Pc} {o : Option Admission.Request}

theorem Local.of_reads (h : Local c p pc o) (hr : pc.Reads) :
    ∃ q, o = some q ∧ q.role = .reader ∧ q.inside = true := by
  cases pc <;> simp_all [Local, Pc.Reads]
  all_goals
    obtain ⟨k, hk⟩ := h
    simp [hk]

theorem Local.of_writes (h : Local c p pc o) (hw : pc.Writes) :
    ∃ q, o = some q ∧ q.role = .writer ∧ q.inside = true := by
  cases pc <;> simp_all [Local, Pc.Writes]

theorem Refines.writes_alone {t : Admission.State (Fin n)} (ref : Refines s c p t)
    (hi : (s.pc i).Writes) (hj : j ≠ i) : ¬(s.pc j).Writes ∧ ¬(s.pc j).Reads := by
  have ⟨_, hp, hw, hi⟩ := (ref.thread i).of_writes hi
  constructor
  · intro h
    have ⟨_, hq, _, hin⟩ := (ref.thread j).of_writes h
    have hr := (ref.inv.readers hp hq hi hin hj).left
    simp [hw] at hr
  · intro h
    have ⟨_, hq, _, hin⟩ := (ref.thread j).of_reads h
    have hr := (ref.inv.readers hp hq hi hin hj).left
    simp [hw] at hr

theorem ticket_order {l : List (Event (Fin n))}
    (hn : n ≤ 2 ^ 16) (r : ((machine n).logging event).Reachable (s, l)) :
    (∀ i j, (s.pc i).Writes → j ≠ i → ¬(s.pc j).Writes ∧ ¬(s.pc j).Reads) ∧
    (∃ t, (Admission.machine (Fin n)).Run (Admission.init (Fin n)) l t) ∧
    s.writerTurn.toNat = completed l % 2 ^ 16 ∧ s.readerTurn.toNat = passed l % 2 ^ 16 := by
  have ⟨t, run, ref⟩ := refines_of_reachable hn r
  refine ⟨fun i j hi hj => ref.writes_alone hi hj, ⟨t, run⟩, ?_, ?_⟩
  · rw [ref.writerTurn, UInt16.toNat_ofNat']
  · rw [ref.readerTurn, UInt16.toNat_ofNat']

-- The writer enters after the reader before it has left.
theorem ticket_order_two :
    ∃ (s : State 2) (l : List (Event (Fin 2))), s.pc 1 = .writing ∧
      l = [.request 0 .reader, .request 1 .writer, .enter 0 .reader, .leave 0 .reader,
        .enter 1 .writer] ∧
      (∀ i j, (s.pc i).Writes → j ≠ i → ¬(s.pc j).Writes ∧ ¬(s.pc j).Reads) ∧
      (∃ t, (Admission.machine (Fin 2)).Run (Admission.init (Fin 2)) l t) ∧
      s.writerTurn.toNat = completed l % 2 ^ 16 ∧ s.readerTurn.toNat = passed l % 2 ^ 16 :=
  have ⟨s, h, hp⟩ : ∃ s : State 2, ((machine 2).logging event).exec (init 2, [])
      (.readerLock 0 :: .writerLock 1 :: Machine.schedule
        [(1, .thread 0), (2, .thread 1), (5, .thread 0), (1, .thread 1)]) =
        some (s, [.request 0 .reader, .request 1 .writer, .enter 0 .reader, .leave 0 .reader,
          .enter 1 .writer]) ∧ s.pc 1 = .writing :=
    ⟨_, rfl, rfl⟩
  ⟨s, _, hp, rfl, ticket_order (by decide) (.of_exec (by exact ⟨rfl, rfl⟩) h)⟩

end TicketRw
