import Concurrencia.Machine.History
import Concurrencia.Threads.Basic
import Concurrencia.Threads.Count
import Mathlib.Data.Prod.Lex

open Function Threads

-- Programs with one object whose methods are synchronized. A method waits in the object until its
-- condition holds, assigns to the fields, and notifies all the threads which wait there, or nobody.
namespace ObjectMonitor

-- What a thread does next: it calls a method, or it accesses variables which no method uses.
inductive Act (κ γ : Type*)
  | call (k : κ)
  | access (f : γ → γ)

-- The methods, with the conditions for which their loops wait, and the threads which call them. A
-- thread at point `x` goes on at `next x`, and `fetch` is `none` at the end.
structure Program (σ ι κ γ π : Type*) where
  ready : κ → σ → Bool
  body : ι → κ → List (σ → σ)
  notifies : κ → σ → Bool
  fetch : ι → π → Option (Act κ γ)
  next : π → π
  start : π
  fields : σ
  vars : γ

-- A thread at `enter` takes the monitor, for the first time or after it has been woken. One at
-- `body` has the given assignments before it, and the notification.
inductive Pc (σ κ : Type*)
  | outside
  | enter (k : κ) | test (k : κ) | waiting (k : κ) | body (k : κ) (fs : List (σ → σ)) | exit

structure State (σ ι κ γ π : Type*) where
  pc : ι → Pc σ κ
  point : ι → π
  lock : Bool
  fields : σ
  vars : γ

-- In the step `wake i`, the thread returns from `wait` without a notification.
inductive Label (ι : Type*)
  | thread (i : ι)
  | wake (i : ι)
  deriving DecidableEq

variable {σ ι κ γ π : Type*}

def run (fs : List (σ → σ)) (d : σ) : σ :=
  fs.foldl (fun d f => f d) d

def Pc.wake : Pc σ κ → Pc σ κ
  | waiting k => enter k
  | p         => p

variable [DecidableEq ι]

def State.goto (s : State σ ι κ γ π) (i : ι) (p : Pc σ κ) : State σ ι κ γ π :=
  { s with pc := update s.pc i p }

namespace Program

variable (p : Program σ ι κ γ π)

def effect (i : ι) (k : κ) (d : σ) : σ :=
  run (p.body i k) d

def threadStep (s : State σ ι κ γ π) (i : ι) : Option (State σ ι κ γ π) :=
  match s.pc i with
  | .outside         =>
    match p.fetch i (s.point i) with
    | some (.call k)   => s.goto i (.enter k)
    | some (.access f) =>
      some { s with vars := f s.vars, point := update s.point i (p.next (s.point i)) }
    | none             => none
  | .enter k         => if s.lock then none else some <| { s with lock := true }.goto i (.test k)
  | .test k          =>
    if p.ready k s.fields then s.goto i (.body k (p.body i k))
    else { s with lock := false }.goto i (.waiting k)
  | .waiting _       => none
  | .body k (f :: fs) => { s with fields := f s.fields }.goto i (.body k fs)
  | .body k []        =>
    (if p.notifies k s.fields then { s with pc := fun j => (s.pc j).wake } else s).goto i .exit
  | .exit            =>
    { s with lock := false, point := update s.point i (p.next (s.point i)) }.goto i .outside

def step (s : State σ ι κ γ π) : Label ι → Option (State σ ι κ γ π)
  | .thread i => p.threadStep s i
  | .wake i   => match s.pc i with | .waiting k => s.goto i (.enter k) | _ => none

def init : State σ ι κ γ π where
  pc _    := .outside
  point _ := p.start
  lock    := false
  fields  := p.fields
  vars    := p.vars

def machine : Machine (State σ ι κ γ π) (Label ι) where
  init s := s = p.init
  step   := p.step

def Finished (s : State σ ι κ γ π) : Prop :=
  ∀ i, s.pc i = .outside ∧ p.fetch i (s.point i) = none

end Program

-- The same program where each call is one step, which is not taken before the condition holds.
structure Atomic (σ ι γ π : Type*) where
  point : ι → π
  fields : σ
  vars : γ

namespace Program

variable (p : Program σ ι κ γ π)

def atomicStep (t : Atomic σ ι γ π) (i : ι) : Option (Atomic σ ι γ π) :=
  match p.fetch i (t.point i) with
  | some (.call k)   =>
    if p.ready k t.fields then
      some ⟨update t.point i (p.next (t.point i)), p.effect i k t.fields, t.vars⟩
    else none
  | some (.access f) => some ⟨update t.point i (p.next (t.point i)), t.fields, f t.vars⟩
  | none             => none

def atomic : Machine (Atomic σ ι γ π) ι where
  init t := t = ⟨fun _ => p.start, p.fields, p.vars⟩
  step   := p.atomicStep

-- The call takes effect when its condition has been found to hold.
def commit (s : State σ ι κ γ π) : Label ι → Option ι
  | .thread i =>
    match s.pc i with
    | .test k  => if p.ready k s.fields then some i else none
    | .outside => match p.fetch i (s.point i) with | some (.access _) => some i | _ => none
    | _        => none
  | .wake _   => none

end Program

namespace Pc

def HasLock : Pc σ κ → Prop
  | test _ | body _ _ | exit => True
  | _                        => False

def Committed : Pc σ κ → Bool
  | body _ _ | exit => true
  | _               => false

-- The assignments before the thread.
def rest : Pc σ κ → List (σ → σ)
  | body _ fs => fs
  | _         => []

-- The call of the thread is the one it has fetched.
def Fits (a : Option (Act κ γ)) : Pc σ κ → Prop
  | enter k | test k | waiting k | body k _ => a = some (.call k)
  | _                                       => True

-- Makes the equations before the proofs below, many of which need them at the same time.
attribute [local grind =] HasLock Committed rest Fits

@[simp] theorem wake_hasLock {q : Pc σ κ} : q.wake.HasLock ↔ q.HasLock := by
  cases q <;> rfl

@[simp] theorem wake_committed {q : Pc σ κ} : q.wake.Committed = q.Committed := by
  cases q <;> rfl

@[simp] theorem wake_rest {q : Pc σ κ} : q.wake.rest = q.rest := by
  cases q <;> rfl

@[simp] theorem wake_fits {q : Pc σ κ} {a : Option (Act κ γ)} : q.wake.Fits a ↔ q.Fits a := by
  cases q <;> rfl

end Pc

-- One constructor for each way through a statement, with the thread whose call takes effect.
inductive Step (p : Program σ ι κ γ π) (s : State σ ι κ γ π) : Option ι → State σ ι κ γ π → Prop
  | call : (s.pc i = .outside) → (p.fetch i (s.point i) = some (.call k)) →
    Step p s none (s.goto i (.enter k))
  | access : (s.pc i = .outside) → (p.fetch i (s.point i) = some (.access g)) →
    Step p s (some i) { s with vars := g s.vars, point := update s.point i (p.next (s.point i)) }
  | enter : (s.pc i = .enter k) → (s.lock = false) →
    Step p s none ({ s with lock := true }.goto i (.test k))
  | ready : (s.pc i = .test k) → (p.ready k s.fields = true) →
    Step p s (some i) (s.goto i (.body k (p.body i k)))
  | wait : (s.pc i = .test k) → (p.ready k s.fields = false) →
    Step p s none ({ s with lock := false }.goto i (.waiting k))
  | assign : (s.pc i = .body k (f :: fs)) →
    Step p s none ({ s with fields := f s.fields }.goto i (.body k fs))
  | notifyAll : (s.pc i = .body k []) → (p.notifies k s.fields = true) →
    Step p s none ({ s with pc := fun j => (s.pc j).wake }.goto i .exit)
  | notifyNobody : (s.pc i = .body k []) → (p.notifies k s.fields = false) →
    Step p s none (s.goto i .exit)
  | exit : (s.pc i = .exit) →
    Step p s none
      ({ s with lock := false, point := update s.point i (p.next (s.point i)) }.goto i .outside)
  | wake : (s.pc i = .waiting k) → Step p s none (s.goto i (.enter k))

theorem Pc.wake_ne_waiting {q : Pc σ κ} {k : κ} : q.wake ≠ .waiting k := by
  cases q <;> simp [wake]

variable {p : Program σ ι κ γ π} {s s' : State σ ι κ γ π} {t t' : Atomic σ ι γ π} {i j : ι}
variable {k : κ} {q : Pc σ κ} {l : Label ι}

namespace Step

theorem of_thread (h : p.threadStep s i = some s') : Step p s (p.commit s (.thread i)) s' := by
  cases hp : s.pc i <;> simp only [Program.threadStep, Program.commit, hp] at h ⊢
  case outside =>
    cases hf : p.fetch i (s.point i) <;> simp only [hf] at h ⊢
    case none   => cases h
    case some a =>
      cases a <;> cases h
      case call   => exact .call hp hf
      case access => exact .access hp hf
  case enter =>
    cases hl : s.lock <;> simp only [hl] at h <;> cases h
    exact .enter hp hl
  case test k =>
    cases hr : p.ready k s.fields <;> simp only [hr] at h ⊢ <;> cases h
    case true  => exact .ready hp hr
    case false => exact .wait hp hr
  case waiting => cases h
  case body k fs =>
    cases fs
    case cons => cases h; exact .assign hp
    case nil  =>
      cases hn : p.notifies k s.fields <;> simp only [hn] at h <;> cases h
      case true  => exact .notifyAll hp hn
      case false => exact .notifyNobody hp hn
  case exit =>
    cases h
    exact .exit hp

theorem of_step (h : p.machine.step s l = some s') : Step p s (p.commit s l) s' := by
  cases l
  case thread i => exact .of_thread h
  case wake i =>
    cases hp : s.pc i <;> simp only [Program.machine, Program.step, hp] at h <;> cases h
    exact .wake hp

end Step

theorem atomic_cases (h : p.atomic.step t i = some t') :
    (∃ k, p.fetch i (t.point i) = some (.call k) ∧ p.ready k t.fields = true ∧
      t' = ⟨update t.point i (p.next (t.point i)), p.effect i k t.fields, t.vars⟩) ∨
    ∃ g, p.fetch i (t.point i) = some (.access g) ∧
      t' = ⟨update t.point i (p.next (t.point i)), t.fields, g t.vars⟩ := by
  cases hf : p.fetch i (t.point i)
  case none => simp [Program.atomic, Program.atomicStep, hf] at h
  case some a =>
    cases a <;> simp only [Program.atomic, Program.atomicStep, hf] at h
    case call k =>
      obtain ⟨hr, rfl⟩ : p.ready k t.fields = true ∧ _ = t' := by simpa using h
      exact .inl ⟨k, rfl, hr, rfl⟩
    case access g =>
      cases h
      exact .inr ⟨g, rfl, rfl⟩

-- A call which makes the condition of another one true also notifies.
def Program.Covers (p : Program σ ι κ γ π) : Prop :=
  ∀ {i k k' d}, p.ready k d = true → p.ready k' d = false → p.ready k' (p.effect i k d) = true →
    p.notifies k (p.effect i k d) = true

-- Where a thread waits though its condition holds, there is one which is about to notify.
def Woken (p : Program σ ι κ γ π) (pc : ι → Pc σ κ) (d : σ) : Prop :=
  ∀ j k, pc j = .waiting k → p.ready k d = true →
    ∃ i k' fs, pc i = .body k' fs ∧ p.notifies k' d = true

theorem Woken.update (h : Woken p s.pc t.fields)
    (hw : ∀ k, q = .waiting k → p.ready k t.fields = false)
    (hb : ∀ k fs, s.pc i = .body k fs → p.notifies k t.fields = true → ∃ fs, q = .body k fs) :
    Woken p (update s.pc i q) t.fields := by
  intro j k hj hr
  by_cases hji : j = i
  case pos =>
    subst hji
    rw [update_self] at hj
    exact absurd hr (by simp [hw k hj])
  case neg =>
    rw [update_of_ne hji] at hj
    have ⟨i', k', fs, hi', hn⟩ := h j k hj hr
    by_cases hi : i' = i
    case pos =>
      subst hi
      have ⟨fs, hq⟩ := hb k' fs hi' hn
      exact ⟨i', k', fs, by rwa [update_self], hn⟩
    case neg => exact ⟨i', k', fs, by rwa [update_of_ne hi], hn⟩

-- The fields of the atomic program are those which the thread in the monitor will leave behind.
structure Refines (p : Program σ ι κ γ π) (s : State σ ι κ γ π) (t : Atomic σ ι γ π) : Prop where
  owned : Owned s.pc Pc.HasLock (s.lock = true)
  fits  : ∀ i, (s.pc i).Fits (p.fetch i (s.point i))
  point : ∀ i, t.point i = if (s.pc i).Committed then p.next (s.point i) else s.point i
  held  : ∀ i, (s.pc i).HasLock → t.fields = run (s.pc i).rest s.fields
  free  : s.lock = false → t.fields = s.fields
  vars  : t.vars = s.vars
  woken : p.Covers → Woken p s.pc t.fields

namespace Refines

omit [DecidableEq ι] in
theorem init : Refines p p.init ⟨fun _ => p.start, p.fields, p.vars⟩ where
  owned   := ⟨⟨False.elim, False.elim⟩, by simp [Program.init]⟩
  fits _  := trivial
  point _ := rfl
  held _  := False.elim
  free _  := rfl
  vars    := rfl
  woken   := by simp [Woken, Program.init]

variable (ref : Refines p s t)
include ref

theorem goto (hl : q.HasLock ↔ (s.pc i).HasLock) (hc : q.Committed = (s.pc i).Committed)
    (hr : q.rest = (s.pc i).rest) (hf : q.Fits (p.fetch i (s.point i)))
    (hw : p.Covers → Woken p (update s.pc i q) t.fields) : Refines p (s.goto i q) t where
  owned := ref.owned.keep hl
  free  := ref.free
  vars  := ref.vars
  woken := hw
  fits j := by
    by_cases hj : j = i
    case pos => simpa [State.goto, hj] using hf
    case neg => simpa [State.goto, hj] using ref.fits j
  point j := by
    rw [ref.point j, State.goto, update_congr (g := Pc.Committed) hc]
  held j hj := by
    rw [State.goto, update_congr (g := Pc.rest) hr]
    exact ref.held j ((update_iff hl j).mp hj)

-- A thread takes the monitor, or releases it.
theorem lock (hi : s.pc i = .enter k) (hl : s.lock = false) :
    Refines p ({ s with lock := true }.goto i (.test k)) t where
  owned := ref.owned.take (by simp [hl]) trivial rfl
  free  := by simp [State.goto]
  vars  := ref.vars
  woken hc := (ref.woken hc).update nofun fun _ _ hb => by simp [hi] at hb
  fits j := by
    by_cases hj : j = i
    case pos => simpa [State.goto, hj, hi, Pc.Fits] using ref.fits i
    case neg => simpa [State.goto, hj] using ref.fits j
  point j := by
    rw [ref.point j, State.goto, update_congr (g := Pc.Committed) (by rw [hi]; rfl)]
  held j hj := by
    by_cases hji : j = i
    case pos => simpa [State.goto, hji, Pc.rest, run] using ref.free hl
    case neg =>
      have hj : (s.pc j).HasLock := by simpa [State.goto, hji] using hj
      exact absurd hj (ref.owned.not_of_free (by simp [hl]) j)

theorem wait (hi : s.pc i = .test k) (hr : p.ready k s.fields = false) :
    Refines p ({ s with lock := false }.goto i (.waiting k)) t := by
  have hil : (s.pc i).HasLock := by rw [hi]; trivial
  have ht : t.fields = s.fields := by simpa [hi, Pc.rest, run] using ref.held i hil
  exact {
    owned  := ref.owned.free hil id (by simp [State.goto])
    free _ := ht
    vars   := ref.vars
    woken hc := by
      refine (ref.woken hc).update (fun k' hk => ?_) fun _ _ hb => by simp [hi] at hb
      cases hk
      rwa [ht]
    fits j := by
      by_cases hj : j = i
      case pos => simpa [State.goto, hj, hi, Pc.Fits] using ref.fits i
      case neg => simpa [State.goto, hj] using ref.fits j
    point j := by
      rw [ref.point j, State.goto, update_congr (g := Pc.Committed) (by rw [hi]; rfl)]
    held j hj := absurd hj (not_update id (fun j hj => ref.owned.not_of_ne hil hj) j)
  }

-- The thread which has the monitor does not change the fields any more, and releases it.
theorem exit (hi : s.pc i = .exit) :
    Refines p ({ s with
      lock := false, point := update s.point i (p.next (s.point i)) }.goto i .outside) t := by
  have hil : (s.pc i).HasLock := by rw [hi]; trivial
  exact {
    owned  := ref.owned.free hil id (by simp [State.goto])
    free _ := by simpa [hi, Pc.rest, run, State.goto] using ref.held i hil
    vars   := ref.vars
    woken hc := (ref.woken hc).update nofun fun _ _ hb => by simp [hi] at hb
    fits j := by
      by_cases hj : j = i
      case pos => simp [State.goto, hj, Pc.Fits]
      case neg => simpa [State.goto, hj] using ref.fits j
    point j := by
      by_cases hj : j = i
      case pos => simp [ref.point, State.goto, hj, hi, Pc.Committed]
      case neg => simp [ref.point, State.goto, hj]
    held j hj := absurd hj (not_update id (fun j hj => ref.owned.not_of_ne hil hj) j)
  }

-- The condition holds, and from now on the fields are seen as the method will leave them.
theorem commit (hi : s.pc i = .test k) (hr : p.ready k s.fields = true) :
    ∃ t', p.atomic.step t i = some t' ∧ Refines p (s.goto i (.body k (p.body i k))) t' := by
  have hil : (s.pc i).HasLock := by rw [hi]; trivial
  have ht : t.fields = s.fields := by simpa [hi, Pc.rest, run] using ref.held i hil
  have hf : p.fetch i (s.point i) = some (.call k) := by simpa [hi, Pc.Fits] using ref.fits i
  have hp : t.point i = s.point i := by simp [ref.point, hi, Pc.Committed]
  refine ⟨⟨update t.point i (p.next (t.point i)), p.effect i k t.fields, t.vars⟩, ?_, ?_⟩
  · simp [Program.atomic, Program.atomicStep, hp, hf, ht, hr]
  · exact {
      owned := ref.owned.keep (by simp [hi, Pc.HasLock])
      free hl := absurd hil (ref.owned.not_of_free (by simpa [State.goto] using hl) i)
      vars  := ref.vars
      woken hc := by
        intro j k' hj hr'
        have hji : j ≠ i := by
          rintro rfl
          simp [State.goto] at hj
        refine ⟨i, k, _, update_self .., hc (ht ▸ hr) ?_ hr'⟩
        have hj : s.pc j = .waiting k' := by simpa [State.goto, hji] using hj
        by_contra hr''
        have ⟨i', _, _, hi', _⟩ := ref.woken hc j k' hj (by simpa using hr'')
        obtain rfl := ref.owned.unique (i := i') (by rw [hi']; trivial) hil
        simp [hi] at hi'
      fits j := by
        by_cases hj : j = i
        case pos => simpa [State.goto, hj, Pc.Fits] using hf
        case neg => simpa [State.goto, hj] using ref.fits j
      point j := by
        by_cases hj : j = i
        case pos => simp [State.goto, hj, hp, Pc.Committed]
        case neg => simp [State.goto, hj, ref.point]
      held j hj := by
        by_cases hji : j = i
        case pos => simp [State.goto, hji, Pc.rest, Program.effect, ht]
        case neg =>
          have hj : (s.pc j).HasLock := by simpa [State.goto, hji] using hj
          exact absurd hj (ref.owned.not_of_ne hil hji)
    }

theorem assign (hi : s.pc i = .body k (f :: fs)) :
    Refines p ({ s with fields := f s.fields }.goto i (.body k fs)) t := by
  have hil : (s.pc i).HasLock := by rw [hi]; trivial
  exact {
    owned := ref.owned.keep (by simp [hi, Pc.HasLock])
    free hl := absurd hil (ref.owned.not_of_free (by simpa [State.goto] using hl) i)
    vars  := ref.vars
    woken hc := (ref.woken hc).update nofun fun k' _ hb _ => by
      rw [hi] at hb
      cases hb
      exact ⟨fs, rfl⟩
    fits j := by
      by_cases hj : j = i
      case pos => simpa [State.goto, hj, hi, Pc.Fits] using ref.fits i
      case neg => simpa [State.goto, hj] using ref.fits j
    point j := by
      rw [ref.point j, State.goto, update_congr (g := Pc.Committed) (by rw [hi]; rfl)]
    held j hj := by
      by_cases hji : j = i
      case pos => simpa [State.goto, hji, hi, Pc.rest, run] using ref.held i hil
      case neg =>
        have hj : (s.pc j).HasLock := by simpa [State.goto, hji] using hj
        exact absurd hj (ref.owned.not_of_ne hil hji)
  }

omit [DecidableEq ι] in
theorem notifyAll : Refines p { s with pc := fun j => (s.pc j).wake } t where
  owned   := ref.owned.congr fun _ => Pc.wake_hasLock
  fits i  := Pc.wake_fits.mpr (ref.fits i)
  point i := by simp [ref.point i]
  held i hi := by
    rw [Pc.wake_rest]
    exact ref.held i (Pc.wake_hasLock.mp hi)
  free    := ref.free
  vars    := ref.vars
  woken _ _ _ hj := absurd hj Pc.wake_ne_waiting

theorem access (hi : s.pc i = .outside) (hf : p.fetch i (s.point i) = some (.access g)) :
    ∃ t', p.atomic.step t i = some t' ∧ Refines p
      { s with vars := g s.vars, point := update s.point i (p.next (s.point i)) } t' := by
  have hp : t.point i = s.point i := by simp [ref.point, hi, Pc.Committed]
  refine ⟨⟨update t.point i (p.next (t.point i)), t.fields, g t.vars⟩, ?_, ?_⟩
  · simp [Program.atomic, Program.atomicStep, hp, hf]
  · exact {
      owned := ref.owned
      held  := ref.held
      free  := ref.free
      vars  := congrArg g ref.vars
      woken := ref.woken
      fits j := by
        by_cases hj : j = i
        case pos => simp [hj, hi, Pc.Fits]
        case neg => simpa [hj] using ref.fits j
      point j := by
        by_cases hj : j = i
        case pos => simp [hj, hp, hi, Pc.Committed]
        case neg => simp [hj, ref.point]
    }

-- Each step of the program is one of the atomic program, or none.
theorem step {e : Option ι} (h : Step p s e s') :
    ∃ t', p.atomic.Trace Machine.label t e.toList t' ∧ Refines p s' t' := by
  have single {i : ι} {s' : State σ ι κ γ π}
      (h : ∃ t', p.atomic.step t i = some t' ∧ Refines p s' t') :
      ∃ t', p.atomic.Trace Machine.label t [i] t' ∧ Refines p s' t' :=
    have ⟨t', ht, hr⟩ := h
    ⟨t', .of_step ht, hr⟩
  cases h <;> simp only [Option.toList]
  case access hi hf => exact single (ref.access hi hf)
  case ready hi hr  => exact single (ref.commit hi hr)
  case enter hi hl  => exact ⟨t, .refl, ref.lock hi hl⟩
  case wait hi hr   => exact ⟨t, .refl, ref.wait hi hr⟩
  case assign hi    => exact ⟨t, .refl, ref.assign hi⟩
  case exit hi      => exact ⟨t, .refl, ref.exit hi⟩
  case call i k hi hf =>
    refine ⟨t, .refl, ref.goto (by simp [hi, Pc.HasLock]) (by rw [hi]; rfl) (by rw [hi]; rfl) hf ?_⟩
    exact fun hc => (ref.woken hc).update nofun fun _ _ hb => by simp [hi] at hb
  case wake i k hi =>
    have hf : p.fetch i (s.point i) = some (.call k) := by simpa [hi, Pc.Fits] using ref.fits i
    refine ⟨t, .refl, ref.goto (by simp [hi, Pc.HasLock]) (by rw [hi]; rfl) (by rw [hi]; rfl) hf ?_⟩
    exact fun hc => (ref.woken hc).update nofun fun _ _ hb => by simp [hi] at hb
  case notifyAll i k hi _ =>
    have ref := ref.notifyAll
    have hi : (s.pc i).wake = .body k [] := by rw [hi]; rfl
    refine ⟨t, .refl, ref.goto ?_ (by simp [hi, Pc.Committed]) (by simp [hi, Pc.rest]) trivial ?_⟩
    · simp [hi, Pc.HasLock]
    · intro _ j k' hj
      by_cases hji : j = i
      case pos => simp [hji] at hj
      case neg =>
        rw [update_of_ne hji] at hj
        exact absurd hj Pc.wake_ne_waiting
  case notifyNobody i k hi hn =>
    have hil : (s.pc i).HasLock := by rw [hi]; trivial
    have ht : t.fields = s.fields := by simpa [hi, Pc.rest, run] using ref.held i hil
    refine ⟨t, .refl, ref.goto ?_ (by rw [hi]; rfl) (by rw [hi]; rfl) trivial ?_⟩
    · simp [hi, Pc.HasLock]
    · refine fun hc => (ref.woken hc).update nofun fun k' fs hb hn' => ?_
      rw [hi] at hb
      cases hb
      simp [ht, hn] at hn'

end Refines

theorem refines :
    p.machine.Simulation p.commit p.atomic Machine.label (Refines p) where
  init h := ⟨_, rfl, h ▸ .init⟩
  step ref h := ref.step (.of_step h)

theorem exists_refines (r : p.machine.Reachable s) :
    ∃ t, p.atomic.Reachable t ∧ Refines p s t :=
  have ⟨_, r⟩ := r.exists_logging
  have ⟨t, rt, ref⟩ := refines.reachable r
  ⟨t, rt.of_logging, ref⟩

section Progress

variable [Fintype ι]

-- The statements which a thread has before it in its call, and at most so many calls which it wakes.
def Pc.rank (n : ℕ) : Pc σ κ → ℕ
  | waiting _ => 0
  | test _    => 1
  | enter _   => 2
  | outside   => 3
  | exit      => 4
  | body _ fs => 5 + 2 * n + fs.length

theorem Pc.rank_wake_le {q : Pc σ κ} {n : ℕ} : q.wake.rank n ≤ q.rank n + 2 := by
  cases q <;> simp [wake, rank]

-- First come the calls and accesses which the threads have before them.
def measure (remaining : π → ℕ) (p : Program σ ι κ γ π) (pc : ι → Pc σ κ) (point : ι → π) :
    ℕ ×ₗ ℕ :=
  toLex (∑ i, remaining (if (pc i).Committed then p.next (point i) else point i),
    ∑ i, (pc i).rank (Fintype.card ι))

variable {remaining : π → ℕ} {pc : ι → Pc σ κ} {point : ι → π}

theorem measure_update (hc : q.Committed = (pc i).Committed)
    (hr : q.rank (Fintype.card ι) < (pc i).rank (Fintype.card ι)) :
    measure remaining p (update pc i q) point < measure remaining p pc point := by
  refine Prod.Lex.toLex_lt_toLex.mpr (.inr ⟨?_, ?_⟩)
  · exact Finset.sum_congr rfl fun j _ => by rw [update_congr (g := Pc.Committed) hc]
  · have := sum_update (f := pc) (i := i) (p := q) (g := Pc.rank (Fintype.card ι))
    dsimp only
    omega

theorem measure_exit (hi : pc i = .exit) :
    measure remaining p (update pc i .outside) (update point i (p.next (point i))) <
    measure remaining p pc point := by
  refine Prod.Lex.toLex_lt_toLex.mpr (.inr ⟨?_, ?_⟩)
  · refine Finset.sum_congr rfl fun j _ => ?_
    by_cases hj : j = i
    case pos => simp [hj, hi, Pc.Committed]
    case neg => simp [hj]
  · have := sum_update (f := pc) (i := i) (p := .outside) (g := Pc.rank (Fintype.card ι))
    rw [show (pc i).rank _ = 4 by rw [hi]; rfl, show Pc.outside.rank _ = 3 from rfl] at this
    dsimp only
    omega

theorem measure_notifyAll (hi : pc i = .body k []) :
    measure remaining p (update (fun j => (pc j).wake) i .exit) point <
    measure remaining p pc point := by
  refine Prod.Lex.toLex_lt_toLex.mpr (.inr ⟨?_, ?_⟩)
  · refine Finset.sum_congr rfl fun j _ => ?_
    by_cases hj : j = i
    case pos => simp [hj, hi, Pc.Committed]
    case neg => simp [hj]
  · have h := sum_update (f := fun j => (pc j).wake) (i := i) (p := .exit)
      (g := Pc.rank (Fintype.card ι))
    have hw : ∑ j, (pc j).wake.rank (Fintype.card ι) ≤
        ∑ j, (pc j).rank (Fintype.card ι) + Fintype.card ι * 2 := by
      refine (Finset.sum_le_sum fun j _ => Pc.rank_wake_le).trans_eq ?_
      simp [Finset.sum_add_distrib]
    have hb : (pc i).wake.rank (Fintype.card ι) = 5 + 2 * Fintype.card ι := by
      rw [hi]
      rfl
    rw [hb, show Pc.exit.rank _ = 4 from rfl] at h
    dsimp only
    omega

-- An access, or the point from which the call is seen to be done.
theorem measure_next (hr : remaining (p.next (point i)) < remaining (point i))
    (hi : (pc i).Committed = false) {pc' : ι → Pc σ κ} {point' : ι → π}
    (h : ∀ j, (if (pc' j).Committed then p.next (point' j) else point' j) =
      if j = i then p.next (point i) else if (pc j).Committed then p.next (point j) else point j) :
    measure remaining p pc' point' < measure remaining p pc point := by
  refine Prod.Lex.toLex_lt_toLex.mpr (.inl ?_)
  refine Finset.sum_lt_sum (fun j _ => ?_) ⟨i, Finset.mem_univ i, ?_⟩
  · rw [h]
    by_cases hj : j = i
    case pos => simpa [hj, hi] using hr.le
    case neg => rw [if_neg hj]
  · simpa [h, hi] using hr

-- What brings the program to its end: each call which has to be made can be made sooner or later.
structure Proceeds (p : Program σ ι κ γ π) (remaining : π → ℕ) : Prop where
  covers : p.Covers
  next   : ∀ {i x}, p.fetch i x ≠ none → remaining (p.next x) < remaining x
  live   : ∀ {t}, p.atomic.Reachable t → (∃ i, p.fetch i (t.point i) ≠ none) → p.atomic.Live t

-- The thread which has the monitor goes on.
theorem exists_step_of_lock (h : Proceeds p remaining) (ref : Refines p s t)
    (hi : (s.pc i).HasLock) :
    ∃ l s', p.machine.step s l = some s' ∧
      measure remaining p s'.pc s'.point < measure remaining p s.pc s.point := by
  refine ⟨.thread i, ?_⟩
  cases hp : s.pc i <;> simp only [hp, Pc.HasLock] at hi <;>
    simp only [Program.machine, Program.step, Program.threadStep, hp]
  case exit => exact ⟨_, rfl, measure_exit hp⟩
  case test k =>
    cases hr : p.ready k s.fields
    case false => exact ⟨_, rfl, measure_update (by rw [hp]; rfl) (by simp [hp, Pc.rank])⟩
    case true =>
      have hf : p.fetch i (s.point i) = some (.call k) := by simpa [hp, Pc.Fits] using ref.fits i
      have hr : remaining (p.next (s.point i)) < remaining (s.point i) := h.next (by rw [hf]; simp)
      refine ⟨_, rfl, measure_next hr (by rw [hp]; rfl) fun j => ?_⟩
      by_cases hj : j = i
      case pos => simp [State.goto, hj, Pc.Committed]
      case neg => simp [State.goto, hj]
  case body k fs =>
    cases fs
    case cons => exact ⟨_, rfl, measure_update (by rw [hp]; rfl) (by simp [hp, Pc.rank])⟩
    case nil =>
      dsimp only
      cases p.notifies k s.fields <;> simp only [Bool.false_eq_true, if_true, if_false]
      case true  => exact ⟨_, rfl, measure_notifyAll hp⟩
      case false =>
        refine ⟨_, rfl, measure_update (by rw [hp]; rfl) ?_⟩
        simp only [hp, Pc.rank]
        omega

-- If nobody has the monitor then some thread enters it, or calls a method, or makes an access.
theorem exists_step_of_free (h : Proceeds p remaining) (rt : p.atomic.Reachable t)
    (ref : Refines p s t) (hi : ∀ i, ¬(s.pc i).HasLock) (hn : ¬p.Finished s) :
    ∃ l s', p.machine.step s l = some s' ∧
      measure remaining p s'.pc s'.point < measure remaining p s.pc s.point := by
  have hl : s.lock = false := by
    by_contra hl
    have ⟨i, hl⟩ := ref.owned.owner (by simpa using hl)
    exact hi i hl
  by_cases he : ∃ i k, s.pc i = .enter k
  case pos =>
    obtain ⟨i, k, hp⟩ := he
    refine ⟨.thread i, { s with lock := true }.goto i (.test k), ?_, ?_⟩
    · simp [Program.machine, Program.step, Program.threadStep, hp, hl]
    · exact measure_update (by rw [hp]; rfl) (by simp [hp, Pc.rank])
  case neg =>
    by_cases ho : ∃ i a, s.pc i = .outside ∧ p.fetch i (s.point i) = some a
    case pos =>
      obtain ⟨i, a, hp, hf⟩ := ho
      refine ⟨.thread i, ?_⟩
      cases a <;> simp only [Program.machine, Program.step, Program.threadStep, hp, hf]
      case call k => exact ⟨_, rfl, measure_update (by rw [hp]; rfl) (by simp [hp, Pc.rank])⟩
      case access g =>
        have hr : remaining (p.next (s.point i)) < remaining (s.point i) := h.next (by rw [hf]; simp)
        refine ⟨_, rfl, measure_next hr (by rw [hp]; rfl) fun j => ?_⟩
        by_cases hj : j = i
        case pos => simp [hj, hp, Pc.Committed]
        case neg => simp [hj]
    case neg =>
      -- The others wait in the object, and one of them need not.
      have hw (i : ι) : (∃ k, s.pc i = .waiting k) ∨
          s.pc i = .outside ∧ p.fetch i (s.point i) = none := by
        have hi := hi i
        have he := fun k hk => he ⟨i, k, hk⟩
        have ho := fun a ha => ho ⟨i, a, ha⟩
        cases hp : s.pc i <;> simp_all [Pc.HasLock, Option.eq_none_iff_forall_ne_some]
      have hx (i : ι) : t.point i = s.point i := by
        rw [ref.point i]
        obtain ⟨k, hk⟩ | ⟨ho, _⟩ := hw i
        · simp [hk, Pc.Committed]
        · simp [ho, Pc.Committed]
      obtain ⟨j, hj⟩ := not_forall.mp hn
      obtain ⟨k, hk⟩ := (hw j).resolve_right hj
      have hf : p.fetch j (s.point j) = some (.call k) := by simpa [hk, Pc.Fits] using ref.fits j
      have ⟨i, hs⟩ := h.live rt ⟨j, by simp [hx, hf]⟩
      obtain ⟨k, hk⟩ | ⟨_, hf⟩ := hw i
      · have hf : p.fetch i (s.point i) = some (.call k) := by simpa [hk, Pc.Fits] using ref.fits i
        have hr : p.ready k t.fields = true := by
          simpa [Program.atomic, Program.atomicStep, hx, hf] using hs
        have ⟨j, _, _, hb, _⟩ := ref.woken h.covers i k hk hr
        exact absurd (show (s.pc j).HasLock by rw [hb]; trivial) (hi j)
      · simp [Program.atomic, Program.atomicStep, hx, hf] at hs

theorem exists_finished (h : Proceeds p remaining) (r : p.machine.Reachable s) :
    ∃ as s', p.machine.Run s as s' ∧ p.Finished s' := by
  refine Machine.Run.of_decreasing (I := p.machine.Reachable)
    (fun s => measure remaining p s.pc s.point) (fun s r hn => ?_) r
  have ⟨t, rt, ref⟩ := exists_refines r
  have ⟨l, s', hs, hm⟩ : ∃ l s', p.machine.step s l = some s' ∧
      measure remaining p s'.pc s'.point < measure remaining p s.pc s.point := by
    by_cases hi : ∃ i, (s.pc i).HasLock
    case pos => exact have ⟨i, hi⟩ := hi; exists_step_of_lock h ref hi
    case neg => exact exists_step_of_free h rt ref (not_exists.mp hi) hn
  exact ⟨l, s', hs, .inr ⟨r.step hs, hm⟩⟩

end Progress

omit [DecidableEq ι] in
theorem Refines.point_of_outside (ref : Refines p s t) (hi : s.pc i = .outside) :
    t.point i = s.point i := by
  simp [ref.point, hi, Pc.Committed]

omit [DecidableEq ι] in
-- What holds at the end of the atomic program holds at the end of the program.
theorem Refines.eq_of_finished (ref : Refines p s t) (hf : p.Finished s) :
    t = ⟨s.point, s.fields, s.vars⟩ ∧ ∀ i, p.fetch i (t.point i) = none := by
  have hl : s.lock = false := by
    by_contra hl
    have ⟨i, hl⟩ := ref.owned.owner (by simpa using hl)
    simp [(hf i).left, Pc.HasLock] at hl
  have hx : t.point = s.point := funext fun i => ref.point_of_outside (hf i).left
  obtain ⟨x, d, g⟩ := t
  obtain rfl := hx
  obtain rfl := ref.free hl
  obtain rfl := ref.vars
  exact ⟨rfl, fun i => (hf i).right⟩

omit [DecidableEq ι] in
-- While no method runs, no call has taken effect which has not returned.
theorem Refines.point_of_free (ref : Refines p s t) (hl : s.lock = false) : t.point = s.point := by
  funext i
  have hi := ref.owned.not_of_free (by simp [hl]) i
  rw [ref.point]
  cases hp : s.pc i <;> simp_all [Pc.Committed, Pc.HasLock]

end ObjectMonitor
