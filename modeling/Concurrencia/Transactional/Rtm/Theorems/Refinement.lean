import Concurrencia.Machine.Basic
import Concurrencia.Transactional.Rtm.Theorems.Elision
import Mathlib.Data.Fintype.Basic

open Function Threads Finset

namespace Rtm

open TransactionalMemory

variable {n m max : ℕ}

-- The thread holds `mutex` and has stored its element of the array.
def Past (x : Mode (Cell m) ℤ × Pc) : Prop :=
  x.fst = .outside ∧ (x.snd = .test ∨ x.snd = .unlock)

instance {x : Mode (Cell m) ℤ × Pc} : Decidable (Past x) :=
  match x with
  | (.outside, p)              => decidable_of_iff (p = .test ∨ p = .unlock) (by simp [Past])
  | (.inside _, _) | (.aborted, _) => .isFalse nofun

def State.done (s : State n m) (i : Fin n) : ℕ :=
  s.index i + if Past (s.thread i) then 1 else 0

variable {s s' : State n m} {i j : Fin n} {p : Pc} {v : ℤ} {l : List (SerialSections.Label (Fin n))}
variable {t : SerialSections.State (Fin n) (Fin m → ℤ)}

structure Serial (s : State n m) (t : SerialSections.State (Fin n) (Fin m → ℤ)) : Prop where
  data   : ∀ p, t.data p = s.memory.cells (.counter p)
  holder : ∀ i, t.holder = some i ↔ Owns (s.thread i)
  done   : ∀ i, t.done i = s.done i

-- What a step of thread `i` leaves as it is for the other threads.
structure Others (s s' : State n m) (i : Fin n) : Prop where
  index : ∀ j ≠ i, s'.index j = s.index j
  pc    : ∀ j ≠ i, s'.pc j = s.pc j
  mode  : ∀ j ≠ i, s'.memory.mode j = .outside ↔ s.memory.mode j = .outside

namespace Others

theorem of_update (hp : s'.pc = update s.pc i p) (hi : ∀ j ≠ i, s'.index j = s.index j)
    (hm : ∀ j ≠ i, s'.memory.mode j = .outside ↔ s.memory.mode j = .outside) : Others s s' i where
  index    := hi
  pc j hj  := by rw [hp, update_of_ne hj]
  mode     := hm

variable (o : Others s s' i)
include o

theorem owns (hj : j ≠ i) : Owns (s'.thread j) ↔ Owns (s.thread j) := by
  simp [Owns, State.thread, o.pc j hj, o.mode j hj]

theorem keep_owns (h : Owns (s'.thread i) ↔ Owns (s.thread i)) (j : Fin n) :
    Owns (s'.thread j) ↔ Owns (s.thread j) := by
  by_cases hj : j = i
  case pos => rwa [hj]
  case neg => exact o.owns hj

theorem past (hj : j ≠ i) : Past (s'.thread j) ↔ Past (s.thread j) := by
  simp [Past, State.thread, o.pc j hj, o.mode j hj]

theorem done (hj : j ≠ i) : s'.done j = s.done j := by
  rw [State.done, State.done, o.index j hj]
  exact congrArg _ <| if_congr (o.past hj) rfl rfl

end Others

namespace Serial

theorem init : Serial (Rtm.init n m) (SerialSections.init fun _ => 0) where
  data _   := rfl
  holder i := by simp [SerialSections.init, Owns, State.thread, Rtm.init]
  done i   := by simp [SerialSections.init, State.done, Past, State.thread, Rtm.init]

variable (h : Serial s t) (o : Others s s' i)
include h o

theorem keep (hc : ∀ p, s'.memory.cells (.counter p) = s.memory.cells (.counter p))
    (ho : Owns (s'.thread i) ↔ Owns (s.thread i)) (hd : s'.done i = s.done i) : Serial s' t where
  data p   := (h.data p).trans (hc p).symm
  holder j := (h.holder j).trans (o.keep_owns ho j).symm
  done j   := by
    rw [h.done j]
    by_cases hj : j = i
    case pos => rw [hj, hd]
    case neg => rw [o.done hj]

end Serial

variable [NeZero m]

theorem Statement.others (h : Statement max s i s') : Others s s' i := by
  have same (j : Fin n) (_ : j ≠ i) : s.index j = s.index j := rfl
  have next (j : Fin n) (hj : j ≠ i) : update s.index i (s.index i + 1) j = s.index j :=
    update_of_ne hj ..
  cases h
  case start     => exact .of_update rfl same fun _ => Memory.Elsewhere.start.outside_iff
  case xabort hy => exact ⟨same, fun _ _ => rfl, fun _ => (Memory.Elsewhere.abort hy).outside_iff⟩
  case xend hy   => exact .of_update rfl next fun _ => (Memory.Elsewhere.commit hy).outside_iff
  case unlock    => exact .of_update rfl next fun _ => Memory.Elsewhere.store.outside_iff
  case available => exact .of_update rfl same fun _ => Memory.Elsewhere.load.outside_iff
  case taken     => exact .of_update rfl same fun _ => Memory.Elsewhere.load.outside_iff
  case load      => exact .of_update rfl same fun _ => Memory.Elsewhere.load.outside_iff
  case testFree  => exact .of_update rfl same fun _ => Memory.Elsewhere.load.outside_iff
  case testTaken => exact .of_update rfl same fun _ => Memory.Elsewhere.load.outside_iff
  case acquire   => exact .of_update rfl same fun _ => Memory.Elsewhere.store.outside_iff
  case spin      => exact .of_update rfl same fun _ => Memory.Elsewhere.store.outside_iff
  case store     => exact .of_update rfl same fun _ => Memory.Elsewhere.store.outside_iff
  all_goals exact .of_update rfl same fun _ _ => Iff.rfl

-- The step of the program is the step of `t` which its event names.
def Matches (max : ℕ) (s : State n m) (l : Label n) (s' : State n m)
    (t : SerialSections.State (Fin n) (Fin m → ℤ)) : Prop :=
  ∃ t', (sections n m max).Run t (event s l).toList t' ∧ Serial s' t'

theorem Matches.of_event {t' : SerialSections.State (Fin n) (Fin m → ℤ)} {l : Label n}
    {e : SerialSections.Label (Fin n)} (he : event s l = some e)
    (r : (sections n m max).Run t [e] t') (h : Serial s' t') : Matches max s l s' t :=
  ⟨t', by rwa [he], h⟩

theorem increment_data {cells : Cell m → ℤ} {c : Fin m → ℤ} (h : ∀ p, c p = cells (.counter p))
    (p : Fin m) : increment i (s.index i) c p =
      update cells (cell s i) (cells (cell s i) + 1) (.counter p) := by
  by_cases hp : p = .ofNat m (s.index i)
  case pos =>
    subst hp
    rw [increment, update_self, h, cell, update_self]
  case neg =>
    have hk : .counter p ≠ cell s i := fun hk => hp (Cell.counter.inj hk)
    rw [increment, update_of_ne hp, update_of_ne hk, h]

namespace Serial

variable (h : Serial s t)
include h

-- The steps without an event, which do not touch the counters.
theorem silent {l : Label n} (o : Others s s' i) (he : event s l = none)
    (hc : ∀ p, s'.memory.cells (.counter p) = s.memory.cells (.counter p))
    (hi : s'.index i = s.index i)
    (hk : (Owns (s'.thread i) ↔ Owns (s.thread i)) ∧ (Past (s'.thread i) ↔ Past (s.thread i))) :
    Matches max s l s' t := by
  refine ⟨t, he ▸ .refl, h.keep o hc hk.left ?_⟩
  rw [State.done, State.done, hi]
  exact congrArg _ <| if_congr hk.right rfl rfl

variable {x : Memory (Fin n) (Cell m) ℤ} {status : BitVec 32} {l : Label n}

theorem resume {c : Fin n → ℕ} {statuses : Fin n → BitVec 32} (hx : s.memory.resume i = some x) :
    Matches max s (.resume i status)
      ({ s with memory := x, c, status := statuses }.goto i .retry) t := by
  have o : Others s ({ s with memory := x, c, status := statuses }.goto i .retry) i :=
    .of_update rfl (fun _ _ => rfl) fun _ => (Memory.Elsewhere.resume hx).outside_iff
  cases hm : s.memory.mode i
  case aborted =>
    apply h.silent o rfl (fun p => congrFun (Memory.resume_cells hx) _) rfl
    simp [Owns, Past, State.thread, hm]
  all_goals simp [Memory.resume, hm] at hx

theorem abort (hx : s.memory.abort i = some x) (he : event s l = none) :
    Matches max s l (setMemory s x) t := by
  have hm (j : Fin n) : x.mode j = .outside ↔ s.memory.mode j = .outside :=
    Memory.abort_outside_iff hx
  have o : Others s (setMemory s x) i := ⟨fun _ _ => rfl, fun _ _ => rfl, fun j _ => hm j⟩
  apply h.silent o he (fun p => congrFun (Memory.abort_cells hx) _) rfl
  simp [Owns, Past, State.thread, setMemory, hm]

variable (inv : Inv max s)
include inv

theorem holder_none (hz : s.memory.cells .mutex = 0) : t.holder = none := by
  cases ht : t.holder
  case none   => rfl
  case some j => exact absurd ((h.holder j).mp ht) (inv.not_owns hz j)

omit inv in
-- The section as a whole takes effect.
theorem act (o : Others s s' i) (he : event s (.thread i) = some (.act i))
    (hd : s.done i = s.index i) (hi : s.index i < max) (ht : t.holder = none ∨ Owns (s.thread i))
    (hc : s'.memory.cells = update s.memory.cells (cell s i) (s.memory.cells (cell s i) + 1))
    (ho : Owns (s'.thread i) ↔ Owns (s.thread i)) (hs : s'.done i = s.done i + 1) :
    Matches max s (.thread i) s' t := by
  have hl : t.done i < max := by rwa [h.done, hd]
  apply Matches.of_event he
  case r => exact SerialSections.run_act (ht.imp_right (h.holder i).mpr) hl
  case h =>
    constructor
    case data =>
      intro p
      rw [hc, h.done, hd]
      exact increment_data h.data p
    case holder => exact fun j => (h.holder j).trans (o.keep_owns ho j).symm
    case done =>
      intro j
      by_cases hj : j = i
      case pos => simp [hj, hs, h.done]
      case neg => simp [hj, o.done hj, h.done]

theorem acquire (hm : s.memory.mode i ≠ .aborted) (hp : s.pc i = .exchange)
    (hz : s.memory.read i .mutex = 0) :
    Matches max s (.thread i) ((Rtm.store s i .mutex 1).goto i .load) t := by
  have hs : Statement max s i _ := .acquire hp hz
  have o := hs.others
  have hx := inv.outside_of hm (by simp [hp, Fits])
  have hc : s.memory.cells .mutex = 0 := by rwa [Memory.read_outside hx] at hz
  have he : event s (.thread i) = some (.acquire i) := by simp [event, hp, hz]
  apply Matches.of_event he
  case r => exact SerialSections.run_acquire (h.holder_none inv hc)
  case h =>
    constructor
    case data =>
      intro p
      simp [h.data, Rtm.store, Memory.store_outside hx]
    case holder =>
      intro j
      by_cases hj : j = i
      case pos => simp [hj, Owns, State.thread, Rtm.store, Memory.store_outside_iff, hx]
      case neg =>
        rw [o.owns hj]
        simp [Ne.symm hj, inv.not_owns hc j]
    case done =>
      intro j
      by_cases hj : j = i
      case pos => simp [hj, h.done, State.done, Past, State.thread, Rtm.store, hp]
      case neg => simp [o.done hj, h.done]

theorem release (hm : s.memory.mode i ≠ .aborted) (hp : s.pc i = .unlock) :
    Matches max s (.thread i) (countSection (Rtm.store s i .mutex 0) i) t := by
  have hs : Statement max s i _ := .unlock hp
  have o := hs.others
  have hx := inv.outside_of hm (by simp [hp, Fits])
  have ho : Owns (s.thread i) := by simp [Owns, State.thread, hx, hp]
  have he : event s (.thread i) = some (.release i) := by simp [event, hp]
  apply Matches.of_event he
  case r => exact SerialSections.run_release ((h.holder i).mpr ho)
  case h =>
    constructor
    case data =>
      intro p
      simp [h.data, Rtm.store, countSection, Memory.store_outside hx]
    case holder =>
      intro j
      by_cases hj : j = i
      case pos => simp [hj, Owns, State.thread, countSection]
      case neg =>
        rw [o.owns hj]
        simpa using inv.own.not_of_ne ho hj
    case done =>
      intro j
      by_cases hj : j = i
      case pos => simp [hj, h.done, State.done, Past, State.thread, Rtm.store, countSection, hp, hx]
      case neg => simp [o.done hj, h.done]

theorem store (hm : s.memory.mode i ≠ .aborted) (hp : s.pc i = .store v) :
    Matches max s (.thread i) ((Rtm.store s i (cell s i) (v + 1)).goto i .test) t := by
  have hs : Statement max s i _ := .store hp
  have o := hs.others
  cases hx : s.memory.mode i
  case aborted => exact absurd hx hm
  case inside =>
    have he : event s (.thread i) = none := by simp [event, hp, hx]
    apply h.silent o he (fun p => by simp [Rtm.store, Memory.store_inside hx]) rfl
    simp [Owns, Past, State.thread, Rtm.store, Memory.store_outside_iff, hx]
  case outside =>
    have he : event s (.thread i) = some (.act i) := by simp [event, hp, hx]
    have hv : v = s.memory.cells (cell s i) := inv.fits_of hx hp
    have ho : Owns (s.thread i) := by simp [Owns, State.thread, hx, hp]
    apply h.act o he
    case hd => simp [State.done, Past, State.thread, hp]
    case hi => exact inv.busy_of hp (by simp) (by simp)
    case ht => exact .inr ho
    case hc => simp [Rtm.store, Memory.store_outside hx, hv]
    case ho => simp [Owns, State.thread, Rtm.store, Memory.store_outside_iff, hx, hp]
    case hs =>
      simp [State.done, Past, State.thread, Rtm.store, Memory.store_outside_iff, hx, hp]

theorem xend (hm : s.memory.mode i ≠ .aborted) (hp : s.pc i = .xend)
    (hx : s.memory.commit i = some x) :
    Matches max s (.thread i) (countSection (setMemory s x) i) t := by
  have hs : Statement max s i _ := .xend hp hx
  have o := hs.others
  have he : event s (.thread i) = some (.act i) := by simp [event, hp]
  obtain ⟨tx, v, ht, hr, hw, hv⟩ := inv.xend_inside hm hp
  have hv := inv.current i tx ht _ _ hv
  rw [Memory.commit_inside ht, Transaction.read_of_single hw] at hx
  cases hx
  apply h.act o he
  case hd => simp [State.done, Past, State.thread, hp]
  case hi => exact inv.busy_of hp (by simp) (by simp)
  case ht => exact .inl (h.holder_none inv (inv.free_of_read ht hr))
  case hc => simp [countSection, setMemory, hv]
  case ho => simp [Owns, State.thread, countSection, ht]
  case hs => simp [State.done, Past, State.thread, countSection, setMemory, hp]

theorem statement (hm : s.memory.mode i ≠ .aborted) (hs : Statement max s i s') :
    Matches max s (.thread i) s' t := by
  have o := hs.others
  cases hs
  case enter hp _ | elide hp _ | fallBack hp _ =>
    apply h.silent o (by simp [event, hp]) (fun _ => rfl) rfl
    simp [Owns, Past, State.thread, enter, hp]
  case finish hp | start hp =>
    apply h.silent o (by simp [event, hp]) (fun _ => rfl) rfl
    simp [Owns, Past, State.thread, start, hp]
  case available hp hz =>
    obtain ⟨t, ht⟩ := inv.inside_of hm (by simp [hp, Fits])
    apply h.silent o (by simp [event, hp]) (fun _ => by simp [load]) rfl
    simp [Owns, Past, State.thread, load, Memory.load_outside_iff, ht]
  case taken hp _      =>
    apply h.silent o (by simp [event, hp]) (fun _ => by simp [load]) rfl
    simp [Owns, Past, State.thread, hp]
  case xabort hp hx    => exact h.abort hx (by simp [event, hp])
  case acquire hp hz   => exact h.acquire inv hm hp hz
  case spin hp hz      =>
    have hx := inv.outside_of hm (by simp [hp, Fits])
    have hc (p : Fin m) : ((Rtm.store s i .mutex 1).goto i .exchange).memory.cells (.counter p) =
        s.memory.cells (.counter p) := by simp [Rtm.store, Memory.store_outside hx]
    apply h.silent o (by simp [event, hp, hz]) hc rfl
    simp [Owns, Past, State.thread, hp]
  case load hp | testTaken hp _ =>
    apply h.silent o (by simp [event, hp]) (fun _ => by simp [load]) rfl
    simp [Owns, Past, State.thread, load, Memory.load_outside_iff, hp]
  case store hp        => exact h.store inv hm hp
  case testFree hp hz  =>
    obtain ⟨t, ht⟩ := inv.inside_of_test hm hp hz
    apply h.silent o (by simp [event, hp]) (fun _ => by simp [load]) rfl
    simp [Owns, Past, State.thread, load, Memory.load_outside_iff, ht]
  case xend hp hy      => exact h.xend inv hm hp hy
  case unlock hp       => exact h.release inv hm hp

theorem step (hs : Step max s l s') : Matches max s l s' t := by
  cases hs
  case statement hm hs => exact h.statement inv hm hs
  case abort hx        => exact h.abort hx rfl
  case resume hx       => exact h.resume hx

end Serial

theorem serial_of_reachable (r : ((machine n m max).logging event).Reachable (s, l)) :
    ∃ t, (sections n m max).Run (SerialSections.init fun _ => 0) l t ∧ Serial s t := by
  apply r.simulation (R := fun s _ t => Serial s t)
  case init =>
    rintro _ rfl
    exact .init
  case step => exact fun _ _ _ _ _ r h hs => h.step (inv_of_reachable r) (.of_step hs)

theorem sum_increment (i : Fin n) (k : ℕ) (c : Fin m → ℤ) :
    ∑ p, increment i k c p = (∑ p, c p) + 1 :=
  SerialSections.sum_update c _ 1

theorem Serial.sum (h : Serial s t)
    (r : (sections n m max).Run (SerialSections.init fun _ => 0) l t) :
    ∑ p, s.memory.cells (.counter p) = ∑ i, s.index i + #{i | Past (s.thread i)} := by
  have hs := SerialSections.run_sum (f := fun c => ∑ p, c p) sum_increment r
  simp only [SerialSections.init, h.data, h.done, State.done] at hs
  rw [card_filter]
  simpa [sum_add_distrib] using hs

-- The run of `l` is one of threads which take `mutex`, run their sections and free it, and nobody
-- runs a section while another thread holds it.
theorem sections_elided (r : ((machine n m max).logging event).Reachable (s, l)) :
    (∃ t, (sections n m max).Run (SerialSections.init fun _ => 0) l t ∧
      (∀ p, s.memory.cells (.counter p) = t.data p) ∧
      (∀ i, t.holder = some i ↔ Owns (s.thread i)) ∧
      ∀ i, t.done i = s.index i + if Past (s.thread i) then 1 else 0) ∧
    ∑ p, s.memory.cells (.counter p) = ∑ i, s.index i + #{i | Past (s.thread i)} ∧
    (∀ i, s.memory.mode i ≠ .aborted → s.pc i = .xend → ∃ t, s.memory.mode i = .inside t) ∧
    (∀ i, s.memory.mode i ≠ .aborted → s.pc i = .unlock →
      Owns (s.thread i) ∧ ∀ j, Owns (s.thread j) → j = i) ∧
    (∀ i s', s.pc i = .xend → step max s (.thread i) = some s' → ∀ j, ¬Owns (s.thread j)) := by
  obtain ⟨t, rt, h⟩ := serial_of_reachable r
  have inv := inv_of_reachable r.of_logging
  refine ⟨⟨t, rt, fun p => (h.data p).symm, h.holder, h.done⟩, h.sum rt, ?_, ?_, ?_⟩
  · intro i hm hp
    exact inv.inside_of hm (by simp [hp, Fits])
  · intro i hm hp
    have ho := inv.outside_of hm (by simp [hp, Fits])
    have hi : Owns (s.thread i) := by simp [Owns, State.thread, ho, hp]
    exact ⟨hi, fun _ hj => inv.own.unique hj hi⟩
  · intro i s' hp hs
    cases Step.of_step hs
    case statement hm _ =>
      obtain ⟨_, _, ht, hr, _⟩ := inv.xend_inside hm hp
      exact inv.not_owns (inv.free_of_read ht hr)

-- Thread 1 falls back while thread 0 is in its transaction.
theorem sections_elided_two : ∃ t, (sections 2 1 1).Run (SerialSections.init fun _ => 0)
    [.acquire 1, .act 1, .release 1, .act 0] t :=
  have ⟨_, h⟩ : ∃ s, ((machine 2 1 1).logging event).exec (init 2 1, []) (Machine.schedule [
      (6, .thread 0), (3, .thread 1), (1, .abort 1), (1, .resume 1 8), (6, .thread 1),
      (1, .resume 0 6), (7, .thread 0)]) =
      some (s, [.acquire 1, .act 1, .release 1, .act 0]) := ⟨_, rfl⟩
  have ⟨⟨t, r, _⟩, _⟩ := sections_elided (.of_exec (by exact ⟨rfl, rfl⟩) h)
  ⟨t, r⟩

end Rtm
