import Concurrencia.Channels.Barrier2p.Basic
import Mathlib.Data.List.Range
import Mathlib.Tactic.SplitIfs

open Function

namespace Barrier2p

variable {phases : ℕ} {s s' : State} {x y : Proc} {p : Pc} {t : Thread}

namespace Proc

@[simp] theorem other_other (x : Proc) : x.other.other = x := by
  cases x <;> rfl

@[simp] theorem other_ne (x : Proc) : x.other ≠ x := by
  cases x <;> nofun

theorem eq_or_eq_other (x y : Proc) : y = x ∨ y = x.other := by
  cases x <;> cases y <;> simp [other]

theorem forall_iff {P : Proc → Prop} (x : Proc) : (∀ y, P y) ↔ P x ∧ P x.other := by
  refine ⟨fun h => ⟨h x, h x.other⟩, fun h y => ?_⟩
  obtain rfl | rfl := eq_or_eq_other x y
  exacts [h.left, h.right]

end Proc

-- The phases of the thread, and where it is when there are no more.
def Thread.Fits (phases : ℕ) (t : Thread) : Prop :=
  match t.pc with
  | .loop                     => t.i ≤ phases
  | .send | .print | .receive => t.i < phases
  | .sendDone | .finished     => t.i = phases

-- The phases which a goroutine has printed.
def State.lines (s : State) (x : Proc) : List ℕ :=
  (s.output.filter (·.fst = x)).map Prod.snd

theorem lines_print (s : State) (x y : Proc) :
    (s.print x).lines y = s.lines y ++ if x = y then [(s.thread x).i] else [] := by
  by_cases hx : x = y
  case pos => simp [State.lines, State.print, hx]
  case neg => simp [State.lines, State.print, hx]

structure Finished (phases : ℕ) (s : State) : Prop where
  pc       : ∀ x, (s.thread x).pc = .finished
  received : s.received = 2
  lines    : ∀ x, s.lines x = List.range phases

-- What a goroutine has done in its phases, where it makes at most four steps.
def progress (place : Pc → ℕ) (t : Thread) : ℕ :=
  4 * t.i + place t.pc

theorem progress_le {place : Pc → ℕ} (h : t.Fits phases) (hp : ∀ p, place p ≤ 3)
    (hf : place .sendDone ≤ 2 ∧ place .finished ≤ 2 ∧ place .loop ≤ 2) :
    progress place t ≤ 4 * phases + 2 := by
  have := hp t.pc
  cases hp : t.pc <;> simp only [Thread.Fits, progress, hp] at h this ⊢ <;> omega

namespace Async

def sent (t : Thread) : ℕ :=
  match t.pc with
  | .print | .receive                     => t.i + 1
  | .loop | .send | .sendDone | .finished => t.i

def printed (t : Thread) : ℕ :=
  match t.pc with
  | .receive                                       => t.i + 1
  | .loop | .send | .print | .sendDone | .finished => t.i

def done (t : Thread) : ℕ :=
  if t.pc = .finished then 1 else 0

-- What has been sent and not received is in the channel.
structure Inv (phases : ℕ) (s : State) : Prop where
  fits  : ∀ x, (s.thread x).Fits phases
  sent  : ∀ x, sent (s.thread x) = (s.thread x.other).i + (s.full x).toNat
  lines : ∀ x, s.lines x = List.range (printed (s.thread x))
  done  : ∀ x, s.received = done (s.thread x) + done (s.thread x.other)

namespace Inv

theorem init : Inv phases init where
  fits _  := Nat.zero_le phases
  sent _  := rfl
  lines _ := rfl
  done _  := rfl

variable (inv : Inv phases s)
include inv

-- The step of one goroutine: what it sends, what it receives, and what it prints.
theorem move (ht : s'.thread = update s.thread x t) (hf : t.Fits phases)
    (hx : Async.sent t + (s.full x).toNat = Async.sent (s.thread x) + (s'.full x).toNat)
    (hy : t.i + (s'.full x.other).toNat = (s.thread x).i + (s.full x.other).toNat)
    (hl : s'.lines x = List.range (printed t)) (hl' : s'.lines x.other = s.lines x.other)
    (hd : s'.received + Async.done (s.thread x) = s.received + Async.done t) :
    Inv phases s' := by
  have hxt : s'.thread x = t := by rw [ht, update_self]
  have hyt : s'.thread x.other = s.thread x.other := by rw [ht, update_of_ne (Proc.other_ne x)]
  constructor
  case fits =>
    rw [Proc.forall_iff x, hxt, hyt]
    exact ⟨hf, inv.fits _⟩
  case sent =>
    have h := inv.sent x
    have h' := inv.sent x.other
    rw [Proc.other_other] at h'
    rw [Proc.forall_iff x, Proc.other_other, hxt, hyt]
    omega
  case lines =>
    rw [Proc.forall_iff x, hxt, hyt, hl, hl']
    exact ⟨rfl, inv.lines _⟩
  case done =>
    have := inv.done x
    rw [Proc.forall_iff x, Proc.other_other, hxt, hyt]
    omega

theorem step (h : step phases s x = some s') : Inv phases s' := by
  have hf := inv.fits x
  have hs := inv.sent x
  have hl := inv.lines x
  cases hp : (s.thread x).pc <;>
    simp only [Async.step, hp, Thread.Fits, Async.sent, printed, reduceCtorEq] at h hf hs hl
  case loop =>
    cases h
    split_ifs with hi
    · refine inv.move rfl hi ?_ rfl hl rfl ?_
      · simp [Async.sent, hp, State.goto]
      · simp [Async.done, hp, State.goto]
    · refine inv.move rfl (Nat.le_antisymm hf (Nat.not_lt.mp hi)) ?_ rfl hl rfl ?_
      · simp [Async.sent, hp, State.goto]
      · simp [Async.done, hp, State.goto]
  case send =>
    split_ifs at h with hc
    cases h
    refine inv.move rfl hf ?_ ?_ hl rfl ?_
    · simp [Async.sent, hp, State.goto, hc]
    · simp [State.goto]
    · simp [Async.done, hp, State.goto]
  case print =>
    cases h
    refine inv.move rfl hf ?_ rfl ?_ ?_ ?_
    · simp [Async.sent, hp, State.goto, State.print]
    · refine (lines_print s x x).trans ?_
      simp [printed, State.print, hl, List.range_succ]
    · refine (lines_print s x x.other).trans ?_
      simp [(Proc.other_ne x).symm]
    · simp [Async.done, hp, State.goto, State.print]
  case receive =>
    split_ifs at h with hc
    cases h
    refine inv.move rfl hf ?_ ?_ hl rfl ?_
    · simp [Async.sent, hp, State.next, (Proc.other_ne x).symm]
    · simp [State.next, hc]
    · simp [Async.done, hp, State.next]
  case sendDone =>
    rw [State.sendDone] at h
    split_ifs at h with hc
    cases h
    refine inv.move rfl hf ?_ rfl hl rfl ?_
    · simp [Async.sent, hp, State.goto]
    · simp [Async.done, hp, State.goto]

-- A goroutine which cannot go on waits for the other one, or has come to its end.
theorem blocked (h : Async.step phases s x = none) :
    (Async.sent (s.thread x) = (s.thread x).i ∧ (s.thread x).i < phases ∧ (s.full x).toNat = 1) ∨
      (Async.sent (s.thread x) = (s.thread x).i + 1 ∧ (s.thread x).i < phases ∧
        (s.full x.other).toNat = 0) ∨
      Async.sent (s.thread x) = (s.thread x).i ∧ (s.thread x).i = phases ∧
        (s.thread x).pc = .finished := by
  have hf := inv.fits x
  cases hp : (s.thread x).pc <;>
    simp only [Async.step, Async.sent, Thread.Fits, hp, reduceCtorEq] at h hf ⊢
  case send     => exact .inl ⟨trivial, hf, by simpa using h⟩
  case receive  => exact .inr (.inl ⟨trivial, hf, by simpa using h⟩)
  case finished => exact .inr (.inr ⟨trivial, hf, trivial⟩)
  case sendDone =>
    have hd := inv.done x
    have hx : Async.done (s.thread x) = 0 := by simp [Async.done, hp]
    have hy : Async.done (s.thread x.other) ≤ 1 := by
      rw [Async.done]
      split_ifs <;> simp
    have hl : s.received < 2 := by omega
    simp [State.sendDone, hl] at h

theorem finished (h : ∀ x, (s.thread x).pc = .finished) : Finished phases s where
  pc       := h
  received := by simp [inv.done .a, Async.done, h]
  lines x  := by
    have hf := inv.fits x
    rw [Thread.Fits, h x] at hf
    rw [inv.lines, printed, h x, hf]

-- The channels are empty or full as it suits one of the goroutines.
theorem live (hf : ¬Finished phases s) : (machine phases).Live s := by
  by_contra hl
  have ha := inv.blocked (Machine.not_live_step hl .a)
  have hb := inv.blocked (Machine.not_live_step hl .b)
  have sa := inv.sent .a
  have sb := inv.sent .b
  simp only [Proc.other] at ha hb sa sb
  have pa : (s.thread .a).pc = .finished := by
    by_contra hn
    simp only [hn, and_false, or_false] at ha
    omega
  have pb : (s.thread .b).pc = .finished := by
    by_contra hn
    simp only [hn, and_false, or_false] at hb
    omega
  exact hf (inv.finished fun x => by cases x <;> assumption)

-- Neither goroutine is more than one phase ahead of the other.
theorem length_lines_le (x : Proc) : (s.lines x).length ≤ (s.lines x.other).length + 1 := by
  have hs := inv.sent x
  have hb : (s.full x).toNat ≤ 1 := Bool.toNat_le _
  have hp : printed (s.thread x) ≤ Async.sent (s.thread x) := by
    cases h : (s.thread x).pc <;> simp [printed, Async.sent, h]
  have hi : (s.thread x.other).i ≤ printed (s.thread x.other) := by
    cases h : (s.thread x.other).pc <;> simp [printed, h]
  rw [inv.lines, inv.lines, List.length_range, List.length_range]
  omega

end Inv

theorem inv_of_reachable (r : (machine phases).Reachable s) : Inv phases s := by
  refine r.invariant (fun _ h => ?_) (fun _ _ _ _ inv h => inv.step h)
  obtain rfl := h
  exact .init

-- The steps which the goroutine has taken in its phase.
def place : Pc → ℕ
  | .loop             => 0
  | .send | .sendDone => 1
  | .print            => 2
  | .receive          => 3
  | .finished         => 2

theorem place_le (p : Pc) : place p ≤ 3 := by
  cases p <;> decide

theorem progress_step (h : step phases s x = some s') :
    progress place (s'.thread x) = progress place (s.thread x) + 1 ∧
      s'.thread x.other = s.thread x.other := by
  cases hp : (s.thread x).pc <;> simp only [step, State.sendDone, hp, reduceCtorEq] at h
  case loop =>
    cases h
    split_ifs <;> simp [progress, place, State.goto, hp]
  case print =>
    cases h
    simp [progress, place, State.goto, State.print, hp]
  case receive =>
    split_ifs at h
    cases h
    simp [progress, place, State.next, hp]
    omega
  all_goals
    split_ifs at h
    cases h
    simp [progress, place, State.goto, hp]

theorem run_length_le {xs : List Proc} (r : (machine phases).Run init xs s) :
    xs.length ≤ 2 * (4 * phases + 2) := by
  have inv := inv_of_reachable (r.reachable (.init rfl))
  have ⟨n, hl, hn⟩ := r.length_le
    (M := fun s n => n = progress place (s.thread .a) + progress place (s.thread .b)) (n := 0) rfl
    fun s n x s' hn h => by
      have ⟨hx, hy⟩ := progress_step h
      refine ⟨_, ?_, rfl⟩
      cases x <;> rw [Proc.other] at hy <;> rw [hy] <;> omega
  have ha := progress_le (inv.fits .a) place_le (by decide)
  have hb := progress_le (inv.fits .b) place_le (by decide)
  omega

end Async

-- "A finished phase 0", "B finished phase 0", "A finished phase 1", and so on.
def rounds (n : ℕ) : List (Proc × ℕ) :=
  (List.range n).flatMap fun i => [(.a, i), (.b, i)]

theorem rounds_succ (n : ℕ) : rounds (n + 1) = rounds n ++ [(.a, n), (.b, n)] := by
  simp [rounds, List.range_succ]

theorem rounds_mono {m n : ℕ} (h : m ≤ n) : rounds m <+: rounds n := by
  induction h
  case refl      => exact List.prefix_refl _
  case step h hi => exact hi.trans ⟨_, (rounds_succ _).symm⟩

theorem lines_of_rounds (h : s.output = rounds phases) (x : Proc) :
    s.lines x = List.range phases := by
  rw [State.lines, h]
  clear h
  induction phases
  case zero      => rfl
  case succ n hi => cases x <;> simpa [rounds_succ, List.range_succ] using hi

namespace Sync

-- B takes part in the phase of A, where it is one step behind.
structure Inv (phases : ℕ) (s : State) : Prop where
  fits   : ∀ x, (s.thread x).Fits phases
  phase  : (s.thread .a).i = (s.thread .b).i + if (s.thread .b).pc = .print then 1 else 0
  send   : (s.thread .b).pc = .send ↔ (s.thread .a).pc = .print ∨ (s.thread .a).pc = .receive
  output : s.output = rounds (s.thread .b).i ++
    if (s.thread .a).pc = .receive ∨ (s.thread .b).pc = .print then [(.a, (s.thread .b).i)] else []
  done   : s.received = Async.done (s.thread .a) + Async.done (s.thread .b)

namespace Inv

theorem init : Inv phases init where
  fits _ := Nat.zero_le phases
  phase  := rfl
  send   := by decide
  output := rfl
  done   := rfl

variable (inv : Inv phases s)
include inv

theorem fits_update (h : t.Fits phases) (x : Proc) : (update s.thread y t x).Fits phases := by
  by_cases hx : x = y
  case pos => rwa [hx, update_self]
  case neg => exact update_of_ne hx t s.thread ▸ inv.fits x

theorem thread_a (h : threadStep phases s .a = some s') : Inv phases s' := by
  have hf := inv.fits .a
  have hs := inv.send
  have ho := inv.output
  have hd := inv.done
  cases hp : (s.thread .a).pc <;>
    simp only [threadStep, State.sendDone, Thread.Fits, hp, reduceCtorEq, or_self, or_false,
      false_or, iff_false, iff_true] at h hf hs ho
  case loop =>
    cases h
    split_ifs with hl
    · refine ⟨inv.fits_update hl, inv.phase, ?_, ?_, ?_⟩
      · simpa [State.goto]
      · simpa [State.goto]
      · simpa [State.goto, Async.done, hp] using hd
    · refine ⟨inv.fits_update (hf.antisymm (Nat.not_lt.mp hl)), inv.phase, ?_, ?_, ?_⟩
      · simpa [State.goto]
      · simpa [State.goto]
      · simpa [State.goto, Async.done, hp] using hd
  case print =>
    cases h
    refine ⟨inv.fits_update hf, inv.phase, ?_, ?_, ?_⟩
    · simpa [State.goto, State.print]
    · simp [State.goto, State.print, ho, hs, inv.phase]
    · simpa [State.goto, State.print, Async.done, hp] using hd
  case sendDone =>
    split_ifs at h
    cases h
    refine ⟨inv.fits_update hf, inv.phase, ?_, ?_, ?_⟩
    · simpa [State.goto]
    · simpa [State.goto]
    · simp [State.goto, Async.done, hp] at hd ⊢
      omega

theorem thread_b (h : threadStep phases s .b = some s') : Inv phases s' := by
  have hf := inv.fits .b
  have hi := inv.phase
  have hs := inv.send
  have ho := inv.output
  have hd := inv.done
  cases hp : (s.thread .b).pc <;>
    simp only [threadStep, State.sendDone, Thread.Fits, hp, reduceCtorEq, if_true, if_false,
      or_true, or_false, false_iff, not_or] at h hf hi hs ho
  case loop =>
    cases h
    split_ifs with hl
    · refine ⟨inv.fits_update hl, hi, ?_, ?_, ?_⟩
      · simpa [State.goto]
      · simpa [State.goto]
      · simpa [State.goto, Async.done, hp] using hd
    · refine ⟨inv.fits_update (hf.antisymm (Nat.not_lt.mp hl)), hi, ?_, ?_, ?_⟩
      · simpa [State.goto]
      · simpa [State.goto]
      · simpa [State.goto, Async.done, hp] using hd
  case print =>
    cases h
    refine ⟨inv.fits_update hf, ?_, ?_, ?_, ?_⟩
    · simpa [State.next, State.print]
    · simpa [State.next, State.print]
    · simp [State.next, State.print, ho, hs, rounds_succ]
    · simpa [State.next, State.print, Async.done, hp] using hd
  case sendDone =>
    split_ifs at h
    cases h
    refine ⟨inv.fits_update hf, hi, ?_, ?_, ?_⟩
    · simpa [State.goto]
    · simpa [State.goto]
    · simp [State.goto, Async.done, hp] at hd ⊢
      omega

theorem meet (h : meetStep s x = some s') : Inv phases s' := by
  have hx := inv.fits x
  have hy := inv.fits x.other
  have hi := inv.phase
  have ho := inv.output
  have hd := inv.done
  simp only [meetStep] at h
  split_ifs at h with hp
  obtain ⟨px, py⟩ := hp
  simp only [Thread.Fits, px, py] at hx hy
  cases x <;> rw [Proc.other] at py hy
  case a =>
    cases h
    simp only [px, py, reduceCtorEq, or_self, if_false] at hi ho
    constructor
    case fits =>
      rw [Proc.forall_iff .a]
      exact ⟨hx, hy⟩
    · simpa [State.goto]
    · simp [State.goto]
    · simpa [State.goto] using ho
    · simpa [State.goto, Async.done, px, py] using hd
  case b =>
    cases h
    simp only [px, py, reduceCtorEq, or_false, if_true, if_false] at hi ho
    constructor
    case fits =>
      rw [Proc.forall_iff .a]
      exact ⟨hy, hx⟩
    · simpa [State.goto, State.next]
    · simp [State.goto, State.next]
    · simpa [State.goto, State.next]
    · simpa [State.goto, State.next, Async.done, px, py] using hd

theorem output_in_rounds : s.output <+: rounds phases := by
  have hf := inv.fits .b
  have ho := inv.output
  split_ifs at ho with hp
  case pos =>
    have hb : (s.thread .b).i < phases := by
      obtain ha | hb := hp
      · rw [Thread.Fits, inv.send.mpr (.inr ha)] at hf
        exact hf
      · rw [Thread.Fits, hb] at hf
        exact hf
    refine .trans ?_ (rounds_mono hb)
    rw [ho, Nat.succ_eq_add_one, rounds_succ]
    exact ⟨[(.b, (s.thread .b).i)], by simp⟩
  case neg =>
    have hb : (s.thread .b).i ≤ phases := by
      cases hp : (s.thread .b).pc <;> simp only [Thread.Fits, hp] at hf <;> omega
    rw [ho, List.append_nil]
    exact rounds_mono hb

theorem finished (h : ∀ x, (s.thread x).pc = .finished) : Finished phases s where
  pc       := h
  received := by simp [inv.done, Async.done, h]
  lines x  := by
    have hf := inv.fits .b
    have ho := inv.output
    simp only [Thread.Fits, h, reduceCtorEq, or_self, if_false, List.append_nil] at hf ho
    exact lines_of_rounds (hf ▸ ho) x

-- A goroutine which cannot go on is at a channel, or has come to its end.
theorem blocked (h : threadStep phases s x = none) :
    (s.thread x).pc = .send ∨ (s.thread x).pc = .receive ∨ (s.thread x).pc = .finished := by
  cases hp : (s.thread x).pc
  case sendDone =>
    have hd := inv.done
    have hl : s.received < 2 := by
      cases x <;> simp only [Async.done, hp, reduceCtorEq, if_false] at hd <;> split_ifs at hd <;>
        omega
    cases x <;> simp [threadStep, hp, State.sendDone, hl] at h
  case send     => exact .inl rfl
  case receive  => exact .inr (.inl rfl)
  case finished => exact .inr (.inr rfl)
  all_goals cases x <;> simp [threadStep, hp] at h

theorem live (hf : ¬Finished phases s) : (machine phases).Live s := by
  by_contra hl
  have ha := inv.blocked (Machine.not_live_step hl (.thread .a))
  have hb := inv.blocked (Machine.not_live_step hl (.thread .b))
  have ma : meetStep s .a = none := Machine.not_live_step hl (.meet .a)
  have mb : meetStep s .b = none := Machine.not_live_step hl (.meet .b)
  have fa := inv.fits .a
  have fb := inv.fits .b
  have hi := inv.phase
  have hs := inv.send
  obtain ha | ha | ha := ha <;> obtain hb | hb | hb := hb
  all_goals simp [meetStep, Thread.Fits, Proc.other, ha, hb] at ma mb fa fb hi hs
  · omega
  · omega
  · exact hf (inv.finished fun x => by cases x <;> assumption)

end Inv

theorem inv_of_reachable (r : (machine phases).Reachable s) : Inv phases s := by
  refine r.invariant (fun _ h => ?_) (fun _ l _ _ inv h => ?_)
  · obtain rfl := h
    exact .init
  · cases l
    case thread x =>
      cases x
      case a => exact inv.thread_a h
      case b => exact inv.thread_b h
    case meet x   => exact inv.meet h

def place : Proc → Pc → ℕ
  | .a => Async.place
  | .b => fun
    | .loop                => 0
    | .receive | .sendDone => 1
    | .send                => 2
    | .print               => 3
    | .finished            => 2

theorem place_le (x : Proc) (p : Pc) : place x p ≤ 3 := by
  cases x <;> cases p <;> decide

theorem progress_thread (h : threadStep phases s x = some s') :
    progress (place x) (s.thread x) < progress (place x) (s'.thread x) ∧
      s'.thread x.other = s.thread x.other := by
  cases x
  case a =>
    cases hp : (s.thread .a).pc <;>
      simp only [threadStep, State.sendDone, hp, reduceCtorEq] at h
    case loop =>
      cases h
      split_ifs <;> simp [progress, place, Async.place, State.goto, Proc.other, hp]
    case print =>
      cases h
      simp [progress, place, Async.place, State.goto, State.print, Proc.other, hp]
    case sendDone =>
      split_ifs at h
      cases h
      simp [progress, place, Async.place, State.goto, Proc.other, hp]
  case b =>
    cases hp : (s.thread .b).pc <;>
      simp only [threadStep, State.sendDone, hp, reduceCtorEq] at h
    case loop =>
      cases h
      split_ifs <;> simp [progress, place, State.goto, Proc.other, hp]
    case print =>
      cases h
      simp [progress, place, State.next, State.print, Proc.other, hp]
      omega
    case sendDone =>
      split_ifs at h
      cases h
      simp [progress, place, State.goto, Proc.other, hp]

theorem progress_meet (h : meetStep s x = some s') (y : Proc) :
    progress (place y) (s.thread y) < progress (place y) (s'.thread y) := by
  simp only [meetStep] at h
  split_ifs at h with hp
  obtain ⟨px, py⟩ := hp
  cases x <;> cases h <;> cases y <;> rw [Proc.other] at py <;>
    simp [progress, place, Async.place, State.goto, State.next, px, py]
  all_goals omega

theorem run_length_le {ls : List Label} (r : (machine phases).Run init ls s) :
    ls.length ≤ 2 * (4 * phases + 2) := by
  have inv := inv_of_reachable (r.reachable (.init rfl))
  have ⟨n, hl, hn⟩ := r.length_le
    (M := fun s n => n = progress (place .a) (s.thread .a) + progress (place .b) (s.thread .b))
    (n := 0) rfl
    fun s n l s' hn h => by
      refine ⟨_, ?_, rfl⟩
      cases l
      case thread x =>
        have ⟨hx, hy⟩ := progress_thread h
        cases x <;> rw [Proc.other] at hy <;> rw [hy] <;> omega
      case meet x   =>
        have ha := progress_meet h .a
        have hb := progress_meet h .b
        omega
  have ha := progress_le (inv.fits .a) (place_le .a) (by decide)
  have hb := progress_le (inv.fits .b) (place_le .b) (by decide)
  omega

end Sync

-- With room in the channels neither goroutine is more than one phase ahead, and without it they
-- take turns. Both programs go on until both goroutines have made all phases.
theorem phases_in_step (phases : ℕ) :
    (∀ s, (Async.machine phases).Reachable s →
      (∀ x, s.lines x = List.range (s.lines x).length ∧
        (s.lines x).length ≤ (s.lines x.other).length + 1) ∧
      (Finished phases s ∨ (Async.machine phases).Live s)) ∧
    (∀ xs s, (Async.machine phases).Run init xs s → xs.length ≤ 2 * (4 * phases + 2)) ∧
    (∀ s, (Sync.machine phases).Reachable s →
      s.output <+: rounds phases ∧ (Finished phases s ∨ (Sync.machine phases).Live s)) ∧
    ∀ ls s, (Sync.machine phases).Run init ls s → ls.length ≤ 2 * (4 * phases + 2) := by
  refine ⟨fun s r => ?_, fun _ _ => Async.run_length_le, fun s r => ?_,
    fun _ _ => Sync.run_length_le⟩
  · have inv := Async.inv_of_reachable r
    refine ⟨fun x => ⟨?_, inv.length_lines_le x⟩, or_iff_not_imp_left.mpr inv.live⟩
    rw [inv.lines, List.length_range]
  · have inv := Sync.inv_of_reachable r
    exact ⟨inv.output_in_rounds, or_iff_not_imp_left.mpr inv.live⟩

end Barrier2p
