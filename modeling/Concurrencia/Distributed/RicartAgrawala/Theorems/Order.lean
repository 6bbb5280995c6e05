import Concurrencia.Distributed.RicartAgrawala.Theorems.Deferred

open Function Distributed

namespace RicartAgrawala

namespace Receiver

variable {n : ℕ}

-- The receiver has raised `highestNum` to the number of a request of node `a`.
def Raised (a : Fin n) : Receiver n → Prop
  | testRequest m | compare m | release m | reply m | defer m => m.source = a
  | _ => False

def Granting (a : Fin n) : Receiver n → Prop
  | release m | reply m => m.source = a
  | _ => False

def Refusing (a : Fin n) : Receiver n → Prop
  | defer m => m.source = a
  | _       => False

end Receiver

namespace State

variable {n : ℕ}

def stamp (s : State n) (i : Fin n) : ℕ ×ₗ Fin n :=
  toLex (s.myNumber i, i)

-- Node `b` knows the number of the last request of node `a`.
def Seen (s : State n) (a b : Fin n) : Prop :=
  (s.receiver b).Raised a ∨ 0 < (s.deferred b).count a ∨ 0 < (s.main b).replying a ∨
  0 < (s.replied a).count b

def Granted (s : State n) (a b : Fin n) : Prop :=
  (s.receiver b).Granting a ∨ 0 < (s.replied a).count b

def Refused (s : State n) (a b : Fin n) : Prop :=
  (s.receiver b).Refusing a ∨ 0 < (s.deferred b).count a

end State

variable {n : ℕ} {counts : Fin n → ℕ} {s s' : State n} {p : Process n} {a b i : Fin n}

theorem of_transfer_grant (h : transfer s p = some (.grant a b)) :
    ∃ m, s.receiver b = .reply m ∧ m.source = a := by
  cases p
  case main i     => cases hp : s.main i <;> simp_all [transfer]
  case receiver i => cases hp : s.receiver i <;> simp_all [transfer]

theorem of_transfer_defer (h : transfer s p = some (.defer a b)) :
    ∃ m, s.receiver b = .defer m ∧ m.source = a := by
  cases p
  case main i     => cases hp : s.main i <;> simp_all [transfer]
  case receiver i => cases hp : s.receiver i <;> simp_all [transfer]

theorem of_transfer_answer (h : transfer s p = some (.answer a b)) :
    ∃ k m, s.main b = .reply k m a := by
  cases p
  case main i     => cases hp : s.main i <;> simp_all [transfer]
  case receiver i => cases hp : s.receiver i <;> simp_all [transfer]

namespace Step

theorem count_deferred (h : Step counts s p s') (hc : 0 < (s'.deferred b).count a) :
    0 < (s.deferred b).count a ∨ ∃ m, s.receiver b = .defer m ∧ m.source = a := by
  have := h.deferred (a := a) (b := b)
  by_cases ht : transfer s p = some (.defer a b)
  case pos => exact .inr (of_transfer_defer ht)
  case neg => exact .inl (by simp only [ht, if_false] at this; omega)

theorem count_replied (h : Step counts s p s') (hc : 0 < (s'.replied a).count b) :
    0 < (s.replied a).count b ∨ (∃ m, s.receiver b = .reply m ∧ m.source = a) ∨
    ∃ k m, s.main b = .reply k m a := by
  have := h.replied (a := a) (b := b)
  by_cases hg : transfer s p = some (.grant a b)
  case pos => exact .inr (.inl (of_transfer_grant hg))
  by_cases ha : transfer s p = some (.answer a b)
  case pos => exact .inr (.inr (of_transfer_answer ha))
  left
  simp only [hg, ha, if_false] at this
  split at this <;> omega

theorem replying_or_deferred (h : Step counts s p s') (hr : 0 < (s'.main b).replying a) :
    0 < (s.main b).replying a ∨ 0 < (s.deferred b).count a := by
  have := h.replying (a := a) (b := b)
  have := h.deferred (a := a) (b := b)
  by_cases ht : transfer s p = some (.pop a b)
  case pos => exact .inr (by simp only [ht] at this; simp at this; omega)
  case neg => exact .inl (by simp only [ht, if_false] at *; omega)

theorem raised (h : Step counts s p s') (hr : (s'.receiver b).Raised a) :
    (s.receiver b).Raised a ∨
    ∃ m, s.receiver b = .raise m ∧ m.source = a ∧ m.number ≤ s'.highestNum b := by
  cases p
  case main i =>
    cases h <;> simp_all [State.goto, State.turn, State.reply]
    case request k hk _ =>
      rcases eq_or_ne b k with rfl | hn
      · simp [Receiver.Raised] at hr
      · simp_all
  case receiver i =>
    rcases eq_or_ne b i with rfl | hn
    case inr => cases h <;> simp_all [State.turn, State.reply]
    cases h <;> simp_all [State.turn, State.reply, Receiver.Raised]
    case raise m _ => grind

theorem granting (h : Step counts s p s') (hg : (s'.receiver b).Granting a) :
    (s.receiver b).Granting a ∨
    (∃ m, s.receiver b = .testRequest m ∧ s'.requestCS b = false) ∨
    ∃ m, s.receiver b = .compare m ∧ m.source = a ∧
      (m.number < s.myNumber b ∨ m.number = s.myNumber b ∧ m.source < b) := by
  cases p
  case main i =>
    cases h <;> simp_all [State.goto, State.turn, State.reply]
    case request k hk _ =>
      rcases eq_or_ne b k with rfl | hn
      · simp [Receiver.Granting] at hg
      · simp_all
  case receiver i =>
    rcases eq_or_ne b i with rfl | hn
    case inr => cases h <;> simp_all [State.turn, State.reply]
    cases h <;> simp_all [State.turn, State.reply, Receiver.Granting]

theorem refusing (h : Step counts s p s') (hg : (s'.receiver b).Refusing a) :
    (s.receiver b).Refusing a ∨
    ∃ m, s.receiver b = .compare m ∧ m.source = a ∧
      ¬(m.number < s.myNumber b ∨ m.number = s.myNumber b ∧ m.source < b) := by
  cases p
  case main i =>
    cases h <;> simp_all [State.goto, State.turn, State.reply]
    case request k hk _ =>
      rcases eq_or_ne b k with rfl | hn
      · simp [Receiver.Refusing] at hg
      · simp_all
  case receiver i =>
    rcases eq_or_ne b i with rfl | hn
    case inr => cases h <;> simp_all [State.turn, State.reply]
    cases h <;> simp_all [State.turn, State.reply, Receiver.Refusing]

theorem message (h : Step counts s p s') (hm : (s'.receiver b).message = some m) :
    (s.receiver b).message = some m ∨ m.number = s.myNumber m.source := by
  cases p
  case main i =>
    cases h <;> simp_all [State.goto, State.turn, State.reply]
    case request k hk _ =>
      rcases eq_or_ne b k with rfl | hn
      · simp only [update_self, Receiver.message, Option.some.injEq] at hm
        simp [← hm]
      · simp_all
  case receiver i =>
    rcases eq_or_ne b i with rfl | hn
    case inr => cases h <;> simp_all [State.turn, State.reply]
    cases h <;> simp_all [State.turn, State.reply, Receiver.message]

theorem highestNum (h : Step counts s p s') : s.highestNum b ≤ s'.highestNum b := by
  cases h <;> simp [State.goto, State.turn, State.reply]
  case raise i m _ =>
    rcases eq_or_ne b i with rfl | hn
    · simp
      grind
    · simp [hn]

theorem myNumber (h : Step counts s p s') :
    s'.myNumber b = if transfer s p = some (.ask b) then s.highestNum b + 1 else s.myNumber b := by
  cases h <;> simp_all [transfer, State.goto, State.turn, State.reply]
  case setNumber i _ => rcases eq_or_ne b i with rfl | hn <;> simp_all [Ne.symm]

theorem highestNum_of_ask (h : Step counts s p s') (ht : transfer s p = some (.ask a)) :
    s'.highestNum = s.highestNum := by
  cases h <;> simp_all [transfer, State.goto]

theorem requesting (h : Step counts s p s') (ht : transfer s p ≠ some (.ask b))
    (hr : (s'.main b).Requesting) : (s.main b).Requesting := by
  cases p
  case receiver i => cases h <;> simp_all [State.turn, State.reply]
  case main i =>
    rcases eq_or_ne b i with rfl | hn
    · cases h <;> simp_all [transfer, State.goto, State.turn, State.reply, Main.Requesting]
    · cases h <;> simp_all [State.goto, State.turn, State.reply]

end Step

-- How the numbers of the nodes compare. A node that requests has granted the earlier requests only,
-- and refused the later ones.
structure Ordered (s : State n) : Prop where
  number {i m}  : (s.receiver i).message = some m → m.number = s.myNumber m.source
  seen {i j}    : i ≠ j → s.Seen i j → s.myNumber i ≤ s.highestNum j
  granted {i j} : i ≠ j → s.Granted i j → (s.main j).Requesting → s.stamp i < s.stamp j
  refused {i j} : i ≠ j → s.Refused i j → (s.main j).Requesting → s.stamp j < s.stamp i

theorem State.Granted.seen (h : s.Granted a b) : s.Seen a b := by
  rcases h with h | h
  · cases hp : s.receiver b <;> simp_all [Receiver.Granting, State.Seen, Receiver.Raised]
  · exact .inr (.inr (.inr h))

theorem State.Refused.seen (h : s.Refused a b) : s.Seen a b := by
  rcases h with h | h
  · cases hp : s.receiver b <;> simp_all [Receiver.Refusing, State.Seen, Receiver.Raised]
  · exact .inr (.inl h)

theorem State.stamp_lt_stamp :
    s.stamp a < s.stamp b ↔ s.myNumber a < s.myNumber b ∨ s.myNumber a = s.myNumber b ∧ a < b := by
  simp [State.stamp, Prod.Lex.toLex_lt_toLex]

namespace Accounted

variable (h : Accounted s)
include h

theorem other_of_message {m : Message n} (hm : (s.receiver b).message = some m) : m.source ≠ b := by
  rintro rfl
  have := h.self m.source
  simp [Receiver.held, hm] at this

-- Before its request is delivered nobody knows of the new number of a node.
theorem not_message {m : Message n} (hm : (s.receiver b).message = some m) :
    s.main m.source ≠ .lockRelease := by
  intro hp
  have := h.once (h.other_of_message hm) (by simp [hp, Main.InRound])
  simp [State.places, hp, Main.pending, Receiver.held, hm] at this
  omega

theorem not_seen (hn : a ≠ b) (hp : s.main a = .lockRelease) : ¬s.Seen a b := by
  have hs := h.once hn (by simp [hp, Main.InRound])
  simp only [State.places, hp, Main.pending] at hs
  rintro (hr | hr | hr | hr)
  case inl =>
    have hh : (s.receiver b).held a = 0 := by omega
    cases hp : s.receiver b <;> simp_all [Receiver.Raised, Receiver.held, Receiver.message]
  all_goals omega

end Accounted

theorem Step.seen (h : Step counts s p s') (hs : s'.Seen a b) :
    s.Seen a b ∨ ∃ m, s.receiver b = .raise m ∧ m.source = a ∧ m.number ≤ s'.highestNum b := by
  rcases hs with hs | hs | hs | hs
  · rcases h.raised hs with hr | hr
    · exact .inl (.inl hr)
    · exact .inr hr
  · rcases h.count_deferred hs with hc | ⟨m, hp, hm⟩
    · exact .inl (.inr (.inl hc))
    · exact .inl (.inl (by simp [hp, Receiver.Raised, hm]))
  · rcases h.replying_or_deferred hs with hc | hc
    · exact .inl (.inr (.inr (.inl hc)))
    · exact .inl (.inr (.inl hc))
  · rcases h.count_replied hs with hc | ⟨m, hp, hm⟩ | ⟨k, m, hp⟩
    · exact .inl (.inr (.inr (.inr hc)))
    · exact .inl (.inl (by simp [hp, Receiver.Raised, hm]))
    · exact .inl (.inr (.inr (.inl (by simp [hp, Main.replying]))))

theorem Step.granted (h : Step counts s p s') (hs : s'.Granted a b) :
    s.Granted a b ∨
    (∃ m, s.receiver b = .testRequest m ∧ s'.requestCS b = false) ∨
    (∃ m, s.receiver b = .compare m ∧ m.source = a ∧
      (m.number < s.myNumber b ∨ m.number = s.myNumber b ∧ m.source < b)) ∨
    ∃ k m, s.main b = .reply k m a := by
  rcases hs with hs | hs
  · rcases h.granting hs with hs | hs | hs
    · exact .inl (.inl hs)
    · exact .inr (.inl hs)
    · exact .inr (.inr (.inl hs))
  · rcases h.count_replied hs with hs | ⟨m, hp, hm⟩ | hs
    · exact .inl (.inr hs)
    · exact .inl (.inl (by simp [hp, Receiver.Granting, hm]))
    · exact .inr (.inr (.inr hs))

theorem Step.refused (h : Step counts s p s') (hs : s'.Refused a b) :
    s.Refused a b ∨
    ∃ m, s.receiver b = .compare m ∧ m.source = a ∧
      ¬(m.number < s.myNumber b ∨ m.number = s.myNumber b ∧ m.source < b) := by
  rcases hs with hs | hs
  · rcases h.refusing hs with hs | hs
    · exact .inl (.inl hs)
    · exact .inr hs
  · rcases h.count_deferred hs with hs | ⟨m, hp, hm⟩
    · exact .inl (.inr hs)
    · exact .inl (.inl (by simp [hp, Receiver.Refusing, hm]))

-- A node which draws its number has an empty queue and is not about to defer a request.
theorem Guarded.not_refused (hg : Guarded s b) (hp : s.main b = .lockRelease) : ¬s.Refused a b := by
  rintro (hs | hs)
  · cases hr : s.receiver b <;> simp_all [Receiver.Refusing]
    exact hg.exclusive (by simp [hp, Main.Locked]) (by simp [hr, Receiver.Locked])
  · have := hg.remaining 0 (by simp [hp, Main.remaining])
    simp_all [List.length_eq_zero_iff]

namespace Ordered

theorem init : Ordered (init n) where
  number h      := by simp [RicartAgrawala.init, Receiver.message] at h
  seen _ h      := by simp [RicartAgrawala.init]
  granted _ _ h := h.elim
  refused _ _ h := h.elim

section

variable (hi : Ordered s) (ha : Accounted s) (h : Step counts s p s')
include hi ha h

theorem step_number (hm : (s'.receiver i).message = some m) : m.number = s'.myNumber m.source := by
  have ht : transfer s p ≠ some (.ask m.source) :=
    fun ht => (ha.step h).not_message hm (h.ask ht).right
  rw [h.myNumber, if_neg ht]
  exact (h.message hm).elim hi.number id

theorem step_seen (hn : a ≠ b) (hs : s'.Seen a b) : s'.myNumber a ≤ s'.highestNum b := by
  have ht : transfer s p ≠ some (.ask a) :=
    fun ht => (ha.step h).not_seen hn (h.ask ht).right hs
  rw [h.myNumber, if_neg ht]
  rcases h.seen hs with hs | ⟨m, hp, rfl, hm⟩
  · exact (hi.seen hn hs).trans h.highestNum
  · rwa [← hi.number (i := b) (m := m) (by simp [hp, Receiver.message])]

theorem step_granted (hg : Guarded s b) (hn : a ≠ b) (hs : s'.Granted a b)
    (hr : (s'.main b).Requesting) : s'.stamp a < s'.stamp b := by
  have hta : transfer s p ≠ some (.ask a) :=
    fun ht => (ha.step h).not_seen hn (h.ask ht).right hs.seen
  by_cases htb : transfer s p = some (.ask b)
  case pos =>
    -- The new number of `b` is greater than all those it has seen.
    have hle := hi.step_seen ha h hn hs.seen
    have hlt : s'.myNumber b = s'.highestNum b + 1 := by
      rw [h.myNumber, if_pos htb, h.highestNum_of_ask htb]
    exact State.stamp_lt_stamp.mpr (.inl (by omega))
  case neg =>
    have hr' := h.requesting htb hr
    have ha' : s'.stamp a = s.stamp a := by simp [State.stamp, h.myNumber, hta]
    have hb' : s'.stamp b = s.stamp b := by simp [State.stamp, h.myNumber, htb]
    rw [ha', hb']
    rcases h.granted hs with hs | ⟨m, hp, hf⟩ | ⟨m, hp, rfl, hlt⟩ | ⟨k, m, hp⟩
    · exact hi.granted hn hs hr'
    · simp [(hg.step h).requestCS.mpr (.inr hr)] at hf
    · rw [hi.number (i := b) (m := m) (by simp [hp, Receiver.message])] at hlt
      exact State.stamp_lt_stamp.mpr hlt
    · simp [hp, Main.Requesting] at hr'

theorem step_refused (hg : Guarded s b) (hn : a ≠ b) (hs : s'.Refused a b)
    (hr : (s'.main b).Requesting) : s'.stamp b < s'.stamp a := by
  have hta : transfer s p ≠ some (.ask a) :=
    fun ht => (ha.step h).not_seen hn (h.ask ht).right hs.seen
  have htb : transfer s p ≠ some (.ask b) :=
    fun ht => (hg.step h).not_refused (h.ask ht).right hs
  have ha' : s'.stamp a = s.stamp a := by simp [State.stamp, h.myNumber, hta]
  have hb' : s'.stamp b = s.stamp b := by simp [State.stamp, h.myNumber, htb]
  rw [ha', hb']
  rcases h.refused hs with hs | ⟨m, hp, rfl, hlt⟩
  · exact hi.refused hn hs (h.requesting htb hr)
  · rw [hi.number (i := b) (m := m) (by simp [hp, Receiver.message])] at hlt
    refine lt_of_le_of_ne (le_of_not_gt (mt State.stamp_lt_stamp.mp hlt)) fun he => hn ?_
    simpa [State.stamp] using (congrArg (Prod.snd ∘ ofLex) he).symm

theorem step (hg : ∀ i, Guarded s i) : Ordered s' where
  number        := hi.step_number ha h
  seen          := hi.step_seen ha h
  granted hn    := hi.step_granted ha h (hg _) hn
  refused hn    := hi.step_refused ha h (hg _) hn

end

theorem of_reachable (r : (machine counts).Reachable s) : Ordered s := by
  refine r.invariant ?init ?step
  case init => rintro _ rfl; exact .init
  case step =>
    exact fun _ _ _ r hi h => hi.step (accounted r) (.of_step h) (Guarded.of_reachable r)

end Ordered

end RicartAgrawala
