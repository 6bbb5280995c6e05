import Concurrencia.Distributed.RicartAgrawala.Theorems.Order

open Function Distributed

namespace RicartAgrawala

variable {n : ℕ} {counts : Fin n → ℕ} {s s' : State n} {p : Process n} {a b i j : Fin n}
variable {e : Event n} {l : List (Event n)} {r k : ℕ}

namespace Main

-- The critical section: `lock` has returned and `requestCS = false` is still to be executed.
def Critical : Main n → Prop
  | load | store _ | clearRequest => True
  | _ => False

-- The quarters of a round, which end with the draw of the number, the return of `lock` and the
-- assignment `requestCS = false`.
def quarter : Main n → ℕ
  | loop | lockAcquire | setRequest | setNumber | done => 0
  | lockRelease | send _ | request _ | await => 1
  | load | store _ | clearRequest => 2
  | unlockAcquire | measure | unlockRelease _ | drain _ _ | reply _ _ _ => 3

theorem quarter_lt (m : Main n) : m.quarter < 4 := by
  cases m <;> simp [quarter]

theorem Critical.requesting {m : Main n} (h : m.Critical) : m.Requesting ∧ m.Entered := by
  cases m <;> simp_all [Critical, Requesting, Entered]

theorem requesting_of_quarter {m : Main n} (h₁ : 1 ≤ m.quarter) (h₂ : m.quarter ≤ 2) :
    m.Requesting := by
  cases m <;> simp_all [quarter, Requesting]

end Main

namespace Event

def node : Event n → Fin n
  | request i _ _ | enter i _ | leave i _ => i

def time : Event n → ℕ
  | request _ r _ => 4 * r + 1
  | enter _ r     => 4 * r + 2
  | leave _ r     => 4 * r + 3

end Event

-- Counts the quarters node `i` has completed.
def State.clock (s : State n) (i : Fin n) : ℕ :=
  4 * s.round i + (s.main i).quarter

theorem Event.eq_request (hi : e.node = i) (ht : e.time = 4 * r + 1) : ∃ k, e = .request i r k := by
  cases e <;> simp [node, time] at hi ht ⊢ <;> omega

theorem Event.eq_leave (hi : e.node = i) (ht : e.time = 4 * r + 3) : e = .leave i r := by
  cases e <;> simp [node, time] at hi ht ⊢ <;> omega

namespace Step

theorem clock_of_event (h : Step counts s p s') (he : event s p = some e) :
    s'.clock e.node = s.clock e.node + 1 ∧ e.time = s'.clock e.node := by
  cases h <;> simp_all [event]
  all_goals
    obtain rfl := he
    simp_all [Event.node, Event.time, State.clock, State.goto, Main.quarter]

theorem clock_le (h : Step counts s p s') : s.clock i ≤ s'.clock i := by
  cases p
  case receiver j => cases h <;> simp [State.clock, State.turn, State.reply]
  case main j =>
    rcases eq_or_ne i j with rfl | hn
    case inr => cases h <;> simp [State.clock, State.goto, State.turn, State.reply, hn]
    cases h <;> simp_all [State.clock, State.goto, State.turn, State.reply, Main.quarter]
    case drained => omega

-- The clock of a node reaches a number inside a round by an event only.
theorem event_of_clock (h : Step counts s p s') {t : ℕ} (ht : t % 4 ≠ 0) (hlt : s.clock i < t)
    (hle : t ≤ s'.clock i) : ∃ e, event s p = some e ∧ e.node = i ∧ e.time = t := by
  cases p
  case receiver j =>
    have : s'.clock i = s.clock i := by cases h <;> simp [State.clock, State.turn, State.reply]
    omega
  case main j =>
    rcases eq_or_ne i j with rfl | hn
    case inr =>
      have : s'.clock i = s.clock i := by
        cases h <;> simp [State.clock, State.goto, State.turn, State.reply, hn]
      omega
    cases h <;>
      simp_all [State.clock, State.goto, State.turn, State.reply, Main.quarter, event, Event.node,
        Event.time]
    all_goals omega

theorem request_of_event (h : Step counts s p s') (he : event s p = some (.request i r k)) :
    transfer s p = some (.ask i) ∧ k = s'.myNumber i := by
  cases h <;> simp_all [event, transfer, State.goto]
  case setNumber =>
    obtain ⟨rfl, -, rfl⟩ := he
    simp

theorem enter_of_event (h : Step counts s p s') (he : event s p = some (.enter i r)) :
    (s'.main i).Entered := by
  cases h <;> simp_all [event, State.goto, Main.Entered]

theorem event_of_ask (h : Step counts s p s') (ht : transfer s p = some (.ask i)) :
    s.clock i = 4 * s.round i ∧ event s p = some (.request i (s.round i) (s.highestNum i + 1)) := by
  cases h <;> simp_all [event, transfer, State.clock, Main.quarter]

end Step

-- What the history of a run says about its last state. The claim of the order is `order`.
structure Logged (s : State n) (l : List (Event n)) : Prop where
  time     : ∀ e ∈ l, e.time ≤ s.clock e.node
  complete : ∀ i t, t % 4 ≠ 0 → t ≤ s.clock i → ∃ e ∈ l, e.node = i ∧ e.time = t
  nodup    : l.Nodup
  number   : ∀ i r k, .request i r k ∈ l → s.clock i < 4 * r + 4 → k = s.myNumber i
  seen     : ∀ i j r k, i ≠ j → .enter j r ∈ l → .request j r k ∈ l → k ≤ s.highestNum i
  order    : ∀ a b r r' k k', a ≠ b → .request a r k ∈ l → .request b r' k' ∈ l →
             toLex (k, a) < toLex (k', b) → .enter b r' ∈ l → [.leave a r, .enter b r'].Sublist l

namespace Logged

theorem init : Logged (init n) [] where
  time       := by simp
  complete   := by simp [State.clock, RicartAgrawala.init, Main.quarter]; omega
  nodup      := .nil
  number     := by simp
  seen       := by simp
  order      := by simp

section

variable (hi : Logged s l) (h : Step counts s p s')
include hi h

-- The history after the step.
theorem step_time : ∀ e ∈ l ++ (event s p).toList, e.time ≤ s'.clock e.node := by
  intro e he
  rcases List.mem_append.mp he with he | he
  · exact (hi.time e he).trans h.clock_le
  · exact (h.clock_of_event (by simpa using he)).right.le

theorem step_complete (i : Fin n) (t : ℕ) (ht : t % 4 ≠ 0) (hle : t ≤ s'.clock i) :
    ∃ e ∈ l ++ (event s p).toList, e.node = i ∧ e.time = t := by
  by_cases hlt : s.clock i < t
  case pos =>
    have ⟨e, he, hn⟩ := h.event_of_clock ht hlt hle
    exact ⟨e, by simp [he], hn⟩
  case neg =>
    have ⟨e, he, hn⟩ := hi.complete i t ht (by omega)
    exact ⟨e, by simp [he], hn⟩

theorem not_mem (he : event s p = some e) : e ∉ l := by
  intro hl
  have := hi.time e hl
  have := h.clock_of_event he
  omega

theorem step_nodup : (l ++ (event s p).toList).Nodup := by
  cases he : event s p
  case none   => simpa using hi.nodup
  case some e =>
    have hn := hi.not_mem h he
    simp only [Option.toList_some, List.nodup_append, hi.nodup, List.nodup_singleton, true_and]
    rintro e' hl _ (_ | ⟨_, ⟨⟩⟩) rfl
    exact hn hl

theorem step_number (i : Fin n) (r k : ℕ) (hr : .request i r k ∈ l ++ (event s p).toList)
    (ht : s'.clock i < 4 * r + 4) : k = s'.myNumber i := by
  rcases List.mem_append.mp hr with hr | hr
  case inr => exact (h.request_of_event (by simpa using hr)).right
  case inl =>
    have hl : transfer s p ≠ some (.ask i) := by
      intro ha
      have ⟨hc, he⟩ := h.event_of_ask ha
      have := h.clock_of_event he
      have := hi.time _ hr
      simp only [Event.node, Event.time] at *
      omega
    rw [h.myNumber, if_neg hl]
    exact hi.number i r k hr (h.clock_le.trans_lt ht)

-- A critical section that has begun is that of a request in the history.
theorem mem_of_request (hr : .request i r k ∈ l ++ (event s p).toList)
    (he : .enter i r ∈ l ++ (event s p).toList) : .request i r k ∈ l := by
  rcases List.mem_append.mp hr with hr | hr
  case inl => exact hr
  case inr =>
    have hr : event s p = some (.request i r k) := by simpa using hr
    have hc := h.clock_of_event hr
    rcases List.mem_append.mp he with he | he
    · have := hi.time _ he
      simp only [Event.node, Event.time] at *
      omega
    · simp [hr] at he

theorem step_seen (ha : Accounted s') (ho : Ordered s') (i j : Fin n) (r k : ℕ) (hn : i ≠ j)
    (he : .enter j r ∈ l ++ (event s p).toList) (hr : .request j r k ∈ l ++ (event s p).toList) :
    k ≤ s'.highestNum i := by
  rcases List.mem_append.mp he with hl | hl
  case inl => exact (hi.seen i j r k hn hl (hi.mem_of_request h hr he)).trans h.highestNum
  case inr =>
    have hl : event s p = some (.enter j r) := by simpa using hl
    have := h.clock_of_event hl
    rw [hi.step_number h j r k hr (by simp only [Event.node, Event.time] at this; omega)]
    have hm := ha.mem_replied (h.enter_of_event hl) hn.symm
    exact ho.seen hn.symm (.inr (.inr (.inr (List.count_pos_iff.mpr hm))))

-- When `lock` returns at node `b`, the earlier requests have left their critical sections.
theorem left (ha : Accounted s') (ho : Ordered s') (hn : a ≠ b) {r r' k k' : ℕ}
    (he : event s p = some (.enter b r')) (hra : .request a r k ∈ l) (hrb : .request b r' k' ∈ l)
    (hlt : toLex (k, a) < toLex (k', b)) : .leave a r ∈ l := by
  by_cases hc : 4 * r + 3 ≤ s'.clock a
  case pos =>
    have ⟨e, hl, hm, ht⟩ := hi.step_complete h a (4 * r + 3) (by omega) hc
    obtain rfl := Event.eq_leave hm ht
    simpa [he] using hl
  case neg =>
    have hb := h.clock_of_event he
    have ha' := (hi.time _ hra).trans h.clock_le
    have hq := Main.quarter_lt (s'.main a)
    simp only [Event.node, Event.time] at hb ha'
    have hr : (s'.main a).Requesting := by
      simp only [State.clock] at hc ha'
      exact Main.requesting_of_quarter (by omega) (by omega)
    have hm := ha.mem_replied (h.enter_of_event he) hn.symm
    have hg := ho.granted hn.symm (.inr (List.count_pos_iff.mpr hm)) hr
    have hka := hi.step_number h a r k (by simp [hra]) (by omega)
    have hkb := hi.step_number h b r' k' (by simp [hrb]) (by omega)
    subst hka hkb
    exact absurd hg hlt.asymm

theorem step_order (ha : Accounted s') (ho : Ordered s') (a b : Fin n) (r r' k k' : ℕ) (hn : a ≠ b)
    (hra : .request a r k ∈ l ++ (event s p).toList)
    (hrb : .request b r' k' ∈ l ++ (event s p).toList) (hlt : toLex (k, a) < toLex (k', b))
    (he : .enter b r' ∈ l ++ (event s p).toList) :
    [.leave a r, .enter b r'].Sublist (l ++ (event s p).toList) := by
  have hrb := hi.mem_of_request h hrb he
  rcases List.mem_append.mp hra with hra | hra
  case inr =>
    -- Node `a` knows the number of `b` and draws a greater one.
    have hra : event s p = some (.request a r k) := by simpa using hra
    have ⟨ht, hk⟩ := h.request_of_event hra
    have hle := hi.seen a b r' k' hn (by simpa [hra] using he) hrb
    rw [h.myNumber, if_pos ht] at hk
    simp [Prod.Lex.toLex_lt_toLex] at hlt
    omega
  case inl =>
    rcases List.mem_append.mp he with he | he
    · exact (hi.order a b r r' k k' hn hra hrb hlt he).trans (List.sublist_append_left ..)
    · have he : event s p = some (.enter b r') := by simpa using he
      have hl := hi.left h ha ho hn he hra hrb hlt
      simpa [he] using (List.singleton_sublist.mpr hl).append (.refl [.enter b r'])

theorem step (ha : Accounted s') (ho : Ordered s') : Logged s' (l ++ (event s p).toList) where
  time     := hi.step_time h
  complete := hi.step_complete h
  nodup    := hi.step_nodup h
  number   := hi.step_number h
  seen     := hi.step_seen h ha ho
  order    := hi.step_order h ha ho

end

theorem of_reachable (r : ((machine counts).logging event).Reachable (s, l)) : Logged s l := by
  refine r.logging_invariant ?init ?step
  case init => rintro _ rfl; exact .init
  case step =>
    intro _ _ _ _ r hi h
    exact hi.step (.of_step h) (accounted (r.step h)) (.of_reachable (r.step h))

end Logged

theorem eq_of_critical (r : (machine counts).Reachable s) (ha : (s.main a).Critical)
    (hb : (s.main b).Critical) : a = b := by
  by_contra hn
  have h := accounted r
  have ho := Ordered.of_reachable r
  have hma := h.mem_replied ha.requesting.right hn
  have hmb := h.mem_replied hb.requesting.right (Ne.symm hn)
  have hab := ho.granted hn (.inr (List.count_pos_iff.mpr hma)) hb.requesting.left
  have hba := ho.granted (Ne.symm hn) (.inr (List.count_pos_iff.mpr hmb)) ha.requesting.left
  exact lt_asymm hab hba

-- The critical sections of a run follow each other in the order of the stamps of their requests.
theorem critical_sections_ordered
    (h : ((machine counts).logging event).Reachable (s, l)) :
    l.Nodup ∧
    (∀ b r, .enter b r ∈ l → ∃ k, .request b r k ∈ l) ∧
    (∀ a b r r' k k', a ≠ b → .request a r k ∈ l → .request b r' k' ∈ l →
      toLex (k, a) < toLex (k', b) → .enter b r' ∈ l →
      [.leave a r, .enter b r'].Sublist l) ∧
    {i | (s.main i).Critical}.Subsingleton := by
  have hi := Logged.of_reachable h
  refine ⟨hi.nodup, fun b r he => ?_, hi.order, fun _ ha _ hb => eq_of_critical h.of_logging ha hb⟩
  have ht := hi.time _ he
  simp only [Event.node, Event.time] at ht
  have ⟨e, hl, hn, ht⟩ := hi.complete b (4 * r + 1) (by omega) (by omega)
  have ⟨k, hk⟩ := Event.eq_request hn ht
  exact ⟨k, hk ▸ hl⟩

-- Both nodes draw the number 1, and node 0 goes first.
theorem critical_sections_ordered_two :
    ∃ l : List (Event 2), l = [.request 0 0 1, .request 1 0 1, .enter 0 0, .leave 0 0, .enter 1 0] ∧
      [.leave 0 0, .enter 1 0].Sublist l :=
  have ⟨s, h⟩ : ∃ s, ((machine fun _ => 1).logging event).exec (init 2, []) (Machine.schedule [
      (5, .main 0), (6, .main 1), (4, .main 0), (3, .main 1), (6, .receiver 1), (1, .main 0),
      (6, .receiver 0), (8, .main 0), (1, .main 1)]) =
      some (s, [.request 0 0 1, .request 1 0 1, .enter 0 0, .leave 0 0, .enter 1 0]) := ⟨_, rfl⟩
  have h := critical_sections_ordered (.of_exec (by exact ⟨rfl, rfl⟩) h)
  ⟨_, rfl, h.right.right.left 0 1 0 0 1 1 (by decide) (by decide) (by decide) (by decide) (by decide)⟩

end RicartAgrawala
