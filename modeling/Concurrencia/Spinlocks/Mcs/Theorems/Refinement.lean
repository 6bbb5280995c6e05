import Concurrencia.Spinlocks.Mcs.Basic
import Concurrencia.Threads.Basic

open Function

namespace Mcs

section Step

open FifoLock (Event)

-- One constructor for each way through a statement, with the event it causes.
inductive Step {n : ℕ} (s : State n) : Option (Event (Fin n)) → State n → Prop
  | call : (s.pc i = .idle) → Step s none (s.goto i .setNext)
  | setNext : (s.pc i = .setNext) →
    Step s none ({ s with next := update s.next i none }.goto i .setLocked)
  | setLocked : (s.pc i = .setLocked) →
    Step s none ({ s with locked := update s.locked i true }.goto i .exchange)
  | exchangeFree : (s.pc i = .exchange) → (s.tail = none) →
    Step s (some (.enqueue i)) ({ s with tail := some i }.goto i .clearLocked)
  | exchange : (s.pc i = .exchange) → (s.tail = some p) →
    Step s (some (.enqueue i)) ({ s with tail := some i }.goto i (.link p))
  | link : (s.pc i = .link p) →
    Step s none ({ s with next := update s.next p (some i) }.goto i .spin)
  | spin : (s.pc i = .spin) → (s.locked i = true) → Step s none (s.goto i .spin)
  | pass : (s.pc i = .spin) → (s.locked i = false) → Step s none (s.goto i .clearLocked)
  | clearLocked : (s.pc i = .clearLocked) →
    Step s (some (.enter i)) ({ s with locked := update s.locked i false }.goto i .critical)
  | leave : (s.pc i = .critical) → Step s none (s.goto i .testNext)
  | last : (s.pc i = .testNext) → (s.next i = none) → Step s none (s.goto i .compareExchange)
  | compareExchange : (s.pc i = .compareExchange) → (s.tail = some i) →
    Step s (some (.leave i)) ({ s with tail := none }.goto i .idle)
  | fail : (s.pc i = .compareExchange) → (s.tail ≠ some i) → Step s none (s.goto i .waitNext)
  | waitNext : (s.pc i = .waitNext) → (s.next i = none) → Step s none (s.goto i .waitNext)
  | linked : (s.pc i = .testNext ∨ s.pc i = .waitNext) → (s.next i ≠ none) →
    Step s none (s.goto i .loadNext)
  | loadNext : (s.pc i = .loadNext) → (s.next i = some k) → Step s none (s.goto i (.clearNext k))
  | clearNext : (s.pc i = .clearNext k) →
    Step s (some (.leave i)) ({ s with locked := update s.locked k false }.goto i .idle)

variable {n : ℕ} {s s' : State n} {i : Fin n}

theorem Step.of_step (h : step s i = some s') : Step s (event s i) s' := by
  cases hp : s.pc i <;> simp only [step, event, hp] at h ⊢
  case exchange =>
    cases ht : s.tail <;> simp only [ht] at h
    all_goals cases h
    · exact .exchangeFree hp ht
    · exact .exchange hp ht
  case spin =>
    cases hl : s.locked i <;> simp only [hl] at h
    all_goals cases h
    · exact .pass hp hl
    · exact .spin hp hl
  case testNext =>
    split_ifs at h with hn
    all_goals cases h
    · exact .last hp hn
    · exact .linked (.inl hp) hn
  case compareExchange =>
    split_ifs at h ⊢ with ht
    all_goals cases h
    · exact .compareExchange hp ht
    · exact .fail hp ht
  case waitNext =>
    split_ifs at h with hn
    all_goals cases h
    · exact .waitNext hp hn
    · exact .linked (.inr hp) hn
  case loadNext =>
    have ⟨k, hk, h⟩ := Option.map_eq_some_iff.mp h
    exact h ▸ .loadNext hp hk
  all_goals cases h
  case idle        => exact .call hp
  case setNext     => exact .setNext hp
  case setLocked   => exact .setLocked hp
  case link        => exact .link hp
  case clearLocked => exact .clearLocked hp
  case critical    => exact .leave hp
  case clearNext   => exact .clearNext hp

end Step

open FifoLock (Event)

variable {n : ℕ} {s s' : State n} {i j k a b : Fin n} {p : Pc n} {q r : List (Fin n)}

namespace Pc

-- Between the exchange on `tail` and the end of `unlock`.
def Queued : Pc n → Prop
  | idle | setNext | setLocked | exchange => False
  | _                                     => True

end Pc

-- Thread `b` is linked to thread `a`, or about to link itself.
def Behind (s : State n) (a b : Fin n) : Prop :=
  s.pc b = .link a ∧ s.next a = none ∨ s.pc b = .spin ∧ s.next a = some b

-- The threads of the queue behind thread `a`.
def Linked (s : State n) : Fin n → List (Fin n) → Prop
  | a, []     => s.next a = none
  | a, b :: q => Behind s a b ∧ s.locked b = true ∧ Linked s b q

def Head (s : State n) (inside : Bool) (i : Fin n) (q : List (Fin n)) : Pc n → Prop
  | .spin            => inside = false ∧ s.locked i = false
  | .clearLocked     => inside = false
  | .critical        => inside = true
  | .testNext        => inside = true
  | .compareExchange => inside = true
  | .waitNext        => inside = true ∧ q ≠ []
  | .loadNext        => inside = true ∧ s.next i ≠ none
  | .clearNext k     => inside = true ∧ s.next i = some k
  | _                => False

theorem Head.queued {inside : Bool} (h : Head s inside i q p) : p.Queued := by
  cases p <;> first | exact h.elim | trivial

-- What a thread has prepared of its node before the exchange.
def Ready (s : State n) (i : Fin n) : Pc n → Prop
  | .setLocked => s.next i = none
  | .exchange  => s.next i = none ∧ s.locked i = true
  | _          => True

theorem Ready.of_queued (h : p.Queued) : Ready s i p := by
  cases p <;> first | exact h.elim | trivial

structure Refines (s : State n) (t : FifoLock.State (Fin n)) : Prop where
  nodup   : t.queue.Nodup
  queued  : ∀ i, i ∈ t.queue ↔ (s.pc i).Queued
  tail    : s.tail = t.queue.getLast?
  outside : t.queue = [] → t.inside = false
  head    : ∀ {i q}, t.queue = i :: q → Head s t.inside i q (s.pc i) ∧ Linked s i q
  ready   : ∀ i, Ready s i (s.pc i)

namespace Linked

theorem congr
    (h : Linked s a q) (hp : ∀ b ∈ q, s'.pc b = s.pc b) (hl : ∀ b ∈ q, s'.locked b = s.locked b)
    (hn : ∀ b ∈ a :: q, s'.next b = s.next b) : Linked s' a q := by
  induction q generalizing a
  case nil => simpa [Linked] using (hn a (by simp)).trans h
  case cons b q hi =>
    have ⟨hb, hlb, h⟩ := h
    refine ⟨?_, (hl b (by simp)).trans hlb, hi h ?_ ?_ ?_⟩
    · rwa [Behind, hp b (by simp), hn a (by simp)]
    · exact fun c hc => hp c (by simp [hc])
    · exact fun c hc => hl c (by simp [hc])
    · exact fun c hc => hn c (List.mem_cons_of_mem _ hc)

theorem waiting (h : Linked s a q) (hb : b ∈ q) :
    ((∃ p, s.pc b = .link p) ∨ s.pc b = .spin) ∧ s.locked b = true := by
  induction q generalizing a
  case nil => cases hb
  case cons c q hi =>
    have ⟨hc, hl, h⟩ := h
    cases hb
    case tail hb => exact hi h hb
    case head    => exact ⟨Or.imp (fun h => ⟨a, h.left⟩) And.left hc, hl⟩

theorem of_link (h : Linked s a q) (hi : i ∈ q) (hp : s.pc i = .link j) :
    j ∈ a :: q ∧ s.next j = none := by
  induction q generalizing a
  case nil => cases hi
  case cons b q ih =>
    have ⟨hb, _, h⟩ := h
    cases hi
    case head    => simp_all [Behind]
    case tail hi =>
      have ⟨hj, hn⟩ := ih h hi
      exact ⟨List.mem_cons_of_mem _ hj, hn⟩

-- The exchange on `tail` puts thread `i` behind the last one.
theorem concat
    (h : Linked s a q) (hp : ∀ b ∈ q, s'.pc b = s.pc b) (hl : ∀ b ∈ q, s'.locked b = s.locked b)
    (hn : ∀ b ∈ a :: q, s'.next b = s.next b)
    (hi : s'.pc i = .link ((a :: q).getLast (by simp))) (hli : s'.locked i = true)
    (hni : s'.next i = none) : Linked s' a (q ++ [i]) := by
  induction q generalizing a
  case nil => exact ⟨Or.inl ⟨hi, (hn a (by simp)).trans h⟩, hli, hni⟩
  case cons b q ih =>
    have ⟨hb, hlb, h⟩ := h
    refine ⟨?_, (hl b (by simp)).trans hlb, ih h ?_ ?_ ?_ (by simpa using hi)⟩
    · rwa [Behind, hp b (by simp), hn a (by simp)]
    · exact fun c hc => hp c (by simp [hc])
    · exact fun c hc => hl c (by simp [hc])
    · exact fun c hc => hn c (List.mem_cons_of_mem _ hc)

-- A thread in the queue links itself to its predecessor.
theorem link
    (h : Linked s a q) (hd : (a :: q).Nodup) (hi : i ∈ q) (hp : s.pc i = .link j) :
    Linked ({ s with next := update s.next j (some i) }.goto i .spin) a q := by
  induction q generalizing a
  case nil => cases hi
  case cons b q ih =>
    have ⟨hb, hl, hq⟩ := h
    have ⟨ha, hd'⟩ := List.nodup_cons.mp hd
    have ⟨hbq, _⟩ := List.nodup_cons.mp hd'
    by_cases hbi : b = i
    case pos =>
      subst hbi
      have hj : j = a := by simp_all [Behind]
      subst hj
      refine ⟨Or.inr ⟨update_self .., update_self ..⟩, hl, hq.congr ?_ ?_ ?_⟩
      · exact fun c hc => update_of_ne (ne_of_mem_of_not_mem hc hbq) ..
      · exact fun _ _ => rfl
      · exact fun c hc => update_of_ne (ne_of_mem_of_not_mem hc ha) ..
    case neg =>
      have hi : i ∈ q := by simpa [Ne.symm hbi] using hi
      have hja : a ≠ j := fun hja => ha <| hja ▸ (hq.of_link hi hp).left
      exact ⟨by simpa [Behind, State.goto, hbi, hja] using hb, hl, ih hq hd' hi⟩

end Linked

namespace Refines

variable {t : FifoLock.State (Fin n)}

theorem init (h : (machine n).init s) : Refines s (FifoLock.init (Fin n)) where
  nodup     := .nil
  queued    := by simp [FifoLock.init, h.left, Pc.Queued]
  tail      := h.right
  outside _ := rfl
  head h    := by simp [FifoLock.init] at h
  ready i   := by rw [h.left i]; trivial

variable (ref : Refines s t)
include ref

-- A thread in the queue which is not about to wait is its head.
theorem eq_head (hp : s.pc i = p) (hi : p.Queued) (hl : ∀ j, p ≠ .link j)
    (hs : p = .spin → s.locked i = false) : ∃ q, t.queue = i :: q ∧ Head s t.inside i q p := by
  subst hp
  have hi := (ref.queued i).mpr hi
  cases hq : t.queue
  case nil => simp [hq] at hi
  case cons a q =>
    rw [hq] at hi
    cases hi
    case head    => exact ⟨q, rfl, (ref.head hq).left⟩
    case tail hi =>
      have ⟨hw, hn⟩ := (ref.head hq).right.waiting hi
      cases hw
      case inl h =>
        have ⟨p, hp⟩ := h
        exact absurd hp (hl p)
      case inr h => simp [hs h] at hn

-- The threads which prepare their nodes are not disturbed by the others.
theorem ready_step (hp : s'.pc = update s.pc i p) (h : Ready s' i p)
    (hn : ∀ j ≠ i, ¬(s.pc j).Queued → s'.next j = s.next j)
    (hl : ∀ j ≠ i, ¬(s.pc j).Queued → s'.locked j = s.locked j) (j : Fin n) :
    Ready s' j (s'.pc j) := by
  by_cases hji : j = i
  case pos => simpa [hji, hp] using h
  case neg =>
    have hr := ref.ready j
    rw [hp, update_of_ne hji]
    by_cases hq : (s.pc j).Queued
    case pos => exact .of_queued hq
    case neg =>
      have hn := hn j hji hq
      have hl := hl j hji hq
      cases hpj : s.pc j <;> simp_all [Ready]

-- The steps of a thread which is not in the queue.
theorem local_step (hi : ¬(s.pc i).Queued) (hp : s'.pc = update s.pc i p) (hq : ¬p.Queued)
    (ht : s'.tail = s.tail) (hl : ∀ j ≠ i, s'.locked j = s.locked j)
    (hn : ∀ j ≠ i, s'.next j = s.next j) (hr : Ready s' i p) : Refines s' t := by
  have hpc {j : Fin n} (hj : j ≠ i) : s'.pc j = s.pc j := by rw [hp, update_of_ne hj]
  have hne {j : Fin n} (hj : j ∈ t.queue) : j ≠ i := fun hji => hi <| (ref.queued i).mp (hji ▸ hj)
  constructor
  case nodup   => exact ref.nodup
  case tail    => exact ht ▸ ref.tail
  case outside => exact ref.outside
  case queued  =>
    intro j
    rw [ref.queued, hp, Threads.update_iff (P := Pc.Queued) (by simp [hi, hq])]
  case ready   => exact ref.ready_step hp hr (fun j hj _ => hn j hj) fun j hj _ => hl j hj
  case head =>
    intro a q ha
    have ⟨hh, hw⟩ := ref.head ha
    have hai := hne (j := a) (by simp [ha])
    have hqi {b : Fin n} (hb : b ∈ q) : b ≠ i := hne (by simp [ha, hb])
    constructor
    · rw [hpc hai]
      cases hpa : s.pc a <;> simp_all [Head]
    · apply hw.congr
      · exact fun b hb => hpc (hqi hb)
      · exact fun b hb => hl b (hqi hb)
      · exact fun b hb => hn b <| hne (by rwa [ha])

-- The steps of the head of the queue up to its hand-over.
theorem head_step (hq : t.queue = i :: q) (hp : s'.pc = update s.pc i p) (ht : s'.tail = s.tail)
    (hn : s'.next = s.next) (hl : ∀ j ≠ i, s'.locked j = s.locked j) {b : Bool}
    (h : Head s' b i q p) : Refines s' ⟨t.queue, b⟩ := by
  have hi : (s.pc i).Queued := (ref.queued i).mp (by simp [hq])
  have hqi {j : Fin n} (hj : j ∈ q) : j ≠ i := by
    have hd := hq ▸ ref.nodup
    exact fun hji => (List.nodup_cons.mp hd).left (hji ▸ hj)
  constructor
  case nodup   => exact ref.nodup
  case tail    => exact ht ▸ ref.tail
  case outside => simp [hq]
  case queued  =>
    intro j
    rw [ref.queued, hp, Threads.update_iff (P := Pc.Queued) (by simp [hi, h.queued])]
  case ready   =>
    exact ref.ready_step hp (.of_queued h.queued) (fun _ _ _ => by rw [hn]) fun j hj _ => hl j hj
  case head =>
    intro a r ha
    simp only [hq, List.cons.injEq] at ha
    obtain ⟨rfl, rfl⟩ := ha
    refine ⟨by simpa [hp] using h, (ref.head hq).right.congr ?_ ?_ ?_⟩
    · exact fun b hb => by rw [hp, update_of_ne (hqi hb)]
    · exact fun b hb => hl b (hqi hb)
    · exact fun _ _ => by rw [hn]

theorem head_goto (hq : t.queue = i :: q) (h : Head s t.inside i q p) : Refines (s.goto i p) t :=
  have hp : (s.goto i p).pc = update s.pc i p := rfl
  ref.head_step hq hp rfl rfl (fun _ _ => rfl) h

theorem enter (hq : t.queue = i :: q) :
    Refines ({ s with locked := update s.locked i false }.goto i .critical) ⟨i :: q, true⟩ := by
  have hp : ({ s with locked := update s.locked i false }.goto i .critical).pc =
      update s.pc i .critical := rfl
  rw [← hq]
  exact ref.head_step hq hp rfl rfl (fun _ hj => update_of_ne hj ..) rfl

-- The exchange on `tail`.
theorem enqueue (hi : s.pc i = .exchange) (hp : s'.pc = update s.pc i p) (ht : s'.tail = some i)
    (hn : s'.next = s.next) (hl : s'.locked = s.locked)
    (hpt : p = match s.tail with | none => .clearLocked | some p => .link p) :
    Refines s' ⟨t.queue ++ [i], t.inside⟩ := by
  have hq : p.Queued := by cases h : s.tail <;> simp [hpt, h, Pc.Queued]
  have hni : i ∉ t.queue := by simp [ref.queued, hi, Pc.Queued]
  have hne {j : Fin n} (hj : j ∈ t.queue) : j ≠ i := fun hji => hni (hji ▸ hj)
  have ⟨hnx, hlk⟩ : s.next i = none ∧ s.locked i = true := by simpa [hi, Ready] using ref.ready i
  constructor
  case nodup   => exact List.nodup_append.mpr ⟨ref.nodup, by simp, by simpa using fun _ => hne⟩
  case tail    => simpa using ht
  case outside => simp
  case ready   =>
    exact ref.ready_step hp (.of_queued hq) (fun _ _ _ => by rw [hn]) fun _ _ _ => by rw [hl]
  case queued =>
    intro j
    by_cases hj : j = i
    case pos => simp [hj, hp, hq]
    case neg => simp [hj, hp, ref.queued]
  case head =>
    intro a r ha
    cases htq : t.queue
    case nil =>
      simp only [htq, List.nil_append, List.cons.injEq] at ha
      have htail : s.tail = none := by simp [ref.tail, htq]
      obtain ⟨rfl, rfl⟩ := ha
      simp only [htail] at hpt
      simp [hp, hpt, Head, Linked, hn, hnx, ref.outside htq]
    case cons b q =>
      simp only [htq, List.cons_append, List.cons.injEq] at ha
      have htail : s.tail = some ((b :: q).getLast (by simp)) := by
        rw [ref.tail, htq, List.getLast?_eq_getLast_of_ne_nil]
      have ⟨hh, hw⟩ := ref.head htq
      obtain ⟨rfl, rfl⟩ := ha
      simp only [htail] at hpt
      have hbi : b ≠ i := hne (by simp [htq])
      constructor
      · rw [hp, update_of_ne hbi]
        cases hpb : s.pc b <;> simp_all [Head]
      · apply hw.concat
        · exact fun c hc => by rw [hp, update_of_ne (hne (by simp [htq, hc]))]
        · exact fun _ _ => by rw [hl]
        · exact fun _ _ => by rw [hn]
        · simp [hp, hpt]
        · rw [hl, hlk]
        · rw [hn, hnx]

-- A thread behind the head links itself to its predecessor.
theorem link (hi : s.pc i = .link j) :
    Refines ({ s with next := update s.next j (some i) }.goto i .spin) t := by
  have ⟨a, q, hq, hai, hiq⟩ : ∃ a q, t.queue = a :: q ∧ a ≠ i ∧ i ∈ q := by
    have hm := (ref.queued i).mpr (by simp [hi, Pc.Queued])
    cases hq : t.queue
    case nil => simp [hq] at hm
    case cons a q =>
      have hai : a ≠ i := by
        intro hai
        have hh := (ref.head hq).left
        simp [hai, hi, Head] at hh
      rw [hq] at hm
      exact ⟨a, q, rfl, hai, List.mem_of_ne_of_mem hai.symm hm⟩
  have ⟨hh, hw⟩ := ref.head hq
  have ⟨hj, hn⟩ := hw.of_link hiq hi
  constructor
  case nodup   => exact ref.nodup
  case tail    => exact ref.tail
  case outside => exact ref.outside
  case ready =>
    apply ref.ready_step (i := i) (p := .spin) rfl trivial
    · refine fun k _ hk => update_of_ne (fun hkj => hk ?_) ..
      rwa [← ref.queued, hq, hkj]
    · exact fun _ _ _ => rfl
  case queued =>
    intro k
    rw [ref.queued, State.goto, Threads.update_iff (P := Pc.Queued) (by simp [hi, Pc.Queued])]
  case head =>
    intro b r hb
    simp only [hq, List.cons.injEq] at hb
    obtain ⟨rfl, rfl⟩ := hb
    refine ⟨?_, hw.link (hq ▸ ref.nodup) hiq hi⟩
    rw [State.goto_pc_of_ne hai]
    by_cases haj : a = j
    case neg => cases hpa : s.pc a <;> simp_all [Head]
    case pos => cases hpa : s.pc a <;> simp_all [Head]

-- `unlock` finds nobody behind.
theorem leave_last (hq : t.queue = i :: q) (ht : s.tail = some i) :
    Refines ({ s with tail := none }.goto i .idle) ⟨q, false⟩ := by
  have hd := hq ▸ ref.nodup
  obtain rfl : q = [] := by
    cases q
    case nil => rfl
    case cons b q =>
      rw [ref.tail, hq, List.getLast?_cons_cons] at ht
      exact absurd (List.mem_of_getLast? ht) (List.nodup_cons.mp hd).left
  constructor
  case nodup   => exact .nil
  case tail    => rfl
  case outside => exact fun _ => rfl
  case head    => simp
  case ready   => exact ref.ready_step (i := i) (p := .idle) rfl trivial (by simp) (by simp)
  case queued =>
    intro j
    have hj := ref.queued j
    by_cases hji : j = i
    case pos => simp [hji, Pc.Queued]
    case neg => simpa [hji, hq] using hj

-- `unlock` hands the lock over to the next thread.
theorem leave (hq : t.queue = i :: q) (hn : s.next i = some k) :
    Refines ({ s with locked := update s.locked k false }.goto i .idle) ⟨q, false⟩ := by
  have hd := hq ▸ ref.nodup
  have hw := (ref.head hq).right
  cases q
  case nil => simp [Linked, hn] at hw
  case cons b r =>
    have ⟨hb, hl, hw⟩ := hw
    obtain ⟨hp, rfl⟩ : s.pc b = .spin ∧ b = k := by simp_all [Behind]
    have ⟨hi, hd⟩ := List.nodup_cons.mp hd
    have ⟨hbr, _⟩ := List.nodup_cons.mp hd
    constructor
    case nodup   => exact hd
    case tail    => simpa [hq] using ref.tail
    case outside => simp
    case ready =>
      apply ref.ready_step (i := i) (p := .idle) rfl trivial
      · exact fun _ _ _ => rfl
      · refine fun j _ hj => update_of_ne (fun hjb => hj ?_) ..
        simp [hjb, hp, Pc.Queued]
    case queued =>
      intro j
      have hj := ref.queued j
      by_cases hji : j = i
      case pos => simpa [hji, Pc.Queued] using hi
      case neg => simpa [hji, hq] using hj
    case head =>
      intro c r' hc
      obtain ⟨rfl, rfl⟩ : b = c ∧ r = r' := by simpa using hc
      have hbi : b ≠ i := fun hbi => hi (by simp [hbi])
      refine ⟨by simp [hbi, hp, Head], hw.congr ?_ ?_ ?_⟩
      · exact fun c hc => State.goto_pc_of_ne fun hci => hi (by simp [← hci, hc])
      · exact fun c hc => update_of_ne (ne_of_mem_of_not_mem hc hbr) ..
      · exact fun _ _ => rfl

end Refines

-- Each step of the lock is one of the specification, or none.
theorem Refines.step {t : FifoLock.State (Fin n)} {e : Option (Event (Fin n))} (ref : Refines s t)
    (h : Step s e s') :
    ∃ t', (FifoLock.machine (Fin n)).Run t e.toList t' ∧ Refines s' t' := by
  have run {e : Event (Fin n)} {t' : FifoLock.State (Fin n)} (ht : FifoLock.Step t e t')
      (hr : Refines s' t') : ∃ t', (FifoLock.machine (Fin n)).Run t [e] t' ∧ Refines s' t' :=
    ⟨t', .single (FifoLock.step_iff.mpr ht), hr⟩
  have stay (hr : Refines s' t) : ∃ t', (FifoLock.machine (Fin n)).Run t [] t' ∧ Refines s' t' :=
    ⟨t, .refl, hr⟩
  cases h <;> simp only [Option.toList]
  case call i hp =>
    exact stay <| ref.local_step (by simp [hp, Pc.Queued]) rfl id rfl (by simp) (by simp) trivial
  case setNext i hp =>
    exact stay <| ref.local_step (i := i) (p := .setLocked) (by simp [hp, Pc.Queued]) rfl id rfl
      (by simp) (by simp +contextual) (by simp [Ready])
  case setLocked i hp =>
    have hn := ref.ready i
    simp only [hp, Ready] at hn
    exact stay <| ref.local_step (i := i) (p := .exchange) (by simp [hp, Pc.Queued]) rfl id rfl
      (by simp +contextual) (by simp) (by simp [Ready, hn])
  case exchangeFree i hp ht =>
    exact run (.enqueue <| by simp [ref.queued, hp, Pc.Queued])
      (ref.enqueue hp rfl rfl rfl rfl (by simp [ht]))
  case exchange i p hp ht =>
    exact run (.enqueue <| by simp [ref.queued, hp, Pc.Queued])
      (ref.enqueue hp rfl rfl rfl rfl (by simp [ht]))
  case link i p hp => exact stay <| ref.link hp
  case spin i hp hl =>
    have hs : s.goto i .spin = s := by rw [← hp, State.goto, update_eq_self]
    refine stay ?_
    rw [hs]
    exact ref
  case pass i hp hl =>
    have ⟨q, hq, hh⟩ := ref.eq_head hp trivial (by simp) fun _ => hl
    exact stay <| ref.head_goto hq hh.left
  case clearLocked i hp =>
    have ⟨q, hq, hh⟩ := ref.eq_head hp trivial (by simp) (by simp)
    exact run (.enter hq hh) (ref.enter hq)
  case leave i hp =>
    have ⟨q, hq, hh⟩ := ref.eq_head hp trivial (by simp) (by simp)
    exact stay <| ref.head_goto hq hh
  case last i hp hn =>
    have ⟨q, hq, hh⟩ := ref.eq_head hp trivial (by simp) (by simp)
    exact stay <| ref.head_goto hq hh
  case compareExchange i hp ht =>
    have ⟨q, hq, hh⟩ := ref.eq_head hp trivial (by simp) (by simp)
    exact run (.leave hq hh) (ref.leave_last hq ht)
  case fail i hp ht =>
    have ⟨q, hq, hh⟩ := ref.eq_head hp trivial (by simp) (by simp)
    have hn : q ≠ [] := by
      intro h
      simp [ref.tail, hq, h] at ht
    exact stay <| ref.head_goto hq ⟨hh, hn⟩
  case waitNext i hp hn =>
    have ⟨q, hq, hh⟩ := ref.eq_head hp trivial (by simp) (by simp)
    exact stay <| ref.head_goto hq hh
  case linked i hp hn =>
    have ⟨q, hq, hh⟩ : ∃ q, t.queue = i :: q ∧ t.inside = true := by
      cases hp
      case inl hp => exact ref.eq_head hp trivial (by simp) (by simp)
      case inr hp =>
        have ⟨q, hq, hh⟩ := ref.eq_head hp trivial (by simp) (by simp)
        exact ⟨q, hq, hh.left⟩
    exact stay <| ref.head_goto hq ⟨hh, hn⟩
  case loadNext i k hp hn =>
    have ⟨q, hq, hh⟩ := ref.eq_head hp trivial (by simp) (by simp)
    exact stay <| ref.head_goto hq ⟨hh.left, hn⟩
  case clearNext i k hp =>
    have ⟨q, hq, hh⟩ := ref.eq_head hp trivial (by simp) (by simp)
    exact run (.leave hq hh.left) (ref.leave hq hh.right)

theorem refines_of_reachable {l : List (Event (Fin n))}
    (r : ((machine n).logging event).Reachable (s, l)) :
    ∃ t, (FifoLock.machine (Fin n)).Run (FifoLock.init (Fin n)) l t ∧ Refines s t := by
  apply r.simulation (R := fun s _ t => Refines s t)
  case init => exact fun _ => .init
  case step =>
    intro s i s' l t _ ref h
    exact ref.step (.of_step h)

end Mcs
