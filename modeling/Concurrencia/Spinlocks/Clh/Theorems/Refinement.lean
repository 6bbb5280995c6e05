import Concurrencia.Spinlocks.Clh.Basic
import Concurrencia.Threads.Basic
import Mathlib.Logic.Equiv.Basic

open Function

namespace Clh

open FifoLock (Event)

variable {n : ℕ} {s s' : State n} {i j k : Fin n} {p : Pc n} {q r : List (Fin n)}
variable {a b x y : Node n}

namespace Pc

-- Between the exchange on `tail` and the end of `unlock`.
def Queued : Pc n → Prop
  | idle | setLocked | exchange => False
  | _                           => True

def Waiting : Pc n → Prop
  | setPrev _ | spin _ => True
  | _                  => False

def Head (inside : Bool) : Pc n → Prop
  | setPrev _ | spin _                        => inside = false
  | critical | loadPrev | adopt _ | clear _   => inside = true
  | _                                         => False

end Pc

-- The node by which a thread stands in the queue, if it does, and else its own node.
def State.enq (s : State n) (i : Fin n) : Node n :=
  match s.pc i with
  | .clear tmp => tmp
  | _          => s.node i

-- Node `a` is the predecessor of thread `i` in the queue.
def Watches (s : State n) (i : Fin n) (a : Node n) : Prop :=
  match s.pc i with
  | .setPrev p            => p = a
  | .spin p               => p = a ∧ s.prev (s.enq i) = a
  | .critical | .loadPrev => s.prev (s.enq i) = a
  | .adopt p              => p = a
  | .clear _              => s.node i = a
  | _                     => False

-- The queue begins with node `a`, and each thread stands behind the node of its predecessor.
def Chain (s : State n) : Node n → List (Fin n) → Prop
  | a, []     => s.tail = a
  | a, i :: q => Watches s i a ∧ s.locked (s.enq i) = true ∧ Chain s (s.enq i) q

-- The nodes are shared out: one to each thread, and one to the front of the queue.
def slot (s : State n) (x : Node n) : Option (Fin n) → Node n
  | none   => x
  | some i => s.enq i

structure Refines (s : State n) (x : Node n) (t : FifoLock.State (Fin n)) : Prop where
  nodup   : t.queue.Nodup
  queued  : ∀ i, i ∈ t.queue ↔ (s.pc i).Queued
  outside : t.queue = [] → t.inside = false
  head    : ∀ {i q}, t.queue = i :: q → (s.pc i).Head t.inside ∧ ∀ j ∈ q, (s.pc j).Waiting
  chain   : Chain s x t.queue
  free    : s.locked x = false
  slots   : Injective (slot s x)
  ready   : ∀ {i}, s.pc i = .exchange → s.locked (s.node i) = true

theorem Watches.unique (ha : Watches s i a) (hb : Watches s i b) : a = b := by
  cases hp : s.pc i <;> simp_all [Watches]

theorem Watches.queued (h : Watches s i a) : (s.pc i).Queued := by
  cases hp : s.pc i <;> simp_all [Watches, Pc.Queued]

theorem enq_congr (hp : s'.pc i = s.pc i) (hn : s'.node i = s.node i) : s'.enq i = s.enq i := by
  rw [State.enq, State.enq, hp, hn]

theorem Watches.congr (h : Watches s i a) (hp : s'.pc i = s.pc i) (hn : s'.node i = s.node i)
    (hv : s'.prev (s.enq i) = s.prev (s.enq i)) : Watches s' i a := by
  rwa [Watches, hp, hn, enq_congr hp hn, hv]

namespace Chain

theorem congr
    (h : Chain s a q) (hw : ∀ i ∈ q, ∀ b, Watches s i b → Watches s' i b)
    (he : ∀ i ∈ q, s'.enq i = s.enq i) (hl : ∀ i ∈ q, s'.locked (s.enq i) = s.locked (s.enq i))
    (ht : s'.tail = s.tail) : Chain s' a q := by
  induction q generalizing a
  case nil => exact ht.trans h
  case cons i q hi =>
    have ⟨hwi, hli, h⟩ := h
    refine ⟨hw i (by simp) a hwi, ?_, ?_⟩
    · rw [he i (by simp), hl i (by simp), hli]
    · rw [he i (by simp)]
      apply hi h
      · exact fun j hj => hw j (by simp [hj])
      · exact fun j hj => he j (by simp [hj])
      · exact fun j hj => hl j (by simp [hj])

-- The exchange on `tail` puts thread `i` behind the last one.
theorem concat
    (h : Chain s a q) (hw : ∀ i ∈ q, ∀ b, Watches s i b → Watches s' i b)
    (he : ∀ i ∈ q, s'.enq i = s.enq i) (hl : ∀ i ∈ q, s'.locked (s.enq i) = s.locked (s.enq i))
    (hi : Watches s' i s.tail) (hli : s'.locked (s'.enq i) = true) (ht : s'.tail = s'.enq i) :
    Chain s' a (q ++ [i]) := by
  induction q generalizing a
  case nil => exact ⟨(show s.tail = a from h) ▸ hi, hli, ht⟩
  case cons j q ih =>
    have ⟨hwj, hlj, h⟩ := h
    refine ⟨hw j (by simp) a hwj, ?_, ?_⟩
    · rw [he j (by simp), hl j (by simp), hlj]
    · rw [he j (by simp)]
      apply ih h
      · exact fun k hk => hw k (by simp [hk])
      · exact fun k hk => he k (by simp [hk])
      · exact fun k hk => hl k (by simp [hk])

-- The predecessor of a thread is the front of the queue, or the node of another thread in the queue.
theorem watched (h : Chain s a q) (hi : i ∈ q) :
    ∃ b, Watches s i b ∧ (b = a ∨ ∃ k ∈ q, b = s.enq k ∧ s.locked b = true) := by
  induction q generalizing a
  case nil => cases hi
  case cons j q ih =>
    have ⟨hwj, hlj, h⟩ := h
    cases hi
    case head    => exact ⟨a, hwj, .inl rfl⟩
    case tail hi =>
      have ⟨b, hw, hb⟩ := ih h hi
      refine ⟨b, hw, .inr ?_⟩
      cases hb
      case inl hb => exact ⟨j, by simp, hb, hb ▸ hlj⟩
      case inr hk =>
        have ⟨k, hk, hb⟩ := hk
        exact ⟨k, by simp [hk], hb⟩

end Chain

namespace Refines

variable {t : FifoLock.State (Fin n)}

theorem init (h : (machine n).init s) : Refines s none (FifoLock.init (Fin n)) where
  nodup     := .nil
  queued    := by simp [FifoLock.init, h.left, Pc.Queued]
  outside _ := rfl
  head h    := by simp [FifoLock.init] at h
  chain     := h.right.right
  free      := h.right.left
  ready hi  := by simp [h.left] at hi
  slots     := by
    have he (i : Fin n) : s.enq i = some i := by simp [State.enq, h.left]
    intro o o' ho
    cases o <;> cases o' <;> simp_all [slot]

variable (ref : Refines s x t)
include ref

theorem enq_ne (h : j ≠ i) : s.enq j ≠ s.enq i :=
  ref.slots.ne (show some j ≠ some i by simpa)

theorem front_ne : x ≠ s.enq i :=
  ref.slots.ne (show none ≠ some i by simp)

-- The step of a thread which leaves the queue as it is and writes to its own node only.
theorem keep {inside : Bool}
    (hp : s'.pc = update s.pc i p) (hn : ∀ j ≠ i, s'.node j = s.node j)
    (he : s'.enq i = s.enq i) (hl : ∀ a ≠ s.enq i, s'.locked a = s.locked a)
    (hv : ∀ a ≠ s.enq i, s'.prev a = s.prev a) (ht : s'.tail = s.tail)
    (hq : p.Queued ↔ (s.pc i).Queued)
    (hi : (s.pc i).Queued →
      s'.locked (s.enq i) = s.locked (s.enq i) ∧ ∀ a, Watches s i a → Watches s' i a)
    (hin : (inside = t.inside ∧ (p.Head inside ↔ (s.pc i).Head inside) ∧
        (p.Waiting ↔ (s.pc i).Waiting)) ∨
      ∃ q, t.queue = i :: q ∧ p.Head inside)
    (hr : p = .exchange → s'.locked (s'.node i) = true) : Refines s' x ⟨t.queue, inside⟩ := by
  have hpc {j : Fin n} (hj : j ≠ i) : s'.pc j = s.pc j := by rw [hp, update_of_ne hj]
  have henq (j : Fin n) : s'.enq j = s.enq j := by
    by_cases hj : j = i
    case pos => rw [hj, he]
    case neg => exact enq_congr (hpc hj) (hn j hj)
  constructor
  case nodup   => exact ref.nodup
  case free    => rw [hl x ref.front_ne, ref.free]
  case queued =>
    intro j
    rw [ref.queued, hp, Threads.update_iff (P := Pc.Queued) hq]
  case outside =>
    intro h
    cases hin
    case inl hin => rw [hin.left, ref.outside h]
    case inr hin =>
      have ⟨q, hq, _⟩ := hin
      exact nomatch hq.symm.trans h
  case slots =>
    have hs : slot s' x = slot s x := by
      funext o
      cases o <;> simp [slot, henq]
    exact hs ▸ ref.slots
  case ready =>
    intro j hj
    by_cases hji : j = i
    case pos => exact hji ▸ hr (by simpa [hp, hji] using hj)
    case neg =>
      rw [hpc hji] at hj
      have hne := ref.enq_ne hji
      rw [State.enq, hj] at hne
      rw [hn j hji, hl _ hne, ref.ready hj]
  case chain =>
    apply ref.chain.congr
    · intro j hj b hb
      by_cases hji : j = i
      case pos => exact hji ▸ (hi <| (ref.queued i).mp (hji ▸ hj)).right b (hji ▸ hb)
      case neg => exact hb.congr (hpc hji) (hn j hji) (hv _ (ref.enq_ne hji))
    · exact fun j _ => henq j
    · intro j hj
      by_cases hji : j = i
      case pos => exact hji ▸ (hi <| (ref.queued i).mp (hji ▸ hj)).left
      case neg => exact hl _ (ref.enq_ne hji)
    · exact ht
  case head =>
    intro k r hk
    have ⟨hh, hw⟩ := ref.head hk
    cases hin
    case inl hin =>
      have ⟨hb, hpi, hwi⟩ := hin
      rw [hp]
      refine ⟨?_, fun j hj => ?_⟩
      · rw [Threads.update_iff (P := Pc.Head inside) hpi, hb]
        exact hh
      · rw [Threads.update_iff (P := Pc.Waiting) hwi]
        exact hw j hj
    case inr hin =>
      have ⟨q, hq, hpi⟩ := hin
      obtain ⟨rfl, rfl⟩ := List.cons.inj (hq.symm.trans hk)
      refine ⟨by simpa [hp] using hpi, fun j hj => ?_⟩
      have hd := (List.nodup_cons.mp (hk ▸ ref.nodup)).left
      rw [hpc (ne_of_mem_of_not_mem hj hd)]
      exact hw j hj

theorem goto {inside : Bool}
    (hq : p.Queued ↔ (s.pc i).Queued) (he : (s.goto i p).enq i = s.enq i)
    (hw : ∀ a, Watches s i a → Watches (s.goto i p) i a)
    (hin : (inside = t.inside ∧ (p.Head inside ↔ (s.pc i).Head inside) ∧
        (p.Waiting ↔ (s.pc i).Waiting)) ∨
      ∃ q, t.queue = i :: q ∧ p.Head inside)
    (hr : p ≠ .exchange) : Refines (s.goto i p) x ⟨t.queue, inside⟩ :=
  have hp : (s.goto i p).pc = update s.pc i p := rfl
  ref.keep hp (fun _ _ => rfl) he (fun _ _ => rfl) (fun _ _ => rfl) rfl hq (fun _ => ⟨rfl, hw⟩) hin
    (absurd · hr)

theorem enqueue (hi : s.pc i = .exchange) :
    Refines ({ s with tail := s.node i }.goto i (.setPrev s.tail)) x
      ⟨t.queue ++ [i], t.inside⟩ := by
  have hni : i ∉ t.queue := by simp [ref.queued, hi, Pc.Queued]
  have hne {j : Fin n} (hj : j ∈ t.queue) : j ≠ i := fun hji => hni (hji ▸ hj)
  have hei : s.enq i = s.node i := by simp [State.enq, hi]
  have henq (j : Fin n) :
      State.enq ({ s with tail := s.node i }.goto i (.setPrev s.tail)) j = s.enq j := by
    by_cases hj : j = i
    case pos => simp [hj, State.enq, hi]
    case neg => exact enq_congr (State.goto_pc_of_ne hj) rfl
  constructor
  case nodup   => exact List.nodup_append.mpr ⟨ref.nodup, by simp, by simpa using fun _ => hne⟩
  case outside => simp
  case free    => exact ref.free
  case queued =>
    intro j
    by_cases hj : j = i
    case pos => simp [hj, Pc.Queued]
    case neg => simp [hj, ref.queued]
  case slots =>
    have hs : slot ({ s with tail := s.node i }.goto i (.setPrev s.tail)) x = slot s x := by
      funext o
      cases o <;> simp [slot, henq]
    exact hs ▸ ref.slots
  case ready =>
    intro j hj
    by_cases hji : j = i
    case pos => simp [hji] at hj
    case neg => exact ref.ready (by simpa [hji] using hj)
  case chain =>
    apply ref.chain.concat
    · exact fun j hj b hb => hb.congr (State.goto_pc_of_ne (hne hj)) rfl rfl
    · exact fun j _ => henq j
    · exact fun _ _ => rfl
    · simp [Watches]
    · rw [henq, hei]
      exact ref.ready hi
    · rw [henq, hei]
      rfl
  case head =>
    intro k r hk
    cases hq : t.queue
    case nil =>
      obtain ⟨rfl, rfl⟩ : i = k ∧ [] = r := by simpa [hq] using hk
      simp [Pc.Head, ref.outside hq]
    case cons b q =>
      obtain ⟨rfl, rfl⟩ : b = k ∧ q ++ [i] = r := by simpa [hq] using hk
      have ⟨hh, hw⟩ := ref.head hq
      constructor
      · rwa [State.goto_pc_of_ne (hne (by simp [hq]))]
      · intro j hj
        by_cases hji : j = i
        case pos => simp [hji, Pc.Waiting]
        case neg =>
          rw [State.goto_pc_of_ne hji]
          exact hw j (by simpa [hji] using hj)

-- `unlock` marks its node as free and leaves it at the front of the queue.
theorem leave (hq : t.queue = i :: q) (hi : s.pc i = .clear y) :
    Refines ({ s with locked := update s.locked y false }.goto i .idle) y ⟨q, false⟩ := by
  have hei : s.enq i = y := by simp [State.enq, hi]
  have ⟨hwi, _, hc⟩ : Chain s x (i :: q) := hq ▸ ref.chain
  have hnode : s.node i = x := by simpa [Watches, hi] using hwi
  have ⟨hiq, hd⟩ := List.nodup_cons.mp (hq ▸ ref.nodup)
  have hne {j : Fin n} (hj : j ∈ q) : j ≠ i := ne_of_mem_of_not_mem hj hiq
  have hey {j : Fin n} (hj : j ≠ i) : s.enq j ≠ y := hei ▸ ref.enq_ne hj
  have henq {j : Fin n} (hj : j ≠ i) :
      State.enq ({ s with locked := update s.locked y false }.goto i .idle) j = s.enq j :=
    enq_congr (State.goto_pc_of_ne hj) rfl
  constructor
  case nodup   => exact hd
  case outside => exact fun _ => rfl
  case free    => simp
  case queued =>
    intro j
    by_cases hj : j = i
    case pos => simpa [hj, Pc.Queued] using hiq
    case neg => simpa [hj, hq] using ref.queued j
  case slots =>
    have hs : slot ({ s with locked := update s.locked y false }.goto i .idle) y =
        slot s x ∘ Equiv.swap none (some i) := by
      funext o
      cases o
      case none => simp [slot, hei]
      case some j =>
        by_cases hj : j = i
        case pos => simp [slot, hj, State.enq, hnode]
        case neg =>
          rw [comp_apply, Equiv.swap_apply_of_ne_of_ne (by simp) (by simpa using hj)]
          exact henq hj
    rw [hs]
    exact ref.slots.comp (Equiv.injective _)
  case ready =>
    intro j hj
    by_cases hji : j = i
    case pos => simp [hji] at hj
    case neg =>
      rw [State.goto_pc_of_ne hji] at hj
      have hy := hey hji
      rw [State.enq, hj] at hy
      simpa [hy] using ref.ready hj
  case chain =>
    rw [hei] at hc
    apply hc.congr
    · exact fun j hj b hb => hb.congr (State.goto_pc_of_ne (hne hj)) rfl rfl
    · exact fun j hj => henq (hne hj)
    · exact fun j hj => by simp [hey (hne hj)]
    · rfl
  case head =>
    intro k r hk
    obtain rfl : q = k :: r := hk
    have hw := (ref.head hq).right
    constructor
    · rw [State.goto_pc_of_ne (hne (by simp))]
      have hk := hw k (by simp)
      cases hp : s.pc k <;> simp_all [Pc.Waiting, Pc.Head]
    · intro j hj
      rw [State.goto_pc_of_ne (hne (by simp [hj]))]
      exact hw j (by simp [hj])

-- A thread in the queue which does not wait is its head, ...
theorem eq_head (hp : s.pc i = p) (hi : p.Queued) (hn : ¬p.Waiting) :
    ∃ q, t.queue = i :: q ∧ p.Head t.inside := by
  subst hp
  have hi := (ref.queued i).mpr hi
  cases hq : t.queue
  case nil => simp [hq] at hi
  case cons a q =>
    have ⟨hh, hw⟩ := ref.head hq
    rw [hq] at hi
    cases hi
    case head    => exact ⟨q, rfl, hh⟩
    case tail hi => exact absurd (hw i hi) hn

-- ... and so is one which sees the node of its predecessor unlocked.
theorem eq_head_of_free (hp : s.pc i = .spin a) (hl : s.locked a = false) :
    ∃ q, t.queue = i :: q ∧ t.inside = false := by
  have hi := (ref.queued i).mpr (by simp [hp, Pc.Queued])
  cases hq : t.queue
  case nil => simp [hq] at hi
  case cons b q =>
    have hh := (ref.head hq).left
    have hc : Chain s x (b :: q) := hq ▸ ref.chain
    rw [hq] at hi
    cases hi
    case head    => exact ⟨q, rfl, by simpa [hp, Pc.Head] using hh⟩
    case tail hi =>
      have ⟨_, hlb, hc⟩ := hc
      have ⟨c, hw, hc⟩ := hc.watched hi
      have ha : a = c := by
        simp only [Watches, hp] at hw
        exact hw.left
      subst ha
      cases hc
      case inl hc => simp [hc, hlb] at hl
      case inr hc =>
        have ⟨_, _, _, hlc⟩ := hc
        simp [hlc] at hl

-- Each step of the lock is one of the specification, or none.
theorem step (i : Fin n) :
    ∃ x' t', (FifoLock.machine (Fin n)).Run t (event s i).toList t' ∧ Refines (next s i) x' t' := by
  have run {s' : State n} {e : Event (Fin n)} {y : Node n} {t' : FifoLock.State (Fin n)}
      (ht : FifoLock.Step t e t') (hr : Refines s' y t') :
      ∃ x' t', (FifoLock.machine (Fin n)).Run t [e] t' ∧ Refines s' x' t' :=
    ⟨y, t', .single (FifoLock.step_iff.mpr ht), hr⟩
  have stay {s' : State n} (hr : Refines s' x t) :
      ∃ x' t', (FifoLock.machine (Fin n)).Run t [] t' ∧ Refines s' x' t' :=
    ⟨x, t, .refl, hr⟩
  cases hp : s.pc i <;> simp only [next, event, hp, Option.toList]
  case exchange =>
    exact run (.enqueue <| by simp [ref.queued, hp, Pc.Queued]) (ref.enqueue hp)
  case clear y =>
    have ⟨q, hq, hh⟩ := ref.eq_head hp trivial id
    exact run (.leave hq hh) (ref.leave hq hp)
  case idle =>
    exact stay <| ref.goto (by simp [hp, Pc.Queued]) (by simp [State.enq, hp])
      (by simp [Watches, hp]) (.inl ⟨rfl, by simp [hp, Pc.Head], by simp [hp, Pc.Waiting]⟩)
      (by simp)
  case setLocked =>
    have he : s.enq i = s.node i := by simp [State.enq, hp]
    have hp' : ({ s with locked := update s.locked (s.node i) true }.goto i .exchange).pc =
        update s.pc i .exchange := rfl
    refine stay <| ref.keep hp' (fun _ _ => rfl) ?_ ?_ (fun _ _ => rfl) rfl ?_ ?_ ?_ ?_
    · simp [State.enq, hp]
    · exact fun a ha => update_of_ne (he ▸ ha) ..
    · simp [hp, Pc.Queued]
    · simp [hp, Pc.Queued]
    · exact .inl ⟨rfl, by simp [hp, Pc.Head], by simp [hp, Pc.Waiting]⟩
    · simp
  case setPrev y =>
    have he : s.enq i = s.node i := by simp [State.enq, hp]
    have hp' : ({ s with prev := update s.prev (s.node i) y }.goto i (.spin y)).pc =
        update s.pc i (.spin y) := rfl
    refine stay <| ref.keep hp' (fun _ _ => rfl) ?_ (fun _ _ => rfl) ?_ rfl ?_ ?_ ?_ ?_
    · simp [State.enq, hp]
    · exact fun a ha => update_of_ne (he ▸ ha) ..
    · simp [hp, Pc.Queued]
    · exact fun _ => ⟨rfl, by simp [Watches, hp, State.enq]⟩
    · exact .inl ⟨rfl, by simp [hp, Pc.Head], by simp [hp, Pc.Waiting]⟩
    · simp
  case spin y =>
    cases hl : s.locked y
    case true =>
      have hs : s.goto i (.spin y) = s := by rw [← hp, State.goto, update_eq_self]
      exact stay (by simpa [hs] using ref)
    case false =>
      have ⟨q, hq, hin⟩ := ref.eq_head_of_free hp hl
      refine run (y := x) (.enter hq hin) ?_
      rw [← hq]
      exact ref.goto (by simp [hp, Pc.Queued]) (by simp [State.enq, hp])
        (by simp [Watches, hp, State.enq]) (.inr ⟨q, hq, rfl⟩) (by simp)
  case critical =>
    exact stay <| ref.goto (by simp [hp, Pc.Queued]) (by simp [State.enq, hp])
      (by simp [Watches, hp, State.enq]) (.inl ⟨rfl, by simp [hp, Pc.Head], by simp [hp, Pc.Waiting]⟩)
      (by simp)
  case loadPrev =>
    exact stay <| ref.goto (by simp [hp, Pc.Queued]) (by simp [State.enq, hp])
      (by simp [Watches, hp, State.enq]) (.inl ⟨rfl, by simp [hp, Pc.Head], by simp [hp, Pc.Waiting]⟩)
      (by simp)
  case adopt y =>
    have hp' : ({ s with node := update s.node i y }.goto i (.clear (s.node i))).pc =
        update s.pc i (.clear (s.node i)) := rfl
    refine stay <| ref.keep hp' ?_ ?_ (fun _ _ => rfl) (fun _ _ => rfl) rfl ?_ ?_ ?_ ?_
    · exact fun j hj => update_of_ne hj ..
    · simp [State.enq, hp]
    · simp [hp, Pc.Queued]
    · exact fun _ => ⟨rfl, by simp [Watches, hp]⟩
    · exact .inl ⟨rfl, by simp [hp, Pc.Head], by simp [hp, Pc.Waiting]⟩
    · simp

end Refines

theorem refines_of_reachable {l : List (Event (Fin n))}
    (r : ((machine n).logging event).Reachable (s, l)) :
    ∃ x t, (FifoLock.machine (Fin n)).Run (FifoLock.init (Fin n)) l t ∧ Refines s x t := by
  have ⟨t, run, x, ref⟩ : ∃ t, (FifoLock.machine (Fin n)).Run (FifoLock.init (Fin n)) l t ∧
      ∃ x, Refines s x t := by
    apply r.simulation (R := fun s _ t => ∃ x, Refines s x t)
    case init => exact fun _ hs => ⟨none, .init hs⟩
    case step =>
      intro s i s' l t _ ⟨x, ref⟩ h
      have ⟨y, t', run, ref⟩ := ref.step i
      exact ⟨t', run, y, Option.some.inj h ▸ ref⟩
  exact ⟨x, t, run, ref⟩

end Clh
