import Concurrencia.Distributed.RicartAgrawala.Theorems.CriticalSection
import Mathlib.Algebra.BigOperators.Ring.Finset
import Mathlib.Data.Fintype.Card
import Mathlib.Data.Fintype.Order

open Function Distributed

namespace RicartAgrawala

variable {n : ℕ} {counts : Fin n → ℕ} {s s' : State n} {p : Process n} {a b i j k : Fin n}

-- The statements at which `node` can wait, and what for.
inductive Main.Blocked (s : State n) (i : Fin n) : Prop
  | lockAcquire (h : s.main i = .lockAcquire) (hm : s.mutex i = true)
  | request (k : Fin n) (h : s.main i = .request k) (hk : s.receiver k ≠ .receive)
  | await (h : s.main i = .await) (hr : (s.replied i).length < n - 1)
  | unlockAcquire (h : s.main i = .unlockAcquire) (hm : s.mutex i = true)
  | drain (k m : ℕ) (h : s.main i = .drain k m) (hk : k < m) (hd : s.deferred i = [])
  | reply (k m : ℕ) (src : Fin n) (h : s.main i = .reply k m src) (hs : ¬s.Ready src)
  | done (h : s.main i = .done)

inductive Receiver.Blocked (s : State n) (i : Fin n) : Prop
  | receive (h : s.receiver i = .receive)
  | acquire (m : Message n) (h : s.receiver i = .acquire m) (hm : s.mutex i = true)
  | reply (m : Message n) (h : s.receiver i = .reply m) (hs : ¬s.Ready m.source)
  | defer (m : Message n) (h : s.receiver i = .defer m) (hd : n ≤ (s.deferred i).length)

theorem Main.Blocked.of_step (h : mainStep counts s i = none) : Blocked s i := by
  cases hp : s.main i <;> simp [mainStep, hp] at h
  case lockAcquire   => exact .lockAcquire hp h
  case request k     => exact .request k hp h
  case await         => exact .await hp (by omega)
  case unlockAcquire => exact .unlockAcquire hp h
  case drain k m     =>
    split_ifs at h with hk
    cases hd : s.deferred i <;> simp [hd] at h
    exact .drain k m hp hk hd
  case reply k m src => exact .reply k m src hp h
  case done          => exact .done hp

theorem Receiver.Blocked.of_step (h : receiverStep s i = none) : Blocked s i := by
  cases hp : s.receiver i <;> simp [receiverStep, hp] at h
  case receive => exact .receive hp
  case acquire => exact .acquire _ hp h
  case reply   => exact .reply _ hp h
  case defer   => exact .defer _ hp h

theorem le_length_of_mem {l : List (Fin n)} (h : ∀ b, b ≠ a → b ∈ l) : n - 1 ≤ l.length := by
  have hs : Finset.univ.erase a ⊆ l.toFinset :=
    fun b hb => List.mem_toFinset.mpr (h b (Finset.ne_of_mem_erase hb))
  have := (Finset.card_le_card hs).trans l.toFinset_card_le
  simpa [Finset.card_erase_of_mem]

structure Stuck (s : State n) : Prop where
  main (i : Fin n)     : Main.Blocked s i
  receiver (i : Fin n) : Receiver.Blocked s i

theorem Stuck.of_not_live (h : ¬(machine counts).Live s) : Stuck s where
  main i     := .of_step (Machine.not_live_step h (.main i))
  receiver i := .of_step (Machine.not_live_step h (.receiver i))

namespace Stuck

section

variable (h : Stuck s) (hg : ∀ i, Guarded s i) (ha : Accounted s) (ho : Ordered s)
include h hg ha

theorem mutex (i : Fin n) : s.mutex i = false := by
  rw [Bool.eq_false_iff, ne_eq, (hg i).mutex]
  rintro (hl | hl)
  case inl => cases h.main i <;> simp_all [Main.Locked]
  case inr =>
    cases h.receiver i <;> simp_all [Receiver.Locked]
    case defer hd =>
      have := ha.length_deferred (b := i)
      have := i.pos
      omega

theorem receiver_cases (i : Fin n) :
    s.receiver i = .receive ∨ ∃ m, s.receiver i = .reply m ∧ ¬s.Ready m.source := by
  cases h.receiver i
  case receive hr      => exact .inl hr
  case acquire m _ hm  => simp [h.mutex hg ha i] at hm
  case reply m hr hs   => exact .inr ⟨m, hr, hs⟩
  case defer m _ hd    =>
    have := ha.length_deferred (b := i)
    have := i.pos
    omega

theorem main_cases (i : Fin n) :
    (∃ k, s.main i = .request k ∧ s.receiver k ≠ .receive) ∨
    (s.main i = .await ∧ (s.replied i).length < n - 1) ∨
    (∃ k m src, s.main i = .reply k m src ∧ ¬s.Ready src) ∨ s.main i = .done := by
  cases h.main i
  case lockAcquire hm     => simp [h.mutex hg ha i] at hm
  case unlockAcquire hm   => simp [h.mutex hg ha i] at hm
  case request k hp hk    => exact .inl ⟨k, hp, hk⟩
  case await hp hr        => exact .inr (.inl ⟨hp, hr⟩)
  case reply k m src hp hs => exact .inr (.inr (.inl ⟨k, m, src, hp, hs⟩))
  case done hp            => exact .inr (.inr (.inr hp))
  case drain k m hp hk hd =>
    have := (hg i).remaining (m - k) (by simp [hp, Main.remaining])
    simp [hd] at this
    omega

-- The requests are sent in the order of the nodes: a node that does not receive the reply of `b` has
-- sent its requests to all nodes up to `b` and waits to send the next ones.
theorem request_of_answering (hn : a ≠ b) (hr : ¬s.Ready a)
    (hh : 0 < (s.receiver b).held a + (s.main b).replying a) : ∃ k, s.main a = .request k ∧ b < k := by
  have hp : 0 < s.places a b := by unfold State.places; omega
  have hi : (s.main a).InRound := by
    by_contra hi
    exact hp.ne' (ha.none hn hi)
  have ho := ha.once hn hi
  unfold State.places at ho
  rcases h.main_cases hg ha a with ⟨k, hm, -⟩ | ⟨hm, hl⟩ | ⟨k, m, src, hm, -⟩ | hm
  · refine ⟨k, hm, ?_⟩
    by_contra hk
    simp [hm, Main.pending, le_of_not_gt hk] at ho
    omega
  · exact absurd ⟨hm, hl⟩ hr
  · have := List.count_pos_iff.mpr (ha.mem_replied (by simp [hm, Main.Entered]) hn)
    omega
  · simp [hm, Main.InRound] at hi

theorem not_request (k i : Fin n) : s.main i ≠ .request k := by
  induction k using WellFoundedGT.induction generalizing i
  case ind k hi =>
    intro hp
    rcases h.main_cases hg ha i with ⟨k', hm, hk⟩ | ⟨hm, -⟩ | ⟨_, _, _, hm, -⟩ | hm <;>
      simp [hm] at hp
    subst hp
    obtain ⟨m, hm, hr⟩ := (h.receiver_cases hg ha k').resolve_left hk
    have hh : (s.receiver k').held m.source = 1 := by simp [hm, Receiver.held, Receiver.message]
    have hn := ha.other_of_message (b := k') (m := m) (by simp [hm, Receiver.message])
    obtain ⟨k'', hp, hlt⟩ := h.request_of_answering hg ha hn hr (by omega)
    exact hi k'' hlt _ hp

theorem receiver_eq (i : Fin n) : s.receiver i = .receive := by
  rcases h.receiver_cases hg ha i with hr | ⟨m, hm, hr⟩
  · exact hr
  · have hh : (s.receiver i).held m.source = 1 := by simp [hm, Receiver.held, Receiver.message]
    have hn := ha.other_of_message (b := i) (m := m) (by simp [hm, Receiver.message])
    obtain ⟨k, hp, _⟩ := h.request_of_answering hg ha hn hr (by omega)
    exact absurd hp (h.not_request hg ha k _)

theorem await_or_done (i : Fin n) :
    (s.main i = .await ∧ (s.replied i).length < n - 1) ∨ s.main i = .done := by
  rcases h.main_cases hg ha i with ⟨k, hm, -⟩ | hm | ⟨k, m, src, hm, hr⟩ | hm
  · exact absurd hm (h.not_request hg ha k i)
  · exact .inl hm
  · have hn : src ≠ i := by
      rintro rfl
      have := ha.self src
      simp [hm, Main.replying] at this
    obtain ⟨k, hp, _⟩ := h.request_of_answering hg ha hn hr (by simp [hm, Main.replying])
    exact absurd hp (h.not_request hg ha k _)
  · exact .inr hm

include ho

-- Of all nodes that wait for replies none can be the first.
theorem not_await (x : ℕ ×ₗ Fin n) (b : Fin n) (hx : s.stamp b = x) : s.main b ≠ .await := by
  induction x using WellFoundedLT.induction generalizing b
  case ind x hi =>
    intro hp
    obtain ⟨_, hl⟩ := (h.await_or_done hg ha b).resolve_right (by simp [hp])
    obtain ⟨a, hn, hm⟩ : ∃ a, a ≠ b ∧ a ∉ s.replied b := by
      by_contra! hc
      exact absurd (le_length_of_mem hc) (by omega)
    -- The reply of `a` is missing, and so `a` has deferred the request of `b`.
    have ho' := ha.once hn.symm (by simp [hp, Main.InRound])
    have hr := List.count_eq_zero.mpr hm
    have hw := h.await_or_done hg ha a
    have hd : (s.deferred a).count b = 1 := by
      have hr' : (s.main a).replying b = 0 := by
        rcases hw with ⟨hw, -⟩ | hw <;> simp [hw, Main.replying]
      simpa [State.places, hp, Main.pending, h.receiver_eq hg ha a, Receiver.held, Receiver.message,
        hr, hr'] using ho'
    rcases hw with ⟨hw, -⟩ | hw
    case inl =>
      have hlt := ho.refused hn.symm (.inr (by omega)) (by simp [hw, Main.Requesting])
      exact hi _ (hx ▸ hlt) a rfl hw
    case inr =>
      have := (hg a).remaining 0 (by simp [hw, Main.remaining])
      simp [List.length_eq_zero_iff.mp this] at hd

end

end Stuck

theorem Step.done (h : Step counts s p s') (hi : s.main i = .done → counts i ≤ s.round i) :
    s'.main i = .done → counts i ≤ s'.round i := by
  cases p
  case receiver j => cases h <;> simpa [State.turn, State.reply] using hi
  case main j =>
    rcases eq_or_ne i j with rfl | hn
    · cases h <;> simp_all [State.goto, State.turn, State.reply]
    · cases h <;> simp_all [State.goto, State.turn, State.reply]

theorem le_round_of_done (r : (machine counts).Reachable s) (i : Fin n) :
    s.main i = .done → counts i ≤ s.round i := by
  refine r.invariant (I := fun s => s.main i = .done → counts i ≤ s.round i) ?init ?step
  case init =>
    rintro _ rfl h
    simp [init] at h
  case step => exact fun _ _ _ _ hi h => (Step.of_step h).done hi

-- As long as some node has rounds to go some goroutine can take a step.
theorem deadlock_free (r : (machine counts).Reachable s) (hi : s.round i < counts i) :
    (machine counts).Live s := by
  by_contra hl
  have h := Stuck.of_not_live hl
  have hg := Guarded.of_reachable r
  have ha := accounted r
  rcases h.await_or_done hg ha i with ⟨hp, -⟩ | hp
  · exact h.not_await hg ha (.of_reachable r) _ i rfl hp
  · have := le_round_of_done r i hp
    omega

-- Node 0 waits for the reply of node 1, which is about to send its own request.
theorem deadlock_free_two :
    ∃ s : State 2, s.main 0 = .await ∧ s.main 1 = .request 0 ∧ s.receiver 0 = .receive ∧
      (machine fun _ => 1).Live s :=
  have ⟨s, h, hr, hp⟩ : ∃ s, (machine fun _ => 1).exec (init 2) (Machine.schedule [
      (9, .main 0), (6, .main 1)]) = some s ∧ s.round 0 < 1 ∧
      s.main 0 = .await ∧ s.main 1 = .request 0 ∧ s.receiver 0 = .receive :=
    ⟨_, rfl, Nat.one_pos, rfl, rfl, rfl⟩
  ⟨s, hp.left, hp.right.left, hp.right.right, deadlock_free (.of_exec rfl h) hr⟩

section Counting

variable {c r : ℕ}

namespace Main

def Fits (n c r : ℕ) : Main n → Prop
  | loop            => r ≤ c
  | done            => r = c
  | send k          => k ≤ n ∧ r < c
  | unlockRelease m => m ≤ n ∧ r < c
  | drain k m       => k ≤ m ∧ m ≤ n ∧ r < c
  | reply k m _     => k < m ∧ m ≤ n ∧ r < c
  | _               => r < c

-- The place of a statement in its round.
def place : Main n → ℕ
  | loop            => 0
  | lockAcquire     => 1
  | setRequest      => 2
  | setNumber       => 3
  | lockRelease     => 4
  | send k          => 8 * k + 5
  | request k       => 8 * k + 6
  | await           => 8 * n + 6
  | load            => 8 * n + 7
  | store _         => 8 * n + 8
  | clearRequest    => 8 * n + 9
  | unlockAcquire   => 8 * n + 10
  | measure         => 8 * n + 11
  | unlockRelease m => 8 * n + 12 + 2 * (n - m)
  | drain k m       => 8 * n + 13 + 2 * (n + k - m)
  | reply k m _     => 8 * n + 14 + 2 * (n + k - m)
  | done            => 1

-- The increments of a node which has completed `r` rounds.
def increments (r : ℕ) : Main n → ℕ
  | clearRequest | unlockAcquire | measure | unlockRelease _ | drain _ _ | reply _ _ _ => r + 1
  | _ => r

def loaded : Main n → Option ℕ
  | store v => v
  | _       => none

end Main

def Receiver.place : Receiver n → ℕ
  | acquire _             => 0
  | raise _               => 1
  | testRequest _         => 2
  | compare _             => 3
  | release _ | defer _   => 4
  | reply _ | deferRelease => 5
  | receive               => 6

theorem Step.keep (h : Step counts s (.main i) s') (hj : j ≠ i) :
    s'.main j = s.main j ∧ s'.round j = s.round j := by
  cases h <;> simp [State.goto, State.turn, State.reply, hj]

theorem Step.keep_receiver (h : Step counts s (.receiver i) s') :
    s'.main = s.main ∧ s'.round = s.round ∧ s'.counter = s.counter := by
  cases h <;> simp [State.turn, State.reply]

-- What the node has done in its rounds.
def State.work (s : State n) (i : Fin n) : ℕ :=
  s.round i * (10 * n + 14) + (s.main i).place

theorem State.work_goto {q : Main n} (hm : s'.main = update s.main i q) (hr : s'.round i = s.round i)
    (hs : s'.receiver = s.receiver) (hp : (s.main i).place < q.place) :
    s.work i + ∑ j, (s.receiver j).place < s'.work i + ∑ j, (s'.receiver j).place := by
  simpa [State.work, hm, hr, hs] using hp

theorem main_work (h : mainStep counts s i = some s') (hd : (s.deferred i).length ≤ n)
    (hf : (s.main i).Fits n (counts i) (s.round i)) :
    (s'.main i).Fits n (counts i) (s'.round i) ∧
      s.work i + ∑ j, (s.receiver j).place < s'.work i + ∑ j, (s'.receiver j).place := by
  cases hp : s.main i <;> simp only [mainStep, hp, Main.Fits, reduceCtorEq] at h hf
  case loop =>
    cases h
    split_ifs with hr
    · exact ⟨by simpa [State.goto], State.work_goto rfl rfl rfl (by simp [hp, Main.place])⟩
    · exact ⟨by simpa [State.goto, Main.Fits] using hf.antisymm (Nat.not_lt.mp hr),
        State.work_goto rfl rfl rfl (by simp [hp, Main.place])⟩
  case send k =>
    cases h
    split_ifs with hk hi
    · refine ⟨?_, State.work_goto rfl rfl rfl ?_⟩
      · simp [State.goto, Main.Fits]
        omega
      · simp [hp, Main.place]
    · refine ⟨?_, State.work_goto rfl rfl rfl ?_⟩
      · simp [State.goto, Main.Fits]
        omega
      · simp [hp, Main.place]
    · refine ⟨?_, State.work_goto rfl rfl rfl ?_⟩
      · simp [State.goto, Main.Fits]
        omega
      · simp [hp, Main.place]
        omega
  case request k =>
    split_ifs at h with hk
    cases h
    have hs := Threads.sum_update (f := s.receiver) (i := k) (p := .acquire ⟨i, s.myNumber i⟩)
      (g := Receiver.place)
    rw [hk] at hs
    simp [State.work, State.goto, State.turn, Main.Fits, Main.place, Receiver.place, hp] at hs ⊢
    omega
  case lockAcquire | await | unlockAcquire =>
    split_ifs at h
    cases h
    exact ⟨by simpa [State.goto], State.work_goto rfl rfl rfl (by simp [hp, Main.place])⟩
  case measure =>
    cases h
    refine ⟨by simpa [State.goto, Main.Fits] using ⟨hd, hf⟩, State.work_goto rfl rfl rfl ?_⟩
    simp only [hp, Main.place]
    omega
  case unlockRelease m =>
    cases h
    refine ⟨by simpa [State.goto, Main.Fits], State.work_goto rfl rfl rfl ?_⟩
    simp [hp, Main.place]
  case drain k m =>
    split_ifs at h with hk
    case pos =>
      cases hq : s.deferred i <;> simp only [hq, reduceCtorEq] at h
      cases h
      refine ⟨by simpa [State.goto, Main.Fits] using ⟨hk, hf.right⟩, State.work_goto rfl rfl rfl ?_⟩
      simp [hp, Main.place]
    case neg =>
      cases h
      simp only [State.work, State.goto, update_self, Main.Fits, Main.place, hp, Nat.add_one_mul]
      omega
  case reply k m src =>
    split_ifs at h
    cases h
    refine ⟨?_, State.work_goto rfl rfl rfl ?_⟩
    · simpa [State.goto, State.reply, Main.Fits] using ⟨Nat.succ_le_of_lt hf.left, hf.right⟩
    · simp only [hp, Main.place]
      omega
  case lockRelease =>
    cases h
    exact ⟨by simpa [State.goto, Main.Fits], State.work_goto rfl rfl rfl (by simp [hp, Main.place])⟩
  all_goals
    cases h
    exact ⟨by simpa [State.goto], State.work_goto rfl rfl rfl (by simp [hp, Main.place])⟩

theorem Step.receiver_work (h : Step counts s (.receiver i) s') :
    ∑ j, (s.receiver j).place < ∑ j, (s'.receiver j).place := by
  have hs (p : Receiver n) := Threads.sum_update (f := s.receiver) (i := i) (p := p)
    (g := Receiver.place)
  have hlt {p : Receiver n} (hp : s'.receiver = update s.receiver i p)
      (hr : (s.receiver i).place < p.place) :
      ∑ j, (s.receiver j).place < ∑ j, (s'.receiver j).place := by
    have := hs p
    rw [hp]
    omega
  cases h <;> exact hlt rfl (by simp [*, Receiver.place])


theorem main_increments (h : mainStep counts s i = some s') (hn : ∀ v, s.main i ≠ .store v) :
    s'.counter = s.counter ∧
      (s'.main i).increments (s'.round i) = (s.main i).increments (s.round i) ∧
      ∀ v ∈ (s'.main i).loaded, v = s.counter := by
  cases hp : s.main i <;> simp only [mainStep, hp, reduceCtorEq] at h
  case store v => exact absurd hp (hn v)
  case loop | send k =>
    cases h
    split_ifs <;> simp [State.goto, Main.increments, Main.loaded]
  case lockAcquire | await | unlockAcquire | request k | reply k m src =>
    split_ifs at h
    cases h
    simp [State.goto, State.turn, State.reply, Main.increments, Main.loaded]
  case drain k m =>
    split_ifs at h
    case pos =>
      cases hq : s.deferred i <;> simp only [hq, reduceCtorEq] at h
      cases h
      simp [State.goto, Main.increments, Main.loaded]
    case neg =>
      cases h
      simp [State.goto, Main.increments, Main.loaded]
  all_goals
    cases h
    simp [State.goto, Main.increments, Main.loaded]

def State.Counted (s : State n) : Prop :=
  Distributed.Counted s.counter (fun i => (s.main i).increments (s.round i)) fun i => (s.main i).loaded

namespace State.Counted

theorem store (hc : s.Counted) (r : (machine counts).Reachable s) {v : ℕ}
    (hp : s.main i = .store v) (h : mainStep counts s i = some s') : s'.Counted := by
  simp only [mainStep, hp] at h
  cases h
  refine Distributed.Counted.store (i := i) hc ?_ (fun j => ?_) (fun j hj => ?_) ?_
  · simp [hp, Main.loaded]
  · by_cases hj : j = i
    case pos => simp [hj, State.goto, Main.loaded]
    case neg =>
      cases hl : s.main j <;> simp [State.goto, hj, hl, Main.loaded]
      case store =>
        exact hj (eq_of_critical r (by simp [hl, Main.Critical]) (by simp [hp, Main.Critical]))
  · simp [State.goto, hj]
  · simp [State.goto, hp, Main.increments]

theorem step (hc : s.Counted) (r : (machine counts).Reachable s)
    (h : (machine counts).step s p = some s') : s'.Counted := by
  have hs := Step.of_step h
  cases p
  case receiver i =>
    have ⟨hm, hr, hc'⟩ := hs.keep_receiver
    rw [State.Counted, hm, hr, hc']
    exact hc
  case main i =>
    by_cases hv : ∃ v, s.main i = .store v
    case pos =>
      obtain ⟨v, hv⟩ := hv
      exact hc.store r hv h
    case neg =>
      have ⟨hc', hi, hl⟩ := main_increments h (not_exists.mp hv)
      rw [State.Counted, hc']
      refine Distributed.Counted.load (i := i) hc (fun j => ?_) (fun j hj => ?_) hl
      · by_cases hj : j = i
        case pos => exact hj ▸ hi
        case neg => simp [hs.keep hj]
      · simp [hs.keep hj]

theorem of_reachable (r : (machine counts).Reachable s) : s.Counted := by
  refine r.invariant (I := State.Counted) ?init ?step
  case init =>
    rintro _ rfl
    exact ⟨by simp [init, Main.increments], fun _ _ => nofun⟩
  case step => exact fun _ _ _ r hi h => hi.step r h

end State.Counted

theorem length_deferred_le (r : (machine counts).Reachable s) (i : Fin n) : (s.deferred i).length ≤ n :=
  (accounted r).length_deferred.trans (Nat.sub_le n 1)

theorem fits_of_reachable (r : (machine counts).Reachable s) (i : Fin n) :
    (s.main i).Fits n (counts i) (s.round i) := by
  refine r.invariant (I := fun s => (s.main i).Fits n (counts i) (s.round i)) ?init ?step
  case init =>
    rintro _ rfl
    exact Nat.zero_le _
  case step =>
    intro s p s' r hi h
    have hs := Step.of_step h
    cases p
    case receiver j =>
      have ⟨hm, hr, _⟩ := hs.keep_receiver
      rwa [hm, hr]
    case main j =>
      by_cases hj : i = j
      case pos =>
        subst hj
        exact (main_work h (length_deferred_le r i) hi).left
      case neg =>
        have ⟨hm, hr⟩ := hs.keep hj
        rwa [hm, hr]

theorem work_lt (r : (machine counts).Reachable s) (h : (machine counts).step s p = some s') :
    ∑ i, s.work i + ∑ i, (s.receiver i).place < ∑ i, s'.work i + ∑ i, (s'.receiver i).place := by
  have hs := Step.of_step h
  cases p
  case receiver i =>
    have ⟨hm, hr, _⟩ := hs.keep_receiver
    simpa [State.work, hm, hr] using hs.receiver_work
  case main i =>
    have hw := (main_work h (length_deferred_le r i) (fits_of_reachable r i)).right
    have := Threads.sum_eq_of_ne (i := i) (f := s.work) (g := s'.work) fun j hj => by
      simp [State.work, hs.keep hj]
    omega

theorem Main.Fits.work_le {m : Main n} (h : m.Fits n c r) :
    r * (10 * n + 14) + m.place ≤ c * (10 * n + 14) + 1 := by
  have hle (h : r ≤ c) : r * (10 * n + 14) ≤ c * (10 * n + 14) := Nat.mul_le_mul_right _ h
  have hlt (h : r < c) : r * (10 * n + 14) + (10 * n + 14) ≤ c * (10 * n + 14) :=
    Nat.add_one_mul _ _ ▸ Nat.mul_le_mul_right _ h
  cases m <;> simp only [Main.Fits, Main.place] at h ⊢
  case loop   => exact (hle h).trans (Nat.le_add_right _ 1)
  case done   => rw [h]
  case request k =>
    have := hlt h
    omega
  case send | unlockRelease | drain | reply =>
    have := hlt (by omega)
    omega
  all_goals
    have := hlt h
    omega

theorem run_length_le {ps : List (Process n)} (h : (machine counts).Run (init n) ps s) :
    ps.length ≤ (∑ i, counts i) * (10 * n + 14) + n := by
  have hl := h.length_add_le_work (fun s => ∑ i, s.work i + ∑ i, (s.receiver i).place) (.init rfl)
    fun _ _ _ r hs => work_lt r hs
  have hw : ∑ i, s.work i ≤ (∑ i, counts i) * (10 * n + 14) + n := by
    refine (Finset.sum_le_sum fun i _ =>
      (fits_of_reachable (h.reachable (.init rfl)) i).work_le).trans_eq ?_
    simp [Finset.sum_add_distrib, Finset.sum_mul]
  have hr : ∑ i, (s.receiver i).place ≤ n * 6 := by
    refine (Finset.sum_le_sum (g := fun _ => 6) fun i _ => ?_).trans_eq (by simp)
    cases s.receiver i <;> simp [Receiver.place]
  have hi : ∑ i, (init n).work i + ∑ i, ((init n).receiver i).place = n * 6 := by
    simp [init, State.work, Main.place, Receiver.place]
  omega

-- Under each scheduler the program ends after a bounded number of steps, and it ends only when all
-- nodes have completed their rounds and no increment of the counter is lost.
theorem counted_and_done (counts : Fin n → ℕ) :
    (∀ ps s, (machine counts).Run (init n) ps s →
      ps.length ≤ (∑ i, counts i) * (10 * n + 14) + n) ∧
    ∀ s, (machine counts).Reachable s → (machine counts).Live s ∨
      (∀ i, s.main i = .done ∧ s.receiver i = .receive) ∧ s.counter = ∑ i, counts i := by
  refine ⟨fun _ _ => run_length_le, fun s r => or_iff_not_imp_left.mpr fun hl => ?_⟩
  have h := Stuck.of_not_live hl
  have hg := Guarded.of_reachable r
  have ha := accounted r
  have hd (i : Fin n) : s.main i = .done := by
    obtain ⟨hp, _⟩ | hp := h.await_or_done hg ha i
    · exact absurd hp (h.not_await hg ha (.of_reachable r) _ i rfl)
    · exact hp
  refine ⟨fun i => ⟨hd i, h.receiver_eq hg ha i⟩, ?_⟩
  rw [(State.Counted.of_reachable r).counter]
  refine Finset.sum_congr rfl fun i _ => ?_
  have hf := fits_of_reachable r i
  simp only [hd i, Main.Fits, Main.increments] at hf ⊢
  exact hf

end Counting

end RicartAgrawala
