import Concurrencia.Distributed.NeilsenMizuno.Theorems.Safety

open Function Distributed PathReversal

namespace NeilsenMizuno

variable {n : ℕ} {counts : Fin n → ℕ} {s s' : State n} {p : Process n} {c i j k t u w : Fin n}

-- The statements at which `node` can wait, and what for.
inductive Main.Blocked (s : State n) (i : Fin n) : Prop
  | lockAcquire (h : s.main i = .lockAcquire) (hm : s.mutex i = true)
  | request (h : s.main i = .request) (hk : ∀ k, s.parent i = some k → s.receiver k ≠ .receive)
  | await (h : s.main i = .await)
  | unlockAcquire (h : s.main i = .unlockAcquire) (hm : s.mutex i = true)
  | reply (h : s.main i = .reply) (hk : ∀ k, s.deferred i = some k → s.main k ≠ .await)
  | done (h : s.main i = .done)

inductive Receiver.Blocked (s : State n) (i : Fin n) : Prop
  | receive (h : s.receiver i = .receive)
  | acquire (m : Message n) (h : s.receiver i = .acquire m) (hm : s.mutex i = true)
  | reply (m : Message n) (h : s.receiver i = .reply m) (hk : s.main m.originator ≠ .await)
  | forward (m : Message n) (h : s.receiver i = .forward m)
    (hk : ∀ k, s.parent i = some k → s.receiver k ≠ .receive)

theorem Main.Blocked.of_step (h : mainStep counts s i = none) : Blocked s i := by
  cases hp : s.main i <;> simp [mainStep, hp] at h
  case lockAcquire   => exact .lockAcquire hp h
  case request       =>
    refine .request hp fun k hk => ?_
    simpa [hk] using h
  case await         => exact .await hp
  case unlockAcquire => exact .unlockAcquire hp h
  case reply         =>
    refine .reply hp fun k hk => ?_
    simpa [hk] using h
  case done          => exact .done hp

theorem Receiver.Blocked.of_step (h : receiverStep s i = none) : Blocked s i := by
  cases hp : s.receiver i <;> simp [receiverStep, hp] at h
  case receive => exact .receive hp
  case acquire => exact .acquire _ hp h
  case reply   => exact .reply _ hp h
  case forward =>
    refine .forward _ hp fun k hk => ?_
    simpa [hk] using h

structure Stuck (s : State n) : Prop where
  main (i : Fin n)     : Main.Blocked s i
  receiver (i : Fin n) : Receiver.Blocked s i

theorem Stuck.of_not_live (h : ¬(machine counts).Live s) : Stuck s where
  main i     := .of_step (Machine.not_live_step h (.main i))
  receiver i := .of_step (Machine.not_live_step h (.receiver i))

namespace Stuck

section

variable (h : Stuck s) (hg : ∀ i, Guarded s i) (hw : WellFormed s.view c)
include h

theorem await_of_waiting (hi : (s.main i).Waiting) : s.main i = .await := by
  cases h.main i <;> simp_all [Main.Waiting]

include hw

-- The receiver of a reply waits for it.
theorem not_replies : ¬s.Replies i k := by
  intro hr
  obtain ⟨x, hx⟩ := State.pending_of_replies hr
  have hk := h.await_of_waiting (hw.recorded.sound x k hx)
  rcases hr with ⟨hi, hd⟩ | ⟨m, hi, rfl⟩
  · cases h.main i <;> simp_all
  · cases h.receiver i <;> simp_all

include hg

-- The center is the only node which forwards requests, and the leaf it sends them to is idle.
theorem receiver_cases (i : Fin n) :
    s.receiver i = .receive ∨ ∃ m, s.receiver i = .acquire m ∧ s.mutex i = true := by
  cases h.receiver i
  case receive hr      => exact .inl hr
  case acquire m hr hm => exact .inr ⟨m, hr, hm⟩
  case reply m hr hk   => exact (h.not_replies hw (.inr ⟨m, hr, rfl⟩)).elim
  case forward m hr hk =>
    have hm := (hg i).not_locked (by simp [hr, Receiver.Locked])
    obtain ⟨k, hp⟩ := Option.ne_none_iff_exists'.mp ((hg i).forward m hr)
    have hv : s.view.parent i = some k := by
      rw [State.view_parent_of_not_locked ?_ (by simp [hr, Receiver.turned]), hp]
      intro hc
      simp [hc, Main.Locked] at hm
    have hc : s.view.carried i = some m.originator := by
      simp [State.view, hr, Receiver.carried]
    obtain rfl := (hw.star.passing hc (by simp [hv])).left
    have hh := hw.star.held_eq_none hv
    refine absurd ?_ (hk k hp)
    cases h.receiver k <;> simp_all [State.view, Receiver.held]

theorem main_of_mutex (hm : s.mutex i = true) : s.main i = .request ∨ s.main i = .await := by
  have hl := (hg i).mutex.mp hm
  have hr : ¬(s.receiver i).Locked := by
    rcases h.receiver_cases hg hw i with hr | ⟨m, hr, -⟩ <;> simp [hr, Receiver.Locked]
  cases h.main i
  case request hi _ => exact .inl hi
  case await hi     => exact .inr hi
  case reply hi hk  =>
    obtain ⟨k, hd⟩ := Option.ne_none_iff_exists'.mp ((hg i).reply hi)
    exact (h.not_replies hw (.inl ⟨hi, hd⟩)).elim
  all_goals simp_all [Main.Locked]

-- The requests of the leaves wait for the center, and that of the center does not wait for a leaf.
theorem mutex_of_request (hi : s.main i = .request) : i ≠ c ∧ s.mutex c = true := by
  have hr := (hg i).exclusive (by simp [hi, Main.Locked])
  obtain ⟨k, hp⟩ := Option.ne_none_iff_exists'.mp ((hg i).parent_of_request hw hi)
  have hv : s.view.parent i = some k := by
    rw [State.view_parent_of_not_locked (by simp [hi]) (Receiver.turned_eq_none hr), hp]
  have hb : s.receiver k ≠ .receive := by
    cases h.main i <;> simp_all
  rcases h.receiver_cases hg hw k with hk | ⟨m, hk, hm⟩
  · contradiction
  rcases hw.star.parent _ _ hv with ⟨rfl, -⟩ | ⟨hn, rfl⟩
  · have hh := hw.star.held_eq_none hv
    simp [State.view, hk, Receiver.held] at hh
  · exact ⟨hn, hm⟩

theorem main_of_mutex_center (hm : s.mutex c = true) : s.main c = .await :=
  (h.main_of_mutex hg hw hm).resolve_left fun hc => (h.mutex_of_request hg hw hc).left rfl

theorem main_cases (i : Fin n) :
    (s.main i = .request ∧ s.main c = .await) ∨ s.main i = .await ∨ s.main i = .done := by
  cases h.main i
  case request hi _        =>
    exact .inl ⟨hi, h.main_of_mutex_center hg hw (h.mutex_of_request hg hw hi).right⟩
  case await hi            => exact .inr (.inl hi)
  case done hi             => exact .inr (.inr hi)
  case lockAcquire hi hm   => rcases h.main_of_mutex hg hw hm with hi' | hi' <;> simp [hi] at hi'
  case unlockAcquire hi hm => rcases h.main_of_mutex hg hw hm with hi' | hi' <;> simp [hi] at hi'
  case reply hi hk         =>
    obtain ⟨k, hd⟩ := Option.ne_none_iff_exists'.mp ((hg i).reply hi)
    exact (h.not_replies hw (.inl ⟨hi, hd⟩)).elim

theorem not_passing : ¬s.view.Passing w := by
  rintro ⟨u, hk, hp⟩
  obtain rfl := (hw.star.passing hk hp).left
  have hm : s.mutex u = true := by
    rcases h.receiver_cases hg hw u with hr | ⟨m, -, hm⟩
    · simp [State.view, hr, Receiver.carried] at hk
    · exact hm
  have hi := h.main_of_mutex_center hg hw hm
  exact hp ((hw.owned.isOpen u).mpr (.inl (by simp [State.view, hi, Main.Waiting]))).left

-- The owner of the token is done, and it has not got any request.
theorem not_await : s.main i ≠ .await := by
  intro hi
  obtain ⟨t, ht⟩ := hw.owned.owner
  replace ht := (ht t).mpr rfl
  have hm : s.main t = .done := by
    have hl := (hg t).lacking
    rcases h.main_cases hg hw t with ⟨hm, -⟩ | hm | hm
    · simp_all [State.view, Main.Token, Main.Lacking]
    · simp_all [State.view, Main.Token, Main.Lacking]
    · exact hm
  have hh : s.holding t = true := by
    simp [State.view, hm, Main.Token] at ht
    exact ht.left
  have hr : s.receiver t = .receive := by
    rcases h.receiver_cases hg hw t with hr | ⟨m, -, hm'⟩
    · exact hr
    · rcases h.main_of_mutex hg hw hm' with hm' | hm' <;> simp [hm] at hm'
  have hf : ∀ w, ¬s.view.Follows t w := by
    simp [State.Follows, State.view, hm, hr, (hg t).idle hh, Receiver.carried]
  exact hw.not_waiting ht hf (fun _ => h.not_passing hg hw) i
    (by simp [State.view, hi, Main.Waiting])

theorem done (i : Fin n) : s.main i = .done := by
  rcases h.main_cases hg hw i with ⟨-, hc⟩ | hi | hi
  · exact (h.not_await hg hw hc).elim
  · exact (h.not_await hg hw hi).elim
  · exact hi

end

end Stuck

theorem Step.done (h : Step counts s p s') (hi : s.main i = .done → counts i ≤ s.round i) :
    s'.main i = .done → counts i ≤ s'.round i := by
  cases p
  case receiver j => cases h <;> simp_all [State.turn, State.goto, Guarded.main_await]
  case main j =>
    rcases eq_or_ne i j with rfl | hn
    · cases h <;> simp_all [State.goto, State.turn]
    · cases h <;> simp_all [State.goto, State.turn, Guarded.main_await]

theorem le_round_of_done (r : (machine counts).Reachable s) (i : Fin n) :
    s.main i = .done → counts i ≤ s.round i := by
  refine r.invariant (I := fun s => s.main i = .done → counts i ≤ s.round i) ?init ?step
  case init =>
    rintro _ rfl h
    simp [init] at h
  case step => exact fun _ _ _ _ hi h => (Step.of_step h).done hi

-- As long as some node has rounds to go some goroutine can take a step.
theorem no_deadlock (r : (machine counts).Reachable s) (hi : s.round i < counts i) :
    (machine counts).Live s := by
  by_contra hl
  have hw : WellFormed s.view ⟨0, i.pos⟩ := wellFormed r rfl
  have hd := (Stuck.of_not_live hl).done (Guarded.of_reachable r) hw i
  have := le_round_of_done r i hd
  omega

-- The request of node 1 waits at node 0, which waits for the token with its mutex locked.
theorem no_deadlock_three :
    ∃ s : State 3, s.main 0 = .await ∧ s.mutex 0 = true ∧ s.receiver 0 = .acquire ⟨1, 1⟩ ∧
      (machine fun _ => 1).Live s :=
  have ⟨s, h, hr, hp⟩ : ∃ s, (machine fun _ => 1).exec (init 3) (Machine.schedule [
      (5, .main 2), (7, .receiver 0), (5, .main 0), (4, .main 1)]) = some s ∧ s.round 0 < 1 ∧
      s.main 0 = .await ∧ s.mutex 0 = true ∧ s.receiver 0 = .acquire ⟨1, 1⟩ :=
    ⟨_, rfl, Nat.one_pos, rfl, rfl, rfl⟩
  ⟨s, hp.left, hp.right.left, hp.right.right, no_deadlock (.of_exec rfl h) hr⟩

end NeilsenMizuno
