import Concurrencia.Distributed.TokenPassing.Theorems.Granted
import Concurrencia.Threads.Count
import Mathlib

open Function Distributed

namespace TokenPassing

-- The loop of `sendToken` has not passed index `k`.
def SendToken.Before {n : ℕ} (k : Fin n) : SendToken n → Prop
  | scan j => j ≤ k
  | _      => True

-- The node is going to see an entry for node `k` in `requested` before it gives up its token.
def Main.Attentive {n : ℕ} (k : Fin n) : Main n → Prop
  | setInCS | lockRelease | load | store _ | unlockAcquire | setGranted | clearInCS => True
  | sendToken q => q.Before k
  | _ => False

def Receiver.Attentive {n : ℕ} (k : Fin n) : Receiver n → Prop
  | acquire | test => True
  | sendToken q => q.Before k
  | _ => False

variable {n : ℕ} {counts : Fin n → ℕ} {s s' : State n} {p : Process n} {t i j k : Fin n}

-- A request which is recorded at the node with the token will not be overlooked.
def Noticed (s : State n) : Prop :=
  ∀ i k, s.haveToken i = true → ¬s.Clearing i → s.granted i k < s.requested i k →
    (s.main i).Attentive k ∨ (s.receiver i).Attentive k

theorem Main.InCS.attentive {m : Main n} (h : m.InCS) : m.Attentive k := by
  cases m <;> simp_all [Main.InCS, Main.Attentive]

theorem attentive_record {f : Fin n → Receiver n} {m : Message n} (hk : f j = .receive) :
    (update f j (.record m) i).Attentive k ↔ (f i).Attentive k :=
  Threads.update_iff (P := Receiver.Attentive k) (by simp [hk, Receiver.Attentive]) _

theorem not_haveToken_of_await (hg : Guarded s k) (hk : s.main k = .await) : s.haveToken k = false :=
  hg.lacking (by simp [hk, Main.Lacking])

theorem succ_le_of_recorded {f g : Fin n → ℕ} (hj : f j ≤ g j) (hk : g k < f k) (hle : j ≤ k) :
    (j : ℕ) + 1 ≤ k := by
  refine Fin.lt_def.mp (lt_of_le_of_ne hle ?_)
  rintro rfl
  omega

-- The step of another node does not change what a node with the token is going to see.
theorem Step.noticed_elsewhere (h : Step counts s p s') (hg : Guarded s i) (hi : Noticed s)
    (hn : i ≠ p.node) (ht : s'.haveToken i = true) (hc : ¬s'.Clearing i)
    (hlt : s'.granted i k < s'.requested i k) :
    (s'.main i).Attentive k ∨ (s'.receiver i).Attentive k := by
  have ⟨⟨_, _, ht', hr'⟩, hm, _⟩ := h.elsewhere hn
  rw [ht'] at ht
  obtain ⟨hm, hg'⟩ : s'.main i = s.main i ∧ s'.granted i = s.granted i := by
    refine hm.resolve_right fun hm => ?_
    simp [not_haveToken_of_await hg hm.left] at ht
  have hs := h.receiver_elsewhere (P := (· = .sendToken .clearToken)) hn (by simp)
  have ha := h.receiver_elsewhere (P := Receiver.Attentive k) hn fun _ => .rfl
  rw [State.Clearing, hm, hs] at hc
  rw [hg', hr'] at hlt
  rw [hm, ha]
  exact hi i k ht hc hlt

open Guarded in
theorem Step.noticed (h : Step counts s p s') (hg : ∀ i, Guarded s i) (hi : Noticed s) :
    Noticed s' := by
  intro i k
  by_cases hn : i = p.node
  case neg => exact h.noticed_elsewhere (hg i) hi hn
  case pos =>
    subst hn
    have hi := hi p.node k
    have hc := (hg p.node).inCS
    cases p
    case main =>
      cases h <;>
        simp_all [Process.node, State.Clearing, State.goto, State.turn, Main.Attentive,
          SendToken.Before, attentive_record, sendToken_record]
      case scan k' _ hk' =>
        intro ht hr hlt
        exact (hi ht hr hlt).imp_left (succ_le_of_recorded hk' hlt)
      case scanned k' hk' _ =>
        intro ht hr hlt
        exact (hi ht hr hlt).resolve_left (by omega)
    case receiver =>
      cases h <;>
        simp_all [Process.node, State.Clearing, State.turn, State.goto, State.give,
          Receiver.Attentive, SendToken.Before]
      case busy hb => exact fun ht _ _ => (hb ht).attentive
      case rscan k' _ hk' =>
        intro ht hm hlt
        exact (hi ht hm hlt).imp_right (succ_le_of_recorded hk' hlt)
      case rscanned k' hk' _ =>
        intro ht hm hlt
        exact (hi ht hm hlt).resolve_right (by omega)

theorem noticed_of_reachable (r : (machine counts).Reachable s) : Noticed s := by
  refine r.invariant ?init ?step
  case init =>
    rintro _ rfl i k _ _ hlt
    simp [init] at hlt
  case step => exact fun _ _ _ r hi h => (Step.of_step h).noticed (Guarded.of_reachable r) hi

-- The statements at which `node` can wait, and what for.
inductive Main.Blocked (s : State n) (i : Fin n) : Prop
  | lockAcquire (h : s.main i = .lockAcquire) (hm : s.mutex i = true)
  | request (k : Fin n) (h : s.main i = .request k) (hk : s.receiver k ≠ .receive)
  | await (h : s.main i = .await)
  | tokenAcquire (h : s.main i = .tokenAcquire) (hm : s.mutex i = true)
  | unlockAcquire (h : s.main i = .unlockAcquire) (hm : s.mutex i = true)
  | send (k : Fin n) (h : s.main i = .sendToken (.send k)) (hk : s.main k ≠ .await)
  | done (h : s.main i = .done)

inductive Receiver.Blocked (s : State n) (i : Fin n) : Prop
  | receive (h : s.receiver i = .receive)
  | acquire (h : s.receiver i = .acquire) (hm : s.mutex i = true)
  | send (k : Fin n) (h : s.receiver i = .sendToken (.send k)) (hk : s.main k ≠ .await)

theorem Main.Blocked.of_step (h : mainStep counts s i = none) : Blocked s i := by
  cases hp : s.main i <;> simp [mainStep, hp] at h
  case lockAcquire   => exact .lockAcquire hp h
  case request k     => exact .request k hp h
  case await         => exact .await hp
  case tokenAcquire  => exact .tokenAcquire hp h
  case unlockAcquire => exact .unlockAcquire hp h
  case done          => exact .done hp
  case sendToken q   =>
    cases q <;> simp [TokenPassing.sendToken] at h
    case send k => exact .send k hp h

theorem Receiver.Blocked.of_step (h : receiverStep s i = none) : Blocked s i := by
  cases hp : s.receiver i <;> simp [receiverStep, hp] at h
  case receive     => exact .receive hp
  case acquire     => exact .acquire hp h
  case sendToken q =>
    cases q <;> simp [TokenPassing.sendToken] at h
    case send k => exact .send k hp h

structure Stuck (s : State n) : Prop where
  main (i : Fin n)     : Main.Blocked s i
  receiver (i : Fin n) : Receiver.Blocked s i

namespace Stuck

theorem of_not_live (h : ¬(machine counts).Live s) : Stuck s where
  main i     := .of_step (Machine.not_live_step h (.main i))
  receiver i := .of_step (Machine.not_live_step h (.receiver i))

section

variable (h : Stuck s) (hg : ∀ i, Guarded s i) (hi : Granted s t) (hr : Recorded s)
variable (hlt : ∀ i k, s.Offers i k → s.granted i k < s.requested i k)
include h hg

-- Whoever keeps a mutex locked is sending the token.
theorem offers_of_mutex (hm : s.mutex i = true) : ∃ k, s.Offers i k := by
  rcases (hg i).mutex.mp hm with hl | hl
  · cases h.main i <;> simp_all [Main.Locked]
    case send k hp hk => exact ⟨k, .inl hp⟩
  · cases h.receiver i <;> simp_all [Receiver.Locked]
    case send k hp hk => exact ⟨k, .inr hp⟩

include hi hr hlt

-- The node that is to get the token still sends its requests to nodes which have no token, and whose
-- receivers are therefore ready.
theorem not_offers (i k : Fin n) : ¬s.Offers i k := by
  intro ho
  have eq {j k' : Fin n} (ho' : s.Offers j k') : j = i := by
    rw [hi.token.eq_of_sendToken hg ho' (by simp)]
    exact (hi.token.eq_of_sendToken hg ho (by simp)).symm
  obtain ⟨hn, hw, hp, _⟩ := hi.of_offers hg hr ho (hlt i k ho)
  have ha : s.main k ≠ .await := by
    rcases ho with ho | ho
    · cases h.main i <;> simp_all
    · cases h.receiver i <;> simp_all
  obtain ⟨j, hj, hjr⟩ : ∃ j, s.main k = .request j ∧ s.receiver j ≠ .receive := by
    cases h.main k <;> simp_all [Main.Waiting]
  have hij : j ≠ i := by
    rintro rfl
    simp [hj, Main.Pending] at hp
  cases h.receiver j
  case receive hj'   => exact hjr hj'
  case send k' hj' _ => exact hij (eq (.inr hj'))
  case acquire hm    =>
    obtain ⟨k', ho'⟩ := h.offers_of_mutex hg hm
    exact hij (eq ho')

theorem receiver_eq (i : Fin n) : s.receiver i = .receive := by
  cases h.receiver i
  case receive hp    => exact hp
  case send k hp _   => exact absurd (.inr hp) (h.not_offers hg hi hr hlt i k)
  case acquire _ hm  =>
    obtain ⟨k, ho⟩ := h.offers_of_mutex hg hm
    exact absurd ho (h.not_offers hg hi hr hlt i k)

theorem await_or_done (i : Fin n) : s.main i = .await ∨ s.main i = .done := by
  have hm : ¬s.mutex i = true := fun hm =>
    have ⟨k, ho⟩ := h.offers_of_mutex hg hm
    h.not_offers hg hi hr hlt i k ho
  cases h.main i
  case lockAcquire hm'   => exact absurd hm' hm
  case tokenAcquire hm'  => exact absurd hm' hm
  case unlockAcquire hm' => exact absurd hm' hm
  case request k _ hk    => exact absurd (h.receiver_eq hg hi hr hlt k) hk
  case send k hp _       => exact absurd (.inl hp) (h.not_offers hg hi hr hlt i k)
  case await hp          => exact .inl hp
  case done hp           => exact .inr hp

end

end Stuck

open Guarded in
theorem Step.done (h : Step counts s p s') (hi : s.main i = .done → counts i ≤ s.round i) :
    s'.main i = .done → counts i ≤ s'.round i := by
  cases p
  case receiver j => cases h <;> simp_all [State.turn, State.goto, State.give, done_await]
  case main j =>
    rcases eq_or_ne i j with rfl | hn
    · cases h <;> simp_all [State.goto, State.turn]
    · cases h <;> simp_all [State.goto, State.turn, State.give, done_await]

theorem le_round_of_done (r : (machine counts).Reachable s) (i : Fin n) :
    s.main i = .done → counts i ≤ s.round i := by
  refine r.invariant (I := fun s => s.main i = .done → counts i ≤ s.round i) ?init ?step
  case init =>
    rintro _ rfl h
    simp [init] at h
  case step => exact fun _ _ _ _ hi h => (Step.of_step h).done hi

-- The request of a node that waits for the token is recorded where the token is.
theorem lt_requested_of_await (hi : Granted s t) (hr : Recorded s) (hn : i ≠ t)
    (hw : s.main i = .await) (ht : s.receiver t = .receive) : s.granted t i < s.requested t i := by
  have hk := hi.waiting i hn (by simp [hw, Main.Waiting])
  have hd := hr.delivered t i hn.symm (by simp [hw, Main.Waiting]) (by simp [hw, Main.Pending])
  simp only [State.known, ht, Receiver.carried] at hd
  omega

theorem State.Token.kept (ht : s.Token t) (ha : (s.main t).arrived = 0) :
    s.haveToken t = true ∧ ¬s.Clearing t := by
  have := ht.here
  by_contra hn
  simp [State.tokens, ha, hn] at this

theorem live [NeZero n] {counts : Fin n → ℕ} {s : State n} {i : Fin n}
    (r : (machine counts).Reachable s) (hc : s.round i < counts i) : (machine counts).Live s := by
  by_contra hl
  have h := Stuck.of_not_live hl
  obtain ⟨t, hi⟩ := Granted.of_reachable r
  have hg := Guarded.of_reachable r
  have hr := Recorded.of_reachable r
  have hlt := lt_of_offers r
  have hw : s.main i = .await := by
    refine (h.await_or_done hg hi hr hlt i).resolve_right fun hd => ?_
    have := le_round_of_done r i hd
    omega
  have hp := h.await_or_done hg hi hr hlt t
  have hrt := h.receiver_eq hg hi hr hlt t
  obtain ⟨ht, hct⟩ : s.haveToken t = true ∧ ¬s.Clearing t := by
    refine hi.token.kept ?_
    rcases hp with hp | hp <;> simp [hp, Main.arrived]
  have hn : i ≠ t := by
    rintro rfl
    simp [not_haveToken_of_await (hg i) hw] at ht
  rcases noticed_of_reachable r t i ht hct (lt_requested_of_await hi hr hn hw hrt) with ha | ha
  · rcases hp with hp | hp <;> simp [hp, Main.Attentive] at ha
  · simp [hrt, Receiver.Attentive] at ha

section Counting

variable {c r : ℕ}

namespace Main

def Fits (c r : ℕ) : Main n → Prop
  | loop => r ≤ c
  | done => r = c
  | _    => r < c

-- The place of a statement of `sendToken`, whose loop ends at `n`.
def sendTokenPlace : SendToken n → ℕ
  | .scan k     => min k n
  | .send k     => k + 1
  | .clearToken => n + 1

-- The place of a statement in its round.
def place : Main n → ℕ
  | loop           => 0
  | lockAcquire    => 1
  | testToken      => 2
  | setNumber      => 3
  | requestRelease => 4
  | send k         => (n + 8) * min k n + 5
  | request k      => (n + 8) * k + 6
  | await          => (n + 8) * n + 6
  | tokenAcquire   => (n + 8) * n + 7
  | setToken       => (n + 8) * n + 8
  | setInCS        => (n + 8) * n + 9
  | lockRelease    => (n + 8) * n + 10
  | load           => (n + 8) * n + 11
  | store _        => (n + 8) * n + 12
  | unlockAcquire  => (n + 8) * n + 13
  | setGranted     => (n + 8) * n + 14
  | clearInCS      => (n + 8) * n + 15
  | sendToken p    => (n + 8) * n + 16 + sendTokenPlace p
  | unlockRelease  => (n + 8) * n + 18 + n
  | done           => 1

-- The statements of a round.
def statements (n : ℕ) : ℕ :=
  (n + 8) * n + n + 19

-- The increments of a node which has completed `r` rounds.
def increments (r : ℕ) : Main n → ℕ
  | unlockAcquire | setGranted | clearInCS | sendToken _ | unlockRelease => r + 1
  | _ => r

def loaded : Main n → Option ℕ
  | store v => v
  | _       => none

end Main

def Receiver.place : Receiver n → ℕ
  | record _    => 0
  | acquire     => 1
  | test        => 2
  | sendToken p => 3 + Main.sendTokenPlace p
  | release     => n + 5
  | receive     => n + 6

namespace State

-- What has been done in the rounds of all nodes.
def work (s : State n) : ℕ :=
  ∑ i, s.round i * Main.statements n + ∑ i, (s.main i).place + ∑ i, (s.receiver i).place

theorem work_goto {q : Main n} (hr : s'.round = s.round) (hm : s'.main = update s.main i q)
    (hs : s'.receiver = s.receiver) (hp : (s.main i).place < q.place) : s.work < s'.work := by
  have := Threads.sum_update (f := s.main) (i := i) (p := q) (g := Main.place)
  rw [work, work, hr, hm, hs]
  omega

theorem work_turn {q : Receiver n} (hr : s'.round = s.round) (hm : s'.main = s.main)
    (hs : s'.receiver = update s.receiver i q) (hp : (s.receiver i).place < q.place) :
    s.work < s'.work := by
  have := Threads.sum_update (f := s.receiver) (i := i) (p := q) (g := Receiver.place)
  rw [work, work, hr, hm, hs]
  omega

end State

theorem work_request (h : s.main i = .request k) (hk : s.receiver k = .receive) :
    s.work < ((s.turn k (.record ⟨i, s.myNumber i⟩)).goto i (.send (k + 1))).work := by
  have hm := Threads.sum_update (f := s.main) (i := i) (p := .send (k + 1)) (g := Main.place)
  have hr := Threads.sum_update (f := s.receiver) (i := k) (p := .record ⟨i, s.myNumber i⟩)
    (g := Receiver.place)
  have hp : (Main.send ((k : ℕ) + 1) : Main n).place = (s.main i).place + n + 7 := by
    have hmin : min ((k : ℕ) + 1) n = k + 1 := min_eq_left k.isLt
    rw [h, Main.place, hmin, Main.place, Nat.mul_add_one]
    omega
  have hq : (Receiver.record (n := n) ⟨i, s.myNumber i⟩).place + (n + 6) = (s.receiver k).place := by
    simp [hk, Receiver.place]
  simp only [State.work, State.goto, State.turn]
  omega

-- The node which receives the token moves on as well.
theorem sum_place_give (h : s.main k = .await) :
    ∑ j, ((s.give i k).main j).place = ∑ j, (s.main j).place + 1 := by
  have hm := Threads.sum_update (f := s.main) (i := k) (p := .tokenAcquire) (g := Main.place)
  have hp : (Main.tokenAcquire (n := n)).place = (s.main k).place + 1 := by rw [h]; rfl
  simp only [State.give, State.goto]
  omega

theorem work_lt_give (h : s.main k = .await) : s.work < (s.give i k).work := by
  have := sum_place_give (i := i) h
  have hr : (s.give i k).round = s.round := rfl
  have hq : (s.give i k).receiver = s.receiver := rfl
  rw [State.work, State.work, this, hr, hq]
  omega

theorem work_give (h : s.main i = .sendToken (.send k)) (hk : s.main k = .await) :
    s.work < ((s.give i k).goto i (.sendToken .clearToken)).work := by
  have hn : i ≠ k := by
    rintro rfl
    simp [h] at hk
  have hi : (s.give i k).main i = .sendToken (.send k) := by
    simpa [State.give, State.goto, hn] using h
  refine (work_lt_give hk).trans (State.work_goto (i := i) (q := .sendToken .clearToken) rfl rfl rfl ?_)
  rw [hi]
  simp [Main.place, Main.sendTokenPlace]

theorem work_rgive (h : s.receiver i = .sendToken (.send k)) (hk : s.main k = .await) :
    s.work < ((s.give i k).turn i (.sendToken .clearToken)).work := by
  refine (work_lt_give hk).trans (State.work_turn (i := i) (q := .sendToken .clearToken) rfl rfl rfl ?_)
  have hi : (s.give i k).receiver i = .sendToken (.send k) := h
  rw [hi]
  simp [Receiver.place, Main.sendTokenPlace]

theorem work_unlockRelease (h : s.main i = .unlockRelease) :
    s.work < ({ s with
      mutex := update s.mutex i false
      round := update s.round i (s.round i + 1) }.goto i .loop).work := by
  have hm := Threads.sum_update (f := s.main) (i := i) (p := .loop) (g := Main.place)
  have hr := Threads.sum_update (f := s.round) (i := i) (p := s.round i + 1)
    (g := (· * Main.statements n))
  have hp : (Main.loop (n := n)).place + Main.statements n = (s.main i).place + 1 := by
    rw [h, Main.place, Main.place, Main.statements]
    omega
  have hn : (s.round i + 1) * Main.statements n = s.round i * Main.statements n + Main.statements n :=
    Nat.add_one_mul ..
  simp only [hn] at hr
  simp only [State.work, State.goto]
  omega

theorem work_lt (h : Step counts s p s') : s.work < s'.work := by
  have hk (k : Fin n) : min (k : ℕ) n = k := min_eq_left k.isLt.le
  have hk' (k : Fin n) : min ((k : ℕ) + 1) n = k + 1 := min_eq_left k.isLt
  cases h
  case request       => exact work_request ‹_› ‹_›
  case give          => exact work_give ‹_› ‹_›
  case rgive         => exact work_rgive ‹_› ‹_›
  case unlockRelease => exact work_unlockRelease ‹_›
  case record | acquire | idle | busy | rscan | rfound | rscanned | rclearToken | release =>
    refine State.work_turn rfl rfl rfl ?_
    simp [*, Receiver.place, Main.sendTokenPlace] <;> omega
  all_goals
    refine State.work_goto rfl rfl rfl ?_
    simp [*, Main.place, Main.sendTokenPlace, Nat.mul_add] <;> omega

-- What a step does to the nodes whose main goroutine does not take it.
theorem Step.keep (h : Step counts s p s') (hj : p ≠ .main j) :
    s'.round j = s.round j ∧
      (s'.main j = s.main j ∨ s.main j = .await ∧ s'.main j = .tokenAcquire) := by
  have hi {i : Fin n} (hp : p = .main i) : j ≠ i := by
    rintro rfl
    exact hj hp
  clear hj
  cases h
  case give i k h hk | rgive i k h hk =>
    by_cases hk : j = k
    all_goals simp_all [State.give, State.goto, State.turn]
  all_goals simp_all [State.goto, State.turn]

theorem Step.fits (h : Step counts s p s') (hf : (s.main j).Fits (counts j) (s.round j)) :
    (s'.main j).Fits (counts j) (s'.round j) := by
  by_cases hj : p = .main j
  case pos =>
    subst hj
    cases h <;> simp_all [State.goto, State.turn, State.give, Main.Fits]
    all_goals omega
  case neg =>
    obtain ⟨hr, hm | ⟨ha, hm⟩⟩ := h.keep hj
    · rwa [hr, hm]
    · rw [hr, hm]
      rwa [ha] at hf

theorem fits_of_reachable (r : (machine counts).Reachable s) (i : Fin n) :
    (s.main i).Fits (counts i) (s.round i) := by
  refine r.invariant (I := fun s => (s.main i).Fits (counts i) (s.round i)) ?init ?step
  case init =>
    rintro _ rfl
    exact Nat.zero_le _
  case step => exact fun _ _ _ _ hi h => (Step.of_step h).fits hi

theorem eq_of_inside (r : (machine counts).Reachable s) (hi : (s.main i).Inside)
    (hj : (s.main j).Inside) : i = j := by
  have : NeZero n := ⟨i.pos.ne'⟩
  have hg := Guarded.of_reachable r
  obtain ⟨t, ht⟩ := Granted.of_reachable r
  obtain ⟨hi, hic⟩ := (hg i).of_inside hi
  obtain ⟨hj, hjc⟩ := (hg j).of_inside hj
  rw [ht.token.eq_of_haveToken hi hic, ht.token.eq_of_haveToken hj hjc]

theorem Step.increments (h : Step counts s (.main i) s') (hn : ∀ v, s.main i ≠ .store v) :
    s'.counter = s.counter ∧
      (s'.main i).increments (s'.round i) = (s.main i).increments (s.round i) ∧
      ∀ v ∈ (s'.main i).loaded, v = s.counter := by
  cases h <;> simp_all [State.goto, State.turn, State.give, Main.increments, Main.loaded]

def State.Counted (s : State n) : Prop :=
  Distributed.Counted s.counter (fun i => (s.main i).increments (s.round i))
    fun i => (s.main i).loaded

namespace State.Counted

theorem store (hc : s.Counted) (r : (machine counts).Reachable s) {v : ℕ}
    (hp : s.main i = .store v) (h : mainStep counts s i = some s') : s'.Counted := by
  simp only [mainStep, hp] at h
  cases h
  refine Distributed.Counted.store (i := i) hc ?_ (fun j => ?_) (fun j hj => ?_) ?_
  · simp [hp, Main.loaded]
  · by_cases hj : j = i
    case pos => simp [hj, State.goto, Main.loaded]
    case neg =>
      cases hl : s.main j <;> simp [State.goto, hj, hl, Main.loaded]
      case store =>
        exact hj (eq_of_inside r (by simp [hl, Main.Inside]) (by simp [hp, Main.Inside]))
  · simp [State.goto, hj]
  · simp [State.goto, hp, Main.increments]

-- The other nodes do not touch the counter.
theorem elsewhere (h : Step counts s p s') (hj : p ≠ .main j) :
    (s'.main j).increments (s'.round j) = (s.main j).increments (s.round j) ∧
      (s'.main j).loaded = (s.main j).loaded := by
  obtain ⟨hr, hm | ⟨ha, hm⟩⟩ := h.keep hj
  · simp [hr, hm]
  · simp [hr, hm, ha, Main.increments, Main.loaded]

theorem step (hc : s.Counted) (r : (machine counts).Reachable s)
    (h : (machine counts).step s p = some s') : s'.Counted := by
  have hs := Step.of_step h
  cases p
  case receiver i =>
    have he (j : Fin n) := elsewhere hs (j := j) (by simp)
    have hc' : s'.counter = s.counter := by cases hs <;> rfl
    rw [State.Counted, hc']
    refine Distributed.Counted.load (i := i) hc (fun j => (he j).left) (fun j _ => (he j).right) ?_
    rw [(he i).right]
    exact hc.loaded i
  case main i =>
    by_cases hv : ∃ v, s.main i = .store v
    case pos =>
      obtain ⟨v, hv⟩ := hv
      exact hc.store r hv h
    case neg =>
      obtain ⟨hc', hi, hl⟩ := hs.increments (not_exists.mp hv)
      have he {j : Fin n} (hj : j ≠ i) := elsewhere hs (j := j) (by simpa using hj.symm)
      rw [State.Counted, hc']
      refine Distributed.Counted.load (i := i) hc (fun j => ?_) (fun j hj => (he hj).right) hl
      by_cases hj : j = i
      case pos => exact hj ▸ hi
      case neg => exact (he hj).left

theorem of_reachable (r : (machine counts).Reachable s) : s.Counted := by
  refine r.invariant (I := State.Counted) ?init ?step
  case init =>
    rintro _ rfl
    exact ⟨by simp [init, Main.increments], by simp [init, Main.loaded]⟩
  case step => exact fun _ _ _ r hi h => hi.step r h

end State.Counted

theorem Main.place_lt (m : Main n) : m.place < Main.statements n := by
  have hle {k : ℕ} (hk : k ≤ n) : (n + 8) * k ≤ (n + 8) * n := Nat.mul_le_mul_left _ hk
  rw [Main.statements]
  cases m <;> simp only [Main.place]
  case send k => have := hle (min_le_right k n); omega
  case request k => have := hle k.isLt.le; omega
  case sendToken q =>
    cases q <;> simp only [Main.sendTokenPlace]
    case scan k => have := min_le_right k n; omega
    all_goals omega
  all_goals omega

theorem Main.Fits.work_le {m : Main n} (h : m.Fits c r) :
    r * Main.statements n + m.place ≤ c * Main.statements n + 1 := by
  have hm : r ≤ c ∧ m.place ≤ 1 ∨ r < c := by
    cases m <;> simp_all [Main.Fits, Main.place]
  obtain ⟨hr, hp⟩ | hr := hm
  · exact Nat.add_le_add (Nat.mul_le_mul_right _ hr) hp
  · calc
      r * Main.statements n + m.place ≤ r * Main.statements n + Main.statements n :=
        Nat.add_le_add_left m.place_lt.le _
      _ = (r + 1) * Main.statements n := (Nat.add_one_mul ..).symm
      _ ≤ c * Main.statements n := Nat.mul_le_mul_right _ hr
      _ ≤ c * Main.statements n + 1 := Nat.le_add_right ..

theorem Receiver.place_le (q : Receiver n) : q.place ≤ n + 6 := by
  cases q <;> simp only [Receiver.place]
  case sendToken p =>
    cases p <;> simp only [Main.sendTokenPlace]
    case scan k => have := min_le_right k n; omega
    all_goals omega
  all_goals omega

theorem run_length_le {ps : List (Process n)} (h : (machine counts).Run (init n) ps s) :
    ps.length ≤ (∑ i, counts i) * Main.statements n + n := by
  have hl := h.length_add_le_work State.work (.init rfl) fun _ _ _ _ hs => work_lt (.of_step hs)
  have hw : ∑ i, (s.round i * Main.statements n + (s.main i).place) ≤
      (∑ i, counts i) * Main.statements n + n := by
    refine (Finset.sum_le_sum fun i _ =>
      (fits_of_reachable (h.reachable (.init rfl)) i).work_le).trans_eq ?_
    simp [Finset.sum_add_distrib, Finset.sum_mul]
  have hr : ∑ i, (s.receiver i).place ≤ n * (n + 6) := by
    simpa using Finset.sum_le_card_nsmul Finset.univ _ _ fun i _ => (s.receiver i).place_le
  have hi : (init n).work = n * (n + 6) := by
    simp [init, State.work, Main.place, Receiver.place]
  rw [hi] at hl
  rw [Finset.sum_add_distrib] at hw
  simp only [State.work] at hl
  omega

-- Under each scheduler the program ends after a bounded number of steps, and it ends only when all
-- nodes have completed their rounds and no increment of the counter is lost.
theorem every_run_ends (counts : Fin n → ℕ) :
    (∀ ps s, (machine counts).Run (init n) ps s →
      ps.length ≤ (∑ i, counts i) * Main.statements n + n) ∧
    ∀ s, (machine counts).Reachable s → (machine counts).Live s ∨
      (∀ i, s.main i = .done ∧ s.receiver i = .receive) ∧ s.counter = ∑ i, counts i := by
  refine ⟨fun _ _ => run_length_le, fun s r => or_iff_not_imp_left.mpr fun hl => ?_⟩
  have h := Stuck.of_not_live hl
  have hg := Guarded.of_reachable r
  have hr := Recorded.of_reachable r
  have hd (i : Fin n) : s.main i = .done ∧ s.receiver i = .receive := by
    have : NeZero n := ⟨i.pos.ne'⟩
    obtain ⟨t, hi⟩ := Granted.of_reachable r
    refine ⟨?_, h.receiver_eq hg hi hr (lt_of_offers r) i⟩
    obtain hp | hp := h.await_or_done hg hi hr (lt_of_offers r) i
    · have hf := fits_of_reachable r i
      rw [hp] at hf
      exact absurd (live r hf) hl
    · exact hp
  refine ⟨hd, ?_⟩
  rw [(State.Counted.of_reachable r).counter]
  refine Finset.sum_congr rfl fun i _ => ?_
  have hf := fits_of_reachable r i
  simp only [(hd i).left, Main.Fits, Main.increments] at hf ⊢
  exact hf

end Counting

end TokenPassing
