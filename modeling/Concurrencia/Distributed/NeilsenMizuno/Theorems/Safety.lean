import Concurrencia.Distributed.NeilsenMizuno.Theorems.Refinement
import Mathlib.Data.List.Count
import Mathlib.Data.Set.Subsingleton

open Function Distributed PathReversal

namespace NeilsenMizuno

-- The requests which are sent by their originators, and the replies to them.
inductive Event (n : ℕ)
  | request (k : Fin n)
  | reply (k : Fin n)
  deriving DecidableEq

variable {n : ℕ}

def event (s : State n) : Process n → Option (Event n)
  | .main i =>
    match s.main i with
    | .request => some (.request i)
    | .reply   => (s.deferred i).map .reply
    | _        => none
  | .receiver i =>
    match s.receiver i with
    | .reply m => some (.reply m.originator)
    | _        => none

def Main.Inside : Main n → Prop
  | load | store _ | unlockAcquire => True
  | _ => False

-- Node `i` is about to send a reply to node `k`.
def State.Replies (s : State n) (i k : Fin n) : Prop :=
  s.main i = .reply ∧ s.deferred i = some k ∨ ∃ m, s.receiver i = .reply m ∧ m.originator = k

variable {counts : Fin n → ℕ} {s s' : State n} {p : Process n} {c i j k k' : Fin n}
variable {l : List (Event n)}

theorem Main.Inside.token {m : Main n} (h : m.Inside) : m.Token := by
  cases m <;> simp_all [Main.Inside, Main.Token]

theorem Guarded.token_of_replies (hg : Guarded s i) (h : s.Replies i k) : s.view.token i := by
  rcases h with ⟨h, -⟩ | ⟨m, h, -⟩
  · exact .inl (by simp [h, Main.Token])
  · have hh := hg.replying (by simp [h, Receiver.Replying])
    exact .inr ⟨hh, by simp [h, Receiver.Granted]⟩

theorem Guarded.eq_of_replies (hg : Guarded s i) (h : s.Replies i k) (h' : s.Replies i k') :
    k = k' := by
  rcases h with ⟨h, hk⟩ | ⟨m, h, rfl⟩ <;> rcases h' with ⟨h', hk'⟩ | ⟨m', h', rfl⟩
  · exact Option.some.inj (hk.symm.trans hk')
  · exact absurd (by simp [h', Receiver.Locked]) (hg.exclusive (by simp [h, Main.Locked]))
  · exact absurd (by simp [h, Receiver.Locked]) (hg.exclusive (by simp [h', Main.Locked]))
  · rw [h] at h'
    cases h'
    rfl

theorem State.view_open (hr : ¬(s.receiver i).Locked) (hp : s.parent i = none) : s.view.Open i := by
  have ht := Receiver.turned_eq_none hr
  refine ⟨by simp [view, ht, hp], ?_⟩
  cases h : s.receiver i <;> simp_all [view, Receiver.held, Receiver.carried, Receiver.Locked]

-- A node without a parent has the token or waits for it.
theorem Guarded.parent_of_request (hg : Guarded s i) (hw : WellFormed s.view c)
    (h : s.main i = .request) : s.parent i ≠ none := by
  have hl := hg.lacking (by simp [h, Main.Lacking])
  have hr := hg.exclusive (by simp [h, Main.Locked])
  intro hp
  have hn : ¬s.view.waiting i := by simp [State.view, h, Main.Waiting]
  have ht := hw.owned.token_of_open (State.view_open hr hp) hn
  simp [State.view, h, hl, Main.Token] at ht

theorem State.pending_of_replies (h : s.Replies i k) :
    ∃ x, s.view.pending x = some k := by
  rcases h with ⟨h, hd⟩ | ⟨m, h, rfl⟩
  · exact ⟨.inr i, by simp [State.pending, State.view, h, hd]⟩
  · exact ⟨.inl i, by simp [State.pending, State.view, h, Receiver.carried]⟩

namespace Step

theorem waiting (h : Step counts s p s') :
    (s'.main k).Waiting ↔
    event s p = some (.request k) ∨ (s.main k).Waiting ∧ event s p ≠ some (.reply k) := by
  cases p
  case main j =>
    rcases eq_or_ne k j with rfl | hn
    · cases h <;> simp_all [event, State.goto, Main.Waiting]
    · cases h <;> simp_all [event, State.goto, State.turn, hn.symm]
      case reply k' _ _ _ => rcases eq_or_ne k k' with rfl | hk <;> simp_all [Main.Waiting, Ne.symm]
  case receiver j =>
    cases h <;> simp_all [event, State.goto, State.turn]
    case grant m _ _ =>
      rcases eq_or_ne k m.originator with rfl | hk <;> simp_all [Main.Waiting, Ne.symm]

theorem of_event (h : Step counts s p s') :
    (event s p = some (.request k) → ¬(s.main k).Waiting) ∧
    (event s p = some (.reply k) → (s.main k).Waiting) := by
  cases h <;> simp_all [event, Main.Waiting]
  case request => rintro rfl; simp_all
  all_goals rintro rfl; simp_all

end Step

-- Each request gets one reply, for which its originator waits.
structure Answered (s : State n) (l : List (Event n)) (k : Fin n) : Prop where
  waiting : (s.main k).Waiting → l.count (.request k) = l.count (.reply k) + 1
  idle    : ¬(s.main k).Waiting → l.count (.request k) = l.count (.reply k)

theorem Answered.of_reachable (r : ((machine counts).logging event).Reachable (s, l)) (k : Fin n) :
    Answered s l k := by
  refine r.logging_invariant (I := (Answered · · k)) ?init ?step
  case init =>
    rintro _ rfl
    exact ⟨fun h => h.elim, fun _ => rfl⟩
  case step =>
    intro s p s' l r hi h
    have hw := (Step.of_step h).waiting (k := k)
    have he := (Step.of_step h).of_event (k := k)
    have := hi.waiting
    have := hi.idle
    cases hp : event s p
    case none   => exact ⟨by simp_all, by simp_all⟩
    case some e =>
      by_cases hr : e = .request k
      · constructor <;> simp_all
      by_cases hr' : e = .reply k
      · constructor <;> simp_all
      · constructor <;> simp_all

-- There is one token, the edges of the initial star keep their direction or a request passes them,
-- and no request is lost or answered twice.
theorem token_and_edges (r : ((machine counts).logging event).Reachable (s, l)) :
    (0 < n → ∃! t, s.view.token t) ∧
    {i | (s.main i).Inside}.Subsingleton ∧
    (∀ c i : Fin n, c.val = 0 → i ≠ c → ∃! w, Way.Of s.view c i w) ∧
    (∀ i, ¬Relation.TransGen (fun i p => s.view.parent i = some p) i i) ∧
    (∀ i, s.main i = .request → s.parent i ≠ none) ∧
    (∀ i m, s.receiver i = .setDeferred m → s.deferred i = none) ∧
    (∀ i k, s.Replies i k → (s.main k).Waiting) ∧
    (∀ i j k k', s.Replies i k → s.Replies j k' → i = j ∧ k = k') ∧
    ∀ k, Answered s l k := by
  have hg := Guarded.of_reachable r.of_logging
  have hw (i : Fin n) : WellFormed s.view ⟨0, i.pos⟩ := wellFormed r.of_logging rfl
  refine ⟨fun hn => ?token, fun i hi j hj => ?inside, fun c i hc hi => ?edge, fun i => ?cycle,
    fun i h => ?request, fun i m h => ?deferred, fun i k h => ?waiting, fun i j k k' h h' => ?once,
    .of_reachable r⟩
  case token =>
    obtain ⟨t, ht⟩ := (hw ⟨0, hn⟩).owned.owner
    exact ⟨t, (ht t).mpr rfl, fun i => (ht i).mp⟩
  case inside   => exact (hw i).owned.eq (.inl hi.token) (.inl hj.token)
  case edge     => exact (wellFormed r.of_logging hc).star.existsUnique_way hi
  case cycle    => exact (hw i).star.acyclic
  case request  => exact (hg i).parent_of_request (hw i) h
  case deferred =>
    have hm := (hg i).not_locked (by simp [h, Receiver.Locked])
    have hp := State.view_parent (hg i) (by simp [h, Receiver.Rooted])
    have ho : s.view.Open i := ⟨hp, .inr (by simp [State.view, h, Receiver.carried])⟩
    have hd := ((hw i).owned.token_of_open ho (mt Main.Waiting.locked hm)).right
    have hc : s.main i ≠ .clearDeferred := by
      intro hc
      simp [hc, Main.Locked] at hm
    simpa [State.view, hc] using hd
  case waiting  =>
    obtain ⟨x, hx⟩ := State.pending_of_replies h
    exact (hw i).recorded.sound x k hx
  case once     =>
    obtain rfl := (hw i).owned.eq ((hg i).token_of_replies h) ((hg j).token_of_replies h')
    exact ⟨rfl, (hg i).eq_of_replies h h'⟩

-- Node 1 has got the token by a request and sent it to node 0 at the end of its `unlock`.
theorem token_and_edges_two :
    ∃ s : State 2, s.main 0 = .clearHolding ∧ s.main 1 = .clearDeferred ∧
      (∀ t, s.view.token t → t = 0) ∧ Answered s [.request 1, .reply 1, .request 0, .reply 0] 0 :=
  have ⟨s, h, h₀, h₁⟩ : ∃ s, ((machine fun _ => 1).logging event).exec (init 2, [])
      (Machine.schedule [(5, .main 1), (7, .receiver 0), (2, .main 1), (5, .main 0),
        (6, .receiver 1), (5, .main 1)]) =
      some (s, [.request 1, .reply 1, .request 0, .reply 0]) ∧
      s.main 0 = .clearHolding ∧ s.main 1 = .clearDeferred := ⟨_, rfl, rfl, rfl⟩
  have ⟨h, _, _, _, _, _, _, _, ha⟩ := token_and_edges (.of_exec (by exact ⟨rfl, rfl⟩) h)
  have ht : s.view.token 0 := .inl (by simp [h₀, Main.Token])
  ⟨s, h₀, h₁, fun _ hu => (h (by simp)).unique hu ht, ha 0⟩

-- From the receipt of the reply to the end of `unlock`.
def Main.Served : Main n → Prop
  | clearHolding | lockRelease | load | store _ | unlockAcquire => True
  | testDeferred | reply | clearDeferred | setHolding | unlockRelease => True
  | _ => False

-- A node which has sent the token on is not at the end of its `unlock` yet.
theorem token_before_end : ¬∀ (n : ℕ) (counts : Fin n → ℕ) (s : State n),
    (machine counts).Reachable s → 0 < n → ∃! i, s.holding i = true ∨ (s.main i).Served := by
  intro h
  have ⟨s, hs, h₀, h₁⟩ : ∃ s, (machine fun _ => 1).exec (init 2)
      (Machine.schedule [(5, .main 1), (7, .receiver 0), (2, .main 1), (5, .main 0),
        (6, .receiver 1), (5, .main 1)]) = some s ∧
      s.main 0 = .clearHolding ∧ s.main 1 = .clearDeferred := ⟨_, rfl, rfl, rfl⟩
  have ⟨t, _, ht⟩ := h 2 _ s (.of_exec rfl hs) (by simp)
  have h₀ := ht 0 (.inr (by simp [h₀, Main.Served]))
  have h₁ := ht 1 (.inr (by simp [h₁, Main.Served]))
  exact absurd (h₀.trans h₁.symm) (by decide)

end NeilsenMizuno
