import Concurrencia.Distributed.TokenPassing.Theorems.Requests

open Function Distributed

namespace TokenPassing

variable {n : ℕ} {counts : Fin n → ℕ} {s s' : State n} {p : Process n} {t i j k : Fin n}

theorem owing_await {f : Fin n → Main n} (h : (f j).Owing) : (update f k .tokenAcquire j).Owing := by
  rcases eq_or_ne j k with rfl | hn
  · simp [Main.Owing]
  · simpa [hn]

namespace Step

theorem granted (h : Step counts s p s') (he : ∀ k, event s p ≠ some (.grant k)) :
    s'.granted i k =
    if p = .main i ∧ s.main i = .setGranted ∧ k = i then s.myNumber i else s.granted i k := by
  cases h <;> simp_all [event, State.goto, State.turn]
  case setGranted j _ =>
    rcases eq_or_ne i j with rfl | hi <;> rcases eq_or_ne k i with rfl | hk <;> simp_all [Ne.symm]
  all_goals
    rintro rfl
    simp_all

theorem granted_of_grant (h : Step counts s p s') (he : event s p = some (.grant k)) :
    s'.granted k = s.granted p.node := by
  obtain ⟨-, ⟨i, rfl, -, rfl⟩ | ⟨i, rfl, -, rfl⟩⟩ := h.grant he
  · simp [State.goto, State.give, Process.node]
  · simp [State.goto, State.turn, State.give, Process.node]

theorem granted_of_ne (h : Step counts s p s') (he : event s p = some (.grant k)) (hi : i ≠ k) :
    s'.granted i = s.granted i := by
  obtain ⟨-, ⟨_, rfl, -, rfl⟩ | ⟨_, rfl, -, rfl⟩⟩ := h.grant he <;>
    simp [State.goto, State.turn, State.give, hi]

theorem offers_of_grant (h : Step counts s p s') (he : event s p = some (.grant k)) :
    s.Offers p.node k := by
  obtain ⟨-, ⟨_, rfl, hi, -⟩ | ⟨_, rfl, hi, -⟩⟩ := h.grant he
  · exact .inl hi
  · exact .inr hi

theorem main_of_grant (h : Step counts s p s') (he : event s p = some (.grant k)) :
    s'.main k = .tokenAcquire := by
  obtain ⟨hk, ⟨i, rfl, hi, rfl⟩ | ⟨i, rfl, hi, rfl⟩⟩ := h.grant he
  · have : k ≠ i := by
      rintro rfl
      simp [hi] at hk
    simp [State.goto, State.give, this]
  · simp [State.goto, State.turn, State.give]

-- Nothing but the arrival of the token ends the wait for it.
theorem waiting_or_grant (h : Step counts s p s') (hw : (s.main j).Waiting) :
    (s'.main j).Waiting ∨ event s p = some (.grant j) := by
  cases p
  case main i' =>
    rcases eq_or_ne j i' with rfl | hn
    · cases h <;> simp_all [event, State.goto, State.turn, Main.Waiting]
    · cases h <;> simp_all [event, State.goto, State.turn, State.give, waiting_await]
      case give => exact ne_or_eq .. |>.imp_right Eq.symm
  case receiver i' =>
    cases h <;> simp_all [event, State.goto, State.turn, State.give, waiting_await]
    case rgive => exact ne_or_eq .. |>.imp_right Eq.symm

theorem owing (h : Step counts s p s') (ho : (s.main j).Owing) :
    (s'.main j).Owing ∨ p = .main j ∧ s.main j = .setGranted := by
  cases p
  case main i' =>
    rcases eq_or_ne j i' with rfl | hn
    · cases h <;> simp_all [State.goto, Main.Owing]
    · cases h <;> simp_all [State.goto, State.turn, State.give, owing_await]
  case receiver i' => cases h <;> simp_all [State.goto, State.turn, State.give, owing_await]

theorem offers (h : Step counts s p s') (ho : s'.Offers i k) :
    s.Offers i k ∨ s.granted i k < s.requested i k ∧ s'.granted = s.granted := by
  cases p
  case main i' =>
    rcases eq_or_ne i i' with rfl | hn
    · cases h <;>
        simp_all [State.Offers, State.goto, State.turn, State.give, Guarded.sendToken_record]
      case found => grind
    · cases h <;>
        simp_all [State.Offers, State.goto, State.turn, State.give, Guarded.sendToken_record,
          Guarded.sendToken_await]
  case receiver i' =>
    rcases eq_or_ne i i' with rfl | hn
    · cases h <;>
        simp_all [State.Offers, State.goto, State.turn, State.give, Guarded.sendToken_await]
      case rfound => grind
    · cases h <;>
        simp_all [State.Offers, State.goto, State.turn, State.give, Guarded.sendToken_await]

end Step

-- A node in `sendToken` has locked its mutex and does not wait for another token.
theorem Guarded.of_sendToken {q : SendToken n} (hg : Guarded s i)
    (ho : s.main i = .sendToken q ∨ s.receiver i = .sendToken q) :
    s.haveToken i = true ∧ s.main i ≠ .setGranted ∧ ¬(s.main i).Lacking ∧ ¬(s.main i).Owing := by
  have hl := hg.lacking
  have hx := hg.exclusive
  have hc := hg.inCS
  rcases ho with ho | ho
  · have hh := hg.holding (by simp [ho, Main.Holding])
    simp [ho, hh, Main.Lacking, Main.Owing]
  · have hs := hg.sending (by simp [ho, Receiver.Sending])
    have hr : (s.receiver i).Locked := by simp [ho, Receiver.Locked]
    cases hp : s.main i <;> simp_all [Main.Lacking, Main.Owing, Main.Locked, Main.InCS]

theorem Guarded.not_clearing {q : SendToken n} (hg : Guarded s i)
    (ho : s.main i = .sendToken q ∨ s.receiver i = .sendToken q) (hq : q ≠ .clearToken) :
    ¬s.Clearing i := by
  have hx := hg.exclusive
  rcases ho with ho | ho <;> rintro (hc | hc) <;> simp_all [Main.Locked, Receiver.Locked]

theorem Step.granted_of_offers (h : Step counts s p s') (hg : Guarded s i) (ho : s.Offers i k) :
    s'.granted i = s.granted i := by
  have ⟨_, hp, hl, _⟩ := hg.of_sendToken ho
  by_cases he : ∃ k, event s p = some (.grant k)
  case neg =>
    funext k
    simp [h.granted (not_exists.mp he), hp]
  case pos =>
    have ⟨k', he⟩ := he
    have hk := (h.grant he).left
    have hn : i ≠ k' := by
      rintro rfl
      simp [hk, Main.Lacking] at hl
    exact h.granted_of_ne he hn

theorem lt_of_offers (r : (machine counts).Reachable s) :
    ∀ i k, s.Offers i k → s.granted i k < s.requested i k := by
  refine r.invariant (I := fun s => ∀ i k, s.Offers i k → s.granted i k < s.requested i k) ?init ?step
  case init =>
    rintro _ rfl i k (h | h) <;> simp [init] at h
  case step =>
    intro s p s' r hi h i k ho
    have h := Step.of_step h
    rcases h.offers ho with ho | ⟨hlt, hg⟩
    · rw [h.granted_of_offers (.of_reachable r i) ho]
      exact (hi i k ho).trans_le h.requested
    · rw [hg]
      exact hlt.trans_le h.requested

-- How the array `granted` that travels with the token compares with the requests.
structure Granted (s : State n) (t : Fin n) : Prop where
  token               : s.Token t
  waiting (i : Fin n) : i ≠ t → (s.main i).Waiting → s.granted t i + 1 = s.myNumber i
  idle (i : Fin n)    : i ≠ t → ¬(s.main i).Waiting → s.granted t i = s.myNumber i
  own                 : ¬(s.main t).Owing → s.granted t t = s.myNumber t

theorem Main.Waiting.lacking {m : Main n} (h : m.Waiting) : m.Lacking := by
  cases m <;> simp_all [Main.Waiting, Main.Lacking]

namespace Granted

theorem init [NeZero n] : Granted (init n) 0 where
  token         := .init
  waiting _ _ h := h.elim
  idle _ _ _    := rfl
  own _         := rfl

section

variable (hi : Granted s t) (hg : ∀ i, Guarded s i) (h : Step counts s p s')
include hi hg h

theorem not_request_token : event s p ≠ some (.request t) := by
  intro he
  have ⟨hp, _⟩ := h.of_request he
  have hl := (hg t).lacking (by simp [hp, Main.Lacking])
  simpa [State.tokens, hl, hp, Main.arrived] using hi.token.here

theorem step_of_not_grant (he : ∀ k, event s p ≠ some (.grant k)) : Granted s' t where
  token := h.token hg hi.token he
  waiting i hn hw := by
    have hm := h.myNumber (i := i)
    rw [h.granted he, if_neg (by simp [hn])]
    rcases h.waiting hw with hr | hw
    · have := hi.idle i hn (by simp [h.of_request hr, Main.Waiting])
      simp_all
    · have := hi.waiting i hn hw
      have hr : event s p ≠ some (.request i) := fun hr => by simp [h.of_request hr, Main.Waiting] at hw
      simp_all
  idle i hn hw := by
    have hm := h.myNumber (i := i)
    rw [h.granted he, if_neg (by simp [hn])]
    have hw' : ¬(s.main i).Waiting := fun hw' => (h.waiting_or_grant hw').elim hw (he i)
    have hr : event s p ≠ some (.request i) := fun hr => by
      simp [h.of_request hr, Main.Waiting] at hw
    simp_all [hi.idle i hn hw']
  own ho := by
    have hm := h.myNumber (i := t)
    simp only [hi.not_request_token hg h, if_false] at hm
    rw [h.granted he, hm]
    split
    · rfl
    · refine hi.own fun ho' => ?_
      have := (h.owing ho').resolve_left ho
      simp_all

theorem step_of_grant (he : event s p = some (.grant k)) : Granted s' k := by
  have ⟨hp, hn, hk⟩ := h.token_of_grant hg hi.token he
  have hm (i : Fin n) : s'.myNumber i = s.myNumber i := by simp [h.myNumber, he]
  have hgr := h.granted_of_grant he
  have ⟨ht, _, hl, how⟩ := (hg t).of_sendToken (hp ▸ h.offers_of_grant he)
  refine ⟨hk, fun i hik hw => ?_, fun i hik hw => ?_, fun ho => ?_⟩
  · have hw := (h.waiting hw).resolve_left (by simp [he])
    have hit : i ≠ t := by
      rintro rfl
      exact hl hw.lacking
    rw [hgr, hp, hm]
    exact hi.waiting i hit hw
  · have hw' : ¬(s.main i).Waiting := by
      intro hw'
      have he' := (h.waiting_or_grant hw').resolve_left hw
      simp_all
    rw [hgr, hp, hm]
    rcases eq_or_ne i t with rfl | hit
    · exact hi.own how
    · exact hi.idle i hit hw'
  · simp [h.main_of_grant he, Main.Owing] at ho

end

theorem of_reachable [NeZero n] {counts : Fin n → ℕ} {s : State n}
    (r : (machine counts).Reachable s) : ∃ t, Granted s t := by
  refine r.invariant (I := fun s => ∃ t, Granted s t) ?init ?step
  case init => rintro _ rfl; exact ⟨0, .init⟩
  case step =>
    rintro s p s' r ⟨t, hi⟩ h
    have hg := Guarded.of_reachable r
    by_cases he : ∃ k, event s p = some (.grant k)
    · have ⟨k, he⟩ := he
      exact ⟨k, hi.step_of_grant hg (.of_step h) he⟩
    · exact ⟨t, hi.step_of_not_grant hg (.of_step h) (not_exists.mp he)⟩

end Granted

-- From the return of `lock` to the call of `unlock`.
def Main.Inside : Main n → Prop
  | load | store _ | unlockAcquire => True
  | _ => False

theorem State.Token.eq_of_haveToken (ht : s.Token t) (h : s.haveToken i = true) (hc : ¬s.Clearing i) :
    i = t :=
  ht.eq (Nat.add_pos_left (by simp [h, hc]) _)

theorem State.Token.eq_of_sendToken {q : SendToken n} (ht : s.Token t) (hg : ∀ i, Guarded s i)
    (ho : s.main i = .sendToken q ∨ s.receiver i = .sendToken q) (hq : q ≠ .clearToken) : i = t :=
  ht.eq_of_haveToken ((hg i).of_sendToken ho).left ((hg i).not_clearing ho hq)

theorem Guarded.of_inside (hg : Guarded s i) (h : (s.main i).Inside) :
    s.haveToken i = true ∧ ¬s.Clearing i := by
  have hc := hg.inCS
  have hh := hg.holding
  have hs := hg.sending
  refine ⟨?_, ?_⟩
  · cases hp : s.main i <;> simp_all [Main.Inside, Main.Holding]
  · rintro (hp | hp)
    · simp [hp, Main.Inside] at h
    · cases hp : s.main i <;> simp_all [Main.Inside, Main.InCS, Receiver.Sending]

-- The token is offered to a node that waits for it, and for the request that is recorded.
theorem Granted.of_offers (hi : Granted s t) (hg : ∀ i, Guarded s i) (hr : Recorded s)
    (ho : s.Offers i k) (hlt : s.granted i k < s.requested i k) :
    k ≠ i ∧ (s.main k).Waiting ∧ ¬(s.main k).Pending i ∧
    s.requested i k = s.myNumber k ∧ s.myNumber k = s.granted i k + 1 := by
  obtain rfl := hi.token.eq_of_sendToken hg ho (by simp)
  have hle : s.requested i k ≤ s.known i k := le_max_left ..
  have hkn := hr.le i k
  have hn : k ≠ i := by
    rintro rfl
    have := hr.self k
    omega
  have hw : (s.main k).Waiting := by
    by_contra hw
    have := hi.idle k hn hw
    omega
  have hk := hi.waiting k hn hw
  exact ⟨hn, hw, fun hp => by have := hr.pending i k hp; omega, by omega, by omega⟩

-- A token in flight is counted at its destination, and not at its source, where `haveToken` is to be
-- cleared.
theorem one_token (r : (machine counts).Reachable s) :
    (0 < n → ∃ t, s.tokens t = 1 ∧ ∀ i, i ≠ t → s.tokens i = 0) ∧
    {i | (s.main i).Inside}.Subsingleton ∧
    ∀ i k, s.Offers i k →
      k ≠ i ∧ (s.main k).Waiting ∧ ¬(s.main k).Pending i ∧
      s.requested i k = s.myNumber k ∧ s.myNumber k = s.granted i k + 1 := by
  have hg := Guarded.of_reachable r
  refine ⟨fun hn => ?_, fun a ha b hb => ?_, fun i k ho => ?_⟩
  · have : NeZero n := ⟨hn.ne'⟩
    have ⟨t, hi⟩ := Granted.of_reachable r
    exact ⟨t, hi.token.here, hi.token.elsewhere⟩
  · have : NeZero n := ⟨a.pos.ne'⟩
    have ⟨t, hi⟩ := Granted.of_reachable r
    have ⟨ha, hac⟩ := (hg a).of_inside ha
    have ⟨hb, hbc⟩ := (hg b).of_inside hb
    rw [hi.token.eq_of_haveToken ha hac, hi.token.eq_of_haveToken hb hbc]
  · have : NeZero n := ⟨i.pos.ne'⟩
    have ⟨t, hi⟩ := Granted.of_reachable r
    exact hi.of_offers hg (.of_reachable r) ho (lt_of_offers r i k ho)

-- The receiver of node 0 offers the token to node 1, which has sent its first request.
theorem one_token_two :
    ∃ s : State 2, s.receiver 0 = .sendToken (.send 1) ∧ (s.main 1).Waiting ∧
      s.requested 0 1 = s.myNumber 1 ∧ s.myNumber 1 = s.granted 0 1 + 1 :=
  have ⟨s, h, ho⟩ : ∃ s, (machine fun _ => 1).exec (init 2) (
      Machine.schedule [(9, .main 1), (5, .receiver 0)]) = some s ∧
      s.receiver 0 = .sendToken (.send 1) := ⟨_, rfl, rfl⟩
  have ⟨_, hw, _, hr, hm⟩ := (one_token (.of_exec rfl h)).right.right 0 1 (.inr ho)
  ⟨s, ho, hw, hr, hm⟩

end TokenPassing
