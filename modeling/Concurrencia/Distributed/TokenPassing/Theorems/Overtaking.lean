import Concurrencia.Distributed.TokenPassing.Theorems.Granted
import Mathlib.Order.Interval.Finset.Fin

open Function Distributed

namespace TokenPassing

variable {n : ℕ} {counts : Fin n → ℕ} {s s' : State n} {p : Process n} {t i j k : Fin n}
variable {l : List (Event n)} {as : List (Process n)}

namespace Event

def isGrant : Event n → Bool
  | grant _ => true
  | _       => false

def isGrantAbove (i : Fin n) : Event n → Bool
  | grant k => i < k
  | _       => false

def isGrantBelow (i : Fin n) : Event n → Bool
  | grant k => k < i
  | _       => false

def isRequestBelow (i : Fin n) : Event n → Bool
  | request k => k < i
  | _         => false

end Event

-- The loop of `sendToken` has passed index `i`.
def SendToken.Beyond (i : Fin n) : SendToken n → Prop
  | scan k     => i < k
  | send k     => i < k
  | clearToken => False

def Main.Beyond (i : Fin n) : Main n → Prop
  | sendToken q => q.Beyond i
  | _           => False

def Receiver.Beyond (i : Fin n) : Receiver n → Prop
  | sendToken q => q.Beyond i
  | _           => False

-- Node `j` is about to give the token to a node beyond `i`.
def State.Beyond (s : State n) (i j : Fin n) : Prop :=
  (s.main j).Beyond i ∨ (s.receiver j).Beyond i

open Classical in
-- The nodes before `i` that wait for the token.
noncomputable def State.waitingBelow (s : State n) (i : Fin n) : Finset (Fin n) :=
  {k | k < i ∧ (s.main k).Waiting}

theorem State.mem_waitingBelow : k ∈ s.waitingBelow i ↔ k < i ∧ (s.main k).Waiting := by
  simp [waitingBelow]

theorem State.card_waitingBelow_le : (s.waitingBelow i).card ≤ i := by
  have hs : s.waitingBelow i ⊆ Finset.Iio i :=
    fun k hk => Finset.mem_Iio.mpr (mem_waitingBelow.mp hk).left
  simpa using Finset.card_le_card hs

-- The request of node `i` is outstanding and recorded everywhere.
structure Known (s : State n) (i : Fin n) : Prop where
  waiting   : (s.main i).Waiting
  requested : ∀ j, j ≠ i → s.requested j i = s.myNumber i

namespace Known

theorem step (hi : Known s i) (hr : Recorded s) (h : Step counts s p s') (he : event s p ≠ some (.grant i)) :
    Known s' i where
  waiting := (h.waiting_or_grant hi.waiting).resolve_right he
  requested j hj := by
    have hm : s'.myNumber i = s.myNumber i := by
      have hw := hi.waiting
      rw [h.myNumber, if_neg fun he => by simp [h.of_request he, Main.Waiting] at hw]
      rfl
    have hle : s'.requested j i ≤ s'.known j i := le_max_left ..
    have := (hr.step h).le j i
    have := h.requested (i := j) (j := i)
    have := hi.requested j hj
    omega

end Known

theorem beyond_await {f : Fin n → Main n} (hk : f k = .await) :
    (update f k .tokenAcquire j).Beyond i ↔ (f j).Beyond i :=
  Threads.update_iff (P := Main.Beyond i) (by simp [hk, Main.Beyond]) _

theorem beyond_record {f : Fin n → Receiver n} {m : Message n} (hk : f k = .receive) :
    (update f k (.record m) j).Beyond i ↔ (f j).Beyond i :=
  Threads.update_iff (P := Receiver.Beyond i) (by simp [hk, Receiver.Beyond]) _

-- A loop passes index `i` when there is no request of node `i` to serve.
theorem Step.beyond (h : Step counts s p s') (hb : s'.Beyond i j) :
    s.Beyond i j ∨ s.requested j i ≤ s.granted j i ∧
      (s.main j = .sendToken (.scan i) ∨ s.receiver j = .sendToken (.scan i)) := by
  cases p
  case main j' =>
    rcases eq_or_ne j j' with rfl | hn
    · cases h <;>
        simp_all [State.Beyond, State.goto, State.turn, State.give, Main.Beyond, SendToken.Beyond,
          beyond_record]
      case scan => grind
    · cases h <;>
        simp_all [State.Beyond, State.goto, State.turn, State.give, beyond_record, beyond_await]
  case receiver j' =>
    rcases eq_or_ne j j' with rfl | hn
    · cases h <;>
        simp_all [State.Beyond, State.goto, State.turn, State.give, Receiver.Beyond,
          SendToken.Beyond, beyond_await]
      case rscan => grind
    · cases h <;> simp_all [State.Beyond, State.goto, State.turn, State.give, beyond_await]

theorem State.Beyond.sendToken (hb : s.Beyond i j) :
    ∃ q : SendToken n, q ≠ .clearToken ∧ (s.main j = .sendToken q ∨ s.receiver j = .sendToken q) := by
  rcases hb with hb | hb
  · cases hp : s.main j <;> simp [hp, Main.Beyond] at hb
    case sendToken q => exact ⟨q, by rintro rfl; exact hb, .inl rfl⟩
  · cases hp : s.receiver j <;> simp [hp, Receiver.Beyond] at hb
    case sendToken q => exact ⟨q, by rintro rfl; exact hb, .inr rfl⟩

section

variable (hi : Granted s t) (hg : ∀ i, Guarded s i) (hk : Known s i) (h : Step counts s p s')
include hi hg hk h

-- The owner of the token does not pass the request of node `i`.
theorem Known.beyond (hb : s'.Beyond i j) : s.Beyond i j := by
  refine (h.beyond hb).resolve_right ?_
  rintro ⟨hle, hp⟩
  obtain rfl := hi.token.eq_of_sendToken hg hp (by simp)
  have hn : i ≠ j := by
    rintro rfl
    exact ((hg i).of_sendToken hp).right.right.left hk.waiting.lacking
  have := hi.waiting i hn hk.waiting
  have := hk.requested j hn.symm
  omega

omit hi hg hk in
theorem beyond_of_grant (he : event s p = some (.grant k)) (hlt : i < k) : s.Beyond i p.node := by
  rcases h.offers_of_grant he with ho | ho
  · exact .inl (by simpa [ho, Main.Beyond, SendToken.Beyond])
  · exact .inr (by simpa [ho, Receiver.Beyond, SendToken.Beyond])

omit hk in
theorem not_beyond_of_grant (he : event s p = some (.grant k)) : ¬s'.Beyond i j := by
  intro hb
  have ⟨q, hq, hp⟩ := hb.sendToken
  have hg' := fun i => (hg i).step h
  obtain rfl := (hi.step_of_grant hg h he).token.eq_of_sendToken hg' hp hq
  exact ((hg' j).of_sendToken hp).right.right.left (by simp [h.main_of_grant he, Main.Lacking])

end

section

variable (h : Step counts s p s')
include h

theorem waitingBelow_of_not_request (he : ∀ k, event s p ≠ some (.request k)) :
    s'.waitingBelow i ⊆ s.waitingBelow i := by
  intro k hk
  have ⟨hlt, hw⟩ := State.mem_waitingBelow.mp hk
  exact State.mem_waitingBelow.mpr ⟨hlt, (h.waiting hw).resolve_left (he k)⟩

theorem waitingBelow_of_request (he : event s p = some (.request k)) :
    s'.waitingBelow i ⊆ if k < i then insert k (s.waitingBelow i) else s.waitingBelow i := by
  intro k' hk'
  have ⟨hlt, hw⟩ := State.mem_waitingBelow.mp hk'
  rcases h.waiting hw with he' | hw
  · obtain rfl : k = k' := by simpa [he] using he'
    simp [hlt]
  · split <;> simp [State.mem_waitingBelow, hlt, hw]

theorem waitingBelow_of_grant (he : event s p = some (.grant k)) (hk : k < i) :
    insert k (s'.waitingBelow i) ⊆ s.waitingBelow i ∧ k ∉ s'.waitingBelow i := by
  have hw : k ∈ s.waitingBelow i :=
    State.mem_waitingBelow.mpr ⟨hk, by simp [(h.grant he).left, Main.Waiting]⟩
  refine ⟨Finset.insert_subset hw (waitingBelow_of_not_request h (by simp [he])), ?_⟩
  simp [State.mem_waitingBelow, h.main_of_grant he, Main.Waiting]

-- A node joins those that wait with its request, and leaves them with the token.
theorem card_waitingBelow (i : Fin n) :
    (s'.waitingBelow i).card + (event s p).toList.countP (Event.isGrantBelow i) ≤
    (s.waitingBelow i).card + (event s p).toList.countP (Event.isRequestBelow i) := by
  cases he : event s p
  case none => simpa using Finset.card_le_card (waitingBelow_of_not_request h (by simp [he]))
  case some e =>
    cases e
    case request k =>
      have hs := Finset.card_le_card (waitingBelow_of_request h he (i := i))
      by_cases hk : k < i
      · have := Finset.card_insert_le k (s.waitingBelow i)
        simp only [hk, if_true] at hs
        simpa [Event.isGrantBelow, Event.isRequestBelow, hk] using hs.trans this
      · simpa [Event.isGrantBelow, Event.isRequestBelow, hk] using hs
    case grant k =>
      by_cases hk : k < i
      · have ⟨hs, hn⟩ := waitingBelow_of_grant h he hk
        have := Finset.card_le_card hs
        rw [Finset.card_insert_of_notMem hn] at this
        simpa [Event.isGrantBelow, Event.isRequestBelow, hk] using this
      · have := Finset.card_le_card (waitingBelow_of_not_request h (i := i) (by simp [he]))
        simpa [Event.isGrantBelow, Event.isRequestBelow, hk] using this

end

-- What holds along a run in which node `i` does not get the token.
structure Overtaken (i : Fin n) (s : State n) (l : List (Event n)) : Prop where
  known : Known s i
  above : l.countP (Event.isGrantAbove i) = 0 ∨
          l.countP (Event.isGrantAbove i) = 1 ∧ ∀ j, ¬s.Beyond i j
  below : (s.waitingBelow i).card + l.countP (Event.isGrantBelow i) ≤
          i + l.countP (Event.isRequestBelow i)

theorem Overtaken.step (ho : Overtaken i s l) (hi : Granted s t) (hg : ∀ i, Guarded s i) (hr : Recorded s)
    (h : Step counts s p s') (he : event s p ≠ some (.grant i)) :
    Overtaken i s' (l ++ (event s p).toList) where
  known := ho.known.step hr h he
  above := by
    by_cases hk : ∃ k, event s p = some (.grant k) ∧ i < k
    case pos =>
      have ⟨k, he, hlt⟩ := hk
      refine .inr ⟨?_, fun j => not_beyond_of_grant hi hg h he⟩
      have ha := ho.above.resolve_right fun ha => ha.right _ (beyond_of_grant h he hlt)
      simp [he, ha, Event.isGrantAbove, hlt]
    case neg =>
      have hc : (event s p).toList.countP (Event.isGrantAbove i) = 0 := by
        cases he : event s p
        case none   => rfl
        case some e => cases e <;> simp_all [Event.isGrantAbove]
      rw [List.countP_append, hc]
      exact ho.above.imp_right fun ha => ⟨ha.left, fun j => mt (ho.known.beyond hi hg h) (ha.right j)⟩
  below := by
    have := ho.below
    have := card_waitingBelow h i
    simp only [List.countP_append]
    omega

theorem overtaken_of_run (r : (machine counts).Reachable s) (hk : Known s i)
    (run : ((machine counts).logging event).Run (s, []) as (s', l)) (hl : .grant i ∉ l) :
    Overtaken i s' l := by
  have : NeZero n := ⟨i.pos.ne'⟩
  refine (run.invariant
    (I := fun q => (machine counts).Reachable q.fst ∧ (.grant i ∉ q.snd → Overtaken i q.fst q.snd))
    ⟨r, fun _ => ⟨hk, .inl rfl, ?_⟩⟩ ?_).right hl
  · simpa using State.card_waitingBelow_le
  · rintro ⟨s₁, l₁⟩ p ⟨s₂, l₂⟩ ⟨r, ho⟩ h
    obtain ⟨hs, rfl⟩ := Machine.logging_step.mp h
    refine ⟨r.step hs, fun hl => ?_⟩
    simp only [List.mem_append, Option.mem_toList, not_or] at hl
    have ⟨t, hi⟩ := Granted.of_reachable r
    exact (ho hl.left).step hi (Guarded.of_reachable r) (.of_reachable r) (.of_step hs) hl.right

theorem countP_isGrant (hl : .grant i ∉ l) :
    l.countP Event.isGrant =
    l.countP (Event.isGrantBelow i) + l.countP (Event.isGrantAbove i) := by
  induction l
  case nil => rfl
  case cons e l hi =>
    simp only [List.mem_cons, not_or] at hl
    have hi := hi hl.right
    cases e
    case request k => simpa [Event.isGrant, Event.isGrantBelow, Event.isGrantAbove] using hi
    case grant k   =>
      have hk : k ≠ i := fun hk => hl.left (hk ▸ rfl)
      simp only [List.countP_cons, Event.isGrant, Event.isGrantBelow, Event.isGrantAbove, hi]
      rcases lt_or_gt_of_ne hk with hk | hk
      · simp [hk, hk.not_gt]
        omega
      · simp [hk, hk.not_gt]
        omega

theorem countP_isGrantAbove_of_last (hi : n ≤ i + 1) : l.countP (Event.isGrantAbove i) = 0 := by
  refine List.countP_eq_zero.mpr fun e he => ?_
  cases e
  case request k => simp [Event.isGrantAbove]
  case grant k   =>
    have := k.isLt
    simpa [Event.isGrantAbove] using Fin.le_def.mpr (by omega)

-- While node `i` waits, with its request recorded at the node with the token and known to all others,
-- at most one node after it gets the token, and a node before it does not get the token again without
-- a further request.
theorem overtaking (r : (machine counts).Reachable s) (ht : s.Token t)
    (hrec : s.granted t i < s.requested t i)
    (hk : ∀ j, j ≠ i → s.requested j i = s.myNumber i)
    (run : ((machine counts).logging event).Run (s, []) as (s', l)) (hl : .grant i ∉ l) :
    l.countP Event.isGrant ≤ n - 1 + l.countP (Event.isRequestBelow i) ∧
    l.countP (Event.isGrantAbove i) ≤ 1 := by
  have : NeZero n := ⟨i.pos.ne'⟩
  have ⟨t', hi⟩ := Granted.of_reachable r
  obtain rfl := hi.token.eq (i := t) (by simp [ht.here])
  have hn : i ≠ t := by
    rintro rfl
    have hle : s.requested i i ≤ s.known i i := le_max_left ..
    have := (Recorded.of_reachable r).self i
    omega
  have hw : (s.main i).Waiting := by
    by_contra hw
    have := hi.idle i hn hw
    have := hk t hn.symm
    omega
  have ho := overtaken_of_run r ⟨hw, hk⟩ run hl
  have hb := ho.below
  have hc := countP_isGrant hl
  have ha : l.countP (Event.isGrantAbove i) ≤ 1 := by
    rcases ho.above with ha | ⟨ha, -⟩ <;> omega
  have ha' : l.countP (Event.isGrantAbove i) ≤ n - 1 - i := by
    by_cases hl : n ≤ i + 1
    · exact (countP_isGrantAbove_of_last hl).trans_le (Nat.zero_le _)
    · omega
  have := i.isLt
  exact ⟨by omega, ha⟩

-- Nodes 0 and 1 pass the token to each other, while node 2 waits.
theorem alternation :
    ∃ s s' : State 3, ∃ as, (machine fun _ => 3).Reachable s ∧ s.Token 0 ∧
      s.granted 0 2 < s.requested 0 2 ∧ (∀ j, j ≠ 2 → s.requested j 2 = s.myNumber 2) ∧
      ((machine fun _ => 3).logging event).Run (s, []) as
        (s', [.grant 1, .request 0, .grant 0, .request 1, .grant 1]) := by
  have h : ((machine fun _ => 3).exec (init 3) (Machine.schedule [
      (5, .main 0), (11, .main 1), (4, .receiver 0), (4, .receiver 2), (11, .main 2),
      (4, .receiver 0), (4, .receiver 1)])).any (fun s =>
        (s.tokens 0 = 1 ∧ s.tokens 1 = 0 ∧ s.tokens 2 = 0 ∧ s.granted 0 2 < s.requested 0 2 ∧
          s.requested 0 2 = s.myNumber 2 ∧ s.requested 1 2 = s.myNumber 2) ∧
        (((machine fun _ => 3).logging event).exec (s, []) (Machine.schedule [
          (10, .main 0), (4, .main 1), (11, .main 0), (1, .receiver 1), (4, .receiver 2),
          (9, .main 1), (4, .main 0), (11, .main 1), (1, .receiver 0), (8, .main 0)])).any fun q =>
            q.snd = [.grant 1, .request 0, .grant 0, .request 1, .grant 1]) = true := by
    decide +kernel
  obtain ⟨s, hs, h⟩ := (Option.any_eq_true ..).mp h
  obtain ⟨⟨h₀, h₁, h₂, hlt, hk₀, hk₁⟩, h⟩ := of_decide_eq_true h
  obtain ⟨⟨s', l⟩, hs', h⟩ := (Option.any_eq_true ..).mp h
  obtain rfl : l = _ := of_decide_eq_true h
  refine ⟨s, s', _, .of_exec rfl hs, ⟨h₀, ?_⟩, hlt, ?_, Machine.Run.iff_exec.mpr hs'⟩
  · simp [Fin.forall_fin_succ, h₁, h₂]
  · simp [Fin.forall_fin_succ, hk₀, hk₁]

theorem overtaking_alternation :
    ∃ l : List (Event 3), l = [.grant 1, .request 0, .grant 0, .request 1, .grant 1] ∧
      l.countP Event.isGrant ≤ 3 - 1 + l.countP (Event.isRequestBelow 2) ∧
      l.countP (Event.isGrantAbove 2) ≤ 1 :=
  have ⟨_, _, _, r, ht, hlt, hk, run⟩ := alternation
  ⟨_, rfl, overtaking r ht hlt hk run (by decide)⟩

-- More than `N - 1` other nodes get the token before node 2 does.
theorem overtaken_three_times :
    ∃ s s' : State 3, ∃ as l, (machine fun _ => 3).Reachable s ∧ s.Token 0 ∧
      s.granted 0 2 < s.requested 0 2 ∧ (∀ j, j ≠ 2 → s.requested j 2 = s.myNumber 2) ∧
      ((machine fun _ => 3).logging event).Run (s, []) as (s', l) ∧ .grant 2 ∉ l ∧
      3 - 1 < l.countP Event.isGrant :=
  have ⟨s, s', as, r, ht, hlt, hk, run⟩ := alternation
  ⟨s, s', as, _, r, ht, hlt, hk, run, by decide, by decide⟩

end TokenPassing
