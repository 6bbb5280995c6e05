import Concurrencia.Distributed.TokenPassing.Theorems.Token

open Function Distributed

namespace TokenPassing

namespace Main

variable {n : ℕ}

-- The request still has to be delivered to node `j`.
def Pending (j : Fin n) : Main n → Prop
  | requestRelease => True
  | send k         => k ≤ j
  | request k      => k ≤ j
  | _              => False

-- The number of the last request is still to be entered into `granted`.
def Owing : Main n → Prop
  | tokenAcquire | setToken | setInCS | lockRelease | load | store _ | unlockAcquire => True
  | setGranted => True
  | _ => False

end Main

-- The number of the request of node `j` the receiver has taken from the channel.
def Receiver.carried {n : ℕ} (j : Fin n) : Receiver n → ℕ
  | record m => if m.source = j then m.number else 0
  | _        => 0

variable {n : ℕ} {counts : Fin n → ℕ} {s s' : State n} {p : Process n} {i j k : Fin n}

-- The last number of node `j` that has been delivered to node `i`.
def State.known (s : State n) (i j : Fin n) : ℕ :=
  max (s.requested i j) ((s.receiver i).carried j)

-- Node `j` delivers its request to node `i`.
def Delivers (s : State n) (p : Process n) (j i : Fin n) : Prop :=
  p = .main j ∧ s.main j = .request i

theorem requested_record {f : Fin n → Fin n → ℕ} {m : Message n} :
    (if m.number > f k m.source then update f k (update (f k) m.source m.number) else f) i j =
    max (f i j) (if i = k ∧ m.source = j then m.number else 0) := by
  rcases eq_or_ne i k with rfl | hn <;> rcases eq_or_ne j m.source with rfl | hm <;> split
  all_goals simp_all [Ne.symm, le_of_lt]

section

variable {f : Fin n → Main n} (hk : f k = .await)
include hk

theorem waiting_await : (update f k .tokenAcquire j).Waiting ↔ (f j).Waiting ∧ j ≠ k := by
  rcases eq_or_ne j k with rfl | hn <;> simp [Main.Waiting, *]

theorem pending_await : (update f k .tokenAcquire j).Pending i ↔ (f j).Pending i :=
  Threads.update_iff (P := Main.Pending i) (by simp [hk, Main.Pending]) _

end

namespace Step

theorem myNumber (h : Step counts s p s') :
    s'.myNumber i = s.myNumber i + if event s p = some (.request i) then 1 else 0 := by
  cases h <;> simp_all [event, State.goto, State.turn, State.give]
  case setNumber j _ => rcases eq_or_ne i j with rfl | hn <;> simp_all [Ne.symm]

theorem known_of_delivers (h : Step counts s p s') (hd : Delivers s p j i) :
    s'.known i j = max (s.known i j) (s.myNumber j) := by
  obtain ⟨rfl, hp⟩ := hd
  cases h <;> simp_all
  case request k hk hi => simp_all [State.known, State.goto, State.turn, Receiver.carried]

theorem known (h : Step counts s p s') (hd : ¬Delivers s p j i) : s'.known i j = s.known i j := by
  cases p
  case main i' =>
    cases h <;> simp_all [State.known, State.goto, State.turn, State.give]
    case request k hk hp =>
      rcases eq_or_ne i k with rfl | hn
      · have : i' ≠ j := by
          rintro rfl
          exact hd ⟨rfl, hp⟩
        simp [Receiver.carried, hk, this]
      · simp [hn]
  case receiver i' =>
    rcases eq_or_ne i i' with rfl | hn
    · cases h <;>
        simp_all [State.known, State.turn, State.goto, State.give, Receiver.carried,
          requested_record]
    · cases h <;> simp_all [State.known, State.turn, State.goto, State.give, requested_record]

theorem requested (h : Step counts s p s') : s.requested i j ≤ s'.requested i j := by
  cases h <;> simp [State.turn, State.goto, State.give, requested_record]

theorem le_known (h : Step counts s p s') : s.known i j ≤ s'.known i j := by
  by_cases hd : Delivers s p j i
  · exact h.known_of_delivers hd ▸ le_max_left ..
  · exact (h.known hd).ge

theorem of_request (h : Step counts s p s') (he : event s p = some (.request j)) :
    s.main j = .setNumber ∧ s'.main j = .requestRelease := by
  cases h <;> simp_all [event, State.goto]

theorem waiting (h : Step counts s p s') (hw : (s'.main j).Waiting) :
    event s p = some (.request j) ∨ (s.main j).Waiting := by
  cases p
  case main i' =>
    rcases eq_or_ne j i' with rfl | hn
    · cases h <;> simp_all [event, State.goto, State.turn, State.give, Main.Waiting]
    · cases h <;> simp_all [State.goto, State.turn, State.give, waiting_await]
  case receiver i' => cases h <;> simp_all [State.goto, State.turn, State.give, waiting_await]

theorem pending (h : Step counts s p s') (hw : (s'.main j).Pending i) :
    event s p = some (.request j) ∨ (s.main j).Pending i ∧ ¬Delivers s p j i := by
  cases p
  case main i' =>
    rcases eq_or_ne j i' with rfl | hn
    · cases h <;> simp_all [event, State.goto, State.turn, State.give, Main.Pending, Delivers]
      case skip    => omega
      case request => omega
    · cases h <;>
        simp_all [State.goto, State.turn, State.give, Delivers, hn.symm, pending_await]
  case receiver i' =>
    cases h <;> simp_all [State.goto, State.turn, State.give, pending_await, Delivers]

theorem not_pending (h : Step counts s p s') (hn : i ≠ j) (hw : (s'.main j).Waiting)
    (hp : ¬(s'.main j).Pending i) : (s.main j).Waiting ∧ ¬(s.main j).Pending i ∨ Delivers s p j i := by
  have := Fin.val_ne_of_ne hn
  cases p
  case main i' =>
    rcases eq_or_ne j i' with rfl | hn
    · cases h <;>
        simp_all [State.goto, State.turn, State.give, Main.Pending, Main.Waiting, Delivers]
      all_goals omega
    · cases h <;> simp_all [State.goto, State.turn, State.give, waiting_await]
  case receiver i' => cases h <;> simp_all [State.goto, State.turn, State.give, waiting_await]

theorem other (h : Step counts s p s') (hk : s'.main j = .request k) :
    s.main j = .request k ∨ k ≠ j := by
  cases p
  case main i' =>
    rcases eq_or_ne j i' with rfl | hn
    · cases h <;> simp_all [State.goto, State.turn, State.give]
    · cases h <;> simp_all [State.goto, State.turn, State.give]
      case give => grind
  case receiver i' =>
    cases h <;> simp_all [State.goto, State.turn, State.give]
    case rgive => grind

end Step

-- What is known of the requests at the other nodes. The request of node `j` is recorded with its
-- current number once it has been delivered.
structure Recorded (s : State n) : Prop where
  other (j k : Fin n)     : s.main j = .request k → k ≠ j
  self (j : Fin n)        : s.known j j = 0
  le (i j : Fin n)        : s.known i j ≤ s.myNumber j
  pending (i j : Fin n)   : (s.main j).Pending i → s.known i j < s.myNumber j
  delivered (i j : Fin n) : i ≠ j → (s.main j).Waiting → ¬(s.main j).Pending i →
                            s.known i j = s.myNumber j

namespace Recorded

theorem init : Recorded (init n) where
  other _ _ h       := by simp [TokenPassing.init] at h
  self _            := rfl
  le _ _            := le_rfl
  pending _ _ h     := h.elim
  delivered _ _ _ h := h.elim

section

variable (hi : Recorded s) (h : Step counts s p s')
include hi h

theorem step_self (j : Fin n) : s'.known j j = 0 := by
  have hd : ¬Delivers s p j j := fun hd => hi.other j j hd.right rfl
  rw [h.known hd]
  exact hi.self j

theorem step_le (i j : Fin n) : s'.known i j ≤ s'.myNumber j := by
  have := hi.le i j
  have := h.myNumber (i := j)
  by_cases hd : Delivers s p j i
  · rw [h.known_of_delivers hd]
    omega
  · rw [h.known hd]
    omega

theorem step_pending (i j : Fin n) (hp : (s'.main j).Pending i) : s'.known i j < s'.myNumber j := by
  have hm := h.myNumber (i := j)
  rcases h.pending hp with he | ⟨hp, hd⟩
  · have hd : ¬Delivers s p j i := fun hd => by simpa [h.of_request he] using hd.right
    rw [h.known hd, hm, if_pos he]
    exact Nat.lt_succ_of_le (hi.le i j)
  · rw [h.known hd]
    exact (hi.pending i j hp).trans_le (by omega)

theorem step_delivered (i j : Fin n) (hn : i ≠ j) (hw : (s'.main j).Waiting)
    (hp : ¬(s'.main j).Pending i) : s'.known i j = s'.myNumber j := by
  have hm := h.myNumber (i := j)
  have hl := hi.step_le h i j
  rcases h.not_pending hn hw hp with ⟨hw, hp⟩ | hd
  · have he : event s p ≠ some (.request j) := fun he => by
      simp [h.of_request he, Main.Waiting] at hw
    have := hi.delivered i j hn hw hp
    have := h.le_known (i := i) (j := j)
    simp only [he, if_false] at hm
    omega
  · have he : event s p ≠ some (.request j) := fun he => by
      simpa [h.of_request he] using hd.right
    simp only [he, if_false] at hm
    rw [h.known_of_delivers hd] at *
    omega

theorem step : Recorded s' where
  other j k hk := (h.other hk).elim (hi.other j k) id
  self         := hi.step_self h
  le           := hi.step_le h
  pending      := hi.step_pending h
  delivered    := hi.step_delivered h

end

theorem of_reachable (r : (machine counts).Reachable s) : Recorded s := by
  refine r.invariant ?init ?step
  case init => rintro _ rfl; exact .init
  case step => exact fun _ _ _ _ hi h => hi.step (.of_step h)

end Recorded

end TokenPassing
