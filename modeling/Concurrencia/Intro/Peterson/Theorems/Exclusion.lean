import Concurrencia.Intro.Peterson.Basic
import Concurrencia.LockClient.Basic
import Concurrencia.Machine.History

open Function

namespace Peterson

namespace Pc

-- The thread has announced itself.
def Announced (p : Pc) : Prop :=
  p ≠ idle ∧ p ≠ setState

def Waiting (p : Pc) : Prop :=
  p = testState ∨ p = testTurn

def Inside (p : Pc) : Prop :=
  p = critical ∨ p = clearState

instance : DecidablePred Announced :=
  fun _ => inferInstanceAs (Decidable (_ ∧ _))

instance : DecidablePred Waiting :=
  fun _ => inferInstanceAs (Decidable (_ ∨ _))

instance : DecidablePred Inside :=
  fun _ => inferInstanceAs (Decidable (_ ∨ _))

def stage : Pc → LockClient.Stage
  | idle                                       => .idle
  | setState | setTurn | testState | testTurn  => .locking
  | critical                                   => .inside
  | clearState                                 => .unlocking

end Pc

variable {s s₁ s₂ : State} {i j : Fin 2} {l : List (Fin 2)}

@[simp]
theorem other_ne : ∀ {i : Fin 2}, other i ≠ i := by
  decide

@[simp]
theorem other_other : ∀ {i : Fin 2}, other (other i) = i := by
  decide

theorem eq_or_eq_other : ∀ i j : Fin 2, j = i ∨ j = other i := by
  decide

theorem ne_other_iff : ∀ {i j : Fin 2}, j ≠ other i ↔ j = i := by
  decide

theorem not_announced {p : Pc} : ¬p.Announced → ¬(p.Waiting ∨ p.Inside) := by
  cases p <;> decide

section Next

@[simp]
theorem next_pc_of_ne (h : j ≠ i) : (next s i).pc j = s.pc j := by
  unfold next
  split <;> simp [h]

theorem next_states_of_ne (h : j ≠ i) : (next s i).states j = s.states j := by
  unfold next
  split <;> simp [h]

-- Only at `setTurn` the thread writes `turn`, and then it begins to wait.
theorem next_turn : (next s i).turn = if s.pc i = .setTurn then other i else s.turn := by
  cases hp : s.pc i <;> simp [next, hp]

theorem next_waiting (h : ((next s i).pc i).Waiting) : s.pc i = .setTurn ∨ (s.pc i).Waiting := by
  cases hp : s.pc i <;> simp [next, hp, Pc.Waiting] at h ⊢

theorem next_inside (h : ((next s i).pc i).Inside) :
    (s.pc i).Inside ∨ (s.pc i).Waiting ∧ (s.states (other i) = false ∨ s.turn = i) := by
  cases hp : s.pc i <;> simp [next, hp, Pc.Inside] at h ⊢
  case testState =>
    split_ifs at h with hs
    · exact absurd h (by simp [hs])
    · exact ⟨.inl rfl, .inl (by simpa using hs)⟩
  case testTurn =>
    split_ifs at h with ht
    · exact absurd ht (by simpa using h)
    · exact ⟨.inr rfl, .inr (ne_other_iff.mp ht)⟩

end Next

-- The thread which has set `turn` last waits for the other one.
structure Inv (s : State) : Prop where
  states : ∀ i, s.states i = true ↔ (s.pc i).Announced
  turn : ∀ i, (s.pc i).Inside → (s.pc (other i)).Waiting ∨ (s.pc (other i)).Inside → s.turn = i

namespace Inv

theorem init : Inv init where
  states _ := by simp [Peterson.init, Pc.Announced]
  turn _ h := by simp [Peterson.init, Pc.Inside] at h

theorem states_next (h : Inv s) (k : Fin 2) :
    (next s i).states k = true ↔ ((next s i).pc k).Announced := by
  have hk := h.states k
  obtain rfl | rfl := eq_or_eq_other i k
  case inr => simpa [next_states_of_ne] using hk
  case inl =>
    cases hp : s.pc k <;> simp only [Pc.Announced, hp] at hk <;> simp [next, hp, Pc.Announced, hk]
    all_goals split_ifs <;> simp

theorem turn_next (h : Inv s) (k : Fin 2) (hk : ((next s i).pc k).Inside)
    (hw : ((next s i).pc (other k)).Waiting ∨ ((next s i).pc (other k)).Inside) :
    (next s i).turn = k := by
  obtain rfl | rfl := eq_or_eq_other i k
  case inl =>
    rw [next_pc_of_ne other_ne] at hw
    obtain hi | ⟨hi, hs | ht⟩ := next_inside hk
    case inl =>
      rw [next_turn, if_neg (by rintro hp; simp [hp, Pc.Inside] at hi)]
      exact h.turn k hi hw
    case inr.inl => exact absurd hw <| not_announced fun ha => by simp [(h.states _).mpr ha] at hs
    case inr.inr => rwa [next_turn, if_neg (by rintro hp; simp [hp, Pc.Waiting] at hi)]
  case inr =>
    rw [other_other] at hw
    rw [next_pc_of_ne other_ne] at hk
    rw [next_turn]
    split_ifs with hp
    case pos => rfl
    case neg =>
      apply h.turn _ hk
      rw [other_other]
      cases hw
      case inl hw => exact .inl ((next_waiting hw).resolve_left hp)
      case inr hi => exact (next_inside hi).symm.imp_left And.left

theorem next (h : Inv s) : Inv (next s i) where
  states := h.states_next
  turn   := h.turn_next

end Inv

theorem inv_of_reachable (r : machine.Reachable s) : Inv s := by
  refine r.invariant (fun s h => h ▸ .init) ?_
  intro s₁ i s₂ _ h hs
  cases hs
  exact h.next

theorem inside_subsingleton (r : machine.Reachable s) : {i | (s.pc i).Inside}.Subsingleton := by
  have h := inv_of_reachable r
  intro i hi j hj
  by_contra hn
  obtain rfl := (eq_or_eq_other i j).resolve_left (Ne.symm hn)
  have hij := (h.turn i hi (.inr hj)).symm.trans (h.turn _ hj (.inr (by simpa using hi)))
  exact other_ne hij.symm

section Overtaking

-- Whether the other thread may come first while `i` waits.
def mayEnter (i : Fin 2) (s : State) : ℕ :=
  if s.turn = other i ∧ (s.pc (other i)).Waiting then 1 else 0

def Waits (i : Fin 2) (s : State) : Prop :=
  (s.pc i).Waiting

instance : DecidablePred (Waits i) :=
  fun _ => inferInstanceAs (Decidable (Pc.Waiting _))

theorem entry_le (h : Inv s) (hw : Waits i s) (hw' : Waits i (Peterson.next s j)) :
    (entry s j).toList.length + mayEnter i (Peterson.next s j) ≤ mayEnter i s := by
  obtain rfl | rfl := eq_or_eq_other i j
  case inl =>
    have he : entry s j = none := by
      refine if_neg fun he => ?_
      rw [Waits, he.right] at hw'
      simp [Pc.Waiting] at hw'
    have ht : s.pc j ≠ .setTurn := by
      intro hp
      simp [Waits, hp, Pc.Waiting] at hw
    simp [he, mayEnter, next_turn, ht]
  case inr =>
    by_cases hp : s.pc (other i) = .setTurn
    case pos =>
      have ht : (Peterson.next s (other i)).turn ≠ other i := by
        rw [next_turn, if_pos hp, other_other]
        exact other_ne.symm
      simp [entry, mayEnter, ht]
      simp [Peterson.next, hp]
    case neg =>
      have ht : (Peterson.next s (other i)).turn = s.turn := by rw [next_turn, if_neg hp]
      by_cases he : s.pc (other i) ≠ .critical ∧ (Peterson.next s (other i)).pc (other i) = .critical
      case neg =>
        have hm : mayEnter i (Peterson.next s (other i)) ≤ mayEnter i s := by
          unfold mayEnter
          split_ifs with h₁ h₂
          · exact Nat.le_refl _
          · exact absurd ⟨ht ▸ h₁.left, (next_waiting h₁.right).resolve_left hp⟩ h₂
          · exact Nat.zero_le _
          · exact Nat.zero_le _
        simpa [entry, he] using hm
      case pos =>
        -- The other thread does not wait for `i` only because `i` has set `turn`.
        have hi : ((Peterson.next s (other i)).pc (other i)).Inside := .inl he.right
        obtain hc | ⟨ho, hs⟩ := next_inside hi
        case inl =>
          obtain hc := hc.resolve_left he.left
          have := he.right
          simp [Peterson.next, hc] at this
        case inr =>
          have hs : s.turn = other i := by
            rw [other_other] at hs
            refine hs.resolve_left ?_
            rw [(h.states i).mpr (by cases hw <;> simp [*, Pc.Announced])]
            simp
          have hm : mayEnter i (Peterson.next s (other i)) = 0 :=
            if_neg fun hn => by simp [he.right, Pc.Waiting] at hn
          have hm' : mayEnter i s = 1 := if_pos ⟨hs, ho⟩
          simp [hm, hm', entry, he]

-- While a thread waits, the other one enters at most once.
theorem entries_le (r : machine.Reachable s₁) (h : Waits i s₁)
    (t : (machine.within (Waits i)).Trace entry s₁ l s₂) : l.length + mayEnter i s₂ ≤ mayEnter i s₁ := by
  induction t
  case refl => simp
  case step s₁ a s₂ l s₃ hs t hi =>
    obtain ⟨hs, hw⟩ := Machine.within_step.mp hs
    cases hs
    have := entry_le (inv_of_reachable r) h hw
    have := hi (r.step rfl) hw
    rw [List.length_append]
    omega

end Overtaking

section Client

open LockClient (Stage Lock Live single)

def stage (s : State) (i : Fin 2) : Stage :=
  (s.pc i).stage

theorem stage_next : Stage.Next (s.pc i).stage ((next s i).pc i).stage := by
  cases hp : s.pc i <;> simp only [next, hp, State.goto_pc, update_self]
  case idle       => exact .lock
  case critical   => exact .unlock
  case clearState => exact .leave
  case testState =>
    split
    · exact .stay
    · exact .enter
  case testTurn =>
    split
    · exact .stay
    · exact .enter
  all_goals exact .stay

theorem lock : Lock machine stage where
  init h := by
    cases h
    rfl
  step {s i s' j} hs := by
    cases hs
    by_cases hj : j = i
    case pos =>
      rw [hj]
      exact stage_next
    case neg =>
      rw [stage, stage, next_pc_of_ne hj]
      exact .stay
  unique r hi hj := by
    have inside {p : Pc} (h : p.stage = .inside) : p.Inside := by
      cases p <;> cases h
      exact .inl rfl
    exact inside_subsingleton r (inside hi) (inside hj)

-- The accesses which a thread has before it in `lock`, if it is the one to move. What it reads is
-- whether the other thread has announced itself, and whether `turn` is the index of the other.
def Pc.rank (announced last : Bool) : Pc → ℕ
  | setState  => 5
  | setTurn   => 3
  | testState => if announced then 1 else 0
  | testTurn  => if last then 2 else 0
  | _         => 0

theorem Pc.rank_announced_le {a l : Bool} {p : Pc} : p.rank true l ≤ p.rank a l + 1 := by
  cases p <;> cases a <;> simp [rank]

theorem Pc.rank_last_le {a l : Bool} {p : Pc} : p.rank a false ≤ p.rank a l := by
  cases p <;> simp [rank]

def rank (s : State) (i : Fin 2) : ℕ :=
  (s.pc i).rank (s.states (other i)) (s.turn = other i)

def distance (s : State) : ℕ :=
  rank s ⟨0, Nat.two_pos⟩ + rank s ⟨1, Nat.one_lt_two⟩

theorem distance_eq (s : State) : ∀ i, distance s = rank s i + rank s (other i) :=
  Fin.forall_fin_two.mpr ⟨rfl, Nat.add_comm _ _⟩

-- A thread moves on, or it gets closer to `critical`, if it has not come to the loop or need not
-- stay there.
theorem progress (hi : (s.pc i).stage = .locking ∨ (s.pc i).stage = .unlocking)
    (hw : (s.pc i).Waiting → s.states (other i) = false ∨ s.turn = i) :
    ((next s i).pc i).stage = (s.pc i).stage → distance (next s i) < distance s := by
  intro hs
  rw [distance_eq _ i, distance_eq _ i]
  have ho := next_pc_of_ne (s := s) (i := i) other_ne
  cases hp : s.pc i
  case idle       => simp [hp, Pc.stage] at hi
  case critical   => simp [hp, Pc.stage] at hi
  case clearState => simp [hp, next, Pc.stage] at hs
  case setState =>
    have hr : rank (next s i) (other i) ≤ rank s (other i) + 1 := by
      simpa [rank, next, hp] using Pc.rank_announced_le
    have hi : rank (next s i) i = 3 := by simp [rank, next, hp, Pc.rank]
    have hi' : rank s i = 5 := by simp [rank, hp, Pc.rank]
    omega
  case setTurn =>
    have hr : rank (next s i) (other i) ≤ rank s (other i) := by
      simpa [rank, next, hp] using Pc.rank_last_le
    have hi : rank (next s i) i ≤ 1 := by
      simp only [rank, next, hp, State.goto_pc, update_self, Pc.rank]
      split_ifs <;> omega
    have hi' : rank s i = 3 := by simp [rank, hp, Pc.rank]
    omega
  case testState =>
    have hst : s.states (other i) = true := by
      by_contra hst
      simp [hp, next, hst, Pc.stage] at hs
    have ht : s.turn ≠ other i :=
      ne_other_iff.mpr <| (hw (by simp [hp, Pc.Waiting])).resolve_left (by simp [hst])
    simp [rank, next, hp, hst, ht, Pc.rank]
  case testTurn =>
    have ht : s.turn = other i := by
      by_contra ht
      simp [hp, next, ht, Pc.stage] at hs
    have hst : s.states (other i) = false :=
      (hw (by simp [hp, Pc.Waiting])).resolve_right (ne_other_iff.not.mp (not_not.mpr ht))
    simp [rank, next, hp, hst, ht, Pc.rank]

-- If both threads are in the loop, then the one which has not set `turn` last need not stay there.
theorem exists_mover (h : Inv s) (hn : ∀ i, (s.pc i).stage ≠ .inside)
    (hi : ∃ i, (s.pc i).stage ≠ .idle) :
    ∃ i, ((s.pc i).stage = .locking ∨ (s.pc i).stage = .unlocking) ∧
      ((s.pc i).Waiting → s.states (other i) = false ∨ s.turn = i) := by
  have ⟨i, hi⟩ := hi
  have on_way {i} (hi : (s.pc i).stage ≠ .idle) :
      (s.pc i).stage = .locking ∨ (s.pc i).stage = .unlocking := by
    have := hn i
    cases hg : (s.pc i).stage <;> simp_all
  by_cases hs : s.states (other i) = false
  case pos => exact ⟨i, on_way hi, fun _ => .inl hs⟩
  case neg =>
    have ha : (s.pc (other i)).Announced := (h.states _).mp (by simpa using hs)
    have hoi : (s.pc (other i)).stage ≠ .idle := by
      cases hp : s.pc (other i) <;> simp_all [Pc.Announced, Pc.stage]
    obtain ht | ht := eq_or_eq_other i s.turn
    case inl => exact ⟨i, on_way hi, fun _ => .inr ht⟩
    case inr => exact ⟨other i, on_way hoi, fun _ => .inr ht⟩

theorem live : Live machine stage where
  call {s t} _ ht := by
    refine ⟨t, next s t, rfl, fun u => ?_⟩
    by_cases hu : u = t
    case pos =>
      subst hu
      cases hp : s.pc u <;> simp [stage, next, hp, Pc.stage] at ht ⊢
    case neg => simp [stage, hu]
  work := by
    refine LockClient.work_of_decreasing distance fun s r hn ht => ?_
    obtain ⟨i, hi, hw⟩ := exists_mover (inv_of_reachable r) hn ht
    refine ⟨i, next s i, i, rfl, hi, fun u hu => ?_, progress hi hw⟩
    rw [stage, stage, next_pc_of_ne hu]

-- At most one thread is inside, the other one comes at most once before a thread which waits, no
-- increment gets lost, and the program can always be brought to its end.
theorem exclusion_and_bypass {max : ℕ} {s : LockClient.State State (Fin 2) Unit}
    (r : (LockClient.machine machine stage single max).Reachable s) :
    {i | (s.lock.pc i).Inside}.Subsingleton ∧
    (∀ i l s', Waits i s.lock → (machine.within (Waits i)).Trace entry s.lock l s' →
      l.length ≤ 1) ∧
    s.counter () = ∑ i, (s.thread i).done single () ∧
    ∃ as s', (LockClient.machine machine stage single max).Run s as s' ∧
      LockClient.Finished stage max s' ∧ s'.counter () = 2 * max := by
  have rl := LockClient.lock_reachable r
  refine ⟨inside_subsingleton rl, fun i l s' hw t => ?_, LockClient.counter_eq lock r,
    LockClient.exists_single lock live r⟩
  have hle : mayEnter i s.lock ≤ 1 := by
    unfold mayEnter
    split_ifs <;> omega
  have := entries_le rl hw t
  omega

-- Thread 0 waits, and thread 1 comes first.
theorem exclusion_and_bypass_one :
    ∃ s : LockClient.State State (Fin 2) Unit, (LockClient.machine machine stage single 1).Reachable s ∧
      ∃ s', (machine.within (Waits 0)).Trace entry s.lock [1] s' ∧ [1].length ≤ 1 := by
  have h : (LockClient.machine machine stage single 1).exec (LockClient.start init)
    [.lock 1, .lock 1, .lock 1, .lock 0, .lock 0, .lock 0] = some _ := rfl
  have r := LockClient.reachable_of_exec rfl h
  have hb := (exclusion_and_bypass r).right.left 0 [1]
  exact ⟨_, r, _, and_iff_left_of_imp (hb _ (.inl rfl)) |>.mpr
    (.silent (a := 1) rfl rfl (.visible (a := 1) rfl rfl))⟩

end Client

end Peterson
