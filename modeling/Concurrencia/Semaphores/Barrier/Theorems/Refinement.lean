import Concurrencia.Semaphores.Barrier.Basic
import Concurrencia.Threads.Basic
import Concurrencia.Threads.Count
import Mathlib.Tactic.SplitIfs

open Function Threads

namespace SemaphoreBarrier

section Step

open GroupBarrier (Event)

-- One constructor for each way through a statement, with the event it causes.
inductive Step {m : ℕ} (n : ℤ) (s : State m) : Option (Event (Fin m)) → State m → Prop
  | call : (s.pc i = .idle) → Step n s none (s.goto i .waitArrival)
  | arrive : (s.pc i = .waitArrival) → (s.arrival = a + 1) →
    Step n s (some (.arrive i)) ({ s with arrival := a }.goto i .lockIncrement)
  | lockIncrement : (s.pc i = .lockIncrement) →
    Step n s none ({ s with mutex := true }.goto i .increment)
  | increment : (s.pc i = .increment) →
    Step n s none ({ s with counter := s.counter + 1 }.goto i .unlockIncrement)
  | unlockIncrement : (s.pc i = .unlockIncrement) →
    Step n s none ({ s with mutex := false }.goto i .testIncrement)
  | below : (s.pc i = .testIncrement) → (s.counter < n) → Step n s none (s.goto i .postArrival)
  | full : (s.pc i = .testIncrement) → (n ≤ s.counter) → Step n s none (s.goto i .postDeparture)
  | postArrival : (s.pc i = .postArrival) →
    Step n s none ({ s with arrival := s.arrival + 1 }.goto i .waitDeparture)
  | postDeparture : (s.pc i = .postDeparture) →
    Step n s none ({ s with departure := s.departure + 1 }.goto i .waitDeparture)
  | depart : (s.pc i = .waitDeparture) → (s.departure = d + 1) →
    Step n s (some (.depart i)) ({ s with departure := d }.goto i .lockDecrement)
  | lockDecrement : (s.pc i = .lockDecrement) →
    Step n s none ({ s with mutex := true }.goto i .decrement)
  | decrement : (s.pc i = .decrement) →
    Step n s none ({ s with counter := s.counter - 1 }.goto i .unlockDecrement)
  | unlockDecrement : (s.pc i = .unlockDecrement) →
    Step n s none ({ s with mutex := false }.goto i .testDecrement)
  | above : (s.pc i = .testDecrement) → (0 < s.counter) → Step n s none (s.goto i .repostDeparture)
  | empty : (s.pc i = .testDecrement) → (s.counter ≤ 0) → Step n s none (s.goto i .repostArrival)
  | repostDeparture : (s.pc i = .repostDeparture) →
    Step n s none ({ s with departure := s.departure + 1 }.goto i .idle)
  | repostArrival : (s.pc i = .repostArrival) →
    Step n s none ({ s with arrival := s.arrival + 1 }.goto i .idle)

variable {m : ℕ} {n : ℤ} {s s' : State m} {i : Fin m}

theorem Step.of_step (h : step n s i = some s') : Step n s (event s i) s' := by
  cases hp : s.pc i <;> simp only [step, event, hp, lock, unlock] at h ⊢
  case waitArrival =>
    split_ifs at h with ha
    cases h
    exact .arrive hp (Nat.sub_add_cancel (Nat.pos_of_ne_zero ha)).symm
  case waitDeparture =>
    split_ifs at h with hd
    cases h
    exact .depart hp (Nat.sub_add_cancel (Nat.pos_of_ne_zero hd)).symm
  case testIncrement =>
    split_ifs at h with hc
    all_goals cases h
    · exact .below hp hc
    · exact .full hp (not_lt.mp hc)
  case testDecrement =>
    split_ifs at h with hc
    all_goals cases h
    · exact .above hp hc
    · exact .empty hp (not_lt.mp hc)
  case lockIncrement =>
    split_ifs at h
    cases h
    exact .lockIncrement hp
  case lockDecrement =>
    split_ifs at h
    cases h
    exact .lockDecrement hp
  all_goals cases h
  case idle            => exact .call hp
  case increment       => exact .increment hp
  case unlockIncrement => exact .unlockIncrement hp
  case postArrival     => exact .postArrival hp
  case postDeparture   => exact .postDeparture hp
  case decrement       => exact .decrement hp
  case unlockDecrement => exact .unlockDecrement hp
  case repostDeparture => exact .repostDeparture hp
  case repostArrival   => exact .repostArrival hp

end Step

open GroupBarrier (Event)

namespace Pc

-- With a permit which has been taken and not been given back yet.
def Holds (p : Pc) : Prop :=
  p ≠ idle ∧ p ≠ waitArrival ∧ p ≠ waitDeparture

instance : DecidablePred Holds :=
  fun _ => inferInstanceAs <| Decidable (_ ∧ _)

-- The call has arrived and not departed yet.
def Inside : Pc → Prop
  | lockIncrement | increment | unlockIncrement | testIncrement => True
  | postArrival | postDeparture | waitDeparture                 => True
  | _                                                           => False

end Pc

variable {m n : ℕ} {s s' : State m} {t t' : GroupBarrier.State (Fin m)} {i j : Fin m} {p q : Pc}
variable {c : ℤ}

-- What the thread with the permit knows about the counter and the group.
def Fits (n : ℕ) (c : ℤ) (t : GroupBarrier.State (Fin m)) : Pc → Prop
  | .idle | .waitArrival | .waitDeparture => True
  | .lockIncrement | .increment           =>
    c + 1 = t.members.length ∧ (t.departing = true ↔ t.members.length = n)
  | .unlockIncrement | .testIncrement     =>
    c = t.members.length ∧ (t.departing = true ↔ t.members.length = n)
  | .lockDecrement | .decrement           =>
    c = t.members.length + 1 ∧ t.members.length < n ∧ (t.departing = true ↔ t.members ≠ [])
  | .unlockDecrement | .testDecrement     =>
    c = t.members.length ∧ (t.departing = true ↔ t.members ≠ [])
  | .postArrival | .repostArrival         => c = t.members.length ∧ t.departing = false
  | .postDeparture | .repostDeparture     => c = t.members.length ∧ t.departing = true

theorem Fits.of_not_holds (h : ¬p.Holds) : Fits n c t p := by
  cases p <;> trivial

-- The permit is in one of the semaphores or with one of the threads.
structure Refines (n : ℕ) (s : State m) (t : GroupBarrier.State (Fin m)) : Prop where
  token     : s.arrival + s.departure + count s.pc Pc.Holds = 1
  arrival   : 0 < s.arrival → s.counter = t.members.length ∧ t.departing = false
  departure : 0 < s.departure → s.counter = t.members.length ∧ t.departing = true
  fits      : ∀ i, Fits n s.counter t (s.pc i)
  member    : ∀ i, i ∈ t.members ↔ (s.pc i).Inside
  nodup     : t.members.Nodup
  le        : t.members.length ≤ n
  lt        : t.departing = false → t.members.length < n

namespace Refines

theorem init (h : 0 < n) : Refines n (init m) (GroupBarrier.init (Fin m)) where
  token       := by simp [SemaphoreBarrier.init, count_eq_zero, Pc.Holds]
  arrival _   := ⟨rfl, rfl⟩
  departure h := absurd h (lt_irrefl 0)
  fits _      := trivial
  member _    := by simp [SemaphoreBarrier.init, GroupBarrier.init, Pc.Inside]
  nodup       := .nil
  le          := Nat.zero_le n
  lt _        := h

variable (ref : Refines n s t)
include ref

theorem alone (hi : (s.pc i).Holds) (hj : j ≠ i) : ¬(s.pc j).Holds := by
  intro h
  have := ref.token
  exact hj <| eq_of_count_le_one (f := s.pc) (P := Pc.Holds) (by omega) h hi

theorem not_holds (h : 0 < s.arrival + s.departure) (i : Fin m) : ¬(s.pc i).Holds := by
  intro hi
  have := ref.token
  have := count_pos (f := s.pc) hi
  omega

theorem no_permit (h : (s.pc i).Holds) : s.arrival = 0 ∧ s.departure = 0 := by
  have := ref.token
  have := count_pos (f := s.pc) h
  omega

omit ref in
theorem fits_update (h : Fits n c t p) (hn : ∀ j ≠ i, ¬(s.pc j).Holds) :
    ∀ j, Fits n c t (update s.pc i p j) :=
  forall_update h fun j hj => .of_not_holds (hn j hj)

-- The thread which holds the permit keeps it.
theorem hold (hi : s.pc i = q) (hs : s'.pc = update s.pc i p) (ha : s'.arrival = s.arrival)
    (hd : s'.departure = s.departure) (hq : q.Holds) (hp : p.Holds) (hin : p.Inside ↔ q.Inside)
    (hf : Fits n s'.counter t p) : Refines n s' t := by
  subst hi
  have ⟨ha₀, hd₀⟩ := ref.no_permit hq
  exact {
    token       := by rw [hs, ha, hd, count_keep (by simp [hq, hp]), ref.token]
    arrival h   := by omega
    departure h := by omega
    fits        := hs ▸ fits_update hf fun _ hj => ref.alone hq hj
    member j    := by rw [hs, update_iff hin, ref.member]
    nodup       := ref.nodup
    le          := ref.le
    lt          := ref.lt
  }

-- It gives the permit back.
theorem post (hi : s.pc i = q) (hs : s'.pc = update s.pc i p) (hq : q.Holds) (hp : ¬p.Holds)
    (hin : p.Inside ↔ q.Inside)
    (hn : s'.arrival + s'.departure = s.arrival + s.departure + 1)
    (ha : 0 < s'.arrival - s.arrival → s'.counter = t.members.length ∧ t.departing = false)
    (hd : 0 < s'.departure - s.departure → s'.counter = t.members.length ∧ t.departing = true) :
    Refines n s' t := by
  subst hi
  have ⟨ha₀, hd₀⟩ := ref.no_permit hq
  exact {
    token       := by
      have ht := ref.token
      have hc := count_leave (f := s.pc) hq hp
      rw [hs]
      omega
    arrival h   := ha (by omega)
    departure h := hd (by omega)
    fits        := hs ▸ fits_update (.of_not_holds hp) fun _ hj => ref.alone hq hj
    member j    := by rw [hs, update_iff hin, ref.member]
    nodup       := ref.nodup
    le          := ref.le
    lt          := ref.lt
  }

theorem call (hi : s.pc i = .idle) : Refines n (s.goto i .waitArrival) t where
  token     := by
    rw [State.goto_pc, count_keep (by simp [hi, Pc.Holds])]
    exact ref.token
  arrival   := ref.arrival
  departure := ref.departure
  fits      := forall_update (P := Fits n s.counter t) trivial fun j _ => ref.fits j
  member j  := by
    rw [State.goto_pc, update_iff (P := Pc.Inside) (by simp [hi, Pc.Inside]), ref.member]
  nodup     := ref.nodup
  le        := ref.le
  lt        := ref.lt

theorem arrive {a : ℕ} (hi : s.pc i = .waitArrival) (ha : s.arrival = a + 1) :
    ∃ t', GroupBarrier.Step n t (.arrive i) t' ∧
      Refines n ({ s with arrival := a }.goto i .lockIncrement) t' := by
  have ⟨hc, hd⟩ := ref.arrival (by omega)
  have hl := ref.lt hd
  have hm : i ∉ t.members := by simp [ref.member, hi, Pc.Inside]
  have hn : ¬(s.pc i).Holds := by simp [hi, Pc.Holds]
  have ht := ref.token
  refine ⟨_, .arrive hd hm, ?_⟩
  exact {
    token       := by
      have he := count_enter (f := s.pc) (p := .lockIncrement) hn (by simp [Pc.Holds])
      dsimp
      omega
    arrival h   := by
      dsimp at h
      omega
    departure h := by
      dsimp at h
      omega
    fits        := by
      refine fits_update ?_ fun j _ => ref.not_holds (by omega) j
      simp [Fits, hc]
    member j    := by
      by_cases hj : j = i
      case pos => simp [hj, Pc.Inside]
      case neg => simp [hj, ref.member]
    nodup       :=
      (List.perm_append_singleton ..).nodup_iff.mpr <| List.nodup_cons.mpr ⟨hm, ref.nodup⟩
    le          := by simpa using Nat.succ_le_of_lt hl
    lt h        := by
      simp only [decide_eq_false_iff_not] at h
      simp only [List.length_append, List.length_singleton]
      omega
  }

theorem depart {d : ℕ} (hi : s.pc i = .waitDeparture) (hd : s.departure = d + 1) :
    ∃ t', GroupBarrier.Step n t (.depart i) t' ∧
      Refines n ({ s with departure := d }.goto i .lockDecrement) t' := by
  have ⟨hc, hs⟩ := ref.departure (by omega)
  have hm : i ∈ t.members := by simp [ref.member, hi, Pc.Inside]
  have hn : ¬(s.pc i).Holds := by simp [hi, Pc.Holds]
  have hl := List.length_erase_of_mem hm
  have hp := List.length_pos_of_mem hm
  have hle := ref.le
  have ht := ref.token
  refine ⟨_, .depart hs hm, ?_⟩
  exact {
    token       := by
      have he := count_enter (f := s.pc) (p := .lockDecrement) hn (by simp [Pc.Holds])
      dsimp
      omega
    arrival h   := by
      dsimp at h
      omega
    departure h := by
      dsimp at h
      omega
    fits        := by
      refine fits_update ?_ fun j _ => ref.not_holds (by omega) j
      simp only [Fits, hl, decide_eq_true_eq, State.goto_counter, hc, and_true]
      omega
    member j    := by
      by_cases hj : j = i
      case pos => simp [hj, ref.nodup.not_mem_erase, Pc.Inside]
      case neg => simp [hj, List.mem_erase_of_ne hj, ref.member]
    nodup       := ref.nodup.erase i
    le          := by
      dsimp
      omega
    lt _        := by
      dsimp
      omega
  }

-- Each step of the barrier is one of the specification, or none.
theorem step {e : Option (Event (Fin m))} (h : Step n s e s') :
    ∃ t', (GroupBarrier.machine (Fin m) n).Run t e.toList t' ∧ Refines n s' t' := by
  have run {e : Event (Fin m)} (h : ∃ t', GroupBarrier.Step n t e t' ∧ Refines n s' t') :
      ∃ t', (GroupBarrier.machine (Fin m) n).Run t [e] t' ∧ Refines n s' t' :=
    have ⟨t', ht, hr⟩ := h
    ⟨t', .single (GroupBarrier.step_iff.mpr ht), hr⟩
  have stay (hr : Refines n s' t) :
      ∃ t', (GroupBarrier.machine (Fin m) n).Run t [] t' ∧ Refines n s' t' :=
    ⟨t, .refl, hr⟩
  have fits {i : Fin m} {p : Pc} (hp : s.pc i = p) : Fits n s.counter t p := hp ▸ ref.fits i
  cases h <;> simp only [Option.toList]
  case call hp         => exact stay <| ref.call hp
  case arrive hp ha    => exact run <| ref.arrive hp ha
  case depart hp hd    => exact run <| ref.depart hp hd
  case lockIncrement hp | unlockIncrement hp | lockDecrement hp | unlockDecrement hp =>
    have hf := fits hp
    exact stay <| ref.hold hp rfl rfl rfl (by decide) (by decide) .rfl hf
  case increment hp =>
    have hf := fits hp
    exact stay <| ref.hold hp rfl rfl rfl (by decide) (by decide) .rfl hf
  case decrement hp =>
    have ⟨hc, _, hd⟩ := fits hp
    have hs : s.counter - 1 = t.members.length := by omega
    exact stay <| ref.hold hp rfl rfl rfl (by decide) (by decide) .rfl ⟨hs, hd⟩
  case below hp hl =>
    have ⟨hc, hd⟩ := fits hp
    have hs : t.departing = false := by
      rw [← Bool.not_eq_true, hd]
      omega
    exact stay <| ref.hold hp rfl rfl rfl (by decide) (by decide) .rfl ⟨hc, hs⟩
  case full hp hl =>
    have ⟨hc, hd⟩ := fits hp
    have hle := ref.le
    exact stay <| ref.hold hp rfl rfl rfl (by decide) (by decide) .rfl ⟨hc, hd.mpr (by omega)⟩
  case above hp hl =>
    have ⟨hc, hd⟩ := fits hp
    have hn : t.members ≠ [] := by
      rw [← List.length_pos_iff]
      omega
    exact stay <| ref.hold hp rfl rfl rfl (by decide) (by decide) .rfl ⟨hc, hd.mpr hn⟩
  case empty hp hl =>
    have ⟨hc, hd⟩ := fits hp
    have hn : t.members = [] := by
      rw [← List.length_eq_zero_iff]
      omega
    have hs : t.departing = false := by simpa [hn] using hd
    exact stay <| ref.hold hp rfl rfl rfl (by decide) (by decide) .rfl ⟨hc, hs⟩
  case postArrival hp | repostArrival hp =>
    exact stay <| ref.post hp rfl (by decide) (by decide) .rfl
      (Nat.add_right_comm ..) (fun _ => fits hp) fun h => absurd h (by simp)
  case postDeparture hp | repostDeparture hp =>
    exact stay <| ref.post hp rfl (by decide) (by decide) .rfl
      (Nat.add_assoc ..).symm (fun h => absurd h (by simp)) fun _ => fits hp

end Refines

end SemaphoreBarrier

namespace SemaphoreBarrier

open GroupBarrier (Event Grouped)

variable {m n : ℕ} {s : State m} {t : GroupBarrier.State (Fin m)} {l : List (Event (Fin m))}

theorem refines_of_reachable (hn : 0 < n) (r : ((machine m n).logging event).Reachable (s, l)) :
    ∃ t, (GroupBarrier.machine (Fin m) n).Run (GroupBarrier.init (Fin m)) l t ∧ Refines n s t := by
  apply r.simulation (R := fun s _ t => Refines n s t)
  case init =>
    intro s hs
    exact hs ▸ .init hn
  case step =>
    intro s i s' l t _ ref h
    exact ref.step (.of_step h)

theorem Refines.counter_range (ref : Refines n s t) : 0 ≤ s.counter ∧ s.counter ≤ n := by
  have hl := ref.le
  by_cases ha : 0 < s.arrival
  case pos =>
    obtain ⟨hc, _⟩ := ref.arrival ha
    omega
  case neg =>
    by_cases hd : 0 < s.departure
    case pos =>
      obtain ⟨hc, _⟩ := ref.departure hd
      omega
    case neg =>
      have ht := ref.token
      obtain ⟨i, hi⟩ := exists_of_count_pos (f := s.pc) (P := Pc.Holds) (by omega)
      have hf := ref.fits i
      cases hp : s.pc i <;> rw [hp] at hf hi
      case idle | waitArrival | waitDeparture => simp [Pc.Holds] at hi
      case lockIncrement | increment =>
        have hm : i ∈ t.members := by simp [ref.member, hp, Pc.Inside]
        have hm := List.length_pos_of_mem hm
        obtain ⟨hf, _⟩ := hf
        omega
      case lockDecrement | decrement =>
        obtain ⟨hf, hm, _⟩ := hf
        omega
      all_goals
        obtain ⟨hf, _⟩ := hf
        omega

theorem groups_apart (hn : 0 < n) (r : ((machine m n).logging event).Reachable (s, l)) :
    s.arrival + s.departure + count s.pc Pc.Holds = 1 ∧ 0 ≤ s.counter ∧ s.counter ≤ n ∧
    Grouped n l :=
  have ⟨_, run, ref⟩ := refines_of_reachable hn r
  ⟨ref.token, ref.counter_range.left, ref.counter_range.right, GroupBarrier.grouped_of_run hn run⟩

-- Three threads and groups of two: thread 2 is kept out while the others leave.
theorem groups_apart_three :
    ∃ (s : State 3) (l : List (Event (Fin 3))),
      s.pc 0 = .lockDecrement ∧ s.pc 1 = .waitDeparture ∧ s.pc 2 = .waitArrival ∧ s.counter = 2 ∧
      s.arrival + s.departure + count s.pc Pc.Holds = 1 ∧ 0 ≤ s.counter ∧ s.counter ≤ (2 : ℕ) ∧
      Grouped 2 l :=
  have ⟨s, l, h, h₀, h₁, h₂, hc⟩ : ∃ s l, ((machine 3 (2 : ℕ)).logging event).exec (init 3, [])
      (Machine.schedule [(7, 0), (7, 1), (1, 2), (1, 0)]) = some (s, l) ∧
      s.pc 0 = .lockDecrement ∧ s.pc 1 = .waitDeparture ∧ s.pc 2 = .waitArrival ∧ s.counter = 2 :=
    ⟨_, _, rfl, rfl, rfl, rfl, rfl⟩
  ⟨s, l, h₀, h₁, h₂, hc, groups_apart (by decide) (.of_exec (by exact ⟨rfl, rfl⟩) h)⟩

end SemaphoreBarrier
