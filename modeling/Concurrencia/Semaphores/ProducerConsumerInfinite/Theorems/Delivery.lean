import Concurrencia.Pipeline.Basic
import Concurrencia.Semaphores.ProducerConsumerInfinite.Basic
import Concurrencia.Threads.Basic
import Concurrencia.Threads.Count
import Mathlib.Tactic.SplitIfs

open Function Threads

namespace ProducerConsumerInfinite

open Pipeline (Delivers)

-- One constructor for each way through a statement.
inductive Step {n m : ℕ} (name : Fin n → String) (p : ℕ) (s : State n m) : State n m → Prop
  | produce : (s.thread (.inl i) = ⟨.loop, k⟩) → (k < p) → (s.mutex = false) →
    Step name p s ({ s with mutex := true }.goto (.inl i) ⟨.append, k⟩)
  | append : (s.thread (.inl i) = ⟨.append, k⟩) → Step name p s
    ({ s with buffer := s.buffer ++ [text name i k] }.goto (.inl i) ⟨.appendExit, k⟩)
  | appendExit : (s.thread (.inl i) = ⟨.appendExit, k⟩) →
    Step name p s (unlock s (.inl i) ⟨.release, k⟩)
  | release : (s.thread (.inl i) = ⟨.release, k⟩) →
    Step name p s ({ s with notEmpty := s.notEmpty + 1 }.goto (.inl i) ⟨.loop, k + 1⟩)
  | acquire : (s.thread (.inr j) = ⟨.loop, k⟩) → (k < p) → (s.notEmpty = a + 1) →
    Step name p s ({ s with notEmpty := a }.goto (.inr j) ⟨.mutex, k⟩)
  | mutex : (s.thread (.inr j) = ⟨.mutex, k⟩) → (s.mutex = false) →
    Step name p s ({ s with mutex := true }.goto (.inr j) ⟨.pop, k⟩)
  | raise : (s.thread (.inr j) = ⟨.pop, k⟩) → (s.buffer = []) →
    Step name p s (unlock s (.inr j) ⟨.raised, k⟩)
  | pop : (s.thread (.inr j) = ⟨.pop, k⟩) → (s.buffer = x :: rest) → Step name p s
    ({ s with buffer := rest, data := update s.data j (s.data j ++ [x]) }.goto
      (.inr j) ⟨.popExit, k⟩)
  | popExit : (s.thread (.inr j) = ⟨.popExit, k⟩) →
    Step name p s (unlock s (.inr j) ⟨.loop, k + 1⟩)

variable {n m p k : ℕ} {name : Fin n → String} {s s' : State n m} {t : Fin n ⊕ Fin m} {i : Fin n}
variable {j : Fin m} {th : Thread}

theorem lock_eq_some : lock s t th = some s' ↔
    s.mutex = false ∧ { s with mutex := true }.goto t th = s' := by
  simp [lock]

namespace Step

theorem of_producer (h : producerStep name p s i = some s') : Step name p s s' := by
  obtain ⟨pc, k, ht⟩ : ∃ pc k, s.thread (.inl i) = ⟨pc, k⟩ := ⟨_, _, rfl⟩
  cases pc <;> simp only [producerStep, ht, reduceCtorEq] at h
  case loop =>
    split_ifs at h with hk
    obtain ⟨hm, rfl⟩ := lock_eq_some.mp h
    exact .produce ht hk hm
  all_goals cases h
  case append     => exact .append ht
  case appendExit => exact .appendExit ht
  case release    => exact .release ht

theorem of_consumer (h : consumerStep p s j = some s') : Step name p s s' := by
  obtain ⟨pc, k, ht⟩ : ∃ pc k, s.thread (.inr j) = ⟨pc, k⟩ := ⟨_, _, rfl⟩
  cases pc <;> simp only [consumerStep, ht, reduceCtorEq] at h
  case loop =>
    split_ifs at h with hk h₀
    cases h
    exact .acquire ht hk (Nat.succ_pred h₀).symm
  case mutex =>
    obtain ⟨hm, rfl⟩ := lock_eq_some.mp h
    exact .mutex ht hm
  case pop =>
    cases hb : s.buffer <;> rw [hb] at h <;> cases h
    case nil  => exact .raise ht hb
    case cons => exact .pop ht hb
  case popExit =>
    cases h
    exact .popExit ht

theorem of_step (h : (machine name m p).step s t = some s') : Step name p s s' := by
  cases t
  case inl => exact .of_producer h
  case inr => exact .of_consumer h

end Step

namespace Thread

def HasMutex (th : Thread) : Prop :=
  match th.pc with
  | .append | .appendExit | .pop | .popExit => True
  | _                                       => False

-- A consumer which has a permit, and a producer which has not released the one for its text.
def Permit (th : Thread) : Bool :=
  match th.pc with
  | .mutex | .pop | .appendExit | .release => true
  | _                                      => false

-- The texts which a producer has appended.
def sent (th : Thread) : ℕ :=
  match th.pc with
  | .appendExit | .release => th.i + 1
  | _                      => th.i

-- The texts which a consumer has taken.
def read (th : Thread) : ℕ :=
  match th.pc with
  | .popExit => th.i + 1
  | _        => th.i

def Producer (p : ℕ) (th : Thread) : Prop :=
  match th.pc with
  | .loop                           => th.i ≤ p
  | .append | .appendExit | .release => th.i < p
  | _                               => False

def Consumer (p : ℕ) (th : Thread) : Prop :=
  match th.pc with
  | .loop                    => th.i ≤ p
  | .mutex | .pop | .popExit => th.i < p
  | _                        => False

end Thread

structure Inv (name : Fin n → String) (p : ℕ) (s : State n m) : Prop where
  mutex    : Owned s.thread Thread.HasMutex (s.mutex = true)
  delivers : Delivers (text name) (Thread.sent ∘ s.thread ∘ .inl) s.buffer s.data
  read     : ∀ j, (s.data j).length = (s.thread (.inr j)).read
  permits  : s.notEmpty + count s.thread (·.Permit = true) = s.buffer.length
  producer : ∀ i, (s.thread (.inl i)).Producer p
  consumer : ∀ j, (s.thread (.inr j)).Consumer p

namespace Inv

theorem init : Inv name p (init n m) where
  mutex      := ⟨⟨False.elim, False.elim⟩, by simp [ProducerConsumerInfinite.init]⟩
  delivers   := .init
  read _     := rfl
  permits    := by
    rw [count_eq_zero (by simp [ProducerConsumerInfinite.init, Thread.Permit])]
    rfl
  producer _ := Nat.zero_le _
  consumer _ := Nat.zero_le _

variable {b : List String} {d : Fin m → List String} {e : ℕ} {l : Bool}

theorem permits_update (inv : Inv name p s)
    (hp : e + th.Permit.toNat + s.buffer.length =
      s.notEmpty + (s.thread t).Permit.toNat + b.length) :
    e + count (update s.thread t th) (·.Permit = true) = b.length := by
  have := count_update_toNat (f := s.thread) (i := t) (p := th) (g := Thread.Permit)
  have := inv.permits
  omega

-- What the step of a producer has to show.
theorem update_producer (inv : Inv name p s)
    (hm : Owned (update s.thread (.inl i) th) Thread.HasMutex (l = true))
    (hd : Delivers (text name) (update (Thread.sent ∘ s.thread ∘ .inl) i th.sent) b s.data)
    (hp : e + th.Permit.toNat + s.buffer.length =
      s.notEmpty + (s.thread (.inl i)).Permit.toNat + b.length)
    (hf : th.Producer p) : Inv name p ⟨update s.thread (.inl i) th, s.data, b, l, e⟩ where
  mutex    := hm
  permits  := inv.permits_update hp
  delivers := by
    rw [update_comp_eq_of_injective _ Sum.inl_injective, comp_update]
    exact hd
  read j     := by simpa using inv.read j
  consumer j := by simpa using inv.consumer j
  producer k := by
    by_cases hk : k = i
    case pos => simpa [hk] using hf
    case neg => simpa [hk] using inv.producer k

theorem update_consumer (inv : Inv name p s)
    (hm : Owned (update s.thread (.inr j) th) Thread.HasMutex (l = true))
    (hd : Delivers (text name) (Thread.sent ∘ s.thread ∘ .inl) b d)
    (hr : (d j).length = th.read) (hn : ∀ k ≠ j, d k = s.data k)
    (hp : e + th.Permit.toNat + s.buffer.length =
      s.notEmpty + (s.thread (.inr j)).Permit.toNat + b.length)
    (hf : th.Consumer p) : Inv name p ⟨update s.thread (.inr j) th, d, b, l, e⟩ where
  mutex    := hm
  permits  := inv.permits_update hp
  delivers := by
    rw [update_comp_eq_of_forall_ne _ _ fun _ => Sum.inl_ne_inr]
    exact hd
  producer i := by simpa using inv.producer i
  read k     := by
    by_cases hk : k = j
    case pos => simpa [hk] using hr
    case neg => simpa [hk, hn k hk] using inv.read k
  consumer k := by
    by_cases hk : k = j
    case pos => simpa [hk] using hf
    case neg => simpa [hk] using inv.consumer k

theorem keep_sent (inv : Inv name p s) (hs : th.sent = (s.thread (.inl i)).sent) :
    Delivers (text name) (update (Thread.sent ∘ s.thread ∘ .inl) i th.sent) s.buffer s.data := by
  rw [hs]
  exact (update_eq_self i (Thread.sent ∘ s.thread ∘ .inl)).symm ▸ inv.delivers

theorem step (inv : Inv name p s) (h : Step name p s s') : Inv name p s' := by
  have producer {i : Fin n} {th : Thread} (ht : s.thread (.inl i) = th) : th.Producer p :=
    ht ▸ inv.producer i
  have consumer {j : Fin m} {th : Thread} (ht : s.thread (.inr j) = th) : th.Consumer p :=
    ht ▸ inv.consumer j
  have read {j : Fin m} {th : Thread} (ht : s.thread (.inr j) = th) :
      (s.data j).length = th.read := ht ▸ inv.read j
  cases h
  case produce i k ht hk hm =>
    exact inv.update_producer (inv.mutex.take (by simp [hm]) trivial rfl)
      (inv.keep_sent (by rw [ht]; rfl)) (by simp [ht, Thread.Permit]) hk
  case append i k ht =>
    have hk : k < p := producer ht
    have hd := inv.delivers.send (i := i)
    simp only [comp_apply, ht, Thread.sent] at hd
    refine inv.update_producer (inv.mutex.keep (by simp [ht, Thread.HasMutex])) hd ?_ hk
    simp only [ht, Thread.Permit, Bool.toNat_true, Bool.toNat_false, List.length_append,
      List.length_singleton]
    omega
  case appendExit i k ht =>
    have hk : k < p := producer ht
    exact inv.update_producer (inv.mutex.free (by rw [ht]; trivial) id (by simp))
      (inv.keep_sent (by rw [ht]; rfl)) (by simp [ht, Thread.Permit]) hk
  case release i k ht =>
    have hk : k < p := producer ht
    exact inv.update_producer (inv.mutex.keep (by simp [ht, Thread.HasMutex]))
      (inv.keep_sent (by rw [ht]; rfl)) (by simp [ht, Thread.Permit]) hk
  case acquire j k a ht hk hn =>
    have hr : (s.data j).length = k := read ht
    exact inv.update_consumer (inv.mutex.keep (by simp [ht, Thread.HasMutex])) inv.delivers
      hr (fun _ _ => rfl) (by simp [ht, hn, Thread.Permit]) hk
  case mutex j k ht hm =>
    have hk : k < p := consumer ht
    have hr : (s.data j).length = k := read ht
    exact inv.update_consumer (inv.mutex.take (by simp [hm]) trivial rfl) inv.delivers
      hr (fun _ _ => rfl) (by simp [ht, Thread.Permit]) hk
  case raise j k ht hb =>
    -- The thread has a permit, and so the buffer is not empty.
    have hp : 0 < count s.thread (·.Permit = true) := count_pos (i := .inr j) (by rw [ht]; rfl)
    have := inv.permits
    rw [hb, List.length_nil] at this
    omega
  case pop j k x rest ht hb =>
    have hk : k < p := consumer ht
    have hr : (s.data j).length = k := read ht
    have hd := inv.delivers
    rw [hb] at hd
    refine inv.update_consumer (inv.mutex.keep (by simp [ht, Thread.HasMutex])) hd.take ?_
      (fun _ hk => update_of_ne hk ..) ?_ hk
    · show (update s.data j (s.data j ++ [x]) j).length = k + 1
      rw [update_self, List.length_append, hr, List.length_singleton]
    · simp only [ht, hb, Thread.Permit, Bool.toNat_true, Bool.toNat_false, List.length_cons]
      omega
  case popExit j k ht =>
    have hk : k < p := consumer ht
    have hr : (s.data j).length = k + 1 := read ht
    exact inv.update_consumer (inv.mutex.free (by rw [ht]; trivial) id (by simp)) inv.delivers
      hr (fun _ _ => rfl) (by simp [ht, Thread.Permit]) hk

end Inv

theorem inv_of_reachable (r : (machine name m p).Reachable s) : Inv name p s := by
  apply r.invariant
  case init =>
    rintro s rfl
    exact .init
  case step => exact fun _ _ _ _ inv hs => inv.step (.of_step hs)

-- The statements which are left to a thread.
def Thread.remaining (p : ℕ) (th : Thread) : ℕ :=
  match th.pc with
  | .loop                => 4 * (p - th.i)
  | .append | .mutex     => 4 * (p - (th.i + 1)) + 3
  | .appendExit | .pop   => 4 * (p - (th.i + 1)) + 2
  | .release | .popExit  => 4 * (p - (th.i + 1)) + 1
  | .raised              => 0

theorem sum_remaining_lt (hr : th.remaining p < (s.thread t).remaining p) :
    ∑ u, (update s.thread t th u).remaining p < ∑ u, (s.thread u).remaining p := by
  have := sum_update (f := s.thread) (i := t) (p := th) (g := Thread.remaining p)
  omega

theorem Step.remaining_lt (h : Step name p s s') :
    ∑ u, (s'.thread u).remaining p < ∑ u, (s.thread u).remaining p := by
  cases h
  case produce ht hk _ | acquire ht hk _ =>
    apply sum_remaining_lt
    simp only [ht, Thread.remaining]
    omega
  case append ht | appendExit ht | release ht | popExit ht =>
    apply sum_remaining_lt
    simp only [ht, Thread.remaining]
    omega
  case mutex ht _ | raise ht _ | pop ht _ =>
    apply sum_remaining_lt
    simp only [ht, Thread.remaining]
    omega

-- Only a thread which is at none of these points may have to wait.
def Thread.Waits (th : Thread) : Prop :=
  th.pc = .loop ∨ th.pc = .mutex

theorem exists_step_of_not_waits (inv : Inv name p s) (ht : ¬(s.thread t).Waits) :
    (machine name m p).Live s := by
  refine ⟨t, ?_⟩
  obtain ⟨pc, k, hp⟩ : ∃ pc k, s.thread t = ⟨pc, k⟩ := ⟨_, _, rfl⟩
  rw [hp] at ht
  cases t
  case inl i =>
    have hf := inv.producer i
    rw [hp] at hf
    cases pc <;> simp_all [machine, step, producerStep, Thread.Producer, Thread.Waits]
  case inr j =>
    have hf := inv.consumer j
    rw [hp] at hf
    cases pc <;> simp_all [machine, step, consumerStep, Thread.Consumer, Thread.Waits]
    case pop => split <;> rfl

theorem live_of_not_finished (inv : Inv name p s) (hp : m * p ≤ n * p) (hn : ¬Finished p s) :
    (machine name m p).Live s := by
  by_cases hw : ∃ t, ¬(s.thread t).Waits
  case pos => exact have ⟨_, ht⟩ := hw; exists_step_of_not_waits inv ht
  case neg =>
    have hw (t : Fin n ⊕ Fin m) : (s.thread t).Waits := not_not.mp (not_exists.mp hw t)
    have hm : s.mutex = false := by
      by_contra hm
      have ⟨t, ht⟩ := inv.mutex.owner (by simpa using hm)
      have hw := hw t
      cases hp : (s.thread t).pc <;> simp [Thread.Waits, Thread.HasMutex, hp] at ht hw
    by_cases hj : ∃ j, (s.thread (.inr j)).pc = .mutex
    case pos =>
      obtain ⟨j, hj⟩ := hj
      exact ⟨.inr j, by simp [machine, step, consumerStep, hj, lock, hm]⟩
    case neg =>
      have hl (t : Fin n ⊕ Fin m) : (s.thread t).pc = .loop := by
        cases t
        case inr j => exact (hw (.inr j)).resolve_right (not_exists.mp hj j)
        case inl i =>
          refine (hw (.inl i)).resolve_right fun hp => ?_
          simpa [Thread.Producer, hp] using inv.producer i
      by_cases hi : ∃ i, (s.thread (.inl i)).i < p
      case pos =>
        obtain ⟨i, hi⟩ := hi
        exact ⟨.inl i, by simp [machine, step, producerStep, hl, hi, lock, hm]⟩
      case neg =>
        -- All the producers are done, and a consumer which is not finds a permit.
        have hi (i : Fin n) : ¬(s.thread (.inl i)).sent < p := by
          simpa [Thread.sent, hl] using not_exists.mp hi i
        have hc : count s.thread (·.Permit = true) = 0 :=
          count_eq_zero fun t => by simp [Thread.Permit, hl]
        have hq := inv.permits
        obtain ⟨t, ht⟩ := not_forall.mp hn
        cases t
        case inl i =>
          have hf := inv.producer i
          have hi := hi i
          simp only [Thread.Producer, Thread.sent, hl, not_lt] at hf hi
          exact absurd (by rw [← hl (.inl i), ← hf.antisymm hi]) ht
        case inr j =>
          have hf (j : Fin m) : (s.data j).length = (s.thread (.inr j)).i ∧
              (s.thread (.inr j)).i ≤ p := by
            have hr := inv.read j
            have hf := inv.consumer j
            simp only [Thread.read, Thread.Consumer, hl] at hr hf
            exact ⟨hr, hf⟩
          have hj : (s.thread (.inr j)).i < p :=
            (hf j).right.lt_of_ne fun hj => ht (by rw [← hl (.inr j), ← hj])
          have hb : s.buffer ≠ [] := by
            intro hb
            have ⟨i, hs⟩ := inv.delivers.exists_sender (p := p) (c := p) (j := j)
              (fun j => (hf j).left ▸ (hf j).right) ((hf j).left ▸ hj) (by simpa using hp) hb
            exact hi i hs
          have he : s.notEmpty ≠ 0 := by
            have := List.length_pos_of_ne_nil hb
            omega
          exact ⟨.inr j, by simp [machine, step, consumerStep, hl, hj, he]⟩

theorem Inv.le_of_finished (inv : Inv name p s) (h : Finished p s) : m * p ≤ n * p := by
  have hr (j : Fin m) : (s.data j).length = p := by
    rw [inv.read, h]
    rfl
  have hs (i : Fin n) : (Thread.sent ∘ s.thread ∘ .inl) i = p := by
    show (s.thread (.inl i)).sent = p
    rw [h]
    rfl
  have := inv.delivers.card_eq hr hs
  simp only [Fintype.card_fin] at this
  omega

-- Everything which has been appended is in the buffer or has been taken in its turn, and `pop` never
-- fails. Each run is finite, and all the threads come to their end in all of them if there are not
-- more consumers than producers.
theorem delivered_and_joined (name : Fin n → String) (m p : ℕ) :
    (∀ s, (machine name m p).Reachable s →
      Delivers (text name) (Thread.sent ∘ s.thread ∘ .inl) s.buffer s.data ∧
      ∀ t, (s.thread t).pc ≠ .raised) ∧
    (∀ as s, (machine name m p).Run (init n m) as s → as.length ≤ (n + m) * (4 * p)) ∧
    ((∀ s, (machine name m p).Reachable s → ¬(machine name m p).Live s → Finished p s) ↔
      m ≤ n ∨ p = 0) := by
  have hp : m * p ≤ n * p ↔ m ≤ n ∨ p = 0 := by
    by_cases h₀ : p = 0
    case pos => simp [h₀]
    case neg => simp [h₀, Nat.mul_le_mul_right_iff (Nat.pos_of_ne_zero h₀)]
  refine ⟨fun s r => ?_, fun as s r => ?_, ?_, ?_⟩
  · have inv := inv_of_reachable r
    refine ⟨inv.delivers, fun t ht => ?_⟩
    cases t
    case inl i => simpa [Thread.Producer, ht] using inv.producer i
    case inr j => simpa [Thread.Consumer, ht] using inv.consumer j
  · have := r.length_add_le (μ := fun s => ∑ u, (s.thread u).remaining p)
      fun hs => (Step.of_step hs).remaining_lt
    have : ∑ u, ((init n m).thread u).remaining p = (n + m) * (4 * p) := by
      simp [init, Thread.remaining, Nat.add_mul]
    omega
  · intro h
    have r : (machine name m p).Reachable (init n m) := .init rfl
    have ⟨s, r, hl⟩ := r.exists_stuck (μ := fun s => ∑ u, (s.thread u).remaining p)
      fun hs => (Step.of_step hs).remaining_lt
    exact hp.mp ((inv_of_reachable r).le_of_finished (h s r hl))
  · intro h s r hl
    by_contra hn
    exact hl (live_of_not_finished (inv_of_reachable r) (hp.mpr h) hn)

end ProducerConsumerInfinite
