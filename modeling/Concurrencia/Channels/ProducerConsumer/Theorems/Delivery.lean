import Concurrencia.Channels.ProducerConsumer.Basic
import Concurrencia.Pipeline.Basic
import Concurrencia.Threads.Basic
import Concurrencia.Threads.Count
import Mathlib.Tactic.SplitIfs

open Function Threads

namespace ChannelProducerConsumer

open Pipeline (Delivers)

-- One constructor for each way through a statement.
inductive Step {n m : ℕ} (size p : ℕ) (s : State n m) : State n m → Prop
  | send : (s.sent i < p) → (s.buffer.length < size) → Step size p s
    { s with sent := update s.sent i (s.sent i + 1), buffer := s.buffer ++ [text i (s.sent i)] }
  | read : ((s.consumer j).i < p) → (s.buffer = x :: rest) → Step size p s
    { s with
      consumer := update s.consumer j
        ⟨(s.consumer j).i + 1, (s.consumer j).data ++ [x], (s.consumer j).finished⟩,
      buffer := rest }
  | finish : (p ≤ (s.consumer j).i) → ((s.consumer j).finished = false) →
    (s.done.send () = some d) → Step size p s
    { s with
      consumer := update s.consumer j ⟨(s.consumer j).i, (s.consumer j).data, true⟩, done := d }
  | join : (s.done.receive m = some d) → Step size p s { s with done := d }

variable {n m size p : ℕ} {s s' : State n m} {l : Label n m} {i : Fin n} {j : Fin m}

theorem Step.of_step (h : (machine n m size p).step s l = some s') : Step size p s s' := by
  cases l
  case producer i =>
    simp only [machine, step, producerStep] at h
    split_ifs at h with hi hl
    cases h
    exact .send hi hl
  case consumer j =>
    simp only [machine, step, consumerStep] at h
    split_ifs at h with hj hf
    · cases hb : s.buffer <;> rw [hb] at h <;> cases h
      exact .read hj hb
    · obtain ⟨d, hd, rfl⟩ := Option.map_eq_some_iff.mp h
      exact .finish (not_lt.mp hj) (by simpa using hf) hd
  case main =>
    obtain ⟨d, hd, rfl⟩ := Option.map_eq_some_iff.mp h
    exact .join hd

structure Consumer.Fits (p : ℕ) (c : Consumer) : Prop where
  length   : c.data.length = c.i
  i_le     : c.i ≤ p
  finished : c.finished = true → c.i = p

structure Inv (size p : ℕ) (s : State n m) : Prop where
  delivers  : Delivers text s.sent s.buffer (Consumer.data ∘ s.consumer)
  length_le : s.buffer.length ≤ size
  sent_le   : ∀ i, s.sent i ≤ p
  fits      : ∀ j, (s.consumer j).Fits p
  done      : s.done.Counts (count s.consumer (·.finished = true))

namespace Inv

theorem init : Inv size p (init n m) where
  delivers   := .init
  length_le  := Nat.zero_le _
  sent_le _  := Nat.zero_le _
  fits _     := ⟨rfl, Nat.zero_le _, by simp [ChannelProducerConsumer.init]⟩
  done       := by
    rw [count_eq_zero (by simp [ChannelProducerConsumer.init])]
    exact .empty

theorem step (inv : Inv size p s) (h : Step size p s s') : Inv size p s' := by
  cases h
  case send i hi hl =>
    exact { inv with
      delivers  := inv.delivers.send
      length_le := by
        rw [List.length_append, List.length_singleton]
        exact hl
      sent_le   := forall_update (P := (· ≤ p)) hi fun i _ => inv.sent_le i
    }
  case read j x rest hj hb =>
    have hd := inv.delivers
    have hl := inv.length_le
    rw [hb] at hd hl
    have hf : (s.consumer j).finished = false := by
      by_contra hf
      exact hj.ne ((inv.fits j).finished (by simpa using hf))
    exact {
      delivers  := by
        rw [comp_update]
        exact hd.take
      length_le := Nat.le_of_succ_le hl
      sent_le   := inv.sent_le
      fits      := by
        refine forall_update (P := Consumer.Fits p) ⟨?_, hj, by simp [hf]⟩ fun k _ => inv.fits k
        simp [(inv.fits j).length]
      done      := by
        rw [count_keep (P := fun c : Consumer => c.finished = true) (by simp)]
        exact inv.done
    }
  case finish j d hj hf hd =>
    exact {
      delivers  := by
        rw [comp_update]
        exact (update_eq_self j (Consumer.data ∘ s.consumer)).symm ▸ inv.delivers
      length_le := inv.length_le
      sent_le   := inv.sent_le
      fits      := by
        have hi := (inv.fits j).i_le.antisymm hj
        exact forall_update (P := Consumer.Fits p) ⟨(inv.fits j).length, hi.le, fun _ => hi⟩
          fun k _ => inv.fits k
      done      := by
        rw [count_enter (P := fun c : Consumer => c.finished = true) (by simp [hf]) rfl]
        exact inv.done.send hd
    }
  case join d hd => exact { inv with done := inv.done.receive hd }

end Inv

theorem inv_of_reachable (r : (machine n m size p).Reachable s) : Inv size p s := by
  apply r.invariant
  case init =>
    rintro s rfl
    exact .init
  case step => exact fun _ _ _ _ inv hs => inv.step (.of_step hs)

-- The communications which are left.
def measure (p : ℕ) (s : State n m) : ℕ :=
  ∑ i, (p - s.sent i) + ∑ j, (p - (s.consumer j).i + if (s.consumer j).finished then 0 else 1) +
    (m - s.done.received.length)

theorem Step.measure_lt (h : Step size p s s') : measure p s' < measure p s := by
  cases h
  case send i hi _ =>
    have := sum_update (f := s.sent) (i := i) (p := s.sent i + 1) (g := (p - ·))
    simp only [measure]
    omega
  case read j x rest hj _ =>
    have := sum_update (f := s.consumer) (i := j)
      (p := ⟨(s.consumer j).i + 1, (s.consumer j).data ++ [x], (s.consumer j).finished⟩)
      (g := fun c => p - c.i + if c.finished then 0 else 1)
    simp only [measure] at this ⊢
    omega
  case finish j d _ hf hd =>
    have := sum_update (f := s.consumer) (i := j)
      (p := ⟨(s.consumer j).i, (s.consumer j).data, true⟩)
      (g := fun c => p - c.i + if c.finished then 0 else 1)
    simp only [hf, if_true, Bool.false_eq_true, if_false] at this
    simp only [measure, DoneChannel.send_received hd]
    omega
  case join d hd =>
    have := DoneChannel.receive_length hd
    have := DoneChannel.receive_lt hd
    simp only [measure]
    omega

theorem live_of_not_ended (inv : Inv size p s) (hs : 0 < size) (hp : m * p ≤ n * p)
    (hn : ¬Ended s) : (machine n m size p).Live s := by
  by_cases hj : ∃ j, (s.consumer j).i < p
  case pos =>
    obtain ⟨j, hj⟩ := hj
    cases hb : s.buffer
    case cons => exact ⟨.consumer j, by simp [machine, step, consumerStep, hj, hb]⟩
    case nil =>
      have ⟨i, hi⟩ := inv.delivers.exists_sender (p := p) (c := p) (j := j)
        (fun j => by simpa [(inv.fits j).length] using (inv.fits j).i_le)
        (by simpa [(inv.fits j).length] using hj) (by simpa using hp) hb
      exact ⟨.producer i, by simp [machine, step, producerStep, hi, hb, hs]⟩
  case neg =>
    have hj (j : Fin m) : ¬(s.consumer j).i < p := not_exists.mp hj j
    have main (h : (s.done.receive m).isSome) : (machine n m size p).Live s :=
      ⟨.main, by simpa [machine, step, mainStep] using h⟩
    by_cases hm : count s.consumer (·.finished = true) < m
    case pos =>
      -- Some consumer is not done, and it can send or has to wait for `main`.
      obtain hd | hd := inv.done.live hm ()
      · have ⟨j, hf⟩ := exists_of_count_lt (hm.trans_eq (Fintype.card_fin m).symm)
        exact ⟨.consumer j, by simpa [machine, step, consumerStep, hj, hf] using hd⟩
      · exact main hd
    case neg =>
      have hl := inv.done.sent
      have hm : count s.consumer (·.finished = true) ≤ m := by
        simpa using count_le_card (f := s.consumer) (P := (·.finished = true))
      have hr : s.done.received.length < m := by
        rw [Ended] at hn
        simp only [DoneChannel.sent, List.length_append] at hl
        omega
      exact main (DoneChannel.receive_isSome (by omega) hr)

theorem Inv.le_of_ended (inv : Inv size p s) (h : Ended s) : m * p ≤ n * p := by
  have hf (j : Fin m) : (s.consumer j).i = p := by
    apply (inv.fits j).finished
    by_contra hf
    have := count_lt_card (f := s.consumer) (P := (·.finished = true)) hf
    have hl := inv.done.sent
    simp only [DoneChannel.sent, List.length_append, Ended, Fintype.card_fin] at *
    omega
  have hr (j : Fin m) : (s.consumer j).data.length = p := (inv.fits j).length.trans (hf j)
  have hs : ∑ i, s.sent i ≤ n * p := by
    simpa using Finset.sum_le_sum fun i (_ : i ∈ Finset.univ) => inv.sent_le i
  have : ∑ i, s.sent i = m * p + s.buffer.length := by simpa [hr] using inv.delivers.sum_sent
  omega

-- Everything which has been sent is in the channel or has been read in its turn. Each run is finite,
-- and `main` comes to its end in all of them if there are not more consumers than producers.
theorem delivery_and_return (n m p : ℕ) (hs : 0 < size) :
    (∀ s, (machine n m size p).Reachable s →
      Delivers text s.sent s.buffer (Consumer.data ∘ s.consumer) ∧ s.buffer.length ≤ size) ∧
    (∀ as s, (machine n m size p).Run (init n m) as s → as.length ≤ n * p + m * (p + 1) + m) ∧
    ((∀ s, (machine n m size p).Reachable s → ¬(machine n m size p).Live s → Ended s) ↔
      m ≤ n ∨ p = 0) := by
  have hp : m * p ≤ n * p ↔ m ≤ n ∨ p = 0 := by
    by_cases h₀ : p = 0
    case pos => simp [h₀]
    case neg => simp [h₀, Nat.mul_le_mul_right_iff (Nat.pos_of_ne_zero h₀)]
  refine ⟨fun s r => ?_, fun as s r => ?_, ?_, ?_⟩
  · have inv := inv_of_reachable r
    exact ⟨inv.delivers, inv.length_le⟩
  · have := r.length_add_le fun hs => (Step.of_step hs).measure_lt
    have : measure p (init n m) = n * p + m * (p + 1) + m := by
      simp [measure, init, DoneChannel.empty]
    omega
  · intro h
    have r : (machine n m size p).Reachable (init n m) := .init rfl
    have ⟨s, r, hl⟩ := r.exists_stuck fun hs => (Step.of_step hs).measure_lt
    exact hp.mp ((inv_of_reachable r).le_of_ended (h s r hl))
  · intro h s r hl
    by_contra hn
    exact hl (live_of_not_ended (inv_of_reachable r) hs (hp.mpr h) hn)

-- The constants of the program.
theorem delivery_and_return_two :
    (∀ as s, (machine 2 2 10 1000).Run (init 2 2) as s → as.length ≤ 4004) ∧
    ∀ s, (machine 2 2 10 1000).Reachable s → ¬(machine 2 2 10 1000).Live s → Ended s :=
  have ⟨_, hl, he⟩ := delivery_and_return 2 2 1000 (by decide)
  ⟨hl, he.mpr (.inl le_rfl)⟩

end ChannelProducerConsumer
