import Mathlib.Data.List.Basic
import Mathlib.Tactic.SplitIfs

-- A channel with room for one element. Each process sends one element when it is done, and one
-- process receives as many elements as there are processes.
structure DoneChannel (α : Type*) where
  buffer : List α
  received : List α
  deriving DecidableEq

namespace DoneChannel

variable {α : Type*} {c c' : DoneChannel α} {a : α} {m n : ℕ}

def empty : DoneChannel α where
  buffer   := []
  received := []

def send (c : DoneChannel α) (a : α) : Option (DoneChannel α) :=
  if c.buffer.length < 1 then some { c with buffer := c.buffer ++ [a] } else none

def receive (c : DoneChannel α) (n : ℕ) : Option (DoneChannel α) :=
  match c.buffer with
  | []      => none
  | a :: as =>
    if c.received.length < n then some { buffer := as, received := c.received ++ [a] } else none

-- What has been sent so far, in its order.
def sent (c : DoneChannel α) : List α :=
  c.received ++ c.buffer

theorem send_cases (h : c.send a = some c') :
    c'.sent = c.sent ++ [a] ∧ c'.buffer.length ≤ 1 := by
  rw [send] at h
  split_ifs at h with hb
  cases h
  simp only [sent, List.append_assoc, List.length_append, List.length_singleton, true_and]
  exact Nat.succ_le_of_lt hb

theorem receive_cases (h : c.receive n = some c') :
    c'.sent = c.sent ∧ c'.buffer.length ≤ c.buffer.length := by
  cases hb : c.buffer <;> simp only [receive, hb] at h
  case nil => cases h
  case cons =>
    split_ifs at h
    cases h
    simp [sent, hb]

theorem send_received (h : c.send a = some c') : c'.received = c.received := by
  rw [send] at h
  split_ifs at h
  cases h
  rfl

theorem receive_length (h : c.receive n = some c') :
    c'.received.length = c.received.length + 1 := by
  cases hb : c.buffer <;> simp only [receive, hb] at h
  case nil => cases h
  case cons =>
    split_ifs at h
    cases h
    simp

theorem receive_lt (h : c.receive n = some c') : c.received.length < n := by
  cases hb : c.buffer <;> simp only [receive, hb] at h
  case nil => cases h
  case cons =>
    split_ifs at h with hl
    exact hl

-- What has been sent and not received is there to be received.
theorem receive_isSome (h : c.received.length < c.sent.length) (hn : c.received.length < n) :
    (c.receive n).isSome := by
  cases hb : c.buffer
  case nil => simp [sent, hb] at h
  case cons => simp [receive, hb, hn]

-- `m` processes are done.
structure Counts (c : DoneChannel α) (m : ℕ) : Prop where
  sent   : c.sent.length = m
  buffer : c.buffer.length ≤ 1

namespace Counts

theorem empty : Counts (empty : DoneChannel α) 0 where
  sent   := rfl
  buffer := Nat.zero_le _

theorem send (h : Counts c m) (hs : c.send a = some c') : Counts c' (m + 1) where
  sent   := by simp [(send_cases hs).left, h.sent]
  buffer := (send_cases hs).right

theorem receive (h : Counts c m) (hr : c.receive n = some c') : Counts c' m where
  sent   := (receive_cases hr).left ▸ h.sent
  buffer := Nat.le_trans (receive_cases hr).right h.buffer

-- While somebody is not done, the channel is not stuck: it has room, or its element is expected.
theorem live (h : Counts c m) (hm : m < n) (a : α) : (c.send a).isSome ∨ (c.receive n).isSome := by
  cases hb : c.buffer
  case nil => exact .inl (by simp [DoneChannel.send, hb])
  case cons =>
    have hl : c.received.length < n := by
      have := h.sent
      simp only [DoneChannel.sent, List.length_append] at this
      omega
    exact .inr (by simp [DoneChannel.receive, hb, hl])

end Counts

end DoneChannel
