import Concurrencia.Spinlocks.ArrayLock.Theorems.Order
import Concurrencia.Spinlocks.Clh.Theorems.Nodes
import Concurrencia.Spinlocks.Mcs.Theorems.HandOver
import Concurrencia.Spinlocks.TicketLock.Theorems.Order

-- The programs in which the threads queue up for the lock, and increment one counter `max` times
-- each.
namespace QueueLocks

open LockClient (Prints single)

-- No increment gets lost and no thread is left behind, provided that there is a ticket for each
-- thread, and that the slots of the array stay in their order when the tickets wrap.
theorem lock_counters (n max : ℕ) :
    Prints (Mcs.machine n) Mcs.stage single max (· ()) (n * max) ∧
    Prints (Clh.machine n) Clh.stage single max (· ()) (n * max) ∧
    (∀ {w : ℕ} (first : BitVec w), n ≤ 2 ^ w →
      Prints (TicketLock.machine n first) TicketLock.phase single max (· ()) (n * max)) ∧
    (ArrayLock.size n ≤ 2 ^ 16 → n ∣ 2 ^ 16 →
      Prints (ArrayLock.machine n) ArrayLock.phase single max (· ()) (n * max)) := by
  have hx : Fintype.card (Fin n) * Nat.count (single · = some ()) max = n * max := by simp [single]
  refine ⟨?_, ?_, ?_, ?_⟩
  · exact .of_live Mcs.lock Mcs.live hx
  · exact .of_live Clh.lock Clh.live hx
  · intro w first hn
    exact .of_live (TicketLock.lock hn) (TicketLock.live hn) hx
  · intro hp hd
    exact .of_live (ArrayLock.lock hp hd) (ArrayLock.live hp hd) hx

-- The constants of the programs.
theorem lock_counters_four :
    Prints (TicketLock.ticketLock 4) TicketLock.phase single (10000000 / 4) (· ()) 10000000 ∧
    Prints (ArrayLock.machine 4) ArrayLock.phase single (10000000 / 4) (· ()) 10000000 :=
  have ⟨_, _, ht, ha⟩ := lock_counters 4 (10000000 / 4)
  ⟨ht _ (by decide), ha (by decide) (by decide)⟩

end QueueLocks
