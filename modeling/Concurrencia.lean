import Concurrencia.Machine.Basic
import Concurrencia.Machine.History
import Concurrencia.Machine.Calls
import Concurrencia.Placement.Basic
import Concurrencia.Threads.Basic
import Concurrencia.Threads.Count
import Concurrencia.Intro.Fast.Basic
import Concurrencia.Intro.Fast.Theorems.Exclusion
import Concurrencia.Intro.Fast.Theorems.Progress
import Concurrencia.Intro.Bakery.Basic
import Concurrencia.Intro.Bakery.Theorems.Exclusion
import Concurrencia.Intro.Bakery.Theorems.FirstCome
import Concurrencia.Distributed.Basic
import Concurrencia.Distributed.RicartAgrawala.Basic
import Concurrencia.Distributed.RicartAgrawala.Theorems.Accounting
import Concurrencia.Distributed.RicartAgrawala.Theorems.Deferred
import Concurrencia.Distributed.RicartAgrawala.Theorems.Order
import Concurrencia.Distributed.RicartAgrawala.Theorems.CriticalSection
import Concurrencia.Distributed.RicartAgrawala.Theorems.Progress
import Concurrencia.Distributed.TokenPassing.Basic
import Concurrencia.Distributed.TokenPassing.Theorems.Step
import Concurrencia.Distributed.TokenPassing.Theorems.Token
import Concurrencia.Distributed.TokenPassing.Theorems.Requests
import Concurrencia.Distributed.TokenPassing.Theorems.Granted
import Concurrencia.Distributed.TokenPassing.Theorems.Progress
import Concurrencia.Distributed.TokenPassing.Theorems.Overtaking
import Concurrencia.Distributed.PathReversal.Basic
import Concurrencia.Distributed.PathReversal.Theorems.Edges
import Concurrencia.Distributed.PathReversal.Theorems.Token
import Concurrencia.Distributed.PathReversal.Theorems.Queue
import Concurrencia.Distributed.NeilsenMizuno.Basic
import Concurrencia.Distributed.NeilsenMizuno.Theorems.Guarded
import Concurrencia.Distributed.NeilsenMizuno.Theorems.Refinement
import Concurrencia.Distributed.NeilsenMizuno.Theorems.Safety
import Concurrencia.Distributed.NeilsenMizuno.Theorems.Progress
import Concurrencia.Futex.Drepper.Basic
import Concurrencia.Futex.Drepper.Theorems.Exclusion
import Concurrencia.Futex.Drepper.Theorems.Wakeup
import Concurrencia.Futex.SimpleMutex.Basic
import Concurrencia.Futex.SimpleMutex.Theorems.Exclusion
import Concurrencia.Futex.SimpleMutex.Theorems.Wakeup
import Concurrencia.Futex.FairMutex.Basic
import Concurrencia.Futex.FairMutex.Theorems.Order
import Concurrencia.Futex.FairMutex.Theorems.Wakeup
import Concurrencia.Futex.FairMutexSpin.Basic
import Concurrencia.Futex.FairMutexSpin.Theorems.Order
import Concurrencia.Futex.FairMutexSpin.Theorems.Wakeup
import Concurrencia.CountingSemaphore.Basic
import Concurrencia.Futex.Semaphore.Basic
import Concurrencia.Futex.Semaphore.Theorems.Permits
import Concurrencia.Futex.SemaphoreSpinlock.Basic
import Concurrencia.Futex.SemaphoreSpinlock.Theorems.Permits
import Concurrencia.CyclicBarrier.Basic
import Concurrencia.Futex.Barrier.Basic
import Concurrencia.Futex.Barrier.Theorems.Lock
import Concurrencia.Futex.Barrier.Theorems.Rounds
import Concurrencia.Monitors.Barrier.Basic
import Concurrencia.Monitors.Barrier.Theorems.Rounds
import Concurrencia.Monitors.MutexRelaxed.Basic
import Concurrencia.Monitors.MutexRelaxed.Theorems.Wakeup
import Concurrencia.Semaphores.ReaderWriterFaster.Basic
import Concurrencia.Semaphores.ReaderWriterFaster.Theorems.Count
import Concurrencia.Semaphores.ReaderWriterFaster.Theorems.Exclusion
import Concurrencia.GroupBarrier.Basic
import Concurrencia.Semaphores.Barrier.Basic
import Concurrencia.Semaphores.Barrier.Theorems.Refinement
import Concurrencia.Spinlocks.TicketRw.Basic
import Concurrencia.Spinlocks.TicketRw.Admission
import Concurrencia.Spinlocks.TicketRw.Theorems.Refinement
import Concurrencia.FifoLock.Basic
import Concurrencia.FifoLock.Tickets
import Concurrencia.Spinlocks.TicketLock.Basic
import Concurrencia.Spinlocks.TicketLock.Theorems.Order
import Concurrencia.Spinlocks.ArrayLock.Basic
import Concurrencia.Spinlocks.ArrayLock.Theorems.Order
import Concurrencia.Spinlocks.ArrayLock.Theorems.Wrap
import Concurrencia.Spinlocks.Mcs.Basic
import Concurrencia.Spinlocks.Mcs.Theorems.Refinement
import Concurrencia.Spinlocks.Mcs.Theorems.HandOver
import Concurrencia.Spinlocks.Clh.Basic
import Concurrencia.Spinlocks.Clh.Theorems.Refinement
import Concurrencia.Spinlocks.Clh.Theorems.Nodes
import Concurrencia.LifoStacks.Basic
import Concurrencia.LifoStacks.Memory
import Concurrencia.Hardware.StackCasTagged.Basic
import Concurrencia.Hardware.StackCasTagged.Theorems.Refinement
import Concurrencia.Hardware.StackLlsc.Basic
import Concurrencia.Hardware.StackLlsc.Theorems.Refinement
import Concurrencia.PackedWord.Basic
import Concurrencia.Spinlocks.RwLock.Basic
import Concurrencia.Spinlocks.RwLock.Theorems.Exclusion
import Concurrencia.Monitors.RwLock.Basic
import Concurrencia.Monitors.RwLock.Theorems.Exclusion
import Concurrencia.Monitors.RwLock.Theorems.Wakeup
import Concurrencia.Rendezvous.Basic
import Concurrencia.RoundTable.Basic
import Concurrencia.DoneChannel.Basic
import Concurrencia.OrderedResources.Basic
import Concurrencia.Channels.ParallelMatrixMultiplication.Basic
import Concurrencia.Channels.ParallelMatrixMultiplication.Theorems.Plan
import Concurrencia.Channels.ParallelMatrixMultiplication.Theorems.Live
import Concurrencia.Channels.ParallelMatrixMultiplication.Theorems.Product
import Concurrencia.Channels.Philosophers.Basic
import Concurrencia.Channels.Philosophers.Theorems.Forks
import Concurrencia.DiningTable.Basic
import Concurrencia.Channels.PhilosophersProvider.Basic
import Concurrencia.Channels.PhilosophersProvider.Theorems.Service
import Concurrencia.Semaphores.PhilosophersSync.Basic
import Concurrencia.Semaphores.PhilosophersSync.Theorems.Service
import Concurrencia.Monitors.Philosophers.Basic
import Concurrencia.Monitors.Philosophers.Theorems.Forks
import Concurrencia.Monitors.Philosophers.Theorems.Wakeup
import Concurrencia.TransactionalMemory.Basic
import Concurrencia.SerialSections.Basic
import Concurrencia.SoftwareTransactions.Basic
import Concurrencia.SoftwareTransactions.GlobalLock
import Concurrencia.Transactional.Rtm.Basic
import Concurrencia.Transactional.Rtm.Theorems.Elision
import Concurrencia.Transactional.Rtm.Theorems.Refinement
import Concurrencia.Transactional.RtmTinystm.Basic
import Concurrencia.Transactional.RtmTinystm.Theorems.Apart
import Concurrencia.Transactional.RtmTinystm.Theorems.Increments
import Concurrencia.Channels.Semaphore2.Basic
import Concurrencia.Channels.Semaphore2.Theorems.Tokens
import Concurrencia.Channels.Semaphore2.Theorems.Permits
import Concurrencia.Channels.Semaphore.Basic
import Concurrencia.Channels.Semaphore.Theorems.Calls
import Concurrencia.Channels.Semaphore2.Theorems.Calls
import Concurrencia.Channels.Barrier.Basic
import Concurrencia.Channels.Barrier.Theorems.Correspondence
import Concurrencia.Channels.Barrier.Theorems.Agreement
import Concurrencia.Channels.Barrier.Theorems.Histories
import Concurrencia.LockCalls.Basic
import Concurrencia.Channels.Mutex.Basic
import Concurrencia.Channels.MutexSync.Basic
import Concurrencia.Channels.Mutex.Theorems.Calls
import Concurrencia.Channels.MutexSync.Theorems.Calls
import Concurrencia.BoundedBuffer.Basic
import Concurrencia.Monitors.ProducerConsumer.Theorems.Buffer
import Concurrencia.Monitors.ProducerConsumer.Theorems.Wakeup
import Concurrencia.Semaphores.ProducerConsumer.Theorems.Permits
import Concurrencia.ReaderGroup.Basic
import Concurrencia.Turnstile.Basic
import Concurrencia.ReaderGroup.Theorems.Sharing
import Concurrencia.Semaphores.ReaderWriter.Theorems.Sharing
import Concurrencia.Semaphores.ReaderWriter.Theorems.Progress
import Concurrencia.Channels.RwLock.Theorems.Sharing
import Concurrencia.Channels.RwLock.Theorems.Progress
import Concurrencia.Monitors.Semaphore.Theorems.Wakeup
import Concurrencia.Semaphores.ReaderWriterFaster.Theorems.Exceptions
import Concurrencia.Spinlocks.Backoff.Theorems.Delay
import Concurrencia.Spinlocks.ArrayLockVariableSize.Theorems.Index
import Concurrencia.Spinlocks.ArrayLockVariableSize.Theorems.Exclusion
import Concurrencia.Hardware.StackCasTagged.Theorems.Workload
import Concurrencia.Intro.Bakery.Theorems.Tickets
import Concurrencia.Futex.FairMutexBitset.Basic
import Concurrencia.Futex.FairMutexBitset.Theorems.Order
import Concurrencia.Futex.FairMutexBitset.Theorems.Wakeup
import Concurrencia.Regex.Basic
import Concurrencia.Summary.Basic
import Concurrencia.Summary.Theorems.Times
import Concurrencia.Intro.Counter.Basic
import Concurrencia.Intro.Counter.Theorems.Values
import Concurrencia.LockClient.Basic
import Concurrencia.Intro.Peterson.Basic
import Concurrencia.Intro.Peterson.Theorems.Exclusion
import Concurrencia.Spinlocks.SimpleSpinlock.Basic
import Concurrencia.Spinlocks.SimpleSpinlock.Theorems.Exclusion
import Concurrencia.Spinlocks.QueueLocks
import Concurrencia.ObjectMonitor.Basic
import Concurrencia.Pipeline.Basic
import Concurrencia.Monitors.ReaderWriter.Theorems.Counter
import Concurrencia.Monitors.PCMonitor.Theorems.Delivery
import Concurrencia.Monitors.Table.Theorems.Forks
import Concurrencia.Channels.ProducerConsumer.Theorems.Delivery
import Concurrencia.Semaphores.ProducerConsumerInfinite.Theorems.Delivery
import Concurrencia.Hardware.StackLlsc.Theorems.Workload
import Concurrencia.Hardware.StackCas.Basic
import Concurrencia.Hardware.StackCas.Theorems.Refinement
import Concurrencia.LifoStacks.Workload
import Concurrencia.Monitors.Barrier.Theorems.Phases
import Concurrencia.Hardware.StackCas.Theorems.Aba
import Concurrencia.Summary.Theorems.Log
import Concurrencia.Channels.Barrier2p.Basic
import Concurrencia.Channels.Barrier2p.Theorems.Phases
