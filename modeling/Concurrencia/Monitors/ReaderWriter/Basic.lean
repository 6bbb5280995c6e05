import Concurrencia.ObjectMonitor.Basic

open Function ObjectMonitor

-- The program `monitors/ReaderWriter.java`, with the methods of `RWMonitor`.
namespace ReaderWriterMonitor

structure Fields where
  readers : ℤ
  writing : Bool
  deriving DecidableEq

inductive Call
  | readerLock | readerUnlock | writerLock | writerUnlock
  deriving DecidableEq

def ready : Call → Fields → Bool
  | .readerLock, d => !d.writing
  | .writerLock, d => !(d.writing || d.readers ≠ 0)
  | _, _           => true

def body : Call → List (Fields → Fields)
  | .readerLock   => [fun d => { d with readers := d.readers + 1 }]
  | .readerUnlock => [fun d => { d with readers := d.readers - 1 }]
  | .writerLock   => [fun d => { d with writing := true }]
  | .writerUnlock => [fun d => { d with writing := false }]

def notifies : Call → Fields → Bool
  | .readerLock, _   => true
  | .readerUnlock, d => d.readers = 0
  | .writerLock, _   => false
  | .writerUnlock, _ => true

-- The increment of `counter` loads the value and stores the next one. As long as there are fewer
-- than 2^31 increments, it does not overflow.
structure Vars (n : ℕ) where
  counter : ℕ
  register : Fin n → ℕ
  c : Fin n → ℕ

-- What a thread does next in the body of its loop. At `lock` it has not begun the body.
inductive Statement
  | lock | load | store | writerUnlock | read | readerUnlock
  deriving DecidableEq

structure Point where
  i : ℕ
  statement : Statement
  deriving DecidableEq

def fetch {n : ℕ} (max : ℕ) (t : Fin n) (x : Point) : Option (Act Call (Vars n)) :=
  match x.statement with
  | .lock         =>
    if x.i < max then some (.call (if x.i % 10 = 0 then .writerLock else .readerLock)) else none
  | .load         => some (.access fun v => { v with register := update v.register t v.counter })
  | .store        => some (.access fun v => { v with counter := v.register t + 1 })
  | .writerUnlock => some (.call .writerUnlock)
  | .read         => some (.access fun v => { v with c := update v.c t v.counter })
  | .readerUnlock => some (.call .readerUnlock)

def next : Point → Point
  | ⟨i, .lock⟩         => ⟨i, if i % 10 = 0 then .load else .read⟩
  | ⟨i, .load⟩         => ⟨i, .store⟩
  | ⟨i, .store⟩        => ⟨i, .writerUnlock⟩
  | ⟨i, .read⟩         => ⟨i, .readerUnlock⟩
  | ⟨i, .writerUnlock⟩ => ⟨i + 1, .lock⟩
  | ⟨i, .readerUnlock⟩ => ⟨i + 1, .lock⟩

def program (n max : ℕ) : Program Fields (Fin n) Call (Vars n) Point where
  ready    := ready
  body _   := body
  notifies := notifies
  fetch    := fetch max
  next     := next
  start    := ⟨0, .lock⟩
  fields   := ⟨0, false⟩
  vars     := ⟨0, fun _ => 0, fun _ => 0⟩

end ReaderWriterMonitor
