import Concurrencia.Machine.Basic
import Mathlib.Data.Nat.Cast.Defs

open Function

-- Transactions in software, and what it means that they are serialisable. How they are implemented
-- is a parameter.
namespace SoftwareTransactions

inductive Call (κ α : Type*)
  | start
  | load (k : κ)
  | store (k : κ) (a : α)
  | commit
  deriving DecidableEq

-- What a step inside of a call does: it returns, with what it has loaded, it goes on with the call,
-- or it takes the thread back to the start of its transaction.
inductive Action (κ α : Type*)
  | start
  | load (k : κ) (a : α)
  | store (k : κ) (a : α)
  | commit
  | pending (c : Call κ α)
  | restart (c : Call κ α)
  deriving DecidableEq

inductive Op (κ α : Type*)
  | load (k : κ) (a : α)
  | store (k : κ) (a : α)
  deriving DecidableEq

variable {ι κ α σ : Type*} [DecidableEq ι] [DecidableEq κ] [DecidableEq α]

def Action.call : Action κ α → Call κ α
  | .start     => .start
  | .load k _  => .load k
  | .store k a => .store k a
  | .commit    => .commit
  | .pending c => c
  | .restart c => c

-- The implementation keeps its own data in `σ`. A step yields the new data and the stores to the
-- memory, the first one at the head.
structure Stm (ι κ α σ : Type*) where
  init : σ
  step : σ → (κ → α) → ι → Action κ α → Option (σ × List (κ × α))

def assign (cells : κ → α) (stores : List (κ × α)) : κ → α :=
  stores.foldl (fun c w => update c w.fst w.snd) cells

-- A thread is in a transaction with the given operations, and in a call which has not returned.
structure Client (κ α : Type*) where
  ops : Option (List (Op κ α))
  call : Option (Call κ α)
  deriving DecidableEq

namespace Client

def idle : Client κ α where
  ops  := none
  call := none

def within (ops : List (Op κ α)) : Client κ α where
  ops  := some ops
  call := none

-- A thread finishes a call before it makes the next one, and it makes them in the right order.
def step (x : Client κ α) (e : Action κ α) : Option (Client κ α) :=
  if x.call = none ∨ x.call = some e.call then
    match e, x.ops with
    | .start, none               => some (within [])
    | .load k a, some ops        => some (within (ops ++ [.load k a]))
    | .store k a, some ops       => some (within (ops ++ [.store k a]))
    | .commit, some _            => some idle
    | .pending .start, none      => some { x with call := some .start }
    | .pending .start, some _    => none
    | .pending c, some _         => some { x with call := some c }
    | .restart .start, _         => none
    | .restart _, some _         => some (within [])
    | _, _                       => none
  else
    none

def committed (x : Client κ α) : Action κ α → Option (List (Op κ α))
  | .commit => x.ops
  | _       => none

end Client

structure Session (ι κ α σ : Type*) where
  data : σ
  cells : κ → α
  client : ι → Client κ α
  -- The committed transactions.
  done : List (List (Op κ α))

namespace Session

def init (data : σ) (cells : κ → α) : Session ι κ α σ where
  data     := data
  cells    := cells
  client _ := .idle
  done     := []

def step (m : Stm ι κ α σ) (s : Session ι κ α σ) (l : ι × Action κ α) : Option (Session ι κ α σ) :=
  match (s.client l.fst).step l.snd, m.step s.data s.cells l.fst l.snd with
  | some x, some (d, ws) => some {
      data   := d
      cells  := assign s.cells ws
      client := update s.client l.fst x
      done   := s.done ++ ((s.client l.fst).committed l.snd).toList }
  | _, _                 => none

def Closed (s : Session ι κ α σ) : Prop :=
  ∀ i, s.client i = .idle

end Session

namespace Stm

-- The threads use the memory by transactions only.
def session (m : Stm ι κ α σ) (data : σ) (cells : κ → α) :
    Machine (Session ι κ α σ) (ι × Action κ α) where
  init s := s = .init data cells
  step   := Session.step m

-- Between two sessions the memory may be used in other ways.
inductive Quiescent (m : Stm ι κ α σ) : σ → Prop
  | init : Quiescent m m.init
  | closed : (Quiescent m d) → ((m.session d cells).Reachable s) → (s.Closed) → Quiescent m s.data

end Stm

-- The operations take place one after the other.
inductive Serial : (κ → α) → List (Op κ α) → (κ → α) → Prop
  | nil : Serial c [] c
  | load : (c k = a) → (Serial c ops c') → Serial c (.load k a :: ops) c'
  | store : (Serial (update c k a) ops c') → Serial c (.store k a :: ops) c'

def Stm.Serializable (m : Stm ι κ α σ) : Prop :=
  ∀ d cells s, m.Quiescent d → (m.session d cells).Reachable s → s.Closed →
    ∃ ts : List (List (Op κ α)), ts.Perm s.done ∧ Serial cells ts.flatten s.cells

variable {m : Stm ι κ α σ} {s s' : Session ι κ α σ} {d : σ} {c c' : κ → α} {i : ι} {e : Action κ α}

omit [DecidableEq α] in
@[simp] theorem assign_nil : assign c [] = c := rfl

omit [DecidableEq α] in
theorem assign_cons {w : κ × α} {ws : List (κ × α)} :
    assign c (w :: ws) = assign (update c w.fst w.snd) ws := rfl

omit [DecidableEq ι] [DecidableEq α] in
theorem Serial.append {c'' : κ → α} {l l' : List (Op κ α)} (h : Serial c l c')
    (h' : Serial c' l' c'') : Serial c (l ++ l') c'' := by
  induction h
  case nil         => exact h'
  case load hk _ i => exact .load hk (i h')
  case store _ i   => exact .store (i h')

theorem Session.step_eq {x : Client κ α} {ws : List (κ × α)} (hx : (s.client i).step e = some x)
    (hm : m.step s.data s.cells i e = some (d, ws)) :
    Session.step m s (i, e) = some {
      data   := d
      cells  := assign s.cells ws
      client := update s.client i x
      done   := s.done ++ ((s.client i).committed e).toList } := by
  simp [Session.step, hx, hm]

theorem Session.step_inv (h : Session.step m s (i, e) = some s') :
    ∃ x d ws, (s.client i).step e = some x ∧ m.step s.data s.cells i e = some (d, ws) ∧
      s' = {
        data   := d
        cells  := assign s.cells ws
        client := update s.client i x
        done   := s.done ++ ((s.client i).committed e).toList } := by
  cases hx : (s.client i).step e <;> simp only [Session.step, hx] at h
  case none   => cases h
  case some x =>
    cases hm : m.step s.data s.cells i e <;> simp only [hm] at h
    case none   => cases h
    case some y =>
      cases h
      exact ⟨x, y.fst, y.snd, rfl, rfl, rfl⟩

-- Transactions which add one to a cell each.
section Increment

variable [AddCommMonoidWithOne α] {k : κ} {ts : List (List (Op κ α))}

def increment (k : κ) (a : α) : List (Op κ α) :=
  [.load k a, .store k (a + 1)]

def target : List (Op κ α) → Option κ
  | .load k _ :: _ => some k
  | _              => none

omit [DecidableEq ι] [DecidableEq α] in
theorem Serial.increments (h : ∀ t ∈ ts, ∃ k a, t = increment k a) (hs : Serial c ts.flatten c')
    (k : κ) : c' k = c k + (ts.filterMap target).count k := by
  induction ts generalizing c
  case nil =>
    cases hs
    simp
  case cons t ts hi =>
    have ⟨k', a, ht⟩ := h t List.mem_cons_self
    subst ht
    rw [List.flatten_cons, increment] at hs
    cases hs
    case load ha hs =>
      cases hs
      case store hs =>
        rw [hi (fun t ht => h t (List.mem_cons_of_mem _ ht)) hs]
        by_cases hk : k = k'
        case pos => simp [hk, increment, target, ha, add_assoc, add_comm]
        case neg => simp [hk, Ne.symm hk, increment, target, List.count_cons_of_ne]

theorem Stm.Serializable.count (hm : m.Serializable) (hd : m.Quiescent d)
    (r : (m.session d c).Reachable s) (hc : s.Closed)
    (h : ∀ t ∈ s.done, ∃ k a, t = increment k a) (k : κ) :
    s.cells k = c k + (s.done.filterMap target).count k := by
  have ⟨ts, hp, hs⟩ := hm d c s hd r hc
  rw [hs.increments (fun t ht => h t (hp.mem_iff.mp ht)) k, (hp.filterMap target).count_eq]

end Increment

end SoftwareTransactions
