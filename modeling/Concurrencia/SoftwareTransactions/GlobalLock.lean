import Concurrencia.SoftwareTransactions.Basic
import Mathlib.Tactic.SplitIfs

open Function

-- The simplest implementation: one transaction at a time, whose stores reach the memory when it
-- commits.
namespace SoftwareTransactions.GlobalLock

variable {ι κ α : Type*} [DecidableEq ι] [DecidableEq κ] [DecidableEq α]

abbrev Data (ι κ α : Type*) :=
  Option (ι × List (κ × α))

def step (d : Data ι κ α) (cells : κ → α) (i : ι) : Action κ α → Option (Data ι κ α × List (κ × α))
  | .start     => if d = none then some (some (i, []), []) else none
  | .load k a  =>
    match d with
    | some (j, ws) => if j = i ∧ assign cells ws k = a then some (d, []) else none
    | none         => none
  | .store k a =>
    match d with
    | some (j, ws) => if j = i then some (some (j, ws ++ [(k, a)]), []) else none
    | none         => none
  | .commit    =>
    match d with
    | some (j, ws) => if j = i then some (none, ws) else none
    | none         => none
  | .pending _ | .restart _ => none

def stm (ι κ α : Type*) [DecidableEq ι] [DecidableEq κ] [DecidableEq α] :
    Stm ι κ α (Data ι κ α) where
  init := none
  step := step

variable {d : Data ι κ α} {c : κ → α} {s s' : Session ι κ α (Data ι κ α)} {i j : ι} {e : Action κ α}
variable {k : κ} {a : α} {ws : List (κ × α)}

-- What thread `i` has done in a transaction which has the lock.
def Running (cells : κ → α) (i : ι) : Data ι κ α → Client κ α → Prop
  | none, x         => x = .idle
  | some (j, ws), x =>
    if j = i then ∃ ops, x = .within ops ∧ Serial cells ops (assign cells ws) else x = .idle

structure Inv (c : κ → α) (s : Session ι κ α (Data ι κ α)) : Prop where
  client : ∀ i, Running s.cells i s.data (s.client i)
  serial : Serial c s.done.flatten s.cells

omit [DecidableEq α] in
theorem assign_concat : assign c (ws ++ [(k, a)]) = update (assign c ws) k a := by
  simp [assign]

omit [DecidableEq α] in
theorem running_update {d' : Data ι κ α} {f : ι → Client κ α} {x : Client κ α}
    (h : ∀ j ≠ i, Running c j d' (f j)) (hx : Running c i d' x) (j : ι) :
    Running c j d' (update f i x j) := by
  by_cases hj : j = i
  case pos => simpa [hj]
  case neg => simpa [hj] using h j hj

namespace Inv

omit [DecidableEq α]

theorem init : Inv c (.init (none : Data ι κ α) c) where
  client _ := rfl
  serial   := .nil

variable (inv : Inv c s)
include inv

theorem idle_of_none (hd : s.data = none) (i : ι) : s.client i = .idle := by
  have h := inv.client i
  rwa [hd] at h

theorem idle_of_ne (hd : s.data = some (i, ws)) (hj : j ≠ i) : s.client j = .idle := by
  have h := inv.client j
  rwa [hd, Running, if_neg hj.symm] at h

theorem within_of (hd : s.data = some (i, ws)) :
    ∃ ops, s.client i = .within ops ∧ Serial s.cells ops (assign s.cells ws) := by
  have h := inv.client i
  rwa [hd, Running, if_pos rfl] at h

-- A step of the transaction which has the lock.
theorem extend {ops : List (Op κ α)} (hc : ∀ j ≠ i, s.client j = .idle)
    (hs : Serial s.cells ops (assign s.cells ws)) : Inv c { s with
      data   := some (i, ws)
      client := update s.client i (.within ops) } where
  serial := inv.serial
  client := by
    apply running_update
    case h => exact fun j hj => by rw [Running, if_neg hj.symm, hc j hj]
    case hx =>
      rw [Running, if_pos rfl]
      exact ⟨ops, rfl, hs⟩

theorem commit {ops : List (Op κ α)} (hc : ∀ j ≠ i, s.client j = .idle)
    (hs : Serial s.cells ops (assign s.cells ws)) : Inv c {
      data   := none
      cells  := assign s.cells ws
      client := update s.client i .idle
      done   := s.done ++ [ops] } where
  serial := by
    rw [List.flatten_concat]
    exact inv.serial.append hs
  client := running_update hc rfl

end Inv

theorem Inv.step (inv : Inv c s) (h : Session.step (stm ι κ α) s (i, e) = some s') : Inv c s' := by
  obtain ⟨x, d, ws, hx, hm, rfl⟩ := Session.step_inv h
  simp only [stm] at hm
  cases e <;> simp only [GlobalLock.step] at hm
  case start =>
    split_ifs at hm with hd
    cases hm
    have hc := inv.idle_of_none hd
    simp only [hc i, Client.step, Client.idle] at hx
    cases hx
    have hi : Inv c { s with data := some (i, []), client := update s.client i (.within []) } :=
      inv.extend (fun j _ => hc j) .nil
    simpa [Client.committed] using hi
  case load =>
    cases hd : s.data <;> simp only [hd] at hm
    case none => cases hm
    case some o =>
      split_ifs at hm with hj
      cases hm
      obtain ⟨rfl, hv⟩ := hj
      obtain ⟨ops, hc, hs⟩ := inv.within_of hd
      simp only [hc, Client.step, Client.within] at hx
      cases hx
      have hi := inv.extend (fun _ => inv.idle_of_ne hd) (hs.append (.load hv .nil))
      simpa [Client.committed, Client.within, ← hd] using hi
  case store k a =>
    cases hd : s.data <;> simp only [hd] at hm
    case none => cases hm
    case some o =>
      split_ifs at hm with hj
      cases hm
      obtain rfl := hj
      obtain ⟨ops, hc, hs⟩ := inv.within_of hd
      simp only [hc, Client.step, Client.within] at hx
      cases hx
      have ha : Serial s.cells (ops ++ [.store k a]) (assign s.cells (o.snd ++ [(k, a)])) := by
        rw [assign_concat]
        exact hs.append (.store .nil)
      have hi := inv.extend (fun _ => inv.idle_of_ne hd) ha
      simpa [Client.committed, Client.within] using hi
  case commit =>
    cases hd : s.data <;> simp only [hd] at hm
    case none => cases hm
    case some o =>
      split_ifs at hm with hj
      cases hm
      obtain rfl := hj
      obtain ⟨ops, hc, hs⟩ := inv.within_of hd
      simp only [hc, Client.step, Client.within] at hx
      cases hx
      simpa [Client.committed, hc, Client.within] using inv.commit (fun _ => inv.idle_of_ne hd) hs
  case pending | restart => cases hm

theorem inv_of_reachable (r : ((stm ι κ α).session none c).Reachable s) : Inv c s := by
  apply r.invariant
  case init =>
    rintro _ rfl
    exact .init
  case step => exact fun _ _ _ _ inv h => inv.step h

omit [DecidableEq α] in
theorem data_of_closed (inv : Inv c s) (h : s.Closed) : s.data = none := by
  cases hd : s.data
  case none => rfl
  case some o =>
    have ⟨_, hc, _⟩ := inv.within_of hd
    cases hc.symm.trans (h o.fst)

theorem data_of_quiescent (h : (stm ι κ α).Quiescent d) : d = none := by
  induction h
  case init            => rfl
  case closed r hc hi =>
    subst hi
    exact data_of_closed (inv_of_reachable r) hc

-- The transactions take effect in the order of their commits.
theorem stm_serializable : (stm ι κ α).Serializable := by
  intro d cells s hd r _
  cases data_of_quiescent hd
  exact ⟨s.done, .rfl, (inv_of_reachable r).serial⟩

end SoftwareTransactions.GlobalLock
