import Mathlib.Data.Nat.Notation
import Mathlib.Logic.Function.Basic
import Mathlib.Order.WellFounded
import Mathlib.Tactic.SplitIfs

open Function

-- Processes which communicate on channels without room for elements: a send and a receive of the
-- same channel take place together.
namespace Rendezvous

-- What a process waits for.
inductive Offer (κ α : Type*)
  | send (c : κ) (a : α)
  | receive (c : κ)
  | none
  deriving DecidableEq

-- The local state of process `p` is in `τ p`. The last two functions yield it after a send and
-- after a receive of the given element.
structure Network (ι κ α : Type*) (τ : ι → Type*) where
  offer : (p : ι) → τ p → Offer κ α
  sent : (p : ι) → τ p → τ p
  received : (p : ι) → τ p → α → τ p

variable {ι κ α : Type*} {τ : ι → Type*} [DecidableEq ι] [DecidableEq κ]

def Offer.meet : Offer κ α → Offer κ α → Option (κ × α)
  | send c a, receive c' => if c = c' then some (c, a) else Option.none
  | _, _                 => Option.none

def Network.communicate (w : Network ι κ α τ) (f : ∀ p, τ p) (p q : ι) : Option (∀ p, τ p) :=
  ((w.offer p (f p)).meet (w.offer q (f q))).map fun x =>
    update (update f p (w.sent p (f p))) q (w.received q (f q) x.snd)

-- What can be said of each process on its own, given the number of the communications on its
-- channels so far. The element number `k` on channel `c` is `carried c k`.
structure Plan (w : Network ι κ α τ) where
  Sends : ι → κ → Prop
  Receives : ι → κ → Prop
  carried : κ → ℕ → α
  Holds : (κ → ℕ) → (p : ι) → τ p → Prop
  sender : ∀ {p q c}, Sends p c → Sends q c → p = q
  receiver : ∀ {p q c}, Receives p c → Receives q c → p = q
  send : ∀ {v p x c a}, Holds v p x → w.offer p x = .send c a →
    Sends p c ∧ a = carried c (v c) ∧ Holds (update v c (v c + 1)) p (w.sent p x)
  receive : ∀ {v p x c}, Holds v p x → w.offer p x = .receive c →
    Receives p c ∧ Holds (update v c (v c + 1)) p (w.received p x (carried c (v c)))
  frame : ∀ {v p x c n}, Holds v p x → ¬Sends p c → ¬Receives p c → Holds (update v c n) p x

variable {w : Network ι κ α τ} {f g : ∀ p, τ p} {p q r : ι} {c : κ} {a : α} {v : κ → ℕ}
variable {x y : Offer κ α}

omit [DecidableEq ι] in
theorem Offer.meet_eq_some : x.meet y = some (c, a) ↔ x = .send c a ∧ y = .receive c := by
  constructor
  case mp =>
    intro h
    cases x <;> cases y <;> simp only [meet] at h
    case send.receive =>
      split_ifs at h with hc
      cases h
      exact ⟨rfl, hc ▸ rfl⟩
    all_goals cases h
  case mpr =>
    rintro ⟨rfl, rfl⟩
    exact if_pos rfl

theorem Network.communicate_cases (h : w.communicate f p q = some g) :
    ∃ c a, w.offer p (f p) = .send c a ∧ w.offer q (f q) = .receive c ∧
      g = update (update f p (w.sent p (f p))) q (w.received q (f q) a) := by
  have ⟨⟨c, a⟩, hm, hg⟩ := Option.map_eq_some_iff.mp h
  have ⟨hp, hq⟩ := Offer.meet_eq_some.mp hm
  exact ⟨c, a, hp, hq, hg.symm⟩

-- Some two processes can communicate.
def Network.Live (w : Network ι κ α τ) (f : ∀ p, τ p) : Prop :=
  ∃ p q, (w.communicate f p q).isSome

theorem Network.live_of_offers (hp : w.offer p (f p) = .send c a)
    (hq : w.offer q (f q) = .receive c) : w.Live f :=
  ⟨p, q, by simp [communicate, hp, hq, Offer.meet]⟩

-- Whoever cannot communicate waits for somebody of a lower rank.
theorem Network.live_of_rank {δ β : Type*} [LT β] [WellFoundedLT β] {P : δ → Prop} {d : δ}
    (rank : δ → β) (h : ∀ d, P d → w.Live f ∨ ∃ e, P e ∧ rank e < rank d) (hd : P d) :
    w.Live f := by
  induction d using (InvImage.wf rank wellFounded_lt).induction
  case h d hi =>
    cases h d hd
    case inl hl => exact hl
    case inr hn =>
      have ⟨e, he, hr⟩ := hn
      exact hi e hr he

-- The rule for communications: those who take part in one do what they expect of each other, and
-- the others do not notice.
theorem Plan.communicate (d : Plan w) (h : ∀ r, d.Holds v r (f r))
    (hp : w.offer p (f p) = .send c a) (hq : w.offer q (f q) = .receive c) (r : ι) :
    d.Holds (update v c (v c + 1)) r
      (update (update f p (w.sent p (f p))) q (w.received q (f q) a) r) := by
  have ⟨sp, ha, sh⟩ := d.send (h p) hp
  have ⟨rq, rh⟩ := d.receive (h q) hq
  by_cases hr : r = q
  case pos =>
    subst hr
    rwa [update_self, ha]
  case neg =>
    rw [update_of_ne hr]
    by_cases hs : r = p
    case pos =>
      subst hs
      rwa [update_self]
    case neg =>
      rw [update_of_ne hs]
      exact d.frame (h r) (fun h => hs (d.sender h sp)) fun h => hr (d.receiver h rq)

end Rendezvous
