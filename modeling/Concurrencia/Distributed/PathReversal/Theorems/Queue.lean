import Concurrencia.Distributed.PathReversal.Theorems.Token
import Concurrencia.Placement.Basic
import Mathlib.Data.Sum.Basic

open Function

namespace PathReversal

section Requests

variable {α : Type*} {s s' : State α} {a c i j k p u w : α}

-- The originators of the requests that are neither answered nor forgotten, by the nodes which have
-- them.
def State.pending (s : State α) : α ⊕ α → Option α :=
  Sum.elim s.carried s.deferred

def Recorded (s : State α) : Prop :=
  Placement s.pending s.waiting

variable [DecidableEq α]

namespace State

@[simp]
theorem pending_pass : (s.pass j p k).pending = update s.pending (.inl p) (some k) :=
  Sum.update_elim_inl.symm

@[simp]
theorem pending_clear : (s.clear j).pending = update s.pending (.inl j) none :=
  Sum.update_elim_inl.symm

@[simp]
theorem pending_defer {v : Option α} : (s.defer j v).pending = update s.pending (.inr j) v :=
  Sum.update_elim_inr.symm

@[simp]
theorem pending_finish : (s.finish j a).pending = s.pending := rfl

@[simp]
theorem pending_wait : (s.wait i).pending = s.pending := rfl

@[simp]
theorem pending_give : (s.give j k).pending = s.pending := rfl

end State

theorem Recorded.init (c : α) : Recorded (init c) where
  sound x k h    := by cases x <;> simp [State.pending, PathReversal.init] at h
  complete k h   := h.elim
  unique x _ k h := by cases x <;> simp [State.pending, PathReversal.init] at h

theorem Recorded.step (hr : Recorded s) (ho : Owned s) (h : Move s s') : Recorded s' := by
  cases h
  case stay => exact hr
  case request j p _ _ hc hw _ =>
    have hx : s.pending (.inl p) = none := hc
    simpa [Recorded] using hr.put hx hw
  case forward j p a k _ _ hk _ hc =>
    have hx : s.pending (.inl j) = some k := hk
    have hy : s.pending (.inl p) = none := hc
    simpa [Recorded] using hr.move hx hy
  case reply j k _ hk _ _ =>
    have hx : s.pending (.inl j) = some k := hk
    simpa [Recorded] using hr.take hx
  case defer j k hp hk hw =>
    have hx : s.pending (.inl j) = some k := hk
    have hy : s.pending (.inr j) = none :=
      (ho.token_of_open ⟨hp, .inr (by simp [hk])⟩ hw).right
    simpa [Recorded] using hr.move hx hy
  case finish => exact hr
  case grant j k hk _ _ =>
    have hx : s.pending (.inr j) = some k := hk
    simpa [Recorded] using hr.take hx

end Requests

variable {α : Type*}

-- The token goes to `w` when `u` is done with it.
def State.Follows (s : State α) (u w : α) : Prop :=
  s.deferred u = some w ∨ s.carried u = some w ∧ s.parent u = none

-- The queue of the nodes which get the token in turn, from its owner on.
inductive Queued (s : State α) : α → Prop
  | owner : s.token t → Queued s t
  | next  : Queued s u → s.Follows u w → Queued s w

-- The request of `w` still has to be passed on.
def State.Passing (s : State α) (w : α) : Prop :=
  ∃ u, s.carried u = some w ∧ s.parent u ≠ none

def State.Last (s : State α) (w : α) : Prop :=
  s.parent w = none ∧ s.held w = none

def Chained (s : State α) : Prop :=
  ∀ w, s.waiting w ∨ s.Last w → Queued s w ∨ s.Passing w

variable {s s' : State α} {a c i j k p t u w : α}

theorem Queued.mono (h : Queued s w) (ht : ∀ t, s.token t → s'.token t)
    (hf : ∀ u w, s.Follows u w → s'.Follows u w) : Queued s' w := by
  induction h
  case owner h     => exact .owner (ht _ h)
  case next _ h hi => exact hi.next (hf _ _ h)

-- When the token leaves its owner the queue starts with the next node.
theorem Queued.tail (ho : Owned s) (ht : s.token j) (hj : ∀ w, s.Follows j w → w = k)
    (hf : ∀ u w, u ≠ j → s.Follows u w → s'.Follows u w) (hk : s'.token k) (h : Queued s w) :
    w = j ∨ Queued s' w := by
  induction h
  case owner h => exact .inl (ho.eq h ht)
  case next u w _ h hi =>
    right
    rcases eq_or_ne u j with rfl | hn
    · exact hj w h ▸ .owner hk
    · exact (hi.resolve_left hn).next (hf u w hn h)

theorem State.Last.isOpen (h : s.Last w) : s.Open w :=
  ⟨h.left, .inl h.right⟩

namespace Chained

theorem queued_of_last (hc : Chained s) (hs : Star s c) (hp : s.parent i = some p)
    (h : s.Last p) : Queued s p := by
  refine (hc p (.inr h)).resolve_right ?_
  rintro ⟨u, hk, hu⟩
  have ⟨_, hn, hh⟩ := hs.passing hk hu
  obtain rfl := ((hs.parent _ _ hp).resolve_right (by simp [hn])).left
  exact (hs.opposite hp).right.right hh

variable [DecidableEq α]

theorem init (c : α) : Chained (init c) := by
  rintro w (h | h)
  · exact h.elim
  · exact .inl <| .owner (by simpa [PathReversal.init] using h.left)

theorem request (hc : Chained s) (hs : Star s c) (hp : s.parent i = some p) (hh : s.held p = none)
    (hk : s.carried p = none) : Chained ((s.pass i p i).wait i) := by
  have hn := hs.parent_ne hp
  have hf : ∀ u w, s.Follows u w → ((s.pass i p i).wait i).Follows u w := by
    rintro u w (h | ⟨h, hu⟩)
    · exact .inl h
    · have hup : u ≠ p := by
        rintro rfl
        simp [hk] at h
      refine .inr ⟨by simpa [hup] using h, ?_⟩
      rcases eq_or_ne u i with rfl | hui <;> simp [*]
  have hm : ∀ {w}, Queued s w → Queued ((s.pass i p i).wait i) w := (·.mono (fun _ => id) hf)
  have hq : s.parent p = none → Queued ((s.pass i p i).wait i) i := fun hpp =>
    (hm (hc.queued_of_last hs hp ⟨hpp, hh⟩)).next <| .inr ⟨by simp, by simp [hn.symm, hpp]⟩
  intro w hw
  rcases eq_or_ne w i with rfl | hwi
  · by_cases hpp : s.parent p = none
    · exact .inl (hq hpp)
    · exact .inr ⟨p, by simp, by simpa [hn.symm] using hpp⟩
  · have hw : s.waiting w ∨ s.Last w := by
      rcases eq_or_ne w p with rfl | hwp
      · exact hw.imp (by simp [hn.symm]) (by simp [State.Last])
      · simpa [State.Last, hwi, hwp] using hw
    rcases hc w hw with h | ⟨u, h, hu⟩
    · exact .inl (hm h)
    · have hup : u ≠ p := by
        rintro rfl
        simp [hk] at h
      rcases eq_or_ne u i with rfl | hui
      · refine .inl ((hq ?_).next (.inr ⟨by simpa [hup] using h, by simp⟩))
        obtain rfl := (hs.passing h hu).left
        exact hs.parent_eq_none hp
      · exact .inr ⟨u, by simpa [hup] using h, by simpa [hui] using hu⟩

theorem forward (hc : Chained s) (hs : Star s c) (hp : s.parent j = some p)
    (hk : s.carried j = some k) (hh : s.held p = none) (hcp : s.carried p = none) :
    Chained (((s.clear j).pass j p k).finish j a) := by
  have hn := hs.parent_ne hp
  obtain rfl := (hs.passing hk (by simp [hp])).left
  have hpp := hs.parent_eq_none hp
  have hf : ∀ u w, s.Follows u w → (((s.clear j).pass j p k).finish j a).Follows u w := by
    rintro u w (h | ⟨h, hu⟩)
    · exact .inl h
    · have huj : u ≠ j := by
        rintro rfl
        simp [hp] at hu
      have hup : u ≠ p := by
        rintro rfl
        simp [hcp] at h
      exact .inr ⟨by simpa [huj, hup] using h, by simpa [huj] using hu⟩
  have hm : ∀ {w}, Queued s w → Queued (((s.clear j).pass j p k).finish j a) w :=
    (·.mono (fun _ => id) hf)
  have hq : Queued (((s.clear j).pass j p k).finish j a) k :=
    (hm (hc.queued_of_last hs hp ⟨hpp, hh⟩)).next <|
      .inr ⟨by simp, by simp [hn.symm, hpp]⟩
  intro w hw
  have hw : s.waiting w ∨ s.Last w := by
    refine hw.imp id fun hw => ?_
    rcases eq_or_ne w j with rfl | hwj
    · simp [State.Last] at hw
    rcases eq_or_ne w p with rfl | hwp
    · simp [State.Last, hwj] at hw
    · simpa [State.Last, hwj, hwp] using hw
  rcases hc w hw with h | ⟨u, h, hu⟩
  · exact .inl (hm h)
  · obtain rfl := (hs.passing h hu).left
    obtain rfl : k = w := by simpa [hk] using h
    exact .inl hq

-- A request which ends at a node without a parent is of the next node in the queue already.
theorem defer (hc : Chained s) (hp : s.parent j = none) (hk : s.carried j = some k)
    (hd : s.deferred j = none) : Chained ((s.clear j).defer j (some k)) := by
  have hf : ∀ u w, s.Follows u w → ((s.clear j).defer j (some k)).Follows u w := by
    intro u w h
    rcases eq_or_ne u j with rfl | hn
    · left
      simpa [State.Follows, hd, hk, hp] using h
    · simpa [State.Follows, hn] using h
  intro w hw
  rcases hc w hw with h | ⟨u, h, hu⟩
  · exact .inl (h.mono (fun _ => id) hf)
  · refine .inr ⟨u, ?_, hu⟩
    rcases eq_or_ne u j with rfl | hn
    · exact absurd hp hu
    · simpa [hn] using h

theorem finish (hc : Chained s) (hp : s.parent j = none) (hk : s.carried j = none) :
    Chained (s.finish j a) := by
  have hf : ∀ u w, s.Follows u w → (s.finish j a).Follows u w := by
    intro u w h
    rcases eq_or_ne u j with rfl | hn
    · left
      simpa [State.Follows, hk] using h
    · simpa [State.Follows, hn] using h
  intro w hw
  have hw : s.waiting w ∨ s.Last w := by
    refine hw.imp id fun hw => ?_
    rcases eq_or_ne w j with rfl | hn
    · simp [State.Last] at hw
    · simpa [State.Last, hn] using hw
  rcases hc w hw with h | ⟨u, h, hu⟩
  · exact .inl (h.mono (fun _ => id) hf)
  · refine .inr ⟨u, h, ?_⟩
    rcases eq_or_ne u j with rfl | hn
    · exact absurd hp hu
    · simpa [hn] using hu

theorem give (hc : Chained s) (ho : Owned s) (ht : s.token j) (hl : ¬s.Last j)
    (hj : ∀ w, s.Follows j w → w = k) (hw : s'.waiting = s.waiting)
    (hf : ∀ u w, u ≠ j → s.Follows u w → s'.Follows u w) (hl' : ∀ w, s'.Last w → s.Last w)
    (hp : ∀ w, s.Passing w → s'.Passing w) : Chained (s'.give j k) := by
  intro w h
  replace h : s.waiting w ∨ s.Last w := h.imp (hw ▸ State.waiting_of_give ·) (hl' w)
  have hk : (s'.give j k).token k := by simp
  have hf : ∀ u w, u ≠ j → s.Follows u w → (s'.give j k).Follows u w := hf
  refine (hc w h).imp (fun hq => ?_) (hp w)
  refine (hq.tail ho ht hj hf hk).resolve_left ?_
  rintro rfl
  exact h.elim (ho.waiting w · ht) hl

theorem reply (hc : Chained s) (ho : Owned s) (hp : s.parent j = none) (hk : s.carried j = some k)
    (hh : s.held j ≠ none) (ht : s.token j) : Chained ((s.clear j).give j k) := by
  refine hc.give ho ht (fun h => hh h.right) ?_ rfl ?_ (fun _ => id) ?_
  · rintro w (h | ⟨h, -⟩)
    · exact absurd ⟨hp, .inr (by simp [hk])⟩ (ho.not_open (by simp [h]))
    · simpa [hk] using h.symm
  · intro u w hn h
    simpa [State.Follows, hn] using h
  · rintro w ⟨u, h, hu⟩
    refine ⟨u, ?_, hu⟩
    rcases eq_or_ne u j with rfl | hn
    · exact absurd hp hu
    · simpa [hn] using h

theorem grant (hc : Chained s) (ho : Owned s) (hk : s.deferred j = some k) (ht : s.token j) :
    Chained ((s.defer j none).give j k) := by
  have hn := ho.not_open (i := j) (by simp [hk])
  refine hc.give ho ht (fun h => hn h.isOpen) ?_ rfl ?_ (fun _ => id) (fun _ => id)
  · rintro w (h | ⟨h, hp⟩)
    · simpa [hk] using h.symm
    · exact absurd ⟨hp, .inr (by simp [h])⟩ hn
  · intro u w hn h
    simpa [State.Follows, hn] using h

theorem step (hc : Chained s) (hs : Star s c) (ho : Owned s) (h : Move s s') : Chained s' := by
  cases h
  case stay => exact hc
  case request i p hp hh hk _ _ => exact hc.request hs hp hh hk
  case forward j p a k hp _ hk hh hcp => exact hc.forward hs hp hk hh hcp
  case reply j k hp hk ht _ => exact hc.reply ho hp hk (hs.carried _ _ hk) ht
  case defer j k hp hk hw =>
    exact hc.defer hp hk (ho.token_of_open ⟨hp, .inr (by simp [hk])⟩ hw).right
  case finish j a hp _ hk => exact hc.finish hp hk
  case grant j k hk ht _ => exact hc.grant ho hk ht

end Chained

structure WellFormed (s : State α) (c : α) : Prop where
  star     : Star s c
  owned    : Owned s
  recorded : Recorded s
  chained  : Chained s

namespace WellFormed

theorem init [DecidableEq α] (c : α) : WellFormed (init c) c where
  star     := .init c
  owned    := .init c
  recorded := .init c
  chained  := .init c

theorem step [DecidableEq α] (hw : WellFormed s c) (h : Move s s') : WellFormed s' c where
  star     := hw.star.step h
  owned    := hw.owned.step hw.star h
  recorded := hw.recorded.step hw.owned h
  chained  := hw.chained.step hw.star hw.owned h

-- When the owner of the token has no request nobody waits, up to the requests on their way.
theorem not_waiting (hw : WellFormed s c) (ht : s.token t) (hn : ∀ w, ¬s.Follows t w)
    (hp : ∀ w, ¬s.Passing w) (w : α) : ¬s.waiting w := by
  intro h
  have hq : ∀ {w}, Queued s w → w = t := by
    intro w hq
    induction hq
    case owner h     => exact hw.owned.eq h ht
    case next _ h hi => exact absurd (hi ▸ h) (hn _)
  obtain rfl := hq <| (hw.chained w (.inl h)).resolve_right (hp w)
  exact hw.owned.waiting w h ht

end WellFormed

end PathReversal
