import Mathlib.Logic.Function.Basic

open Function

-- What the step of one thread does to a family of local states: `f` gives the local state of each
-- thread, and the step replaces the one of thread `i` by `p`.
namespace Threads

variable {ι α : Type*} [DecidableEq ι] {f : ι → α} {P : α → Prop} {i j : ι} {p : α}

theorem update_iff (h : P p ↔ P (f i)) (j : ι) : P (update f i p j) ↔ P (f j) := by
  by_cases hj : j = i
  case pos => simpa [hj]
  case neg => simp [hj]

theorem update_congr {β : Type*} {g : α → β} (h : g p = g (f i)) (j : ι) :
    g (update f i p j) = g (f j) := by
  by_cases hj : j = i
  case pos => simpa [hj]
  case neg => simp [hj]

-- The picture of the local states changes with them.
theorem map_update {β : Type*} {g : α → β} {a : ι → β} (h : ∀ j, a j = g (f j)) (j : ι) :
    update a i (g p) j = g (update f i p j) := by
  by_cases hj : j = i
  case pos => simp [hj]
  case neg => simp [hj, h]

theorem update_iff_eq (hp : P p) (h : ∀ j ≠ i, ¬P (f j)) (j : ι) :
    P (update f i p j) ↔ j = i := by
  by_cases hj : j = i
  case pos => simpa [hj]
  case neg => simpa [hj] using h j hj

theorem forall_update (hp : P p) (h : ∀ j ≠ i, P (f j)) (j : ι) : P (update f i p j) := by
  by_cases hj : j = i
  case pos => simpa [hj]
  case neg => simpa [hj] using h j hj

-- What some thread does, if the threads other than `i` do not do it.
theorem exists_update_iff {R : ι → α → Prop} (h : ∀ j ≠ i, ¬R j (f j)) :
    (∃ j, R j (update f i p j)) ↔ R i p := by
  constructor
  case mpr => exact fun hp => ⟨i, by simpa⟩
  case mp =>
    intro ⟨j, hj⟩
    by_cases hi : j = i
    case pos =>
      subst hi
      simpa using hj
    case neg => exact absurd (by simpa [hi] using hj) (h j hi)

theorem exists_update_congr {R : ι → α → Prop} (h : R i p ↔ R i (f i)) :
    (∃ j, R j (update f i p j)) ↔ ∃ j, R j (f j) := by
  apply exists_congr
  intro j
  by_cases hj : j = i
  case pos => simpa [hj]
  case neg => simp [hj]

theorem not_update (hp : ¬P p) (h : ∀ j ≠ i, ¬P (f j)) (j : ι) : ¬P (update f i p j) :=
  forall_update (P := (¬P ·)) hp h j

-- A lock protects the local states in `P`: no two threads are there at once, and the lock is taken
-- while one of them is.
structure Exclusive (f : ι → α) (P : α → Prop) (locked : Prop) : Prop where
  unique : ∀ {i j}, P (f i) → P (f j) → i = j
  locked : ∀ {i}, P (f i) → locked

namespace Exclusive

variable {l m : Prop}

theorem keep (h : Exclusive f P l) (hp : P p ↔ P (f i)) : Exclusive (update f i p) P l where
  unique {j k} hj hk := h.unique ((update_iff hp j).mp hj) ((update_iff hp k).mp hk)
  locked {j} hj      := h.locked <| (update_iff hp j).mp hj

theorem take (h : Exclusive f P l) (hl : ¬l) (hm : m) : Exclusive (update f i p) P m where
  locked _ := hm
  unique {j k} hj hk := by
    have eq_of {j : ι} (hj : P (update f i p j)) : j = i := by
      by_contra hn
      exact hl <| h.locked (i := j) (by simpa [hn] using hj)
    exact (eq_of hj).trans (eq_of hk).symm

theorem not_of_free (h : Exclusive f P l) (hi : P (f i)) (hp : ¬P p) (j : ι) :
    ¬P (update f i p j) := by
  by_cases hj : j = i
  case pos => simpa [hj]
  case neg =>
    intro hn
    exact hj <| h.unique (by simpa [hj] using hn) hi

theorem free (h : Exclusive f P l) (hi : P (f i)) (hp : ¬P p) :
    Exclusive (update f i p) P m where
  unique hj _ := absurd hj <| h.not_of_free hi hp _
  locked hj   := absurd hj <| h.not_of_free hi hp _

-- A local state outside of `P` never gets in the way.
theorem drop (h : Exclusive f P l) (hp : ¬P p) : Exclusive (update f i p) P l := by
  by_cases hi : P (f i)
  case pos => exact h.free hi hp
  case neg => exact h.keep (by simp [hi, hp])

omit [DecidableEq ι] in
theorem not_of_ne (h : Exclusive f P l) (hi : P (f i)) (hj : j ≠ i) : ¬P (f j) :=
  fun hn => hj (h.unique hn hi)

end Exclusive

-- A lock which is taken only while a thread is in `P`.
structure Owned (f : ι → α) (P : α → Prop) (taken : Prop) : Prop extends Exclusive f P taken where
  owner : taken → ∃ i, P (f i)

namespace Owned

variable {l m : Prop}

theorem keep (h : Owned f P l) (hp : P p ↔ P (f i)) : Owned (update f i p) P l where
  toExclusive := h.toExclusive.keep hp
  owner hl    := (exists_update_congr (R := fun _ => P) hp).mpr (h.owner hl)

theorem take (h : Owned f P l) (hl : ¬l) (hp : P p) (hm : m) : Owned (update f i p) P m where
  toExclusive := h.toExclusive.take hl hm
  owner _     := ⟨i, by simpa⟩

theorem free (h : Owned f P l) (hi : P (f i)) (hp : ¬P p) (hm : ¬m) :
    Owned (update f i p) P m where
  toExclusive := h.toExclusive.free hi hp
  owner hm'   := absurd hm' hm

omit [DecidableEq ι] in
theorem congr {g : ι → α} (h : Owned f P l) (hg : ∀ i, P (g i) ↔ P (f i)) : Owned g P l where
  unique hi hj := h.unique ((hg _).mp hi) ((hg _).mp hj)
  locked hi    := h.locked ((hg _).mp hi)
  owner hl     := have ⟨i, hi⟩ := h.owner hl; ⟨i, (hg i).mpr hi⟩

omit [DecidableEq ι] in
theorem not_of_free (h : Owned f P l) (hl : ¬l) (i : ι) : ¬P (f i) :=
  fun hi => hl (h.locked hi)

end Owned

end Threads

namespace Threads

variable {ι α : Type*} {f : ι → α} {W C : α → Prop} {c m : Prop} {i : ι} {p : α}

-- While `c` holds, each thread in `W` has a thread in `C` which is responsible for it. In `W` are
-- the sleepers, and in `C` are those who will wake one of them.
def Responsible (f : ι → α) (W C : α → Prop) (c : Prop) : Prop :=
  c → ∀ i, W (f i) → ∃ j, C (f j)

namespace Responsible

theorem of_false (h : ¬c) : Responsible f W C c :=
  fun hc => absurd hc h

theorem of_none (h : ∀ i, ¬W (f i)) : Responsible f W C c :=
  fun _ i hi => absurd hi (h i)

variable [DecidableEq ι]

theorem of_mem (hp : C p) : Responsible (update f i p) W C c :=
  fun _ _ _ => ⟨i, by simpa⟩

-- The thread does not begin to sleep, and it stays responsible if it was.
theorem keep (h : Responsible f W C c) (hm : m → c) (hw : W p → W (f i)) (hc : C (f i) → C p) :
    Responsible (update f i p) W C m := by
  intro hm' j hj
  have hj : W (f j) := by
    by_cases hji : j = i
    case pos => exact hji ▸ hw (by simpa [hji] using hj)
    case neg => simpa [hji] using hj
  have ⟨k, hk⟩ := h (hm hm') j hj
  refine ⟨k, ?_⟩
  by_cases hki : k = i
  case pos => simpa [hki] using hc (hki ▸ hk)
  case neg => simpa [hki] using hk

end Responsible

end Threads
