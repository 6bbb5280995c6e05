import Mathlib.Logic.Function.Basic

open Function

-- Each of the things which `P` tells of is in one place, and no other thing is in any place.
structure Placement {ι β : Type*} (f : ι → Option β) (P : β → Prop) : Prop where
  sound    : ∀ x b, f x = some b → P b
  complete : ∀ b, P b → ∃ x, f x = some b
  unique   : ∀ x y b, f x = some b → f y = some b → x = y

namespace Placement

variable {ι β : Type*} {f : ι → Option β} {P : β → Prop} {x y : ι} {b : β}

theorem existsUnique (h : Placement f P) (hb : P b) : ∃! x, f x = some b :=
  have ⟨x, hx⟩ := h.complete b hb
  ⟨x, hx, fun y hy => h.unique y x b hy hx⟩

theorem not_placed (h : Placement f P) (hb : ¬P b) (x : ι) : f x ≠ some b :=
  fun hx => hb (h.sound x b hx)

variable [DecidableEq ι] [DecidableEq β]

theorem put (h : Placement f P) (hx : f x = none) (hb : ¬P b) :
    Placement (update f x (some b)) (update P b True) where
  sound y d hy := by
    rcases eq_or_ne d b with rfl | hd
    · simp
    rcases eq_or_ne y x with rfl | hn
    · exact absurd (by simpa using hy) hd.symm
    · simpa [hd] using h.sound y d (by simpa [hn] using hy)
  complete d hd := by
    rcases eq_or_ne d b with rfl | hn
    · exact ⟨x, by simp⟩
    · have ⟨y, hy⟩ := h.complete d (by simpa [hn] using hd)
      refine ⟨y, ?_⟩
      rcases eq_or_ne y x with rfl | hn'
      · simp [hx] at hy
      · simpa [hn'] using hy
  unique y z d hy hz := by
    have hb := h.not_placed hb
    have hu := h.unique y z d
    grind [update_apply]

theorem take (h : Placement f P) (hx : f x = some b) :
    Placement (update f x none) (update P b False) where
  sound y d hy := by
    rcases eq_or_ne y x with rfl | hn
    · simp at hy
    · have hy : f y = some d := by simpa [hn] using hy
      have hn' : d ≠ b := by
        rintro rfl
        exact hn (h.unique y x d hy hx)
      simpa [hn'] using h.sound y d hy
  complete d hd := by
    rcases eq_or_ne d b with rfl | hn
    · simp at hd
    · have ⟨y, hy⟩ := h.complete d (by simpa [hn] using hd)
      refine ⟨y, ?_⟩
      rcases eq_or_ne y x with rfl | hn' <;> simp_all
  unique y z d hy hz := by
    have hu := h.unique y z d
    grind [update_apply]

theorem move (h : Placement f P) (hx : f x = some b) (hy : f y = none) :
    Placement (update (update f x none) y (some b)) P := by
  have hn : y ≠ x := by
    rintro rfl
    simp [hx] at hy
  have hb : update P b True = P := update_eq_self_iff.mpr (by simp [h.sound x b hx])
  simpa [hb] using (h.take hx).put (x := y) (b := b) (by simpa [hn] using hy) (by simp)

end Placement
