import Concurrencia.Summary.Basic
import Mathlib.Tactic.NormNum
import Mathlib.Tactic.Ring

open Regex

namespace Summary

section Digits

variable {n t : ℕ} {c : Char} {a b : List Char}

theorem isDigit_digitChar (h : n < 10) : (Nat.digitChar n).isDigit = true :=
  Nat.isDigit_of_mem_toDigits (b := 10) (n := n) (by decide) (by decide) <| by
    rw [Nat.toDigits_of_lt_base h]
    exact List.mem_singleton_self _

theorem isDigit_of_mem_twoDigits (h : n < 100) (hc : c ∈ twoDigits n) : c.isDigit = true := by
  simp only [twoDigits, List.mem_cons, List.not_mem_nil, or_false] at hc
  obtain rfl | rfl := hc
  · exact isDigit_digitChar (by omega)
  · exact isDigit_digitChar (Nat.mod_lt n (by decide))

theorem ofDigitChars_twoDigits (h : n < 100) : Nat.ofDigitChars 10 (twoDigits n) 0 = n := by
  rw [twoDigits, Nat.ofDigitChars_cons_digitChar_of_lt_ten (by omega),
    Nat.ofDigitChars_cons_digitChar_of_lt_ten (Nat.mod_lt n (by decide)), Nat.ofDigitChars_nil]
  omega

theorem isDigit_of_mem_toDigits (hc : c ∈ Nat.toDigits 10 n) : c.isDigit = true :=
  Nat.isDigit_of_mem_toDigits (by decide) (by decide) hc

theorem isNumeral_of_isDigit (h : c.isDigit = true) : isNumeral c = true := by
  simp [isNumeral, h]

theorem isNumeral_of_mem (ha : ∀ c ∈ a, c.isDigit = true) (hb : ∀ c ∈ b, c.isDigit = true)
    (hc : c ∈ a ++ '.' :: b) : isNumeral c = true := by
  obtain hc | hc := List.mem_append.mp hc
  · exact isNumeral_of_isDigit (ha c hc)
  · obtain rfl | hc := List.mem_cons.mp hc
    · rfl
    · exact isNumeral_of_isDigit (hb c hc)

theorem decimal_append (hn : a ≠ []) (ha : ∀ c ∈ a, c.isDigit = true)
    (hb : ∀ c ∈ b, c.isDigit = true) : decimal (a ++ '.' :: b) =
      some ((Nat.ofDigitChars 10 a 0 : ℚ) + Nat.ofDigitChars 10 b 0 / 10 ^ b.length) := by
  have ht : (a ++ '.' :: b).takeWhile Char.isDigit = a := by
    rw [List.takeWhile_append_of_pos ha]
    exact List.append_nil a
  have hd : (a ++ '.' :: b).dropWhile Char.isDigit = '.' :: b := by
    rw [List.dropWhile_append_of_pos ha]
    rfl
  rw [decimal, ht, hd]
  exact if_pos ⟨rfl, List.all_eq_true.mpr hb, .inl hn⟩

theorem decimal_twoDigits (hn : a ≠ []) (ha : ∀ c ∈ a, c.isDigit = true) (hb : n < 100) :
    decimal (a ++ '.' :: twoDigits n) = some ((Nat.ofDigitChars 10 a 0 : ℚ) + n / 100) := by
  rw [decimal_append hn ha fun _ => isDigit_of_mem_twoDigits hb, ofDigitChars_twoDigits hb]
  norm_num [twoDigits]

theorem hundredths : ((t / 100 : ℕ) : ℚ) + ((t % 100 : ℕ) : ℚ) / 100 = t / 100 := by
  have h : (t : ℚ) = 100 * (t / 100 : ℕ) + (t % 100 : ℕ) := by
    exact_mod_cast (Nat.div_add_mod t 100).symm
  rw [h]
  ring

theorem decimal_seconds : decimal (seconds t) = some (t / 100 : ℚ) := by
  rw [seconds, decimal_twoDigits Nat.toDigits_ne_nil (fun _ => isDigit_of_mem_toDigits)
    (Nat.mod_lt t (by decide)), Nat.ofDigitChars_ten_toDigits, hundredths]

theorem isNumeral_of_mem_seconds (hc : c ∈ seconds t) : isNumeral c = true :=
  isNumeral_of_mem (fun _ => isDigit_of_mem_toDigits)
    (fun _ => isDigit_of_mem_twoDigits (Nat.mod_lt t (by decide))) hc

theorem seconds_ne_nil : seconds t ≠ [] :=
  List.append_ne_nil_of_right_ne_nil _ (List.cons_ne_nil _ _)

end Digits

section Match

variable {real user sys n : ℕ} {g : Groups} {k : List Char → Groups → Option Groups}
variable {c d : Char} {s t : List Char}

theorem not_isDigit_of_isBlank (h : isBlank c = true) : c.isDigit = false := by
  obtain rfl : c = ' ' := eq_of_beq h
  rfl

theorem not_isNumeral_of_isBlank (h : isBlank c = true) : isNumeral c = false := by
  obtain rfl : c = ' ' := eq_of_beq h
  rfl

theorem not_isBlank_of_isDigit (h : c.isDigit = true) : isBlank c = false := by
  by_contra hb
  have := not_isDigit_of_isBlank (Bool.not_eq_false _ ▸ hb)
  simp [h] at this

theorem exists_toDigits : ∃ d u, Nat.toDigits 10 n = d :: u ∧ d.isDigit = true := by
  obtain ⟨d, u, h⟩ := List.exists_cons_of_ne_nil (Nat.toDigits_ne_nil (n := n) (b := 10))
  exact ⟨d, u, h, isDigit_of_mem_toDigits (h ▸ List.mem_cons_self)⟩

theorem blank : ∀ c ∈ " ".toList, isBlank c = true :=
  List.all_eq_true.mp rfl

theorem spaces : ∀ c ∈ "  ".toList, isSpace c = true :=
  List.all_eq_true.mp rfl

-- The parts of the pattern from `\d:` on, and after the first number.
def afterReal : List Regex :=
  [word ",", plus isBlank, word "user", plus isBlank, numeral, word ",", plus isBlank, word "sys ",
    numeral]

def fromMinute : List Regex :=
  [.char Char.isDigit, word ":", numeral] ++ afterReal

theorem exec_gnuPattern (hd : d.isDigit = true) :
    gnuPattern.exec g k ("  times: real ".toList ++ d :: s) =
    (concat fromMinute).exec g k (d :: s) := by
  have hs : "  times: real ".toList ++ d :: s = "  ".toList ++ ("times:".toList ++
      (" ".toList ++ ("real".toList ++ (" ".toList ++ d :: s)))) := rfl
  have h₁ : Stops isSpace "times:".toList := rfl
  have h₂ : Stops isBlank "real".toList := rfl
  rw [hs]
  refine (exec_star_lit h₁ spaces).trans ?_
  refine (exec_plus_lit h₂ blank (by decide)).trans ?_
  refine exec_plus_concat (.char fun c => not_isDigit_of_isBlank) blank ?_ (by decide)
  intro c hc
  exact Option.some.inj hc ▸ not_isBlank_of_isDigit hd

theorem exec_afterReal :
    (concat afterReal).exec g (fun _ g => some g)
      (", user ".toList ++ seconds user ++ ", sys ".toList ++ seconds sys ++ ['\n']) =
    some (g ++ [seconds user] ++ [seconds sys]) := by
  have hs : ", user ".toList ++ seconds user ++ ", sys ".toList ++ seconds sys ++ ['\n'] =
      ",".toList ++ (" ".toList ++ ("user".toList ++ (" ".toList ++ (seconds user ++
        (",".toList ++ (" ".toList ++ ("sys ".toList ++ (seconds sys ++ ['\n'])))))))) := by
    simp only [List.append_assoc]
    rfl
  have h₁ : Stops isBlank "user".toList := rfl
  have h₂ : Stops isNumeral ",".toList := rfl
  have h₃ : Stops isBlank "sys ".toList := rfl
  have hu : ∀ c, (seconds user ++ (",".toList ++ (" ".toList ++ ("sys ".toList ++
      (seconds sys ++ ['\n']))))).head? = some c → isBlank c = false := by
    intro c hc
    obtain ⟨d, u, h, hd⟩ := exists_toDigits (n := user / 100)
    rw [seconds, h] at hc
    exact Option.some.inj hc ▸ not_isBlank_of_isDigit hd
  rw [hs]
  refine exec_lit_concat.trans ?_
  refine (exec_plus_lit h₁ blank (by decide)).trans ?_
  refine (exec_plus_concat (.group (.plus fun _ => not_isNumeral_of_isBlank)) blank hu
    (by decide)).trans ?_
  refine (exec_group_plus_lit h₂ (fun _ => isNumeral_of_mem_seconds) seconds_ne_nil).trans ?_
  refine (exec_plus_lit h₃ blank (by decide)).trans ?_
  refine exec_group_plus (k := fun s g => (concat []).exec g (fun _ g => some g) s)
    (fun _ => isNumeral_of_mem_seconds) seconds_ne_nil ?_ fun _ _ _ _ => rfl
  intro c hc
  exact Option.some.inj hc ▸ rfl

-- A number with one digit for the minutes, or for the hours.
theorem exec_fromMinute (hd : d.isDigit = true) (hn : t ≠ []) (ht : ∀ c ∈ t, isNumeral c = true)
    (hs : ∀ c, s.head? = some c → isNumeral c = false) :
    (concat fromMinute).exec g k (d :: ':' :: (t ++ s)) =
    (concat afterReal).exec (g ++ [t]) k s := by
  have h : Stops isNumeral ",".toList := rfl
  refine (exec_char_concat hd).trans ?_
  refine (exec_lit_concat (w := ":".toList)).trans ?_
  exact exec_group_plus_concat h.rejects ht hs hn

-- The third part of a time with hours is not expected.
theorem exec_hours (hd : d.isDigit = true) (hn : n < 100) :
    (concat fromMinute).exec g k (d :: ':' :: (twoDigits n ++ ':' :: s)) = none := by
  refine (exec_fromMinute hd (List.cons_ne_nil _ _) ?_ ?_).trans (exec_lit_concat_of_ne (by decide))
  · exact fun c hc => isNumeral_of_isDigit (isDigit_of_mem_twoDigits hn hc)
  · exact fun c hc => Option.some.inj hc ▸ rfl

-- Neither is a second digit.
theorem exec_digits (hd : d.isDigit = true) (hc : c.isDigit = true) :
    (concat fromMinute).exec g k (d :: c :: s) = none := by
  refine (exec_char_concat hd).trans (exec_lit_concat_of_ne ?_)
  rintro rfl
  exact absurd hc (by decide)

theorem exists_toDigits_two (h : 10 ≤ n) :
    ∃ d c u, Nat.toDigits 10 n = d :: c :: u ∧ d.isDigit = true ∧ c.isDigit = true := by
  obtain ⟨d, u, hu, hd⟩ := exists_toDigits (n := n / 10)
  have hx : (Nat.digitChar (n % 10)).isDigit = true := isDigit_digitChar (Nat.mod_lt n (by decide))
  rw [Nat.toDigits_of_base_le (by decide) h, hu]
  cases u
  case nil      => exact ⟨d, _, [], rfl, hd, hx⟩
  case cons c u =>
    exact ⟨d, c, _, rfl, hd, isDigit_of_mem_toDigits (n := n / 10) (hu ▸ by simp)⟩

theorem timesLine_eq : timesLine real user sys = "  times: real ".toList ++ (elapsed real ++
    (", user ".toList ++ seconds user ++ ", sys ".toList ++ seconds sys ++ ['\n'])) := by
  have h (a b c d e f g : List Char) :
      a ++ b ++ c ++ d ++ e ++ f ++ g = a ++ (b ++ (c ++ d ++ e ++ f ++ g)) := by
    simp only [List.append_assoc]
  exact h ..

theorem bashPattern_none : bashPattern.matchGroups (timesLine real user sys) = none := by
  have h : (word "real").Rejects isSpace := Stops.rejects (w := "real".toList) rfl
  have hs (s : List Char) : "  times: real ".toList ++ s =
      "  ".toList ++ 't' :: ("imes: real ".toList ++ s) := rfl
  rw [timesLine_eq, hs, matchGroups, bashPattern, exec_star_concat h spaces]
  · exact exec_lit_concat_of_ne (by decide)
  · exact fun c hc => Option.some.inj hc ▸ rfl

theorem gnuPattern_of_lt (h : real < 60000) : gnuPattern.matchGroups (timesLine real user sys) =
    some [twoDigits (real / 100 % 60) ++ '.' :: twoDigits (real % 100), seconds user,
      seconds sys] := by
  have hd : (Nat.digitChar (real / 6000)).isDigit = true := isDigit_digitChar (by omega)
  have he : elapsed real = Nat.digitChar (real / 6000) :: ':' ::
      (twoDigits (real / 100 % 60) ++ '.' :: twoDigits (real % 100)) := by
    rw [elapsed, if_pos (by omega), Nat.toDigits_of_lt_base (by omega)]
    rfl
  have ht : ∀ c ∈ twoDigits (real / 100 % 60) ++ '.' :: twoDigits (real % 100),
      isNumeral c = true := by
    intro c hc
    refine isNumeral_of_mem ?_ ?_ hc
    · exact fun c hc => isDigit_of_mem_twoDigits (by omega) hc
    · exact fun c hc => isDigit_of_mem_twoDigits (by omega) hc
  rw [timesLine_eq, he]
  refine (exec_gnuPattern hd).trans ?_
  refine (exec_fromMinute hd (List.cons_ne_nil _ _) ht ?_).trans exec_afterReal
  exact fun c hc => Option.some.inj hc ▸ rfl

theorem gnuPattern_of_le (h : 60000 ≤ real) :
    gnuPattern.matchGroups (timesLine real user sys) = none := by
  have two {n : ℕ} {s : List Char} (h : 10 ≤ n) (he : elapsed real = Nat.toDigits 10 n ++ s) :
      gnuPattern.matchGroups (timesLine real user sys) = none := by
    obtain ⟨d, c, u, hn, hd, hc⟩ := exists_toDigits_two h
    rw [timesLine_eq, he, hn]
    exact (exec_gnuPattern hd).trans (exec_digits hd hc)
  by_cases hm : real < 360000
  case pos =>
    have he := elapsed.eq_1 real
    rw [if_pos hm, List.append_assoc] at he
    exact two (by omega) he
  case neg =>
    by_cases hh : real / 360000 < 10
    case neg =>
      have he := elapsed.eq_1 real
      rw [if_neg hm, List.append_assoc] at he
      exact two (by omega) he
    case pos =>
      have hd : (Nat.digitChar (real / 360000)).isDigit = true := isDigit_digitChar hh
      rw [timesLine_eq, elapsed, if_neg hm, Nat.toDigits_of_lt_base hh]
      exact (exec_gnuPattern hd).trans (exec_hours hd (by omega))

end Match

section Times

variable {α : Type*} {round : ℚ → α} {real user sys : ℕ}

theorem float_of_decimal {t : List Char} {x : ℚ} (h : decimal t = some x) :
    float round t = .ok (round x) := by
  rw [float, h]

-- The minutes are dropped.
theorem times_of_lt (h : real < 60000) : times round (timesLine real user sys) =
    .ok (some [round ((real % 6000 : ℕ) / 100 : ℚ), round (user / 100), round (sys / 100)]) := by
  have hr : decimal (twoDigits (real / 100 % 60) ++ '.' :: twoDigits (real % 100)) =
      some ((real % 6000 : ℕ) / 100 : ℚ) := by
    have hd : ∀ c ∈ twoDigits (real / 100 % 60), c.isDigit = true :=
      fun c hc => isDigit_of_mem_twoDigits (by omega) hc
    have hn : twoDigits (real / 100 % 60) ≠ [] := List.cons_ne_nil _ _
    have h₁ : real / 100 % 60 = real % 6000 / 100 := by omega
    have h₂ : real % 100 = real % 6000 % 100 := by omega
    rw [decimal_twoDigits hn hd (Nat.mod_lt real (by decide)), ofDigitChars_twoDigits (by omega),
      h₁, h₂, hundredths]
  rw [times, gnuPattern_of_lt h]
  simp [float_of_decimal hr, float_of_decimal decimal_seconds]
  rfl

theorem times_of_le (h : 60000 ≤ real) :
    times round (timesLine real user sys) = .ok none := by
  rw [times, gnuPattern_of_le h, bashPattern_none]
  rfl

end Times

-- If the type of the numbers distinguishes the hundredths of a second below ten minutes, then the
-- times are recovered for the runs which have taken less than a minute, and for these only.
theorem times_timesLine {α : Type*} (round : ℚ → α)
    (hr : ∀ x y : ℕ, x < 60000 → y < 60000 → round (x / 100) = round (y / 100) → x = y)
    (real user sys : ℕ) :
    times round (timesLine real user sys) =
      .ok (some [round (real / 100), round (user / 100), round (sys / 100)]) ↔ real < 6000 := by
  by_cases hl : real < 60000
  case neg =>
    refine iff_of_false ?_ (by omega)
    rw [times_of_le (Nat.le_of_not_lt hl)]
    intro h
    cases h
  case pos =>
    rw [times_of_lt hl]
    constructor
    case mpr =>
      intro h
      rw [Nat.mod_eq_of_lt h]
    case mp =>
      intro h
      have h : round ((real % 6000 : ℕ) / 100 : ℚ) = round (real / 100) := by
        simpa using h
      have := hr _ _ (by omega) hl h
      omega

theorem times_timesLine_exact :
    times id (timesLine 125 50 25) =
      .ok (some [((125 : ℕ) / 100 : ℚ), ((50 : ℕ) / 100 : ℚ), ((25 : ℕ) / 100 : ℚ)]) ↔
    125 < 6000 :=
  times_timesLine id (fun _ _ _ _ h => by simpa using h) 125 50 25

-- The elapsed time 1:23.45 is read as 23.45.
theorem minutes_dropped :
    ¬∀ real user sys : ℕ, times id (timesLine real user sys) =
      .ok (some [(real / 100 : ℚ), (user / 100 : ℚ), (sys / 100 : ℚ)]) := by
  intro h
  have h := h 8345 50 25
  rw [times_of_lt (by decide)] at h
  norm_num at h

end Summary
