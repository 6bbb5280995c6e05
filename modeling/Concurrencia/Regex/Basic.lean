import Mathlib.Data.List.Basic

-- Regular expressions which are matched by backtracking: a repetition takes as many characters as
-- possible first. They have no alternatives, and only single characters are repeated.
inductive Regex
  | empty
  | char (p : Char → Bool)
  | seq (r₁ r₂ : Regex)
  | star (p : Char → Bool)
  | group (r : Regex)

namespace Regex

def plus (p : Char → Bool) : Regex :=
  .seq (.char p) (.star p)

def concat (rs : List Regex) : Regex :=
  rs.foldr .seq .empty

def lit (w : List Char) : Regex :=
  concat <| w.map fun c => .char (· == c)

abbrev Groups := List (List Char)

-- The longest repetition for which the rest matches.
def greedy (p : Char → Bool) (k : List Char → Option Groups) : List Char → Option Groups
  | []     => k []
  | c :: s => if p c then greedy p k s <|> k (c :: s) else k (c :: s)

-- Matches the beginning of the text, and then goes on with the rest and with the groups so far.
def exec : Regex → Groups → (List Char → Groups → Option Groups) → List Char → Option Groups
  | empty,     g, k, s      => k s g
  | char p,    g, k, c :: s => if p c then k s g else none
  | char _,    _, _, []     => none
  | seq r₁ r₂, g, k, s      => r₁.exec g (fun s g => r₂.exec g k s) s
  | star p,    g, k, s      => greedy p (k · g) s
  | group r,   g, k, s      => r.exec g (fun t g => k t (g ++ [s.take (s.length - t.length)])) s

-- The groups of the match at the beginning of the text.
def matchGroups (r : Regex) (text : List Char) : Option Groups :=
  r.exec [] (fun _ g => some g) text

-- The expression does not match a text which begins with such a character.
def Rejects (r : Regex) (p : Char → Bool) : Prop :=
  ∀ g k c s, p c = true → r.exec g k (c :: s) = none

-- The word begins with a character which is not in the class.
def Stops (p : Char → Bool) (w : List Char) : Prop :=
  w.head?.any (!p ·) = true

variable {r : Regex} {rs : List Regex} {p q : Char → Bool} {c d : Char} {s t w : List Char}
variable {g : Groups} {k : List Char → Groups → Option Groups}

section Lit

theorem exec_lit : (lit w).exec g k (w ++ s) = k s g := by
  induction w
  case nil         => rfl
  case cons c w hi =>
    rw [← hi]
    exact if_pos (beq_self_eq_true c)

theorem exec_lit_of_ne (h : c ≠ d) : (lit (d :: w)).exec g k (c :: s) = none :=
  if_neg (mt eq_of_beq h)

theorem exec_lit_concat :
    (concat (lit w :: rs)).exec g k (w ++ s) = (concat rs).exec g k s :=
  exec_lit (k := fun s g => (concat rs).exec g k s)

theorem exec_lit_concat_of_ne (h : c ≠ d) :
    (concat (lit (d :: w) :: rs)).exec g k (c :: s) = none :=
  exec_lit_of_ne (k := fun s g => (concat rs).exec g k s) h

theorem exec_char_concat (h : p c = true) :
    (concat (.char p :: rs)).exec g k (c :: s) = (concat rs).exec g k s :=
  if_pos h

end Lit

namespace Rejects

theorem char (h : ∀ c, p c = true → q c = false) : (Regex.char q).Rejects p :=
  fun _ _ c _ hc => if_neg (h c hc ▸ Bool.false_ne_true)

theorem lit (h : p d = false) : (Regex.lit (d :: w)).Rejects p := by
  intro g k c s hc
  apply exec_lit_of_ne
  rintro rfl
  exact absurd hc (h ▸ Bool.false_ne_true)

theorem plus (h : ∀ c, p c = true → q c = false) : (Regex.plus q).Rejects p :=
  fun g k c s hc => char h g (fun s g => (Regex.star q).exec g k s) c s hc

theorem group (h : r.Rejects p) : (Regex.group r).Rejects p :=
  fun g _ c s hc => h g _ c s hc

theorem concat (h : r.Rejects p) : (Regex.concat (r :: rs)).Rejects p :=
  fun g _ c s hc => h g _ c s hc

end Rejects

section Repetition

-- A repetition does not give anything back if the rest does not match then, or if it matches
-- anyway.
theorem greedy_append {k : List Char → Option Groups} (ht : ∀ c ∈ t, p c = true)
    (hs : ∀ c, s.head? = some c → p c = false)
    (hk : ∀ c u, p c = true → (k s <|> k (c :: u)) = k s) : greedy p k (t ++ s) = k s := by
  induction t
  case nil =>
    cases s
    case nil      => rfl
    case cons c s => exact if_neg (hs c rfl ▸ Bool.false_ne_true)
  case cons c t hi =>
    have hc : p c = true := ht c List.mem_cons_self
    have hi := hi fun d hd => ht d (List.mem_cons_of_mem c hd)
    rw [List.cons_append, greedy, if_pos hc, hi]
    exact hk c (t ++ s) hc

theorem exec_plus (ht : ∀ c ∈ t, p c = true) (hn : t ≠ [])
    (hs : ∀ c, s.head? = some c → p c = false)
    (hk : ∀ c u, p c = true → (k s g <|> k (c :: u) g) = k s g) :
    (plus p).exec g k (t ++ s) = k s g := by
  cases t
  case nil => exact absurd rfl hn
  case cons c t =>
    have hc : p c = true := ht c List.mem_cons_self
    have hg := greedy_append (k := (k · g)) (fun d hd => ht d (List.mem_cons_of_mem c hd)) hs hk
    rw [← hg]
    exact if_pos hc

theorem exec_group_plus (ht : ∀ c ∈ t, p c = true) (hn : t ≠ [])
    (hs : ∀ c, s.head? = some c → p c = false)
    (hk : ∀ c u g', p c = true → (k s (g ++ [t]) <|> k (c :: u) g') = k s (g ++ [t])) :
    (group (plus p)).exec g k (t ++ s) = k s (g ++ [t]) := by
  have hl : (t ++ s).take ((t ++ s).length - s.length) = t := by simp
  let k' := fun u g => k u (g ++ [(t ++ s).take ((t ++ s).length - u.length)])
  have h : (plus p).exec g k' (t ++ s) = k' s g := by
    refine exec_plus ht hn hs fun c u hc => ?_
    simp only [k', hl]
    exact hk c u _ hc
  simp only [k', hl] at h
  exact h

variable (hr : r.Rejects p)
include hr

theorem orElse_of_rejects {g' : Groups} (hc : p c = true) :
    ((concat (r :: rs)).exec g k s <|> (concat (r :: rs)).exec g' k (c :: t)) =
    (concat (r :: rs)).exec g k s := by
  simp [Rejects.concat hr g' k c t hc]

variable (ht : ∀ c ∈ t, p c = true) (hs : ∀ c, s.head? = some c → p c = false)
include ht hs

theorem exec_star_concat : (concat (.star p :: r :: rs)).exec g k (t ++ s) =
    (concat (r :: rs)).exec g k s :=
  greedy_append (k := (concat (r :: rs)).exec g k) ht hs fun _ _ hc =>
    orElse_of_rejects hr hc

theorem exec_plus_concat (hn : t ≠ []) : (concat (plus p :: r :: rs)).exec g k (t ++ s) =
    (concat (r :: rs)).exec g k s :=
  exec_plus (k := fun s g => (concat (r :: rs)).exec g k s) ht hn hs fun _ _ hc =>
    orElse_of_rejects hr hc

theorem exec_group_plus_concat (hn : t ≠ []) :
    (concat (.group (plus p) :: r :: rs)).exec g k (t ++ s) =
    (concat (r :: rs)).exec (g ++ [t]) k s :=
  exec_group_plus (k := fun s g => (concat (r :: rs)).exec g k s) ht hn hs fun _ _ _ hc =>
    orElse_of_rejects hr hc

end Repetition

namespace Stops

variable (h : Stops p w)
include h

theorem exists_cons : ∃ d u, w = d :: u ∧ p d = false := by
  cases w
  case nil      => cases h
  case cons d u => exact ⟨d, u, rfl, by simpa [Stops] using h⟩

theorem head : ∀ c, (w ++ s).head? = some c → p c = false := by
  obtain ⟨d, u, rfl, hd⟩ := h.exists_cons
  intro c hc
  exact Option.some.inj hc ▸ hd

theorem rejects : (Regex.lit w).Rejects p := by
  obtain ⟨d, u, rfl, hd⟩ := h.exists_cons
  exact .lit hd

end Stops

section Words

variable (h : Stops p w) (ht : ∀ c ∈ t, p c = true)
include h ht

theorem exec_star_lit : (concat (.star p :: lit w :: rs)).exec g k (t ++ (w ++ s)) =
    (concat rs).exec g k s := by
  rw [exec_star_concat h.rejects ht h.head, exec_lit_concat]

theorem exec_plus_lit (hn : t ≠ []) :
    (concat (plus p :: lit w :: rs)).exec g k (t ++ (w ++ s)) = (concat rs).exec g k s := by
  rw [exec_plus_concat h.rejects ht h.head hn, exec_lit_concat]

theorem exec_group_plus_lit (hn : t ≠ []) :
    (concat (.group (plus p) :: lit w :: rs)).exec g k (t ++ (w ++ s)) =
    (concat rs).exec (g ++ [t]) k s := by
  rw [exec_group_plus_concat h.rejects ht h.head hn, exec_lit_concat]

end Words

end Regex
