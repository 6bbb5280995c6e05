import Concurrencia.Summary.Theorems.Times
import Mathlib

open Regex

namespace Summary

section Lines

variable {c : Char} {s t line name : List Char} {real user sys n : ℕ} {field : String}

-- A line in which `main` finds nothing.
structure Plain (line : List Char) : Prop where
  alginfo    : alginfo line = none
  gnu        : gnuPattern.matchGroups line = none
  bash       : bashPattern.matchGroups line = none
  physicalId : cpuinfo line "physical id" = none
  siblings   : cpuinfo line "siblings" = none

end Lines

section Reading

variable {α : Type*} {round : ℚ → α} {file : ℕ} {m m₁ m₂ : Main α} {e : Entry α}
variable {es : List (Entry α)} {line name : List Char} {ls ls₁ ls₂ : List (List Char)}
variable {real user sys n id : ℕ}

open Main

-- Makes the equations before the proofs below, many of which need them at the same time.
attribute [local grind =] readLine readAlgorithm readTimes readPhysicalId readSiblings

variable [Add α]

def Entry.add (e : Entry α) (round : ℚ → α) (r : Run) : Entry α :=
  { e with
    alg := e.alg ++ [round (r.user / 100) + round (r.sys / 100)]
    real := e.real ++ [round (r.real / 100)] }

-- The lines of one file, one after the other.
def Reads (round : ℚ → α) (file : ℕ) (m : Main α) (ls : List (List Char)) (m₁ : Main α) : Prop :=
  ls.foldlM (readLine round file) m = .ok m₁

namespace Reads

theorem nil : Reads round file m [] m :=
  rfl

theorem append (h₁ : Reads round file m ls₁ m₁) (h₂ : Reads round file m₁ ls₂ m₂) :
    Reads round file m (ls₁ ++ ls₂) m₂ := by
  rw [Reads, List.foldlM_append, h₁]
  exact h₂

theorem single (h : readLine round file m line = .ok m₁) : Reads round file m [line] m₁ := by
  rw [Reads, List.foldlM_cons, h]
  rfl

end Reads

end Reading

structure Run.Valid (r : Run) : Prop where
  output : ∀ l ∈ r.output, Plain l
  real   : r.real < 6000

structure Program.Valid (p : Program) : Prop where
  name_ne_nil : p.name ≠ []
  bracket     : ']' ∉ p.name
  newline     : '\n' ∉ p.name
  runs        : ∀ r ∈ p.runs, r.Valid

structure Processor.Valid (p : Processor) : Prop where
  before  : ∀ l ∈ p.before, Plain l
  between : ∀ l ∈ p.between, Plain l
  after   : ∀ l ∈ p.after, Plain l

-- The programs of a file have different names.
structure Measures.Valid (f : Measures) : Prop where
  processors : ∀ p ∈ f.processors, p.Valid
  programs   : ∀ p ∈ f.programs, p.Valid
  names      : (f.programs.map Program.name).Nodup

section Files

variable {α : Type*} [Add α] {round : ℚ → α} {file i j k id n : ℕ} {m m₁ : Main α} {e : Entry α}
variable {es : List (Entry α)} {r : Run} {rs : List Run} {p : Program} {ps : List Program}
variable {c : Processor} {cs : List Processor} {f : Measures} {fs : List Measures}

-- What is recorded about a program.
def Program.entry (round : ℚ → α) (file : ℕ) (p : Program) : Entry α where
  file      := file
  algorithm := p.name
  alg       := p.runs.map fun r => round (r.user / 100) + round (r.sys / 100)
  real      := p.runs.map fun r => round (r.real / 100)

end Files

section Tables

variable {names as : List (List Char)} {name : List Char} {cores : List (ℕ × ℕ)} {id n i : ℕ}
variable {c : Processor} {cs : List Processor}

end Tables

section Lookup

variable {α : Type*} [Add α] {round : ℚ → α} {fs : List Measures} {f : Measures} {m : Main α}
variable {e : Entry α} {es : List (Entry α)} {name : List Char} {j : ℕ}

end Lookup

end Summary
