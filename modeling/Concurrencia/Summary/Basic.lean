import Concurrencia.Regex.Basic
import Mathlib

namespace Summary

def isBlank (c : Char) : Bool :=
  c == ' '

-- The classes `\s`, `\d` and `[\d\.]` for ASCII characters.
def isSpace (c : Char) : Bool :=
  c == ' ' || c == '\t' || c == '\n' || c == '\r' || c == '\x0b' || c == '\x0c'

def isNumeral (c : Char) : Bool :=
  c.isDigit || c == '.'

section Patterns

open Regex

def word (w : String) : Regex :=
  lit w.toList

def numeral : Regex :=
  .group (plus isNumeral)

-- \s*times: +real +\d:([\d\.]+), +user +([\d\.]+), +sys ([\d\.]+)
def gnuPattern : Regex :=
  concat [.star isSpace, word "times:", plus isBlank, word "real", plus isBlank,
    .char Char.isDigit, word ":", numeral, word ",", plus isBlank,
    word "user", plus isBlank, numeral, word ",", plus isBlank, word "sys ", numeral]

-- \s*real\s+0m([\d\.]+)s\s+user\s+0m([\d\.]+)s\s+sys\s+0m([\d\.]+)s
def bashPattern : Regex :=
  concat [.star isSpace, word "real", plus isSpace, word "0m", numeral, word "s", plus isSpace,
    word "user", plus isSpace, word "0m", numeral, word "s", plus isSpace,
    word "sys", plus isSpace, word "0m", numeral, word "s"]

end Patterns

inductive Error
  | valueError (text : List Char)

-- The number which a text of digits and dots denotes.
def decimal (text : List Char) : Option ℚ :=
  let whole := text.takeWhile Char.isDigit
  match text.dropWhile Char.isDigit with
  | []            => if whole = [] then none else some (Nat.ofDigitChars 10 whole 0 : ℚ)
  | c :: fraction =>
    if c = '.' ∧ fraction.all Char.isDigit ∧ (whole ≠ [] ∨ fraction ≠ []) then
      some ((Nat.ofDigitChars 10 whole 0 : ℚ) +
        Nat.ofDigitChars 10 fraction 0 / 10 ^ fraction.length)
    else none

variable {α : Type*}

-- The built-in function, which rounds the number to one of type `α`.
def float (round : ℚ → α) (text : List Char) : Except Error α :=
  match decimal text with
  | some x => .ok (round x)
  | none   => .error (.valueError text)

def times (round : ℚ → α) (line : List Char) : Except Error (Option (List α)) :=
  match gnuPattern.matchGroups line <|> bashPattern.matchGroups line with
  | some groups => some <$> groups.mapM (float round)
  | none        => .ok none

-- re.escape(field) + '\s*:\s*(\d+)'
def fieldPattern (field : String) : Regex :=
  .concat [word field, .star isSpace, word ":", .star isSpace, .group (.plus Char.isDigit)]

def cpuinfo (line : List Char) (field : String) : Option ℕ := do
  let digits ← (fieldPattern field).matchGroups line >>= List.head?
  some (Nat.ofDigitChars 10 digits 0)

-- The shortest text on the line which `] --` follows.
def untilClose : List Char → Option (List Char)
  | []     => none
  | c :: s =>
    if "] --".toList <+: c :: s then some []
    else if c = '\n' then none
    else (untilClose s).map (c :: ·)

-- -- \[(.+?)\] --
def alginfo : List Char → Option (List Char)
  | '-' :: '-' :: ' ' :: '[' :: c :: s => if c = '\n' then none else (untilClose s).map (c :: ·)
  | _                                  => none

-- The entries of `log["alg"]` and of `log["real"]` for one algorithm. The log is the one of a file.
structure Entry (α : Type*) where
  file      : ℕ
  algorithm : List Char
  alg       : List α
  real      : List α

-- The variables of `main`. Of the entries the first one is the last which has been made, and so
-- `alg` and `real` are its lists. The cores of a log are a dictionary as well.
structure Main (α : Type*) where
  entries    : List (Entry α)
  algorithms : List (List Char)
  cpuId      : Option ℕ
  cores      : ℕ → List (ℕ × ℕ)

inductive MainError
  | times (e : Error)
  | unboundLocal (name : String)

def addAlgorithm (algorithms : List (List Char)) (name : List Char) : List (List Char) :=
  if name ∈ algorithms then algorithms else algorithms ++ [name]

namespace Main

def init : Main α where
  entries    := []
  algorithms := []
  cpuId      := none
  cores _    := []

def readAlgorithm (file : ℕ) (line : List Char) (m : Main α) : Main α :=
  match alginfo line with
  | some r => { m with
      entries    := ⟨file, r, [], []⟩ :: m.entries
      algorithms := addAlgorithm m.algorithms r }
  | none   => m

def readTimes (round : ℚ → α) [Add α] (line : List Char) (m : Main α) : Except MainError (Main α) :=
  match times round line, m.entries with
  | .error e, _                           => .error (.times e)
  | .ok none, _                           => .ok m
  | .ok (some [real, user, sys]), e :: es => .ok { m with
      entries := { e with alg := e.alg ++ [user + sys], real := e.real ++ [real] } :: es }
  | .ok (some _), _                       => .error (.unboundLocal "alg")

def readPhysicalId (line : List Char) (m : Main α) : Main α :=
  match cpuinfo line "physical id" with
  | some r => { m with cpuId := some r }
  | none   => m

def readSiblings (file : ℕ) (line : List Char) (m : Main α) : Except MainError (Main α) :=
  match cpuinfo line "siblings", m.cpuId with
  | none, _         => .ok m
  | some _, none    => .error (.unboundLocal "cpu_id")
  | some r, some id => .ok <|
    if id ∈ (m.cores file).map Prod.fst then m
    else { m with cores := Function.update m.cores file (m.cores file ++ [(id, r)]) }

def readLine (round : ℚ → α) [Add α] (file : ℕ) (m : Main α) (line : List Char) :
    Except MainError (Main α) :=
  (readTimes round line (readAlgorithm file line m)).bind fun m =>
    readSiblings file line (readPhysicalId line m)

def readFile (round : ℚ → α) [Add α] (m : Main α) (log : List (List Char) × ℕ) :
    Except MainError (Main α) :=
  log.fst.foldlM (readLine round log.snd) m

-- The loop over the files, which are given by their lines.
def read (round : ℚ → α) [Add α] (logs : List (List (List Char))) : Except MainError (Main α) :=
  logs.zipIdx.foldlM (readFile round) init

-- `log["alg"]` and `log["real"]`
def entry (m : Main α) (file : ℕ) (algorithm : List Char) : Option (Entry α) :=
  m.entries.find? fun e => e.file = file ∧ e.algorithm = algorithm

variable [Add α] [Zero α] [Div α] [NatCast α]

-- What is printed for a list of times: `0` if it is empty.
def average : List α → Option α
  | []      => none
  | x :: xs => some ((x :: xs).foldl (· + ·) 0 / (xs.length + 1 : ℕ))

-- What is printed for an algorithm: `0` as well if there is no list.
def cell (m : Main α) (real : Bool) (file : ℕ) (algorithm : List Char) : Option α :=
  (m.entry file algorithm).bind fun e => average (if real then e.real else e.alg)

-- The number of cores which is printed.
def total (m : Main α) (file : ℕ) : ℕ :=
  ((m.cores file).map Prod.snd).sum

end Main

-- What GNU time prints for a number of hundredths of a second.
section Format

def twoDigits (n : ℕ) : List Char :=
  [Nat.digitChar (n / 10), Nat.digitChar (n % 10)]

-- `%U` and `%S`
def seconds (t : ℕ) : List Char :=
  Nat.toDigits 10 (t / 100) ++ '.' :: twoDigits (t % 100)

-- `%E`
def elapsed (t : ℕ) : List Char :=
  if t < 360000 then
    Nat.toDigits 10 (t / 6000) ++ ':' :: twoDigits (t / 100 % 60) ++ '.' :: twoDigits (t % 100)
  else
    Nat.toDigits 10 (t / 360000) ++ ':' :: twoDigits (t / 6000 % 60) ++
      ':' :: twoDigits (t / 100 % 60)

-- The line for the format of `do_measure.sh`.
def timesLine (real user sys : ℕ) : List Char :=
  "  times: real ".toList ++ elapsed real ++ ", user ".toList ++ seconds user ++
    ", sys ".toList ++ seconds sys ++ ['\n']

-- What the script writes about a program: the lines which it has printed in each run, and then the
-- times of the run.
structure Run where
  output : List (List Char)
  real   : ℕ
  user   : ℕ
  sys    : ℕ

structure Program where
  name : List Char
  runs : List Run

-- What it copies from `/proc/cpuinfo` about a processor.
structure Processor where
  before     : List (List Char)
  physicalId : ℕ
  between    : List (List Char)
  siblings   : ℕ
  after      : List (List Char)

structure Measures where
  processors : List Processor
  programs   : List Program

def field (name : String) (n : ℕ) : List Char :=
  name.toList ++ "\t: ".toList ++ Nat.toDigits 10 n ++ ['\n']

def Run.lines (r : Run) : List (List Char) :=
  r.output ++ [timesLine r.real r.user r.sys]

def header (name : List Char) : List Char :=
  "-- [".toList ++ name ++ "] --\n".toList

def Program.lines (p : Program) : List (List Char) :=
  ["\n".toList, header p.name] ++ p.runs.flatMap Run.lines ++ ["---\n".toList]

def Processor.lines (p : Processor) : List (List Char) :=
  p.before ++ [field "physical id" p.physicalId] ++ p.between ++ [field "siblings" p.siblings] ++
    p.after

def Measures.lines (m : Measures) : List (List Char) :=
  m.processors.flatMap Processor.lines ++ ["-----------\n".toList] ++
    m.programs.flatMap Program.lines

end Format

end Summary
