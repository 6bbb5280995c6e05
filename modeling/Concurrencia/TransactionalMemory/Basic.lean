import Concurrencia.Threads.Basic
import Mathlib.Data.List.Basic

open Function Threads

-- Memory with hardware transactions. The writes of a transaction stay in its buffer until it
-- commits, and a transaction aborts as soon as another thread writes a cell which it has read.
namespace TransactionalMemory

-- The cells a transaction has read, with the values it has found there, and its buffer with the
-- last write at the head.
structure Transaction (κ α : Type*) where
  reads : List (κ × α)
  writes : List (κ × α)

-- The thread of an aborted transaction has lost its buffer and does not know it yet.
inductive Mode (κ α : Type*)
  | outside
  | inside (t : Transaction κ α)
  | aborted

structure Memory (ι κ α : Type*) where
  cells : κ → α
  mode : ι → Mode κ α

variable {ι κ α : Type*} [DecidableEq ι] [DecidableEq κ]

namespace Transaction

def empty : Transaction κ α where
  reads  := []
  writes := []

def read (t : Transaction κ α) (cells : κ → α) (k : κ) : α :=
  (t.writes.lookup k).getD (cells k)

def Reads (t : Transaction κ α) (k : κ) : Prop :=
  k ∈ t.reads.map Prod.fst

instance {t : Transaction κ α} {k : κ} : Decidable (t.Reads k) :=
  inferInstanceAs <| Decidable (_ ∈ _)

end Transaction

namespace Mode

-- What a write to one of the given cells by another thread does.
def conflict (ks : List κ) : Mode κ α → Mode κ α
  | outside  => outside
  | inside t => if ∃ k ∈ ks, t.Reads k then aborted else inside t
  | aborted  => aborted

end Mode

namespace Memory

def empty (cells : κ → α) : Memory ι κ α where
  cells  := cells
  mode _ := .outside

def setMode (m : Memory ι κ α) (i : ι) (x : Mode κ α) : Memory ι κ α :=
  { m with mode := update m.mode i x }

def read (m : Memory ι κ α) (i : ι) (k : κ) : α :=
  match m.mode i with
  | .inside t => t.read m.cells k
  | _         => m.cells k

def load (m : Memory ι κ α) (i : ι) (k : κ) : Memory ι κ α :=
  match m.mode i with
  | .inside t => m.setMode i <| .inside { t with reads := (k, m.cells k) :: t.reads }
  | _         => m

-- The writes of thread `i` take effect.
def write (m : Memory ι κ α) (i : ι) (cells : κ → α) (ks : List κ) (x : Mode κ α) :
    Memory ι κ α where
  cells  := cells
  mode j := if j = i then x else (m.mode j).conflict ks

def store (m : Memory ι κ α) (i : ι) (k : κ) (a : α) : Memory ι κ α :=
  match m.mode i with
  | .inside t => m.setMode i <| .inside { t with writes := (k, a) :: t.writes }
  | x         => m.write i (update m.cells k a) [k] x

def start (m : Memory ι κ α) (i : ι) : Memory ι κ α :=
  m.setMode i <| .inside .empty

def commit (m : Memory ι κ α) (i : ι) : Option (Memory ι κ α) :=
  match m.mode i with
  | .inside t => some <| m.write i (t.read m.cells) (t.writes.map Prod.fst) .outside
  | _         => none

def abort (m : Memory ι κ α) (i : ι) : Option (Memory ι κ α) :=
  match m.mode i with
  | .inside _ => some <| m.setMode i .aborted
  | _         => none

-- The thread of an aborted transaction goes on after its start.
def resume (m : Memory ι κ α) (i : ι) : Option (Memory ι κ α) :=
  match m.mode i with
  | .aborted => some <| m.setMode i .outside
  | _        => none

end Memory

variable {m m' : Memory ι κ α} {t : Transaction κ α} {x y : Mode κ α} {i j : ι} {k : κ} {a : α}
variable {ks : List κ}

-- What a running transaction has read is still there.
def Mode.Current (cells : κ → α) (x : Mode κ α) : Prop :=
  ∀ t, x = .inside t → ∀ k a, (k, a) ∈ t.reads → cells k = a

def Memory.Current (m : Memory ι κ α) : Prop :=
  ∀ i, (m.mode i).Current m.cells

namespace Transaction

variable {cells : κ → α}

theorem read_of_empty (h : t.writes = []) : t.read cells = cells := by
  ext1 k
  simp [read, h]

theorem read_of_single (h : t.writes = [(k, a)]) : t.read cells = update cells k a := by
  ext1 k'
  by_cases hk : k' = k
  case pos => simp [read, h, hk]
  case neg =>
    have hb : (k' == k) = false := by simpa
    simp [read, h, hk, List.lookup_cons, hb]

end Transaction

namespace Mode

theorem conflict_inside (h : x.conflict ks = .inside t) : x = .inside t ∧ ∀ k ∈ ks, ¬t.Reads k := by
  cases x <;> simp only [conflict] at h
  case inside t' =>
    split_ifs at h with hk
    cases h
    exact ⟨rfl, fun k hm hr => hk ⟨k, hm, hr⟩⟩
  all_goals cases h

@[simp] theorem conflict_nil : x.conflict [] = x := by
  cases x <;> simp [conflict]

theorem conflict_conflict {ks' : List κ} :
    (x.conflict ks).conflict ks' = x.conflict (ks ++ ks') := by
  cases x
  case inside t =>
    by_cases h : ∃ k ∈ ks, t.Reads k
    case pos =>
      have h' : ∃ k ∈ ks ++ ks', t.Reads k :=
        h.imp fun k hk => ⟨List.mem_append_left _ hk.left, hk.right⟩
      simp only [conflict, if_pos h, if_pos h']
    case neg =>
      have h' : (∃ k ∈ ks ++ ks', t.Reads k) ↔ ∃ k ∈ ks', t.Reads k := by
        simp only [List.mem_append, or_and_right, exists_or]
        exact or_iff_right h
      simp only [conflict, if_neg h, h']
  all_goals rfl

@[simp] theorem conflict_outside_iff : x.conflict ks = .outside ↔ x = .outside := by
  cases x <;> simp only [conflict]
  case inside => split_ifs <;> simp

end Mode

namespace Memory

omit [DecidableEq κ] in
@[simp] theorem setMode_cells : (m.setMode i x).cells = m.cells := rfl
omit [DecidableEq κ] in
@[simp] theorem setMode_mode : (m.setMode i x).mode = update m.mode i x := rfl

section Mode

omit [DecidableEq ι] in
theorem read_outside (h : m.mode i = .outside) : m.read i k = m.cells k := by
  simp [read, h]

omit [DecidableEq ι] in
theorem read_inside (h : m.mode i = .inside t) : m.read i k = t.read m.cells k := by
  simp [read, h]

omit [DecidableEq κ] in
theorem load_outside (h : m.mode i = .outside) : m.load i k = m := by
  simp [load, h]

omit [DecidableEq κ] in
theorem load_inside (h : m.mode i = .inside t) :
    m.load i k = m.setMode i (.inside { t with reads := (k, m.cells k) :: t.reads }) := by
  simp [load, h]

theorem store_outside (h : m.mode i = .outside) :
    m.store i k a = m.write i (update m.cells k a) [k] .outside := by
  simp [store, h]

theorem store_inside (h : m.mode i = .inside t) :
    m.store i k a = m.setMode i (.inside { t with writes := (k, a) :: t.writes }) := by
  simp [store, h]

theorem commit_inside (h : m.mode i = .inside t) :
    m.commit i = some (m.write i (t.read m.cells) (t.writes.map Prod.fst) .outside) := by
  simp [commit, h]

end Mode

section Write

variable {cells : κ → α}

@[simp] theorem write_cells : (m.write i cells ks x).cells = cells := rfl

@[simp] theorem write_mode_self : (m.write i cells ks x).mode i = x :=
  if_pos rfl

theorem write_mode_of_ne (h : j ≠ i) : (m.write i cells ks x).mode j = (m.mode j).conflict ks :=
  if_neg h

end Write

section Cells

omit [DecidableEq κ] in
@[simp] theorem load_cells : (m.load i k).cells = m.cells := by
  cases hi : m.mode i <;> simp [load, hi]

omit [DecidableEq κ] in
theorem abort_cells (h : m.abort i = some m') : m'.cells = m.cells := by
  cases hi : m.mode i <;> simp only [abort, hi] at h
  all_goals cases h
  rfl

omit [DecidableEq κ] in
theorem resume_cells (h : m.resume i = some m') : m'.cells = m.cells := by
  cases hi : m.mode i <;> simp only [resume, hi] at h
  all_goals cases h
  rfl

end Cells

-- No step of one thread moves another one into a transaction or out of it, and neither does a load
-- or a store.
section Outside

variable {cells : κ → α}

omit [DecidableEq κ] in
theorem setMode_outside_iff (h : x = .outside ↔ m.mode i = .outside) :
    (m.setMode i x).mode j = .outside ↔ m.mode j = .outside :=
  update_iff (P := (· = Mode.outside)) h j

theorem write_outside_iff (h : x = .outside ↔ m.mode i = .outside) :
    (m.write i cells ks x).mode j = .outside ↔ m.mode j = .outside := by
  by_cases hj : j = i
  case pos =>
    subst hj
    simpa
  case neg => simp [write_mode_of_ne hj]

omit [DecidableEq κ] in
theorem load_outside_iff : (m.load i k).mode j = .outside ↔ m.mode j = .outside := by
  cases hi : m.mode i <;> simp only [load, hi]
  case inside => exact setMode_outside_iff (by simp [hi])

theorem store_outside_iff : (m.store i k a).mode j = .outside ↔ m.mode j = .outside := by
  cases hi : m.mode i <;> simp only [store, hi]
  case inside => exact setMode_outside_iff (by simp [hi])
  all_goals exact write_outside_iff (by simp [hi])

omit [DecidableEq κ] in
theorem abort_outside_iff (h : m.abort i = some m') :
    m'.mode j = .outside ↔ m.mode j = .outside := by
  cases hi : m.mode i <;> simp only [abort, hi] at h
  all_goals cases h
  exact setMode_outside_iff (by simp [hi])

end Outside

-- Thread `i` does nothing to the other threads but conflict with their transactions.
def Elsewhere (m : Memory ι κ α) (i : ι) (m' : Memory ι κ α) : Prop :=
  ∀ j ≠ i, ∃ ks, m'.mode j = (m.mode j).conflict ks

namespace Elsewhere

omit [DecidableEq ι] in
theorem refl : m.Elsewhere i m :=
  fun _ _ => ⟨[], by simp⟩

theorem setMode : m.Elsewhere i (m.setMode i x) :=
  fun _ hj => ⟨[], by simp [hj]⟩

theorem write {cells : κ → α} : m.Elsewhere i (m.write i cells ks x) :=
  fun _ hj => ⟨ks, write_mode_of_ne hj⟩

theorem load : m.Elsewhere i (m.load i k) := by
  cases hi : m.mode i <;> simp only [Memory.load, hi]
  case inside => exact setMode
  all_goals exact refl

theorem store : m.Elsewhere i (m.store i k a) := by
  cases hi : m.mode i <;> simp only [Memory.store, hi]
  case inside => exact setMode
  all_goals exact write

theorem start : m.Elsewhere i (m.start i) :=
  setMode

theorem commit (h : m.commit i = some m') : m.Elsewhere i m' := by
  cases hi : m.mode i <;> simp only [Memory.commit, hi] at h
  all_goals cases h
  exact write

theorem abort (h : m.abort i = some m') : m.Elsewhere i m' := by
  cases hi : m.mode i <;> simp only [Memory.abort, hi] at h
  all_goals cases h
  exact setMode

theorem resume (h : m.resume i = some m') : m.Elsewhere i m' := by
  cases hi : m.mode i <;> simp only [Memory.resume, hi] at h
  all_goals cases h
  exact setMode

omit [DecidableEq ι] in
theorem trans {m'' : Memory ι κ α} (h : m.Elsewhere i m') (h' : m'.Elsewhere i m'') :
    m.Elsewhere i m'' := by
  intro j hj
  have ⟨ks, hk⟩ := h j hj
  have ⟨ks', hk'⟩ := h' j hj
  exact ⟨ks ++ ks', by rw [hk', hk, Mode.conflict_conflict]⟩

omit [DecidableEq ι] in
theorem outside_iff (h : m.Elsewhere i m') (hj : j ≠ i) :
    m'.mode j = .outside ↔ m.mode j = .outside := by
  have ⟨_, hk⟩ := h j hj
  rw [hk, Mode.conflict_outside_iff]

end Elsewhere

namespace Current

omit [DecidableEq κ] in
theorem setMode (h : m.Current) (hx : x.Current m.cells) : (m.setMode i x).Current := by
  intro j
  by_cases hj : j = i
  case pos => simpa [hj]
  case neg => simpa [hj] using h j

-- A write leaves only those alone who have read none of its cells.
theorem write {cells : κ → α} (h : m.Current) (hc : ∀ k, k ∉ ks → cells k = m.cells k)
    (hx : x.Current cells) : (m.write i cells ks x).Current := by
  intro j
  by_cases hj : j = i
  case pos =>
    subst hj
    simpa
  case neg =>
    intro t ht k a ha
    rw [write_mode_of_ne hj] at ht
    have ⟨ht, hn⟩ := Mode.conflict_inside ht
    have hk : k ∉ ks := fun hk => hn k hk (List.mem_map.mpr ⟨_, ha, rfl⟩)
    exact (hc k hk).trans (h j t ht k a ha)

omit [DecidableEq κ] in
theorem load (h : m.Current) : (m.load i k).Current := by
  cases hi : m.mode i <;> simp only [Memory.load, hi]
  case inside t =>
    apply h.setMode
    rintro _ ⟨⟩ k' a' ha
    cases List.mem_cons.mp ha
    case inl ha =>
      cases ha
      rfl
    case inr ha => exact h i t hi k' a' ha
  all_goals exact h

theorem store (h : m.Current) : (m.store i k a).Current := by
  cases hi : m.mode i <;> simp only [Memory.store, hi]
  case inside t =>
    apply h.setMode
    rintro _ ⟨⟩
    exact h i t hi
  all_goals
    apply h.write
    · exact fun k' hk => update_of_ne (by simpa using hk) ..
    · simp [Mode.Current]

omit [DecidableEq κ] in
theorem start (h : m.Current) : (m.start i).Current := by
  apply h.setMode
  rintro _ ⟨⟩
  simp [Transaction.empty]

theorem commit (h : m.Current) (hm : m.commit i = some m') : m'.Current := by
  cases hi : m.mode i <;> simp only [Memory.commit, hi] at hm
  case inside t =>
    cases hm
    apply h.write
    · intro k hk
      have hn : t.writes.lookup k = none := by
        rw [List.lookup_eq_none_iff]
        rintro ⟨k', a⟩ hp
        have hne : k ≠ k' := fun hkk => hk (List.mem_map.mpr ⟨_, hp, hkk.symm⟩)
        simpa using hne
      simp [Transaction.read, hn]
    · simp [Mode.Current]
  all_goals cases hm

omit [DecidableEq κ] in
theorem abort (h : m.Current) (hm : m.abort i = some m') : m'.Current := by
  cases hi : m.mode i <;> simp only [Memory.abort, hi] at hm
  all_goals cases hm
  exact h.setMode (by simp [Mode.Current])

omit [DecidableEq κ] in
theorem resume (h : m.Current) (hm : m.resume i = some m') : m'.Current := by
  cases hi : m.mode i <;> simp only [Memory.resume, hi] at hm
  all_goals cases hm
  exact h.setMode (by simp [Mode.Current])

end Current

end Memory

end TransactionalMemory
