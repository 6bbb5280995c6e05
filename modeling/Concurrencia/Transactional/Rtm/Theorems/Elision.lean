import Concurrencia.Transactional.Rtm.Basic
import Concurrencia.Threads.Basic
import Mathlib.Tactic.SplitIfs

open Function Threads

namespace Rtm

section Step

open TransactionalMemory

variable {n m : ℕ} [NeZero m]

-- One constructor for each way through a statement.
inductive Statement (max : ℕ) (s : State n m) (i : Fin n) : State n m → Prop
  | enter : (s.pc i = .loop) → (s.index i < max) → Statement max s i (enter s i)
  | finish : (s.pc i = .loop) → Statement max s i (s.goto i .finished)
  | elide : (s.pc i = .retry) → (Again s i) → Statement max s i (s.goto i .begin)
  | fallBack : (s.pc i = .retry) → (¬Again s i) → Statement max s i (s.goto i .exchange)
  | start : (s.pc i = .begin) → Statement max s i (start s i)
  | available : (s.pc i = .testMutex) → (s.memory.read i .mutex = 0) →
    Statement max s i ((load s i .mutex).goto i .load)
  | taken : (s.pc i = .testMutex) → (s.memory.read i .mutex ≠ 0) →
    Statement max s i ((load s i .mutex).goto i .xabort)
  | xabort : (s.pc i = .xabort) → (s.memory.abort i = some x) →
    Statement max s i (setMemory s x)
  | acquire : (s.pc i = .exchange) → (s.memory.read i .mutex = 0) →
    Statement max s i ((store s i .mutex 1).goto i .load)
  | spin : (s.pc i = .exchange) → (s.memory.read i .mutex ≠ 0) →
    Statement max s i ((store s i .mutex 1).goto i .exchange)
  | load : (s.pc i = .load) →
    Statement max s i ((load s i (cell s i)).goto i (.store (s.memory.read i (cell s i))))
  | store : (s.pc i = .store v) →
    Statement max s i ((store s i (cell s i) (v + 1)).goto i .test)
  | testFree : (s.pc i = .test) → (s.memory.read i .mutex = 0) →
    Statement max s i ((load s i .mutex).goto i .xend)
  | testTaken : (s.pc i = .test) → (s.memory.read i .mutex ≠ 0) →
    Statement max s i ((load s i .mutex).goto i .unlock)
  | xend : (s.pc i = .xend) → (s.memory.commit i = some x) →
    Statement max s i (countSection (setMemory s x) i)
  | unlock : (s.pc i = .unlock) →
    Statement max s i (countSection (store s i .mutex 0) i)

inductive Step (max : ℕ) (s : State n m) : Label n → State n m → Prop
  | statement : (s.memory.mode i ≠ .aborted) → (Statement max s i s') →
    Step max s (.thread i) s'
  | abort : (s.memory.abort i = some x) → Step max s (.abort i) (setMemory s x)
  | resume : (s.memory.resume i = some x) → Step max s (.resume i status)
    ({ s with
      memory := x
      c      := update s.c i (s.c i + 1)
      status := update s.status i status }.goto i .retry)

variable {max : ℕ} {s s' : State n m} {i : Fin n} {l : Label n}

theorem Statement.of_step (h : programStep max s i = some s') : Statement max s i s' := by
  cases hp : s.pc i <;> simp only [programStep, hp] at h
  case loop =>
    split_ifs at h with hi
    all_goals cases h
    · exact .enter hp hi
    · exact .finish hp
  case retry =>
    split_ifs at h with ha
    all_goals cases h
    · exact .elide hp ha
    · exact .fallBack hp ha
  case testMutex =>
    split_ifs at h with hm
    all_goals cases h
    · exact .available hp hm
    · exact .taken hp hm
  case exchange =>
    split_ifs at h with hm
    all_goals cases h
    · exact .acquire hp hm
    · exact .spin hp hm
  case test =>
    split_ifs at h with hm
    all_goals cases h
    · exact .testFree hp hm
    · exact .testTaken hp hm
  case xabort =>
    have ⟨_, hx, h⟩ := Option.map_eq_some_iff.mp h
    exact h ▸ .xabort hp hx
  case xend =>
    have ⟨_, hx, h⟩ := Option.map_eq_some_iff.mp h
    exact h ▸ .xend hp hx
  all_goals cases h
  case begin  => exact .start hp
  case load   => exact .load hp
  case store  => exact .store hp
  case unlock => exact .unlock hp

theorem Step.of_thread (h : threadStep max s i = some s') : Step max s (.thread i) s' := by
  cases hm : s.memory.mode i <;> simp only [threadStep, hm] at h
  case aborted => cases h
  all_goals exact .statement (by simp [hm]) (.of_step h)

theorem Step.of_step (h : step max s l = some s') : Step max s l s' := by
  cases l <;> simp only [step] at h
  case thread => exact .of_thread h
  case abort =>
    have ⟨_, hx, h⟩ := Option.map_eq_some_iff.mp h
    exact h ▸ .abort hx
  case resume =>
    rw [resumeStep] at h
    split_ifs at h
    have ⟨_, hx, h⟩ := Option.map_eq_some_iff.mp h
    exact h ▸ .resume hx

end Step

open TransactionalMemory

variable {n m : ℕ}

-- The thread has taken `mutex` and not freed it yet.
def Owns (x : Mode (Cell m) ℤ × Pc) : Prop :=
  x.fst = .outside ∧ (x.snd = .load ∨ (∃ v, x.snd = .store v) ∨ x.snd = .test ∨ x.snd = .unlock)

-- What a thread has done to its element of the array. A transaction in the section has found
-- `mutex` free.
def Fits (cells : Cell m → ℤ) (k : Cell m) : Mode (Cell m) ℤ → Pc → Prop
  | .outside, .store v                 => v = cells k
  | .outside, .testMutex               => False
  | .outside, .xabort                  => False
  | .outside, .xend                    => False
  | .outside, _                        => True
  | .inside t, .testMutex              => t.writes = []
  | .inside t, .xabort                 => t.writes = []
  | .inside t, .load                   => (.mutex, 0) ∈ t.reads ∧ t.writes = []
  | .inside t, .store v                => (.mutex, 0) ∈ t.reads ∧ t.writes = [] ∧ (k, v) ∈ t.reads
  | .inside t, .test                   =>
    (.mutex, 0) ∈ t.reads ∧ ∃ v, t.writes = [(k, v + 1)] ∧ (k, v) ∈ t.reads
  | .inside t, .xend                   =>
    (.mutex, 0) ∈ t.reads ∧ ∃ v, t.writes = [(k, v + 1)] ∧ (k, v) ∈ t.reads
  | .inside _, _                       => False
  | .aborted, .loop                    => False
  | .aborted, .finished                => False
  | .aborted, _                        => True

-- Makes the equations before the proofs below, many of which need them at the same time.
attribute [local grind =] Owns Fits

def State.thread (s : State n m) (i : Fin n) : Mode (Cell m) ℤ × Pc :=
  (s.memory.mode i, s.pc i)

variable {max : ℕ} {cells cells' : Cell m → ℤ} {k : Cell m} {ks : List (Cell m)}
variable {x : Mode (Cell m) ℤ} {p : Pc} {v : ℤ} {t : Transaction (Cell m) ℤ}

theorem owns_conflict : Owns (x.conflict ks, p) ↔ Owns (x, p) := by
  simp [Owns]

theorem owns_store : Owns (x, .store v) ↔ x = .outside := by
  simp [Owns]

theorem Fits.conflict (h : Fits cells k x p)
    (hc : Owns (x, p) → cells' k = cells k) : Fits cells' k (x.conflict ks) p := by
  cases x
  case aborted => cases p <;> exact h
  case outside =>
    cases p
    case store v => exact Eq.trans h (hc (owns_store.mpr rfl)).symm
    all_goals exact h
  case inside t =>
    rw [Mode.conflict]
    split_ifs
    · cases p <;> first | exact h | trivial
    · cases p <;> exact h

variable [NeZero m] {s s' : State n m} {i j : Fin n} {l : Label n}

theorem cell_congr (h : s'.index i = s.index i) : cell s' i = cell s i :=
  congrArg (Cell.counter <| .ofNat m ·) h

omit [NeZero m] in
@[simp] theorem counter_ne_mutex {q : Fin m} : (.mutex : Cell m) ≠ .counter q := nofun

theorem mutex_ne_cell : .mutex ≠ cell s i := nofun

structure Inv (max : ℕ) (s : State n m) : Prop where
  current : s.memory.Current
  own     : Owned s.thread Owns (s.memory.cells .mutex ≠ 0)
  fits    : ∀ i, Fits s.memory.cells (cell s i) (s.memory.mode i) (s.pc i)
  busy    : ∀ i, s.pc i ≠ .loop → s.pc i ≠ .finished → s.index i < max

namespace Inv

theorem init : Inv max (init n m) where
  current _ _ h := by cases h
  own := {
    unique h _ := by simp [Owns, State.thread, Rtm.init] at h
    locked h   := by simp [Owns, State.thread, Rtm.init] at h
    owner h    := absurd rfl h
  }
  fits _   := trivial
  busy _ h := absurd rfl h

variable (inv : Inv max s)
include inv

theorem busy_update (hp : s'.pc = update s.pc i p) (hi : s'.index = s.index)
    (hb : p ≠ .loop → p ≠ .finished → s.index i < max) (j : Fin n) (hl : s'.pc j ≠ .loop)
    (hf : s'.pc j ≠ .finished) : s'.index j < max := by
  rw [hp] at hl hf
  rw [hi]
  by_cases hj : j = i
  case pos => exact hj ▸ hb (by simpa [hj] using hl) (by simpa [hj] using hf)
  case neg => exact inv.busy j (by simpa [hj] using hl) (by simpa [hj] using hf)

-- The steps which write nothing.
theorem quiet (hc : s'.memory.cells = s.memory.cells)
    (hm : s'.memory.mode = update s.memory.mode i x) (hp : s'.pc = update s.pc i p)
    (hi : s'.index = s.index) (hx : s'.memory.Current) (ho : Owns (x, p) ↔ Owns (s.thread i))
    (hf : Fits s.memory.cells (cell s i) x p)
    (hb : p ≠ .loop → p ≠ .finished → s.index i < max) : Inv max s' where
  current := hx
  own := by
    have ht : s'.thread = update s.thread i (x, p) := by
      ext1 j
      by_cases hj : j = i <;> simp [State.thread, hm, hp, hj]
    rw [ht, hc]
    exact inv.own.keep ho
  fits j := by
    rw [hc, hm, hp, cell_congr (congrFun hi j)]
    by_cases hj : j = i
    case pos => simpa [hj] using hf
    case neg => simpa [hj] using inv.fits j
  busy := inv.busy_update hp hi hb

-- The steps whose writes take effect. No other owner of `mutex` may have read one of the cells.
theorem publish (hm : s'.memory = s.memory.write i cells ks x) (hp : s'.pc = update s.pc i p)
    (hi : ∀ j ≠ i, s'.index j = s.index j) (hx : s'.memory.Current)
    (ho : Owned (update s.thread i (x, p)) Owns (cells .mutex ≠ 0))
    (hs : ∀ j ≠ i, Owns (s.thread j) → cells (cell s j) = s.memory.cells (cell s j))
    (hf : Fits cells (cell s' i) x p)
    (hb : p ≠ .loop → p ≠ .finished → s'.index i < max) : Inv max s' where
  current := hx
  own := by
    rw [hm]
    apply ho.congr
    intro j
    by_cases hj : j = i
    case pos =>
      subst hj
      simp [State.thread, hm, hp]
    case neg => simp [State.thread, hm, hp, hj, Memory.write_mode_of_ne hj, owns_conflict]
  fits j := by
    rw [hm, hp]
    by_cases hj : j = i
    case pos =>
      subst hj
      simpa using hf
    case neg =>
      rw [cell_congr (hi j hj), Memory.write_mode_of_ne hj, update_of_ne hj]
      exact (inv.fits j).conflict (hs j hj)
  busy j hl hf := by
    rw [hp] at hl hf
    by_cases hj : j = i
    case pos => exact hj ▸ hb (by simpa [hj] using hl) (by simpa [hj] using hf)
    case neg =>
      rw [hi j hj]
      exact inv.busy j (by simpa [hj] using hl) (by simpa [hj] using hf)

theorem busy_of (hp : s.pc i = p) (hl : p ≠ .loop) (hf : p ≠ .finished) : s.index i < max :=
  inv.busy i (hp ▸ hl) (hp ▸ hf)

theorem fits_of (hm : s.memory.mode i = x) (hp : s.pc i = p) :
    Fits s.memory.cells (cell s i) x p :=
  hm ▸ hp ▸ inv.fits i

theorem outside_of (hm : s.memory.mode i ≠ .aborted)
    (hp : ∀ t, ¬Fits s.memory.cells (cell s i) (.inside t) (s.pc i)) :
    s.memory.mode i = .outside := by
  cases hx : s.memory.mode i
  case outside  => rfl
  case inside t => exact absurd (inv.fits_of hx rfl) (hp t)
  case aborted  => exact absurd hx hm

theorem inside_of (hm : s.memory.mode i ≠ .aborted)
    (hp : ¬Fits s.memory.cells (cell s i) .outside (s.pc i)) :
    ∃ t, s.memory.mode i = .inside t := by
  cases hx : s.memory.mode i
  case outside  => exact absurd (inv.fits_of hx rfl) hp
  case inside t => exact ⟨t, rfl⟩
  case aborted  => exact absurd hx hm

theorem abort {y : Memory (Fin n) (Cell m) ℤ} (hy : s.memory.abort i = some y) :
    Inv max (setMemory s y) := by
  have hc := inv.current.abort hy
  cases hm : s.memory.mode i <;> simp only [Memory.abort, hm] at hy
  all_goals cases hy
  have hf := inv.fits_of hm rfl
  refine inv.quiet (x := .aborted) rfl rfl (update_eq_self i s.pc).symm rfl hc ?_ ?_ (inv.busy i)
  · simp [Owns, State.thread, hm]
  · cases hp : s.pc i <;> simp only [hp, Fits] at hf ⊢

theorem resume {y : Memory (Fin n) (Cell m) ℤ} {c : Fin n → ℕ} {status : Fin n → BitVec 32}
    (hy : s.memory.resume i = some y) :
    Inv max ({ s with memory := y, c, status }.goto i .retry) := by
  have hc := inv.current.resume hy
  cases hm : s.memory.mode i <;> simp only [Memory.resume, hm] at hy
  all_goals cases hy
  have hf := inv.fits_of hm rfl
  refine inv.quiet (x := .outside) rfl rfl rfl rfl hc ?_ trivial fun _ _ => inv.busy i ?_ ?_
  · simp [Owns, State.thread, hm]
  · exact fun hp => by simp [hp, Fits] at hf
  · exact fun hp => by simp [hp, Fits] at hf

-- A step outside of a transaction and outside of the section, which does not touch the memory.
theorem move (hm : s.memory.mode i = .outside) (hy : s'.memory = s.memory)
    (hp : s'.pc = update s.pc i p) (hi : s'.index = s.index)
    (ho : Owns ((.outside : Mode (Cell m) ℤ), p) ↔ Owns (s.thread i))
    (hf : Fits s.memory.cells (cell s i) .outside p)
    (hb : p ≠ .loop → p ≠ .finished → s.index i < max) : Inv max s' := by
  refine inv.quiet (x := .outside) (by rw [hy]) ?_ hp hi (hy ▸ inv.current) ho hf hb
  rw [hy, ← hm, update_eq_self]

-- A load in a transaction.
theorem inside_load (hm : s.memory.mode i = .inside t) (hy : s'.memory = s.memory.load i k)
    (hp : s'.pc = update s.pc i p) (hi : s'.index = s.index)
    (hf : Fits s.memory.cells (cell s i)
      (.inside { t with reads := (k, s.memory.cells k) :: t.reads }) p)
    (hb : s.index i < max) : Inv max s' := by
  have hc : s'.memory.Current := hy ▸ inv.current.load
  rw [Memory.load_inside hm] at hy
  refine inv.quiet (by rw [hy]; rfl) (by rw [hy]; rfl) hp hi hc ?_ hf fun _ _ => hb
  simp [Owns, State.thread, hm]

-- Nobody owns `mutex` while a running transaction has found it free.
theorem free_of_read (hm : s.memory.mode i = .inside t) (hr : (.mutex, 0) ∈ t.reads) :
    s.memory.cells .mutex = 0 :=
  inv.current i t hm .mutex 0 hr

theorem not_owns (hc : s.memory.cells .mutex = 0) (j : Fin n) : ¬Owns (s.thread j) :=
  inv.own.not_of_free (by simpa) j

-- In a transaction the second test of `mutex` finds what the first one has found.
theorem read_mutex (ht : s.memory.mode i = .inside t) (hr : (.mutex, 0) ∈ t.reads)
    (hw : t.writes = [(cell s i, v + 1)]) : s.memory.read i .mutex = 0 := by
  rw [Memory.read_inside ht, Transaction.read_of_single hw, update_of_ne mutex_ne_cell]
  exact inv.free_of_read ht hr

section Statement

variable (hm : s.memory.mode i ≠ .aborted)
include hm

theorem start (hp : s.pc i = .begin) : Inv max (start s i) := by
  have ho := inv.outside_of hm (by simp [hp, Fits])
  refine inv.quiet (x := .inside .empty) rfl rfl rfl rfl inv.current.start ?_ rfl ?_
  · simp [Owns, State.thread, ho, hp]
  · exact fun _ _ => inv.busy_of hp (by simp) (by simp)

theorem test_mutex (hp : s.pc i = .testMutex)
    (hq : p = .load ∧ s.memory.read i .mutex = 0 ∨ p = .xabort) :
    Inv max ((load s i .mutex).goto i p) := by
  have ⟨t, ht⟩ := inv.inside_of hm (by simp [hp, Fits])
  have hw : t.writes = [] := inv.fits_of ht hp
  refine inv.inside_load ht rfl rfl rfl ?_ (inv.busy_of hp (by simp) (by simp))
  cases hq
  case inl hq =>
    have hz : s.memory.cells .mutex = 0 := by
      simpa [Memory.read_inside ht, Transaction.read_of_empty hw] using hq.right
    cases hq.left
    exact ⟨by simp [hz], hw⟩
  case inr hq =>
    cases hq
    exact hw

theorem acquire (hp : s.pc i = .exchange) (hr : s.memory.read i .mutex = 0) :
    Inv max ((store s i .mutex 1).goto i .load) := by
  have ho := inv.outside_of hm (by simp [hp, Fits])
  have hz : s.memory.cells .mutex = 0 := by simpa [Memory.read_outside ho] using hr
  refine inv.publish (Memory.store_outside ho) rfl (fun _ _ => rfl) inv.current.store ?_ ?_ trivial
    fun _ _ => inv.busy_of hp (by simp) (by simp)
  · exact inv.own.take (by simpa) (by simp [Owns]) (by simp)
  · exact fun j _ hj => absurd hj (inv.not_owns hz j)

theorem spin (hp : s.pc i = .exchange) (hr : s.memory.read i .mutex ≠ 0) :
    Inv max ((store s i .mutex 1).goto i .exchange) := by
  have ho := inv.outside_of hm (by simp [hp, Fits])
  have hz : s.memory.cells .mutex ≠ 0 := by simpa [Memory.read_outside ho] using hr
  refine inv.publish (Memory.store_outside ho) rfl (fun _ _ => rfl) inv.current.store ?_ ?_ trivial
    fun _ _ => inv.busy_of hp (by simp) (by simp)
  · simpa [hz] using inv.own.keep (p := (.outside, .exchange)) (by simp [Owns, State.thread, hp])
  · exact fun j _ _ => update_of_ne mutex_ne_cell.symm ..

theorem load_counter (hp : s.pc i = .load) :
    Inv max ((load s i (cell s i)).goto i (.store (s.memory.read i (cell s i)))) := by
  have hb := inv.busy_of hp (by simp) (by simp)
  cases hx : s.memory.mode i
  case aborted => exact absurd hx hm
  case outside =>
    refine inv.move hx (Memory.load_outside hx) rfl rfl ?_ (Memory.read_outside hx) fun _ _ => hb
    simp [Owns, State.thread, hx, hp]
  case inside t =>
    obtain ⟨hr, hw⟩ := inv.fits_of hx hp
    refine inv.inside_load hx rfl rfl rfl ?_ hb
    rw [Memory.read_inside hx, Transaction.read_of_empty hw]
    exact ⟨List.mem_cons_of_mem _ hr, hw, List.mem_cons_self⟩

theorem store_counter (hp : s.pc i = .store v) :
    Inv max ((store s i (cell s i) (v + 1)).goto i .test) := by
  have hb := inv.busy_of hp (by simp) (by simp)
  cases hx : s.memory.mode i
  case aborted => exact absurd hx hm
  case outside =>
    have ho : Owns (s.thread i) := by simp [Owns, State.thread, hx, hp]
    have hk : Owns ((.outside : Mode (Cell m) ℤ), .test) ↔ Owns (s.thread i) := by
      simp [Owns, State.thread, hx, hp]
    refine inv.publish (Memory.store_outside hx) rfl (fun _ _ => rfl) inv.current.store ?_ ?_
      trivial fun _ _ => hb
    · simpa [update_of_ne mutex_ne_cell] using inv.own.keep hk
    · exact fun j hj h => absurd h (inv.own.not_of_ne ho hj)
  case inside t =>
    obtain ⟨hr, hw, hv⟩ := inv.fits_of hx hp
    have hy := Memory.store_inside (k := cell s i) (a := v + 1) hx
    refine inv.quiet (by simp [store, hy]) (congrArg Memory.mode hy) rfl rfl inv.current.store ?_ ?_
      fun _ _ => hb
    · simp [Owns, State.thread, hx]
    · exact ⟨hr, v, by rw [hw], hv⟩

-- A thread which finds `mutex` free in the second test has not taken it.
theorem inside_of_test (hp : s.pc i = .test) (hz : s.memory.read i .mutex = 0) :
    ∃ t, s.memory.mode i = .inside t := by
  cases hx : s.memory.mode i
  case aborted  => exact absurd hx hm
  case inside t => exact ⟨t, rfl⟩
  case outside  =>
    have ho : Owns (s.thread i) := by simp [Owns, State.thread, hx, hp]
    rw [Memory.read_outside hx] at hz
    exact absurd ho (inv.not_owns hz i)

theorem test_free (hp : s.pc i = .test) (hz : s.memory.read i .mutex = 0) :
    Inv max ((load s i .mutex).goto i .xend) := by
  have ⟨t, ht⟩ := inv.inside_of_test hm hp hz
  have ⟨hr, v, hw, hv⟩ := inv.fits_of ht hp
  refine inv.inside_load ht rfl rfl rfl ?_ (inv.busy_of hp (by simp) (by simp))
  exact ⟨List.mem_cons_of_mem _ hr, v, hw, List.mem_cons_of_mem _ hv⟩

theorem test_taken (hp : s.pc i = .test) (hz : s.memory.read i .mutex ≠ 0) :
    Inv max ((load s i .mutex).goto i .unlock) := by
  cases hx : s.memory.mode i
  case aborted => exact absurd hx hm
  case outside =>
    refine inv.move hx (Memory.load_outside hx) rfl rfl ?_ trivial ?_
    · simp [Owns, State.thread, hx, hp]
    · exact fun _ _ => inv.busy_of hp (by simp) (by simp)
  case inside t =>
    have ⟨hr, v, hw, _⟩ := inv.fits_of hx hp
    exact absurd (inv.read_mutex hx hr hw) hz

-- A transaction which commits has found `mutex` free.
theorem xend_inside (hp : s.pc i = .xend) :
    ∃ t v, s.memory.mode i = .inside t ∧ (.mutex, 0) ∈ t.reads ∧
      t.writes = [(cell s i, v + 1)] ∧ (cell s i, v) ∈ t.reads := by
  have ⟨t, ht⟩ := inv.inside_of hm (by simp [hp, Fits])
  have ⟨hr, v, hw, hv⟩ := inv.fits_of ht hp
  exact ⟨t, v, ht, hr, hw, hv⟩

theorem xend {y : Memory (Fin n) (Cell m) ℤ} (hp : s.pc i = .xend)
    (hy : s.memory.commit i = some y) : Inv max (countSection (setMemory s y) i) := by
  have ⟨t, v, ht, hr, hw, hv⟩ := inv.xend_inside hm hp
  have hc := inv.current.commit hy
  have hz := inv.free_of_read ht hr
  rw [Memory.commit_inside ht, Transaction.read_of_single hw] at hy
  cases hy
  refine inv.publish rfl rfl (fun j hj => update_of_ne hj ..) hc ?_ ?_ trivial fun h => absurd rfl h
  · rw [update_of_ne mutex_ne_cell]
    exact inv.own.keep (by simp [Owns, State.thread, ht])
  · exact fun j _ hj => absurd hj (inv.not_owns hz j)

theorem unlock (hp : s.pc i = .unlock) : Inv max (countSection (store s i .mutex 0) i) := by
  have ho := inv.outside_of hm (by simp [hp, Fits])
  have hi : Owns (s.thread i) := by simp [Owns, State.thread, ho, hp]
  refine inv.publish (Memory.store_outside ho) rfl (fun j hj => update_of_ne hj ..)
    inv.current.store ?_ ?_ trivial fun h => absurd rfl h
  · exact inv.own.free hi (by simp [Owns]) (by simp)
  · exact fun j hj h => absurd h (inv.own.not_of_ne hi hj)

theorem statement (h : Statement max s i s') : Inv max s' := by
  cases h
  case enter hp hi     =>
    have ho := inv.outside_of hm (by simp [hp, Fits])
    exact inv.move ho rfl rfl rfl (by simp [Owns, State.thread, hp]) trivial fun _ _ => hi
  case finish hp       =>
    have ho := inv.outside_of hm (by simp [hp, Fits])
    exact inv.move ho rfl rfl rfl (by simp [Owns, State.thread, hp]) trivial fun _ h => absurd rfl h
  case elide hp _ | fallBack hp _ =>
    have ho := inv.outside_of hm (by simp [hp, Fits])
    exact inv.move ho rfl rfl rfl (by simp [Owns, State.thread, hp]) trivial
      fun _ _ => inv.busy_of hp (by simp) (by simp)
  case start hp        => exact inv.start hm hp
  case available hp hz => exact inv.test_mutex hm hp (.inl ⟨rfl, hz⟩)
  case taken hp _      => exact inv.test_mutex hm hp (.inr rfl)
  case xabort hx       => exact inv.abort hx
  case acquire hp hz   => exact inv.acquire hm hp hz
  case spin hp hz      => exact inv.spin hm hp hz
  case load hp         => exact inv.load_counter hm hp
  case store hp        => exact inv.store_counter hm hp
  case testFree hp hz  => exact inv.test_free hm hp hz
  case testTaken hp hz => exact inv.test_taken hm hp hz
  case xend hp hy      => exact inv.xend hm hp hy
  case unlock hp       => exact inv.unlock hm hp

end Statement

theorem step (h : Step max s l s') : Inv max s' := by
  cases h
  case statement hm h => exact inv.statement hm h
  case abort hy       => exact inv.abort hy
  case resume hy      => exact inv.resume hy

end Inv

theorem inv_of_reachable (r : (machine n m max).Reachable s) : Inv max s := by
  apply r.invariant
  case init =>
    rintro _ rfl
    exact .init
  case step => exact fun _ _ _ _ inv h => inv.step (.of_step h)

end Rtm
