import Concurrencia.Channels.ParallelMatrixMultiplication.Theorems.Live
import Concurrencia.Threads.Count
import Mathlib.Tactic.Ring

open Function Threads

namespace ParallelMatrixMultiplication

open Rendezvous

variable {dim w : ℕ} {m1 m2 : Matrix dim w} {s s' : State dim w} {v : Chan → ℕ} {i : Fin dim}
variable {l : Label dim} {p q : Process dim} {f : (p : Process dim) → Local dim w p}
variable {d : DoneChannel (RowResult dim w)}

def State.result (s : State dim w) (i : Fin dim) : Result dim w :=
  s.proc (.result i)

def State.finished (s : State dim w) (i : Fin dim) : Bool :=
  (s.result i).finished

-- The row which the process `result` of this row computes.
def IsProduct (m1 m2 : Matrix dim w) (i : Fin dim) (row : Row dim w) : Prop :=
  ∀ k, row k = ∑ j, m1 i j * m2 j k

structure Inv (m1 m2 : Matrix dim w) (s : State dim w) (v : Chan → ℕ) : Prop where
  holds    : ∀ p, Holds m1 m2 v p (s.proc p)
  complete : ∀ i, s.finished i → ¬(s.result i).i < dim
  counts   : s.done.Counts (count s.finished (· = true))
  sent     : ∀ r ∈ s.done.sent, s.finished r.i ∧ IsProduct m1 m2 r.i r.row
  nodup    : (s.done.sent.map RowResult.i).Nodup

-- What the processes and `main` have done so far.
def progress (v : Chan → ℕ) (s : State dim w) : ℕ :=
  ∑ d : Fin dim × Fin dim, total v d.fst d.snd + count s.finished (· = true) +
    s.done.received.length

section Progress

variable {c : Chan} {a : BitVec w} {x : Local dim w p} {i j : ℕ}

theorem le_update (v : Chan → ℕ) (c c' : Chan) : v c' ≤ update v c (v c + 1) c' := by
  by_cases hc : c' = c
  case pos => simp [hc]
  case neg => simp [hc]

theorem total_le (v : Chan → ℕ) (c : Chan) (i j : ℕ) :
    total v i j ≤ total (update v c (v c + 1)) i j := by
  have hn := le_update v c (north i j)
  have hs := le_update v c (south i j)
  have he := le_update v c (east i j)
  have hw := le_update v c (west i j)
  rw [total, total]
  omega

theorem total_lt (v : Chan → ℕ) (h : c = north i j ∨ c = south i j ∨ c = east i j ∨ c = west i j) :
    total v i j < total (update v c (v c + 1)) i j := by
  have hn := le_update v c (north i j)
  have hs := le_update v c (south i j)
  have he := le_update v c (east i j)
  have hw := le_update v c (west i j)
  have hc := update_self c (v c + 1) v
  rw [total, total]
  cases h
  case inl h =>
    subst h
    omega
  case inr h =>
    cases h
    case inl h =>
      subst h
      omega
    case inr h =>
      cases h
      all_goals
        subst c
        omega

-- One end of each channel at least is a multiplier.
theorem exists_total_lt (v : Chan → ℕ) (h : offer m1 m2 p x = .send c a) :
    ∃ d : Fin dim × Fin dim,
      total v d.fst d.snd < total (update v c (v c + 1)) d.fst d.snd := by
  cases p
  case zero i =>
    cases h
    have hd : dim - 1 < dim := Nat.sub_one_lt_of_lt i.pos
    exact ⟨(i, ⟨dim - 1, hd⟩), total_lt v (.inr (.inr (.inl rfl)))⟩
  case source j =>
    simp only [offer] at h
    split_ifs at h
    cases h
    exact ⟨(⟨0, j.pos⟩, j), total_lt v (.inl rfl)⟩
  case multiplier i j =>
    cases x <;> cases h
    case south => exact ⟨(i, j), total_lt v (.inr (.inl rfl))⟩
    case west => exact ⟨(i, j), total_lt v (.inr (.inr (.inr rfl)))⟩
  case sink => cases h
  case result =>
    simp only [offer] at h
    split_ifs at h

end Progress

-- A communication does not finish a row, and adds to one only while there is something missing.
theorem result_cases (h : (network m1 m2).communicate s.proc p q = some f) (i : Fin dim) :
    ({ s with proc := f } : State dim w).result i = s.result i ∨
    (s.result i).i < dim ∧ ({ s with proc := f } : State dim w).finished i = s.finished i := by
  have ⟨c, a, hp, hq, hf⟩ := Network.communicate_cases h
  subst hf
  simp only [State.finished, State.result]
  by_cases hr : .result i = q
  case pos =>
    subst hr
    simp only [network, offer] at hq
    split_ifs at hq with hx
    rw [update_self]
    exact .inr ⟨hx, rfl⟩
  case neg =>
    rw [update_of_ne hr]
    by_cases hs : .result i = p
    case pos =>
      subst hs
      exact .inl (update_self ..)
    case neg => exact .inl (update_of_ne hs ..)

theorem finished_communicate (h : (network m1 m2).communicate s.proc p q = some f) :
    ({ s with proc := f } : State dim w).finished = s.finished := by
  ext1 i
  cases result_cases h i
  case inl hr => exact congrArg Result.finished hr
  case inr hr => exact hr.right

namespace Inv

theorem init : Inv m1 m2 (init dim w) fun _ => 0 where
  holds p := by
    cases p <;> simp [ParallelMatrixMultiplication.init, start, Holds]
  complete i h := by cases h
  counts := by
    have hf (i : Fin dim) : ¬State.finished (ParallelMatrixMultiplication.init dim w) i :=
      fun h => by cases h
    rw [count_eq_zero hf]
    exact .empty
  sent r h := by cases h
  nodup := .nil

variable (inv : Inv m1 m2 s v)
include inv

theorem row (h : ¬(s.result i).i < dim) : IsProduct m1 m2 i (s.result i).row := by
  intro k
  have hh := inv.holds (.result i)
  exact hh.right k (Nat.lt_of_lt_of_le k.isLt (Nat.le_of_not_lt h))

theorem communicate (h : (network m1 m2).communicate s.proc p q = some f) :
    ∃ v', Inv m1 m2 { s with proc := f } v' ∧ progress v s < progress v' { s with proc := f } := by
  have hc := finished_communicate h
  have hr := result_cases h
  have ⟨c, a, hp, hq, hf⟩ := Network.communicate_cases h
  refine ⟨update v c (v c + 1), ?_, ?_⟩
  · constructor
    case holds  => exact hf ▸ (plan m1 m2).communicate inv.holds hp hq
    case counts => exact hc ▸ inv.counts
    case sent   => exact hc ▸ inv.sent
    case nodup  => exact inv.nodup
    case complete =>
      intro i hi
      rw [hc] at hi
      cases hr i
      case inl hr => exact hr ▸ inv.complete i hi
      case inr hr => exact absurd hr.left (inv.complete i hi)
  · have ⟨d, hd⟩ := exists_total_lt v hp
    have hl : ({ s with proc := f } : State dim w).done.received.length =
        s.done.received.length := rfl
    rw [progress, progress, hc, hl]
    have ht := Finset.sum_lt_sum (fun d _ => total_le v c d.fst d.snd) ⟨d, Finset.mem_univ d, hd⟩
    omega

theorem result (h : s.done.send ⟨i, (s.result i).row⟩ = some d)
    (hi : ¬(s.result i).i < dim) (hf : ¬s.finished i)
    (hs : s' = {
      proc := update s.proc (.result i) { s.result i with finished := true }, done := d }) :
    Inv m1 m2 s' v ∧ progress v s < progress v s' := by
  have hp (p : Process dim) (hn : p ≠ .result i) : s'.proc p = s.proc p := by
    rw [hs]
    exact update_of_ne hn ..
  have hx : s'.result i = { s.result i with finished := true } := by
    rw [hs]
    exact update_self ..
  have hr (j : Fin dim) (hj : j ≠ i) : s'.result j = s.result j :=
    hp _ fun h => hj (Process.result.inj h)
  have hn : s'.finished = update s.finished i true := by
    ext1 j
    by_cases hj : j = i
    case pos =>
      subst hj
      simp [State.finished, hx]
    case neg => simp [State.finished, hr j hj, hj]
  have hc := count_enter (P := (· = true)) hf (p := true) rfl
  have ⟨hd, _⟩ := DoneChannel.send_cases h
  have hdone : s'.done = d := by rw [hs]
  constructor
  case left =>
    constructor
    case holds =>
      intro p
      by_cases hpi : p = .result i
      case pos =>
        subst hpi
        have hh : Holds m1 m2 v (.result i) (s'.result i) := by
          rw [hx]
          exact inv.holds (.result i)
        exact hh
      case neg => exact hp p hpi ▸ inv.holds p
    case complete =>
      intro j hj
      by_cases hji : j = i
      case pos =>
        subst hji
        rwa [hx]
      case neg =>
        rw [State.finished, hr j hji] at hj
        exact hr j hji ▸ inv.complete j hj
    case counts =>
      rw [hn, hc, hdone]
      exact inv.counts.send h
    case sent =>
      rw [hdone, hd]
      intro r hr
      cases List.mem_append.mp hr
      case inl hr =>
        have ⟨hf, hr⟩ := inv.sent r hr
        refine ⟨?_, hr⟩
        by_cases hri : r.i = i
        case pos => simp [hn, hri]
        case neg => simpa [hn, hri]
      case inr hr =>
        cases List.mem_singleton.mp hr
        exact ⟨by simp [hn], inv.row hi⟩
    case nodup =>
      have hm : i ∉ s.done.sent.map RowResult.i := by
        intro hm
        have ⟨r, hr, hri⟩ := List.mem_map.mp hm
        exact hf (hri ▸ (inv.sent r hr).left)
      rw [hdone, hd, List.map_append]
      exact List.concat_eq_append ▸ inv.nodup.concat hm
  case right =>
    have hl := DoneChannel.send_received h
    rw [progress, progress, hn, hc, hdone, hl]
    omega

theorem receive (h : s.done.receive dim = some d) :
    Inv m1 m2 { s with done := d } v ∧ progress v s < progress v { s with done := d } := by
  have ⟨hs, _⟩ := DoneChannel.receive_cases h
  constructor
  case left => exact {
    holds    := inv.holds
    complete := inv.complete
    counts   := inv.counts.receive h
    sent     := hs ▸ inv.sent
    nodup    := hs ▸ inv.nodup }
  case right =>
    have hl := DoneChannel.receive_length h
    have hf : ({ s with done := d } : State dim w).finished = s.finished := rfl
    rw [progress, progress, hf, hl]
    omega

theorem step (h : step m1 m2 s l = some s') :
    ∃ v', Inv m1 m2 s' v' ∧ progress v s < progress v' s' := by
  cases l <;> simp only [ParallelMatrixMultiplication.step] at h
  case communicate =>
    have ⟨f, hf, hs⟩ := Option.map_eq_some_iff.mp h
    exact hs ▸ inv.communicate hf
  case result i =>
    rw [resultStep] at h
    split_ifs at h with hx
    have ⟨d, hd, hs⟩ := Option.map_eq_some_iff.mp h
    have ⟨hi, hf⟩ := not_or.mp hx
    exact ⟨v, inv.result hd hi hf hs.symm⟩
  case main =>
    have ⟨d, hd, hs⟩ := Option.map_eq_some_iff.mp h
    exact ⟨v, hs ▸ inv.receive hd⟩

theorem north_le (j : Fin dim) {i : ℕ} (hi : i < dim) : v (north i j) ≤ dim := by
  induction i
  case zero =>
    have hs := inv.holds (.source j)
    exact hs.left ▸ hs.right
  case succ i hn =>
    have hi' := Nat.lt_of_succ_lt hi
    have hm := inv.holds (.multiplier ⟨i, hi'⟩ j)
    have hc : v (south i j) = v (north (i + 1) j) := rfl
    have hn := hn hi'
    cases hx : s.proc (.multiplier ⟨i, hi'⟩ j) <;> simp only [hx, Holds] at hm
    all_goals omega

theorem total_le_dim (i j : Fin dim) : total v i j ≤ 4 * dim := by
  have hn := inv.north_le j i.isLt
  have hm := inv.holds (.multiplier i j)
  rw [total]
  cases hx : s.proc (.multiplier i j) <;> simp only [hx, Holds] at hm
  all_goals omega

theorem progress_le : progress v s ≤ 4 * dim ^ 3 + 2 * dim := by
  have ht : ∑ d : Fin dim × Fin dim, total v d.fst d.snd ≤ dim * dim * (4 * dim) := by
    have hs := Finset.sum_le_card_nsmul Finset.univ
      (fun d : Fin dim × Fin dim => total v d.fst d.snd) (4 * dim)
      fun d _ => inv.total_le_dim d.fst d.snd
    simpa using hs
  have hc : count s.finished (· = true) ≤ dim := by
    simpa using count_le_card (f := s.finished) (P := (· = true))
  have hl : s.done.received.length ≤ count s.finished (· = true) := by
    rw [← inv.counts.sent, DoneChannel.sent, List.length_append]
    exact Nat.le_add_right ..
  have hd : dim * dim * (4 * dim) = 4 * dim ^ 3 := by ring
  rw [progress]
  omega

theorem live_of_unfinished (hf : ¬s.finished i) : (machine m1 m2).Live s := by
  by_cases hi : (s.result i).i < dim
  case pos =>
    have hh := inv.holds (.result i)
    have hu : Unfinished v (i, (⟨0, i.pos⟩ : Fin dim)) := Nat.lt_of_le_of_lt hh.left.ge hi
    have ⟨p, q, hc⟩ := network_live inv.holds hu
    exact ⟨.communicate p q, by simpa [machine, ParallelMatrixMultiplication.step] using hc⟩
  case neg =>
    have hc : count s.finished (· = true) < dim := by
      simpa using count_lt_card (f := s.finished) (P := (· = true)) hf
    cases inv.counts.live hc ⟨i, (s.result i).row⟩
    case inl hs =>
      have hx : ¬((s.result i).i < dim ∨ (s.result i).finished) := not_or.mpr ⟨hi, hf⟩
      refine ⟨.result i, (congrArg Option.isSome (if_neg hx)).trans ?_⟩
      rwa [Option.isSome_map]
    case inr hr => exact ⟨.main, by simpa [machine, ParallelMatrixMultiplication.step] using hr⟩

theorem live (h : s.done.received.length < dim) : (machine m1 m2).Live s := by
  by_cases hf : ∀ i, s.finished i
  case neg =>
    have ⟨i, hi⟩ := not_forall.mp hf
    exact inv.live_of_unfinished hi
  case pos =>
    have hc : count s.finished (· = true) = dim := by simp [count, hf]
    have hr := DoneChannel.receive_isSome (c := s.done) (n := dim) (by rwa [inv.counts.sent, hc]) h
    exact ⟨.main, by simpa [machine, ParallelMatrixMultiplication.step] using hr⟩

end Inv

-- The rows may arrive in any order.
theorem foldl_row {g m : Matrix dim w} {rs : List (RowResult dim w)} (h : ∀ r ∈ rs, r.row = g r.i)
    (hi : i ∈ rs.map RowResult.i ∨ m i = g i) :
    rs.foldl (fun m r => update m r.i r.row) m i = g i := by
  induction rs generalizing m
  case nil => exact hi.resolve_left (by simp)
  case cons r rs hr =>
    apply hr fun r hm => h r (List.mem_cons_of_mem _ hm)
    by_cases hri : i = r.i
    case pos =>
      subst hri
      exact .inr ((update_self ..).trans (h r List.mem_cons_self))
    case neg =>
      exact hi.imp (fun hm => (List.mem_cons.mp hm).resolve_left hri)
        (update_of_ne hri r.row m).trans

theorem Inv.results (inv : Inv m1 m2 s v) (h : s.done.received.length = dim) (i k : Fin dim) :
    s.results i k = ∑ j, m1 i j * m2 j k := by
  have hn : (s.done.received.map RowResult.i).Nodup := by
    have hn := inv.nodup
    rw [DoneChannel.sent, List.map_append] at hn
    exact hn.of_append_left
  have hc : (s.done.received.map RowResult.i).toFinset.card = Fintype.card (Fin dim) := by
    rw [List.toFinset_card_of_nodup hn, List.length_map, h, Fintype.card_fin]
  have hm : i ∈ s.done.received.map RowResult.i :=
    List.mem_toFinset.mp <| Finset.eq_univ_of_card _ hc ▸ Finset.mem_univ i
  have hr : ∀ r ∈ s.done.received, r.row = fun k => ∑ j, m1 r.i j * m2 j k := fun r hr =>
    funext (inv.sent r (List.mem_append_left _ hr)).right
  exact congrFun (foldl_row (g := fun i k => ∑ j, m1 i j * m2 j k) hr (.inl hm)) k

theorem inv_of_run {ls : List (Label dim)} (r : (machine m1 m2).Run (init dim w) ls s) :
    ∃ v, Inv m1 m2 s v ∧ ls.length ≤ progress v s := by
  have ⟨n, hl, v, inv, hn⟩ := r.length_le (M := fun s n => ∃ v, Inv m1 m2 s v ∧ progress v s = n)
    ⟨_, .init, rfl⟩ fun s n l s' ⟨v, inv, hn⟩ hs =>
      have ⟨v', inv', hp⟩ := inv.step hs
      ⟨_, hn ▸ hp, v', inv', rfl⟩
  exact ⟨v, inv, by omega⟩

theorem product_computed {ls : List (Label dim)} (r : (machine m1 m2).Run (init dim w) ls s) :
    ls.length ≤ 4 * dim ^ 3 + 2 * dim ∧
    (s.done.received.length < dim → (machine m1 m2).Live s) ∧
    (s.done.received.length = dim → ∀ i k, s.results i k = ∑ j, m1 i j * m2 j k) := by
  have ⟨v, inv, hl⟩ := inv_of_run r
  exact ⟨hl.trans inv.progress_le, inv.live, inv.results⟩

-- On integers of eight bits, where the last entry of the product is 298 - 256.
theorem product_computed_two : ∃ s : State 2 8, s.results 1 1 = 42 :=
  have ⟨s, h, hd⟩ : ∃ s, (machine ![![1, 2], ![3, 40]] ![![5, 6], ![7, 7]]).exec (init 2 8) [
      .communicate (.source 0) (.multiplier 0 0), .communicate (.source 1) (.multiplier 0 1),
      .communicate (.multiplier 0 0) (.multiplier 1 0),
      .communicate (.multiplier 0 1) (.multiplier 1 1), .communicate (.zero 0) (.multiplier 0 1),
      .communicate (.multiplier 0 1) (.multiplier 0 0), .communicate (.source 1) (.multiplier 0 1),
      .communicate (.multiplier 0 0) (.result 0), .communicate (.source 0) (.multiplier 0 0),
      .communicate (.multiplier 1 0) (.sink 0), .communicate (.multiplier 1 1) (.sink 1),
      .communicate (.zero 1) (.multiplier 1 1), .communicate (.multiplier 1 1) (.multiplier 1 0),
      .communicate (.multiplier 0 1) (.multiplier 1 1), .communicate (.zero 0) (.multiplier 0 1),
      .communicate (.multiplier 1 0) (.result 1), .communicate (.multiplier 0 0) (.multiplier 1 0),
      .communicate (.multiplier 0 1) (.multiplier 0 0), .communicate (.multiplier 0 0) (.result 0),
      .communicate (.multiplier 1 0) (.sink 0), .communicate (.multiplier 1 1) (.sink 1),
      .communicate (.zero 1) (.multiplier 1 1), .communicate (.multiplier 1 1) (.multiplier 1 0),
      .communicate (.multiplier 1 0) (.result 1), .result 1, .main, .result 0, .main] =
      some s ∧ s.done.received.length = 2 := ⟨_, rfl, rfl⟩
  ⟨s, ((product_computed (Machine.Run.iff_exec.mpr h)).right.right hd 1 1).trans (by decide)⟩

end ParallelMatrixMultiplication
