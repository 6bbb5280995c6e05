import Concurrencia.Intro.Counter.Basic
import Concurrencia.Threads.Basic
import Concurrencia.Threads.Count
import Mathlib

open Function

namespace Counter

variable {n rounds amount : ℕ} {s s₁ s₂ : State n} {t : Fin n}

theorem step_load (hp : s.pc t = .load) (hi : s.i t < rounds) :
    step rounds amount s t = some { s with pc := update s.pc t (.store s.counter) } := by
  simp [step, hp, hi]

theorem step_store {c : ℕ} (hp : s.pc t = .store c) :
    step rounds amount s t =
      some ⟨update s.pc t .load, update s.i t (s.i t + 1), c + amount⟩ := by
  simp [step, hp]

-- All that a step can do.
theorem step_cases (h : step rounds amount s₁ t = some s₂) :
    s₁.pc t = .load ∧ s₁.i t < rounds ∧
      s₂ = { s₁ with pc := update s₁.pc t (.store s₁.counter) } ∨
    ∃ c, s₁.pc t = .store c ∧
      s₂ = ⟨update s₁.pc t .load, update s₁.i t (s₁.i t + 1), c + amount⟩ := by
  cases hp : s₁.pc t
  case load =>
    rw [step, hp] at h
    obtain ⟨hi, rfl⟩ := by simpa using h
    exact .inl ⟨rfl, hi, rfl⟩
  case store c =>
    rw [step_store hp, Option.some.injEq] at h
    exact .inr ⟨c, rfl, h.symm⟩

-- Each increment adds at most one to the sum of the loop variables.
structure Bounded (rounds : ℕ) (s : State n) : Prop where
  loops : ∀ t, s.i t ≤ rounds
  storing : ∀ {t c}, s.pc t = .store c → s.i t < rounds ∧ c ≤ ∑ t, s.i t
  counter : s.counter ≤ ∑ t, s.i t

-- Who has finished a round has left a trace in the counter, and so has each later round.
structure Positive (s : State n) : Prop where
  counter : ∀ {t}, 0 < s.i t → 0 < s.counter
  storing : ∀ {t c}, s.pc t = .store c → 0 < s.i t → 0 < c
  second : s.counter ≤ 1 → ∃ t, s.i t ≤ 1

theorem Bounded.init : Bounded rounds (init n) where
  loops _   := Nat.zero_le _
  storing h := by simp [Counter.init] at h
  counter   := Nat.zero_le _

theorem Bounded.step (h : Bounded rounds s₁) (hs : step rounds 1 s₁ t = some s₂) :
    Bounded rounds s₂ := by
  obtain ⟨hp, hi, rfl⟩ | ⟨c, hp, rfl⟩ := step_cases hs
  case inl =>
    refine { h with storing := ?_ }
    intro u c hu
    by_cases hut : u = t
    case pos =>
      subst hut
      obtain rfl : s₁.counter = c := by simpa using hu
      exact ⟨hi, h.counter⟩
    case neg => exact h.storing (by simpa [hut] using hu)
  case inr =>
    have hc := h.storing hp
    have hsum := Threads.sum_update (f := s₁.i) (i := t) (p := s₁.i t + 1) (g := id)
    simp only [id_eq] at hsum
    constructor
    case loops => exact Threads.forall_update (P := (· ≤ rounds)) hc.left fun u _ => h.loops u
    case counter =>
      show c + 1 ≤ ∑ u, update s₁.i t (s₁.i t + 1) u
      omega
    case storing =>
      intro u d hu
      have hut : u ≠ t := by
        rintro rfl
        simp at hu
      have hd := h.storing (t := u) (c := d) (by simpa [hut] using hu)
      refine ⟨by simpa [hut] using hd.left, ?_⟩
      show d ≤ ∑ u, update s₁.i t (s₁.i t + 1) u
      omega

theorem Positive.init (h : 0 < n) : Positive (init n) where
  counter h := absurd h (Nat.lt_irrefl 0)
  storing h := by simp [Counter.init] at h
  second _  := ⟨⟨0, h⟩, Nat.zero_le _⟩

theorem Positive.step (h : Positive s₁) (hs : step rounds 1 s₁ t = some s₂) : Positive s₂ := by
  obtain ⟨hp, hi, rfl⟩ | ⟨c, hp, rfl⟩ := step_cases hs
  case inl =>
    refine { h with storing := ?_ }
    intro u c hu hi
    by_cases hut : u = t
    case pos =>
      subst hut
      obtain rfl : s₁.counter = c := by simpa using hu
      exact h.counter hi
    case neg => exact h.storing (by simpa [hut] using hu) hi
  case inr =>
    constructor
    case counter => exact fun _ => Nat.succ_pos c
    case storing =>
      intro u d hu hi
      have hut : u ≠ t := by
        rintro rfl
        simp at hu
      exact h.storing (t := u) (by simpa [hut] using hu) (by simpa [hut] using hi)
    case second =>
      -- The store of one comes from a thread which has loaded zero, so this is its first round.
      intro hc
      have hc : c = 0 := by simpa using hc
      have hi : s₁.i t = 0 := by
        by_contra hn
        exact absurd (h.storing hp (Nat.pos_of_ne_zero hn)) (by omega)
      exact ⟨t, by simp [hi]⟩

theorem Bounded.of_reachable (r : (machine n rounds 1).Reachable s) : Bounded rounds s :=
  r.invariant (fun _ h => h ▸ .init) fun _ _ _ _ => .step

theorem Positive.of_reachable (hn : 0 < n) (r : (machine n rounds 1).Reachable s) : Positive s :=
  r.invariant (fun _ h => h ▸ .init hn) fun _ _ _ _ => .step

theorem bounds_of_finished (hn : 0 < n) (hr : 0 < rounds) (r : (machine n rounds 1).Reachable s)
    (hf : Finished rounds s) : min 2 rounds ≤ s.counter ∧ s.counter ≤ n * rounds := by
  have hp := Positive.of_reachable hn r
  constructor
  case left =>
    by_contra hc
    have ⟨t, ht⟩ := hp.second (by omega)
    have := (hf t).right
    have := hp.counter (t := t) (by omega)
    omega
  case right =>
    have hc := (Bounded.of_reachable r).counter
    simpa [fun t => (hf t).right] using hc

section Runs

variable {d e : Fin n → ℕ} {a b : Fin n}

-- The rounds of `d` are added to those the threads have finished, and no increment gets lost.
def State.advance (s : State n) (d : Fin n → ℕ) : State n :=
  { s with i := s.i + d, counter := s.counter + ∑ t, d t }

@[simp]
theorem State.advance_pc : (s.advance d).pc = s.pc := rfl

@[simp]
theorem State.advance_i : (s.advance d).i t = s.i t + d t := rfl

theorem State.advance_zero : s.advance 0 = s := by
  simp [advance]

theorem increment (hp : s.pc t = .load) (hi : s.i t < rounds) :
    (machine n rounds 1).Run s [t, t] (s.advance (Pi.single t 1)) := by
  refine .step (step_load hp hi) (.single ?_)
  refine (step_store (update_self ..)).trans ?_
  have hpc : update s.pc t .load = s.pc := by rw [← hp, update_eq_self]
  have hi : update s.i t (s.i t + 1) = s.i + Pi.single t 1 := by
    ext u
    by_cases hu : u = t
    case pos => simp [hu]
    case neg => simp [hu]
  simp [State.advance, hpc, hi]

theorem State.advance_add : (s.advance d).advance e = s.advance (d + e) := by
  simp [advance, Finset.sum_add_distrib, add_assoc]

theorem exists_eq_single_add (h : 0 < d t) : ∃ e : Fin n → ℕ, d = Pi.single t 1 + e := by
  refine ⟨update d t (d t - 1), ?_⟩
  ext u
  by_cases hu : u = t
  case pos =>
    subst hu
    simp
    omega
  case neg => simp [hu]

-- Threads which do not interfere run their rounds one after the other.
theorem exists_run_advance (h : ∀ t, 0 < d t → s.pc t = .load ∧ s.i t + d t ≤ rounds) :
    ∃ as, (machine n rounds 1).Run s as (s.advance d) := by
  generalize hk : ∑ t, d t = k
  induction k generalizing s d
  case zero =>
    obtain rfl : d = 0 := by
      ext t
      exact Finset.sum_eq_zero_iff.mp hk t (Finset.mem_univ t)
    exact ⟨[], State.advance_zero.symm ▸ .refl⟩
  case succ k hi =>
    have ⟨t, _, ht⟩ := Finset.exists_ne_zero_of_sum_ne_zero (hk.trans_ne (Nat.succ_ne_zero k))
    have ht : 0 < d t := Nat.pos_of_ne_zero ht
    obtain ⟨e, rfl⟩ := exists_eq_single_add ht
    have hr := increment (h t ht).left (lt_of_lt_of_le (Nat.lt_add_of_pos_right ht) (h t ht).right)
    have ⟨as, hs⟩ := @hi (s.advance (Pi.single t 1)) e ?next ?sum
    case next =>
      intro u hu
      have hd : 0 < (Pi.single t 1 + e : Fin n → ℕ) u := Nat.add_pos_right _ hu
      rw [State.advance_i, add_assoc]
      exact h u hd
    case sum =>
      rw [Pi.add_def, Finset.sum_add_distrib, Finset.sum_pi_single'] at hk
      simp at hk
      omega
    rw [State.advance_add] at hs
    exact ⟨_, hr.trans hs⟩

-- No thread is between its load and its store.
def resting (i : Fin n → ℕ) (c : ℕ) : State n where
  pc _    := .load
  i       := i
  counter := c

variable (rounds) in
theorem run_keep {i : Fin n → ℕ} {c : ℕ} (h : ∀ t, i t + d t ≤ rounds) :
    ∃ as, (machine n rounds 1).Run (resting i c) as (resting (i + d) (c + ∑ t, d t)) :=
  exists_run_advance (s := resting i c) fun t _ => ⟨rfl, h t⟩

variable (rounds) in
-- While thread `a` is between its load and its store, the increments of the others get lost.
theorem run_lose {i : Fin n → ℕ} {c : ℕ} (hi : i a < rounds) (hd : d a = 0)
    (h : ∀ t, i t + d t ≤ rounds) :
    ∃ as, (machine n rounds 1).Run (resting i c) as (resting (i + d + Pi.single a 1) (c + 1)) := by
  have hl : (machine n rounds 1).step (resting i c) a =
      some { resting i c with pc := update (resting i c).pc a (.store c) } :=
    @step_load n rounds 1 (resting i c) a rfl hi
  have ⟨as, hr⟩ := @exists_run_advance n rounds
    { resting i c with pc := update (resting i c).pc a (.store c) } d fun t ht => by
      have hta : t ≠ a := by
        rintro rfl
        exact ht.ne' hd
      exact ⟨by simp [hta, resting], h t⟩
  refine ⟨_, .step hl (hr.trans (.single ((step_store (update_self ..)).trans ?_)))⟩
  have hi : update (i + d) a (i a + d a + 1) = i + d + Pi.single a 1 := by
    ext u
    by_cases hu : u = a
    case pos => simp [hu]
    case neg => simp [hu]
  simp [State.advance, resting, hi]

-- The rounds which `a` and `b` may lose by their first and their last one.
def spare (rounds : ℕ) (a b t : Fin n) : ℕ :=
  if t = a then 0 else if t = b then rounds - 1 else rounds

theorem spare_le : spare rounds a b t ≤ rounds := by
  unfold spare
  split_ifs <;> omega

theorem spare_add (hab : a ≠ b) (hr : 0 < rounds) :
    spare rounds a b + Pi.single a rounds + Pi.single b 1 = fun _ => rounds := by
  ext t
  by_cases hta : t = a
  case pos => simp [spare, hta, hab]
  case neg =>
    by_cases htb : t = b
    case pos =>
      simp [spare, htb, hab.symm]
      omega
    case neg => simp [spare, hta, htb]

theorem sum_spare (hab : a ≠ b) (hr : 0 < rounds) :
    ∑ t, spare rounds a b t + rounds + 1 = n * rounds := by
  have h := congrArg (fun f => ∑ t, f t) (spare_add (n := n) hab hr)
  simpa [Finset.sum_add_distrib] using h

-- A part of the given size.
theorem exists_part {c : Fin n → ℕ} {k : ℕ} (h : k ≤ ∑ t, c t) :
    ∃ d e : Fin n → ℕ, d + e = c ∧ ∑ t, d t = k := by
  induction k
  case zero => exact ⟨0, c, zero_add c, by simp⟩
  case succ k hi =>
    have ⟨d, e, hc, hk⟩ := hi (Nat.le_of_succ_le h)
    have ⟨t, _, ht⟩ : ∃ t ∈ Finset.univ, d t < c t := by
      apply Finset.exists_lt_of_sum_lt
      omega
    have ht : 0 < e t := by
      rw [← hc, Pi.add_apply] at ht
      omega
    obtain ⟨e, rfl⟩ := exists_eq_single_add ht
    refine ⟨d + Pi.single t 1, e, (add_assoc d _ e).trans hc, ?_⟩
    simp [Finset.sum_add_distrib, hk]

-- First `a` loses some rounds of all the others, and then `b` loses some rounds of `a`.
theorem exists_run_twice {v : ℕ} (hab : a ≠ b) (hr : 0 < rounds) (hl : 2 ≤ v)
    (hu : v ≤ n * rounds) :
    ∃ as s, (machine n rounds 1).Run (init n) as s ∧ Finished rounds s ∧ s.counter = v := by
  have hs := sum_spare hab hr
  obtain ⟨k, x, y, hk, hv, hxy⟩ : ∃ k x y, k ≤ ∑ t, spare rounds a b t ∧ k + 1 + x + 1 = v ∧
      1 + x + y = rounds := by
    refine ⟨min (v - 2) (∑ t, spare rounds a b t), v - 2 - ∑ t, spare rounds a b t,
      rounds - 1 - (v - 2 - ∑ t, spare rounds a b t), ?_⟩
    omega
  obtain ⟨d, e, hc, rfl⟩ := exists_part hk
  have hde (t : Fin n) : d t + e t = spare rounds a b t := congrFun hc t
  have hle (t : Fin n) : d t + e t ≤ rounds := hde t ▸ spare_le
  have ha : d a + e a = 0 := by simp [hde, spare]
  have hb : d b + e b + 1 = rounds := by
    simp [hde, spare, hab.symm]
    omega
  have hx (t : Fin n) : (d + e + Pi.single a 1 : Fin n → ℕ) t + (Pi.single a x : Fin n → ℕ) t
      + (Pi.single a y : Fin n → ℕ) t ≤ rounds := by
    by_cases hta : t = a
    case pos =>
      subst hta
      simp
      omega
    case neg => simpa [hta] using hle t
  have ⟨_, r₁⟩ := run_keep rounds (i := 0) (c := 0) (d := d) fun t => by
    have := hle t
    simp
    omega
  have ⟨_, r₂⟩ := run_lose rounds (i := 0 + d) (c := 0 + ∑ t, d t) (d := e) (a := a)
    (by simp; omega) (by omega) (by simpa using hle)
  have ⟨_, r₃⟩ := run_keep rounds (i := 0 + d + e + Pi.single a 1) (c := 0 + ∑ t, d t + 1)
    (d := Pi.single a x) fun t => by
      have := hx t
      simp at this ⊢
      omega
  have ⟨_, r₄⟩ := run_lose rounds (i := 0 + d + e + Pi.single a 1 + Pi.single a x)
    (c := 0 + ∑ t, d t + 1 + ∑ t, (Pi.single a x : Fin n → ℕ) t)
    (d := Pi.single a y) (a := b)
    (by simp [hab.symm]; omega) (by simp [hab.symm]) (by simpa using hx)
  refine ⟨_, _, (r₁.trans r₂).trans (r₃.trans r₄), fun t => ⟨rfl, ?_⟩, ?_⟩
  · by_cases hta : t = a
    case pos =>
      subst hta
      simp [resting, hab]
      omega
    case neg =>
      by_cases htb : t = b
      case pos =>
        subst htb
        simpa [resting, hta] using hb
      case neg => simp [resting, hta, htb, hde, spare]
  · simp [resting]
    omega

end Runs

theorem exists_run_of_bounds {v : ℕ} (hn : 2 ≤ n) (hl : min 2 rounds ≤ v) (hr : 0 < rounds)
    (hu : v ≤ n * rounds) :
    ∃ as s, (machine n rounds 1).Run (init n) as s ∧ Finished rounds s ∧ s.counter = v := by
  obtain ⟨a, b, hab⟩ : ∃ a b : Fin n, a ≠ b := ⟨⟨0, by omega⟩, ⟨1, by omega⟩, by simp⟩
  by_cases hv : 2 ≤ v
  case neg =>
    -- The rounds of the others are those which `a` loses.
    obtain rfl : rounds = 1 := by omega
    obtain rfl : v = 1 := by omega
    have ⟨as, r⟩ := run_lose 1 (i := 0) (c := 0) (d := update (fun _ => 1) a 0) Nat.one_pos
      (update_self ..) fun t => by
        simpa using Threads.forall_update (P := (· ≤ 1)) (Nat.zero_le 1) (fun _ _ => Nat.le_refl 1) t
    refine ⟨as, _, r, fun t => ⟨rfl, ?_⟩, rfl⟩
    by_cases hta : t = a
    case pos => simp [hta, resting]
    case neg => simp [hta, resting]
  case pos => exact exists_run_twice hab hr hv hu

-- The program with any `amount` is the one which counts by one, seen through a factor.
def Pc.scale (amount : ℕ) : Pc → Pc
  | .load    => .load
  | .store c => .store (c * amount)

theorem Pc.scale_eq_load {p : Pc} : p.scale amount = .load ↔ p = .load := by
  cases p <;> simp [scale]

def State.scale (amount : ℕ) (s : State n) : State n where
  pc      := Pc.scale amount ∘ s.pc
  i       := s.i
  counter := s.counter * amount

theorem scale_init : (init n).scale amount = init n := by
  simp only [State.scale, init, Nat.zero_mul]
  rfl

theorem step_scale : step rounds amount (s.scale amount) t =
    (step rounds 1 s t).map (·.scale amount) := by
  cases hp : s.pc t
  case load =>
    by_cases hi : s.i t < rounds
    case neg => simp [step, State.scale, Pc.scale, hp, hi]
    case pos =>
      have hp' : (s.scale amount).pc t = .load := Pc.scale_eq_load.mpr hp
      rw [@step_load _ _ 1 _ _ hp hi, @step_load _ _ amount _ _ hp' hi]
      simp only [State.scale, comp_update, Pc.scale, Option.map_some]
  case store c =>
    have hp' : (s.scale amount).pc t = .store (c * amount) := by simp [State.scale, hp, Pc.scale]
    rw [@step_store _ rounds 1 _ _ _ hp, @step_store _ rounds amount _ _ _ hp']
    simp only [State.scale, comp_update, Pc.scale, Option.map_some, Nat.add_mul, Nat.one_mul]

theorem reachable_iff : (machine n rounds amount).Reachable s ↔
    ∃ s', (machine n rounds 1).Reachable s' ∧ s'.scale amount = s := by
  constructor
  case mp =>
    intro r
    refine r.invariant (I := fun s => ∃ s', (machine n rounds 1).Reachable s' ∧ s'.scale amount = s)
      ?init ?step
    case init =>
      rintro s rfl
      exact ⟨init n, .init rfl, scale_init⟩
    case step =>
      rintro s₁ t s₂ _ ⟨s, r, rfl⟩ h
      obtain ⟨s', hs, rfl⟩ := Option.map_eq_some_iff.mp (step_scale.symm.trans h)
      exact ⟨s', r.step hs, rfl⟩
  case mpr =>
    rintro ⟨s, r, rfl⟩
    refine r.invariant (I := fun s => (machine n rounds amount).Reachable (s.scale amount)) ?init ?step
    case init =>
      rintro s rfl
      exact .init scale_init
    case step =>
      intro s₁ t s₂ _ r h
      exact r.step (step_scale.trans (congrArg _ h))

theorem finished_scale : Finished rounds (s.scale amount) ↔ Finished rounds s :=
  forall_congr' fun _ => and_congr_left' Pc.scale_eq_load

theorem final_values {v : ℕ} (hn : 2 ≤ n) (hr : 0 < rounds) :
    (∃ s, (machine n rounds amount).Reachable s ∧ Finished rounds s ∧ s.counter = v) ↔
    ∃ u, min 2 rounds ≤ u ∧ u ≤ n * rounds ∧ v = u * amount := by
  constructor
  case mp =>
    rintro ⟨_, r, hf, rfl⟩
    obtain ⟨s, hs, rfl⟩ := reachable_iff.mp r
    have ⟨hl, hu⟩ := bounds_of_finished (Nat.zero_lt_of_lt hn) hr hs (finished_scale.mp hf)
    exact ⟨s.counter, hl, hu, rfl⟩
  case mpr =>
    rintro ⟨u, hl, hu, rfl⟩
    have ⟨_, s, r, hf, hc⟩ := exists_run_of_bounds hn hl hr hu
    refine ⟨s.scale amount, reachable_iff.mpr ⟨s, r.reachable (.init rfl), rfl⟩,
      finished_scale.mpr hf, ?_⟩
    rw [← hc]
    rfl

theorem localCounter_eq (max : ℕ) : localCounter max = max := by
  have h (l : List ℕ) (c : ℕ) : l.foldl (fun c _ => c + 1) c = c + l.length := by
    induction l generalizing c
    case nil          => rfl
    case cons _ _ hi => rw [List.foldl_cons, hi, List.length_cons, Nat.add_right_comm, Nat.add_assoc]
  simp [localCounter, h]

-- What `main` may print: any number of increments may get lost, but two of them never do. Where
-- each thread adds its own count, whole counts get lost.
theorem printed_values {n maxCount : ℕ} (hn : 2 ≤ n) (hm : n ≤ maxCount) (v : ℕ) :
    ((∃ s, (counter n maxCount).Reachable s ∧ Finished (maxCount / n) s ∧ s.counter = v) ↔
      min 2 (maxCount / n) ≤ v ∧ v ≤ n * (maxCount / n)) ∧
    ((∃ s, (counterLocal n maxCount).Reachable s ∧ Finished 1 s ∧ s.counter = v) ↔
      ∃ u, 1 ≤ u ∧ u ≤ n ∧ v = u * (maxCount / n)) := by
  constructor
  case left =>
    have hr : 0 < maxCount / n := Nat.div_pos hm (Nat.zero_lt_of_lt hn)
    simpa [counter] using @final_values n _ 1 v hn hr
  case right =>
    have h := @final_values n 1 (localCounter (maxCount / n)) v hn Nat.one_pos
    simpa [counterLocal, localCounter_eq] using h

-- With the constants of the program, nearly all of the increments may get lost.
theorem printed_two :
    ∃ s, (counter 2 10000000).Reachable s ∧ Finished (10000000 / 2) s ∧ s.counter = 2 :=
  (printed_values (by decide) (by decide) 2).left.mpr (by decide)

end Counter
