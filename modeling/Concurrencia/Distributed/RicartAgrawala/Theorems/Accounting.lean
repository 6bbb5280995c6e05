import Concurrencia.Distributed.RicartAgrawala.Basic
import Mathlib.Data.Prod.Lex
import Mathlib.Order.Fin.Basic
import Mathlib.Tactic.SplitIfs
import Mathlib.Data.List.Count
import Mathlib.Data.List.Nodup
import Mathlib.Data.Fintype.Card

open Function Distributed

namespace RicartAgrawala

section Step

variable {n : ℕ} {counts : Fin n → ℕ} {s s' : State n} {p : Process n}

-- The steps of a machine with the conditions under which they are taken, one constructor for each
-- way through a statement.
inductive Step (counts : Fin n → ℕ) (s : State n) : Process n → State n → Prop
  | loop (h : s.main i = .loop) (hr : s.round i < counts i) :
    Step counts s (.main i) (s.goto i .lockAcquire)
  | finish (h : s.main i = .loop) (hr : counts i ≤ s.round i) :
    Step counts s (.main i) (s.goto i .done)
  | lockAcquire (h : s.main i = .lockAcquire) (hm : s.mutex i = false) :
    Step counts s (.main i) ({ s with mutex := update s.mutex i true }.goto i .setRequest)
  | setRequest (h : s.main i = .setRequest) :
    Step counts s (.main i) ({ s with requestCS := update s.requestCS i true }.goto i .setNumber)
  | setNumber (h : s.main i = .setNumber) :
    Step counts s (.main i) ({ s with
      myNumber := update s.myNumber i (s.highestNum i + 1)
      replied  := update s.replied i [] }.goto i .lockRelease)
  | lockRelease (h : s.main i = .lockRelease) :
    Step counts s (.main i) ({ s with mutex := update s.mutex i false }.goto i (.send 0))
  | skip (h : s.main i = .send i) :
    Step counts s (.main i) (s.goto i (.send (i + 1)))
  | send (k : Fin n) (h : s.main i = .send k) (hk : k ≠ i) :
    Step counts s (.main i) (s.goto i (.request k))
  | sent (k : ℕ) (h : s.main i = .send k) (hk : n ≤ k) :
    Step counts s (.main i) (s.goto i .await)
  | request (k : Fin n) (h : s.main i = .request k) (hk : s.receiver k = .receive) :
    Step counts s (.main i) ((s.turn k (.acquire ⟨i, s.myNumber i⟩)).goto i (.send (k + 1)))
  | enter (h : s.main i = .await) (hr : n - 1 ≤ (s.replied i).length) :
    Step counts s (.main i) (s.goto i .load)
  | load (h : s.main i = .load) :
    Step counts s (.main i) (s.goto i (.store s.counter))
  | store (v : ℕ) (h : s.main i = .store v) :
    Step counts s (.main i) ({ s with counter := v + 1 }.goto i .clearRequest)
  | clearRequest (h : s.main i = .clearRequest) :
    Step counts s (.main i) ({ s with requestCS := update s.requestCS i false }.goto i .unlockAcquire)
  | unlockAcquire (h : s.main i = .unlockAcquire) (hm : s.mutex i = false) :
    Step counts s (.main i) ({ s with mutex := update s.mutex i true }.goto i .measure)
  | measure (h : s.main i = .measure) :
    Step counts s (.main i) (s.goto i (.unlockRelease (s.deferred i).length))
  | unlockRelease (m : ℕ) (h : s.main i = .unlockRelease m) :
    Step counts s (.main i) ({ s with mutex := update s.mutex i false }.goto i (.drain 0 m))
  | pop (k m : ℕ) (src : Fin n) (tl : List (Fin n)) (h : s.main i = .drain k m) (hk : k < m)
    (hd : s.deferred i = src :: tl) :
    Step counts s (.main i) ({ s with deferred := update s.deferred i tl }.goto i (.reply k m src))
  | drained (k m : ℕ) (h : s.main i = .drain k m) (hk : m ≤ k) :
    Step counts s (.main i) ({ s with round := update s.round i (s.round i + 1) }.goto i .loop)
  | answer (k m : ℕ) (src : Fin n) (h : s.main i = .reply k m src) (hs : s.Ready src) :
    Step counts s (.main i) ((s.reply i src).goto i (.drain (k + 1) m))
  | acquire (m : Message n) (h : s.receiver i = .acquire m) (hm : s.mutex i = false) :
    Step counts s (.receiver i) ({ s with mutex := update s.mutex i true }.turn i (.raise m))
  | raise (m : Message n) (h : s.receiver i = .raise m) :
    Step counts s (.receiver i) ({ s with
      highestNum :=
        update s.highestNum i (if m.number > s.highestNum i then m.number else s.highestNum i)
    }.turn i (.testRequest m))
  | testFree (m : Message n) (h : s.receiver i = .testRequest m) (hr : s.requestCS i = false) :
    Step counts s (.receiver i) (s.turn i (.release m))
  | testRequest (m : Message n) (h : s.receiver i = .testRequest m) (hr : s.requestCS i = true) :
    Step counts s (.receiver i) (s.turn i (.compare m))
  | first (m : Message n) (h : s.receiver i = .compare m)
    (hlt : m.number < s.myNumber i ∨ m.number = s.myNumber i ∧ m.source < i) :
    Step counts s (.receiver i) (s.turn i (.release m))
  | second (m : Message n) (h : s.receiver i = .compare m)
    (hlt : ¬(m.number < s.myNumber i ∨ m.number = s.myNumber i ∧ m.source < i)) :
    Step counts s (.receiver i) (s.turn i (.defer m))
  | release (m : Message n) (h : s.receiver i = .release m) :
    Step counts s (.receiver i) ({ s with mutex := update s.mutex i false }.turn i (.reply m))
  | grant (m : Message n) (h : s.receiver i = .reply m) (hs : s.Ready m.source) :
    Step counts s (.receiver i) ((s.reply i m.source).turn i .receive)
  | defer (m : Message n) (h : s.receiver i = .defer m) (hl : (s.deferred i).length < n) :
    Step counts s (.receiver i)
      ({ s with deferred := update s.deferred i (s.deferred i ++ [m.source]) }.turn i .deferRelease)
  | deferRelease (h : s.receiver i = .deferRelease) :
    Step counts s (.receiver i) ({ s with mutex := update s.mutex i false }.turn i .receive)

theorem Step.of_mainStep {i : Fin n} (h : mainStep counts s i = some s') :
    Step counts s (.main i) s' := by
  cases hp : s.main i <;> simp [mainStep, hp] at h
  case loop =>
    split_ifs at h with hr <;> subst h
    · exact .loop hp hr
    · exact .finish hp (le_of_not_gt hr)
  case send k =>
    split_ifs at h with hk hi <;> subst h
    · exact hi ▸ .skip (hi ▸ hp)
    · exact .send ⟨k, hk⟩ hp (hi <| Fin.val_eq_of_eq ·)
    · exact .sent k hp (le_of_not_gt hk)
  case drain k m =>
    split_ifs at h with hk
    · cases hd : s.deferred i <;> simp [hd] at h
      subst h
      exact .pop k m _ _ hp hk hd
    · obtain rfl := Option.some.inj h
      exact .drained k m hp (le_of_not_gt hk)
  case lockAcquire   => obtain ⟨hm, rfl⟩ := h; exact .lockAcquire hp hm
  case await         => obtain ⟨hr, rfl⟩ := h; exact .enter hp (by omega)
  case unlockAcquire => obtain ⟨hm, rfl⟩ := h; exact .unlockAcquire hp hm
  case request k     => obtain ⟨hk, rfl⟩ := h; exact .request k hp hk
  case reply k m src => obtain ⟨hs, rfl⟩ := h; exact .answer k m src hp hs
  all_goals subst h
  case setRequest    => exact .setRequest hp
  case setNumber     => exact .setNumber hp
  case lockRelease   => exact .lockRelease hp
  case load          => exact .load hp
  case store v       => exact .store v hp
  case clearRequest  => exact .clearRequest hp
  case measure       => exact .measure hp
  case unlockRelease => exact .unlockRelease _ hp

theorem Step.of_receiverStep {i : Fin n} (h : receiverStep s i = some s') :
    Step counts s (.receiver i) s' := by
  cases hp : s.receiver i <;> simp [receiverStep, hp] at h
  case testRequest m =>
    split_ifs at h with hr <;> subst h
    · exact .testFree m hp hr
    · exact .testRequest m hp (by simpa using hr)
  case compare m =>
    split_ifs at h with hlt <;> subst h
    · exact .first m hp hlt
    · exact .second m hp hlt
  case acquire m    => obtain ⟨hm, rfl⟩ := h; exact .acquire m hp hm
  case reply m      => obtain ⟨hs, rfl⟩ := h; exact .grant m hp hs
  case defer m      => obtain ⟨hl, rfl⟩ := h; exact .defer m hp hl
  all_goals subst h
  case raise m      => exact .raise m hp
  case release m    => exact .release m hp
  case deferRelease => exact .deferRelease hp

theorem Step.of_step (h : (machine counts).step s p = some s') : Step counts s p s' :=
  match p with
  | .main _     => .of_mainStep h
  | .receiver _ => .of_receiverStep h

end Step

namespace Main

variable {n : ℕ}

-- From the draw of a number to the end of `unlock`.
def InRound : Main n → Prop
  | loop | lockAcquire | setRequest | setNumber | done => False
  | _ => True

-- From the return of `lock` to the end of `unlock`.
def Entered : Main n → Prop
  | load | store _ | clearRequest | unlockAcquire | measure | unlockRelease _ => True
  | drain _ _ | reply _ _ _ => True
  | _ => False

-- The request of this round still has to be delivered to node `b`.
def pending (b : Fin n) : Main n → ℕ
  | lockRelease => 1
  | send k      => if k ≤ b then 1 else 0
  | request k   => if k ≤ b then 1 else 0
  | _           => 0

-- `unlock` has taken the request of node `a` out of `deferred` and is about to answer it.
def replying (a : Fin n) : Main n → ℕ
  | reply _ _ src => if src = a then 1 else 0
  | _             => 0

end Main

namespace Receiver

variable {n : ℕ}

def message : Receiver n → Option (Message n)
  | acquire m | raise m | testRequest m | compare m | release m | reply m | defer m => m
  | receive | deferRelease => none

def held (a : Fin n) (r : Receiver n) : ℕ :=
  match r.message with
  | some m => if m.source = a then 1 else 0
  | none   => 0

end Receiver

variable {n : ℕ} {counts : Fin n → ℕ} {s s' : State n} {p : Process n} {a b : Fin n}

-- The ways in which the request of a node `a` to a node `b` changes its place.
inductive Transfer (n : ℕ)
  | ask (a : Fin n)
  | deliver (a b : Fin n)
  | grant (a b : Fin n)
  | defer (a b : Fin n)
  | pop (a b : Fin n)
  | answer (a b : Fin n)
  deriving DecidableEq

def transfer (s : State n) : Process n → Option (Transfer n)
  | .main i =>
    match s.main i with
    | .setNumber     => some <| .ask i
    | .request k     => some <| .deliver i k
    | .drain k m     => if k < m then (s.deferred i).head?.map (.pop · i) else none
    | .reply _ _ src => some <| .answer src i
    | _              => none
  | .receiver i =>
    match s.receiver i with
    | .reply m => some <| .grant m.source i
    | .defer m => some <| .defer m.source i
    | _        => none

theorem State.count_reply {i j : Fin n} :
    ((s.reply i j).replied a).count b = (s.replied a).count b + if j = a ∧ i = b then 1 else 0 := by
  rcases eq_or_ne a j with rfl | ha
  · simp [State.reply, List.count_cons]
  · simp [State.reply, ha, ha.symm]

theorem State.length_reply {i j : Fin n} :
    (s.replied a).length ≤ ((s.reply i j).replied a).length := by
  rcases eq_or_ne a j with rfl | ha
  · simp [State.reply]
  · simp [State.reply, ha]

-- The number of requests of node `a` that are on their way to or kept by node `b`.
def State.places (s : State n) (a b : Fin n) : ℕ :=
  (s.main a).pending b + (s.receiver b).held a + (s.deferred b).count a + (s.main b).replying a

namespace Step

theorem pending (h : Step counts s p s') (hn : a ≠ b) :
    (s'.main a).pending b + (if transfer s p = some (.deliver a b) then 1 else 0) =
    (s.main a).pending b + (if transfer s p = some (.ask a) then 1 else 0) := by
  cases p
  case receiver i => cases h <;> simp [transfer, *, State.turn, State.reply]
  case main i =>
    rcases eq_or_ne i a with rfl | ha
    case inr => cases h <;> simp [transfer, *, ha.symm, State.goto, State.turn, State.reply]
    cases h <;> simp [transfer, *, State.goto, State.turn, State.reply, Main.pending]
    case skip =>
      have := Fin.val_ne_of_ne hn
      grind
    case sent k _ hk => grind
    case request k _ _ =>
      rcases eq_or_ne k b with rfl | hk
      · simp
      · have := Fin.val_ne_of_ne hk
        simp [hk]
        grind

theorem held (h : Step counts s p s') :
    (s'.receiver b).held a + (if transfer s p = some (.grant a b) then 1 else 0) +
      (if transfer s p = some (.defer a b) then 1 else 0) =
    (s.receiver b).held a + (if transfer s p = some (.deliver a b) then 1 else 0) := by
  cases p
  case main i =>
    cases h <;> simp [transfer, *, State.goto, State.turn, State.reply]
    case request k hk _ =>
      rcases eq_or_ne b k with rfl | hb
      · simp [Receiver.held, Receiver.message, hk]
      · simp [hb, hb.symm]
  case receiver i =>
    rcases eq_or_ne i b with rfl | hb
    case inr => cases h <;> simp [transfer, *, hb.symm, State.turn, State.reply]
    cases h <;> simp [transfer, *, State.turn, State.reply, Receiver.held, Receiver.message]

theorem deferred (h : Step counts s p s') :
    (s'.deferred b).count a + (if transfer s p = some (.pop a b) then 1 else 0) =
    (s.deferred b).count a + (if transfer s p = some (.defer a b) then 1 else 0) := by
  cases p
  case main i =>
    rcases eq_or_ne i b with rfl | hb
    case inr => cases h <;> simp [transfer, *, hb.symm, State.goto, State.turn, State.reply]
    cases h <;> simp [transfer, *, State.goto, State.turn, State.reply, List.count_cons]
  case receiver i =>
    rcases eq_or_ne i b with rfl | hb
    case inr => cases h <;> simp [transfer, *, hb.symm, State.turn, State.reply]
    cases h <;> simp [transfer, *, State.turn, State.reply, List.count_cons]

theorem replying (h : Step counts s p s') :
    (s'.main b).replying a + (if transfer s p = some (.answer a b) then 1 else 0) =
    (s.main b).replying a + (if transfer s p = some (.pop a b) then 1 else 0) := by
  cases p
  case receiver i => cases h <;> simp [transfer, *, State.turn, State.reply]
  case main i =>
    rcases eq_or_ne i b with rfl | hb
    case inr => cases h <;> simp [transfer, *, hb.symm, State.goto, State.turn, State.reply]
    cases h <;> simp [transfer, *, State.goto, State.turn, State.reply, Main.replying]

theorem replied (h : Step counts s p s') :
    (s'.replied a).count b =
    if transfer s p = some (.ask a) then 0
    else (s.replied a).count b + (if transfer s p = some (.grant a b) then 1 else 0) +
      (if transfer s p = some (.answer a b) then 1 else 0) := by
  cases h <;> simp [transfer, *, State.goto, State.turn]
  case grant m _ _     => exact State.count_reply
  case answer src _ _  => exact State.count_reply
  case setNumber i _   => rcases eq_or_ne a i with rfl | ha <;> simp [*, Ne.symm]

-- A request enters with `ask` and leaves with the reply.
theorem places (h : Step counts s p s') (hn : a ≠ b) :
    s'.places a b + (if transfer s p = some (.grant a b) then 1 else 0) +
      (if transfer s p = some (.answer a b) then 1 else 0) =
    s.places a b + (if transfer s p = some (.ask a) then 1 else 0) := by
  have := h.pending hn
  have := h.held (a := a) (b := b)
  have := h.deferred (a := a) (b := b)
  have := h.replying (a := a) (b := b)
  unfold State.places
  omega

theorem ask (h : Step counts s p s') (ht : transfer s p = some (.ask a)) :
    s.main a = .setNumber ∧ s'.main a = .lockRelease := by
  cases h <;> simp_all [transfer, State.goto]

theorem deliver (h : Step counts s p s') (ht : transfer s p = some (.deliver a b)) :
    s.main a = .request b := by
  cases h <;> simp_all [transfer]

theorem inRound (h : Step counts s p s') (ht : transfer s p ≠ some (.ask a)) :
    (s'.main a).InRound → (s.main a).InRound := by
  cases p
  case receiver i => cases h <;> simp [State.turn, State.reply]
  case main i =>
    rcases eq_or_ne a i with rfl | ha
    · cases h <;> simp_all [transfer, State.goto, State.turn, State.reply, Main.InRound]
    · cases h <;> simp [ha, State.goto, State.turn, State.reply]

theorem inRound_or_entered (h : Step counts s p s') (hr : (s.main a).InRound) :
    (s'.main a).InRound ∨ (s.main a).Entered := by
  cases p
  case receiver i => cases h <;> simp [State.turn, State.reply, hr]
  case main i =>
    rcases eq_or_ne a i with rfl | ha
    · cases h <;> simp_all [State.goto, State.turn, State.reply, Main.InRound, Main.Entered]
    · cases h <;> simp [ha, State.goto, State.turn, State.reply, hr]

theorem length_replied (h : Step counts s p s') (ht : transfer s p ≠ some (.ask a)) :
    (s.replied a).length ≤ (s'.replied a).length := by
  cases h <;> simp [State.goto, State.turn]
  case setNumber i hi =>
    have ha : a ≠ i := fun ha => ht (by simp [transfer, hi, ha])
    simp [ha]
  case grant  => exact State.length_reply
  case answer => exact State.length_reply

theorem entered (h : Step counts s p s') (he : (s'.main a).Entered) :
    (s.main a).Entered ∨ n - 1 ≤ (s.replied a).length := by
  cases p
  case receiver i => cases h <;> simp_all [State.turn, State.reply]
  case main i =>
    rcases eq_or_ne a i with rfl | ha
    · cases h <;> simp_all [State.goto, State.turn, State.reply, Main.Entered]
    · cases h <;> simp_all [State.goto, State.turn, State.reply]

theorem other (h : Step counts s p s') (hk : s'.main a = .request b) :
    s.main a = .request b ∨ b ≠ a := by
  cases p
  case receiver i => cases h <;> simp_all [State.turn, State.reply]
  case main i =>
    rcases eq_or_ne a i with rfl | ha
    · cases h <;> simp_all [State.goto, State.turn, State.reply]
    · cases h <;> simp_all [State.goto, State.turn, State.reply]

end Step

-- All that is known about the requests on their way: `once` says that the request of a node in its
-- round is in exactly one place, `none` that nothing is left of it afterwards.
structure Accounted (s : State n) : Prop where
  other (i j)   : s.main i = .request j → j ≠ i
  entered (i)   : (s.main i).Entered → n - 1 ≤ (s.replied i).length
  self (i)      : (s.receiver i).held i + (s.deferred i).count i + (s.main i).replying i +
                  (s.replied i).count i = 0
  once {i j}    : i ≠ j → (s.main i).InRound → s.places i j + (s.replied i).count j = 1
  none {i j}    : i ≠ j → ¬(s.main i).InRound → s.places i j = 0

theorem Main.Entered.inRound {m : Main n} (h : m.Entered) : m.InRound := by
  cases m <;> simp_all [Main.Entered, Main.InRound]

section

variable {l : List (Fin n)}

-- A list without `a` and without repetition names some of the `n - 1` other nodes.
theorem length_le_of_nodup (hl : l.Nodup) (ha : a ∉ l) : l.length ≤ n - 1 := by
  have := (hl.cons ha).length_le_card
  simp at this
  omega

theorem mem_of_nodup (hl : l.Nodup) (ha : a ∉ l) (h : n - 1 ≤ l.length) (hn : a ≠ b) : b ∈ l := by
  by_contra hb
  have := ((hl.cons ha).cons (List.not_mem_cons_of_ne_of_not_mem hn.symm hb)).length_le_card
  simp at this
  omega

end

namespace Accounted

section

variable (h : Accounted s)
include h

theorem not_mem_replied : a ∉ s.replied a :=
  List.count_eq_zero.mp (by have := h.self a; omega)

theorem not_mem_deferred : a ∉ s.deferred a :=
  List.count_eq_zero.mp (by have := h.self a; omega)

theorem nodup_replied (hr : (s.main a).InRound) : (s.replied a).Nodup := by
  refine List.nodup_iff_count_le_one.mpr fun b => ?_
  rcases eq_or_ne a b with rfl | hn
  · have := h.self a
    omega
  · have := h.once hn hr
    omega

theorem count_deferred (hn : a ≠ b) : (s.deferred b).count a ≤ 1 := by
  by_cases hr : (s.main a).InRound
  case pos => 
    have := h.once hn hr
    simp only [State.places] at this
    omega
  case neg =>
    have := h.none hn hr
    simp only [State.places] at this
    omega

theorem nodup_deferred : (s.deferred b).Nodup := by
  refine List.nodup_iff_count_le_one.mpr fun a => ?_
  rcases eq_or_ne a b with rfl | hn
  · have := h.self a
    omega
  · exact h.count_deferred hn

theorem mem_replied (he : (s.main a).Entered) (hn : a ≠ b) : b ∈ s.replied a :=
  mem_of_nodup (h.nodup_replied he.inRound) h.not_mem_replied (h.entered a he) hn

theorem length_deferred : (s.deferred b).length ≤ n - 1 :=
  length_le_of_nodup h.nodup_deferred h.not_mem_deferred

end

theorem init : Accounted (init n) where
  other _ _ h   := by simp [RicartAgrawala.init] at h
  entered _ h   := h.elim
  self _        := rfl
  once _ h      := h.elim
  none _ _      := rfl

theorem step (hi : Accounted s) (h : Step counts s p s') : Accounted s' where
  other i j hj := (h.other hj).elim (hi.other i j) id
  entered i he := by
    have ht : transfer s p ≠ some (.ask i) := by
      intro ht
      simp [h.ask ht, Main.Entered] at he
    rcases h.entered he with he | hr
    · exact (hi.entered i he).trans (h.length_replied ht)
    · exact hr.trans (h.length_replied ht)
  self i := by
    have hd : transfer s p ≠ some (.deliver i i) := by
      intro ht
      exact hi.other i i (h.deliver ht) rfl
    have := hi.self i
    have := h.held (a := i) (b := i)
    have := h.deferred (a := i) (b := i)
    have := h.replying (a := i) (b := i)
    have := h.replied (a := i) (b := i)
    grind
  once {i j} hn hr := by
    have := h.places hn
    have := h.replied (a := i) (b := j)
    by_cases ht : transfer s p = some (.ask i)
    case pos =>
      have := hi.none hn (by simp [h.ask ht, Main.InRound])
      simp_all
    case neg =>
      have := hi.once hn (h.inRound ht hr)
      simp only [ht, if_false] at *
      omega
  none {i j} hn hr := by
    have := h.places hn
    by_cases ht : transfer s p = some (.ask i)
    case pos => simp [h.ask ht, Main.InRound] at hr
    case neg => 
      simp only [ht, if_false] at *
      by_cases hr' : (s.main i).InRound
      case pos =>
        have he := (h.inRound_or_entered hr').resolve_left hr
        have := List.count_pos_iff.mpr (hi.mem_replied he hn)
        have := hi.once hn hr'
        omega
      case neg =>
        have := hi.none hn hr'
        omega

end Accounted

theorem accounted (r : (machine counts).Reachable s) : Accounted s := by
  refine r.invariant ?init ?step
  case init => rintro _ rfl; exact .init
  case step => exact fun _ _ _ _ hi h => hi.step (.of_step h)

end RicartAgrawala
