import Concurrencia.Distributed.TokenPassing.Basic
import Mathlib.Order.Fin.Basic
import Mathlib.Tactic.SplitIfs

open Function Distributed

namespace TokenPassing

variable {n : ℕ} {counts : Fin n → ℕ} {s s' : State n} {p : Process n}

-- The steps of a machine with the conditions under which they are taken, one constructor for each
-- way through a statement. The statements of `sendToken` occur twice.
inductive Step (counts : Fin n → ℕ) (s : State n) : Process n → State n → Prop
  | loop (h : s.main i = .loop) (hr : s.round i < counts i) :
    Step counts s (.main i) (s.goto i .lockAcquire)
  | finish (h : s.main i = .loop) (hr : counts i ≤ s.round i) :
    Step counts s (.main i) (s.goto i .done)
  | lockAcquire (h : s.main i = .lockAcquire) (hm : s.mutex i = false) :
    Step counts s (.main i) ({ s with mutex := update s.mutex i true }.goto i .testToken)
  | testFree (h : s.main i = .testToken) (ht : s.haveToken i = false) :
    Step counts s (.main i) (s.goto i .setNumber)
  | testToken (h : s.main i = .testToken) (ht : s.haveToken i = true) :
    Step counts s (.main i) (s.goto i .setInCS)
  | setNumber (h : s.main i = .setNumber) :
    Step counts s (.main i)
      ({ s with myNumber := update s.myNumber i (s.myNumber i + 1) }.goto i .requestRelease)
  | requestRelease (h : s.main i = .requestRelease) :
    Step counts s (.main i) ({ s with mutex := update s.mutex i false }.goto i (.send 0))
  | skip (h : s.main i = .send i) :
    Step counts s (.main i) (s.goto i (.send (i + 1)))
  | send (k : Fin n) (h : s.main i = .send k) (hk : k ≠ i) :
    Step counts s (.main i) (s.goto i (.request k))
  | sent (k : ℕ) (h : s.main i = .send k) (hk : n ≤ k) :
    Step counts s (.main i) (s.goto i .await)
  | request (k : Fin n) (h : s.main i = .request k) (hk : s.receiver k = .receive) :
    Step counts s (.main i) ((s.turn k (.record ⟨i, s.myNumber i⟩)).goto i (.send (k + 1)))
  | tokenAcquire (h : s.main i = .tokenAcquire) (hm : s.mutex i = false) :
    Step counts s (.main i) ({ s with mutex := update s.mutex i true }.goto i .setToken)
  | setToken (h : s.main i = .setToken) :
    Step counts s (.main i) ({ s with haveToken := update s.haveToken i true }.goto i .setInCS)
  | setInCS (h : s.main i = .setInCS) :
    Step counts s (.main i) ({ s with inCS := update s.inCS i true }.goto i .lockRelease)
  | lockRelease (h : s.main i = .lockRelease) :
    Step counts s (.main i) ({ s with mutex := update s.mutex i false }.goto i .load)
  | load (h : s.main i = .load) :
    Step counts s (.main i) (s.goto i (.store s.counter))
  | store (v : ℕ) (h : s.main i = .store v) :
    Step counts s (.main i) ({ s with counter := v + 1 }.goto i .unlockAcquire)
  | unlockAcquire (h : s.main i = .unlockAcquire) (hm : s.mutex i = false) :
    Step counts s (.main i) ({ s with mutex := update s.mutex i true }.goto i .setGranted)
  | setGranted (h : s.main i = .setGranted) :
    Step counts s (.main i) ({ s with
      granted := update s.granted i (update (s.granted i) i (s.myNumber i)) }.goto i .clearInCS)
  | clearInCS (h : s.main i = .clearInCS) :
    Step counts s (.main i)
      ({ s with inCS := update s.inCS i false }.goto i (.sendToken (.scan 0)))
  | scan (k : Fin n) (h : s.main i = .sendToken (.scan k)) (hk : s.requested i k ≤ s.granted i k) :
    Step counts s (.main i) (s.goto i (.sendToken (.scan (k + 1))))
  | found (k : Fin n) (h : s.main i = .sendToken (.scan k)) (hk : s.granted i k < s.requested i k) :
    Step counts s (.main i) (s.goto i (.sendToken (.send k)))
  | scanned (k : ℕ) (h : s.main i = .sendToken (.scan k)) (hk : n ≤ k) :
    Step counts s (.main i) (s.goto i .unlockRelease)
  | give (k : Fin n) (h : s.main i = .sendToken (.send k)) (hk : s.main k = .await) :
    Step counts s (.main i) ((s.give i k).goto i (.sendToken .clearToken))
  | clearToken (h : s.main i = .sendToken .clearToken) :
    Step counts s (.main i)
      ({ s with haveToken := update s.haveToken i false }.goto i .unlockRelease)
  | unlockRelease (h : s.main i = .unlockRelease) :
    Step counts s (.main i) ({ s with
      mutex := update s.mutex i false
      round := update s.round i (s.round i + 1) }.goto i .loop)
  | record (m : Message n) (h : s.receiver i = .record m) :
    Step counts s (.receiver i) ({ s with
      requested :=
        if m.number > s.requested i m.source
        then update s.requested i (update (s.requested i) m.source m.number)
        else s.requested
    }.turn i .acquire)
  | acquire (h : s.receiver i = .acquire) (hm : s.mutex i = false) :
    Step counts s (.receiver i) ({ s with mutex := update s.mutex i true }.turn i .test)
  | idle (h : s.receiver i = .test) (ht : s.haveToken i = true) (hc : s.inCS i = false) :
    Step counts s (.receiver i) (s.turn i (.sendToken (.scan 0)))
  | busy (h : s.receiver i = .test) (ht : s.haveToken i = true → s.inCS i = true) :
    Step counts s (.receiver i) (s.turn i .release)
  | rscan (k : Fin n) (h : s.receiver i = .sendToken (.scan k))
    (hk : s.requested i k ≤ s.granted i k) :
    Step counts s (.receiver i) (s.turn i (.sendToken (.scan (k + 1))))
  | rfound (k : Fin n) (h : s.receiver i = .sendToken (.scan k))
    (hk : s.granted i k < s.requested i k) :
    Step counts s (.receiver i) (s.turn i (.sendToken (.send k)))
  | rscanned (k : ℕ) (h : s.receiver i = .sendToken (.scan k)) (hk : n ≤ k) :
    Step counts s (.receiver i) (s.turn i .release)
  | rgive (k : Fin n) (h : s.receiver i = .sendToken (.send k)) (hk : s.main k = .await) :
    Step counts s (.receiver i) ((s.give i k).turn i (.sendToken .clearToken))
  | rclearToken (h : s.receiver i = .sendToken .clearToken) :
    Step counts s (.receiver i) ({ s with haveToken := update s.haveToken i false }.turn i .release)
  | release (h : s.receiver i = .release) :
    Step counts s (.receiver i) ({ s with mutex := update s.mutex i false }.turn i .receive)

theorem Step.of_mainStep {i : Fin n} (h : mainStep counts s i = some s') :
    Step counts s (.main i) s' := by
  cases hp : s.main i <;> simp [mainStep, hp] at h
  case loop =>
    split_ifs at h with hr <;> subst h
    · exact .loop hp hr
    · exact .finish hp (le_of_not_gt hr)
  case testToken =>
    split_ifs at h with ht <;> subst h
    · exact .testFree hp ht
    · exact .testToken hp (by simpa using ht)
  case send k =>
    split_ifs at h with hk hi <;> subst h
    · exact hi ▸ .skip (hi ▸ hp)
    · exact .send ⟨k, hk⟩ hp (hi <| Fin.val_eq_of_eq ·)
    · exact .sent k hp (le_of_not_gt hk)
  case sendToken q =>
    cases q <;> simp [sendToken] at h
    case scan k =>
      split_ifs at h with hk hg <;> subst h
      · exact .found ⟨k, hk⟩ hp hg
      · exact .scan ⟨k, hk⟩ hp (le_of_not_gt hg)
      · exact .scanned k hp (le_of_not_gt hk)
    case send k     => obtain ⟨hk, rfl⟩ := h; exact .give k hp hk
    case clearToken => subst h; exact .clearToken hp
  case lockAcquire    => obtain ⟨hm, rfl⟩ := h; exact .lockAcquire hp hm
  case tokenAcquire   => obtain ⟨hm, rfl⟩ := h; exact .tokenAcquire hp hm
  case unlockAcquire  => obtain ⟨hm, rfl⟩ := h; exact .unlockAcquire hp hm
  case request k      => obtain ⟨hk, rfl⟩ := h; exact .request k hp hk
  all_goals subst h
  case setNumber      => exact .setNumber hp
  case requestRelease => exact .requestRelease hp
  case setToken       => exact .setToken hp
  case setInCS        => exact .setInCS hp
  case lockRelease    => exact .lockRelease hp
  case load           => exact .load hp
  case store v        => exact .store v hp
  case setGranted     => exact .setGranted hp
  case clearInCS      => exact .clearInCS hp
  case unlockRelease  => exact .unlockRelease hp

theorem Step.of_receiverStep {i : Fin n} (h : receiverStep s i = some s') :
    Step counts s (.receiver i) s' := by
  cases hp : s.receiver i <;> simp [receiverStep, hp] at h
  case test =>
    split_ifs at h with ht <;> subst h
    · exact .idle hp ht.left ht.right
    · exact .busy hp (by simpa using ht)
  case sendToken q =>
    cases q <;> simp [sendToken] at h
    case scan k =>
      split_ifs at h with hk hg <;> subst h
      · exact .rfound ⟨k, hk⟩ hp hg
      · exact .rscan ⟨k, hk⟩ hp (le_of_not_gt hg)
      · exact .rscanned k hp (le_of_not_gt hk)
    case send k     => obtain ⟨hk, rfl⟩ := h; exact .rgive k hp hk
    case clearToken => subst h; exact .rclearToken hp
  case acquire => obtain ⟨hm, rfl⟩ := h; exact .acquire hp hm
  all_goals subst h
  case record m  => exact .record m hp
  case release   => exact .release hp

theorem Step.of_step (h : (machine counts).step s p = some s') : Step counts s p s' :=
  match p with
  | .main _     => .of_mainStep h
  | .receiver _ => .of_receiverStep h

end TokenPassing
