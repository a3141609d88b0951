import Sherlog.Lib.Machine
import Mathlib.Data.Fintype.Basic
import Mathlib.Logic.Function.Basic

/-!
# Initialize and shutdown

`swift_initialize` and `swift_shutdown`, called by any number of threads, with the daemons that
they start and stop.  All daemons share one flag; the handle of the last one started lies behind
a lock, which a shutdown keeps while it joins.  The buffers are left out: a round of a daemon
comes to an end, and of an initialize only whether the file opens.  If it does not,
`init_persistent_buffer` panics, before the flag is set and a daemon is started; the file of an
earlier initialize is, as a rule, one that does not.

* `Lifecycle`, `Lifecycle.step` — the threads, the daemons and what they share, turn by turn.
* `Lifecycle.hangs` — a flag set again before the daemon has seen it cleared keeps the shutdown,
  and every initialize after it, from ever returning.
* `Lifecycle.Orderly` — the calls come one at a time and in turn; `Lifecycle.one_daemon` — then
  there is never more than one daemon, and between two calls only the one whose handle is
  stored; `Lifecycle.calls_return` — and every call returns, but for an initialize whose file
  does not open.
-/

namespace Sherlog

/-- Where a daemon is. -/
inductive DaemonRound where
  /-- At the condition of its loop. -/
  | check
  /-- In its loop. -/
  | busy
  /-- The thread has ended. -/
  | ended
deriving DecidableEq, Repr

/-- The next access of a thread. -/
inductive LifecyclePc where
  /-- In no call. -/
  | idle
  /-- `init_persistent_buffer`; does the file open? -/
  | opening (opens : Bool)
  /-- The thread has panicked. -/
  | panicked
  /-- `FLUSH_DAEMON_RUNNING.store(true)` -/
  | start
  /-- The daemon thread is spawned. -/
  | spawn
  /-- `FLUSH_DAEMON_HANDLE.lock()`, in `swift_initialize`. -/
  | lockHandle (daemon : Nat)
  /-- The handle is stored, and the lock dropped. -/
  | storeHandle (daemon : Nat)
  /-- `FLUSH_DAEMON_RUNNING.store(false)` -/
  | stop
  /-- `FLUSH_DAEMON_HANDLE.lock()`, in `swift_shutdown`. -/
  | lockTake
  /-- The handle is taken. -/
  | take
  /-- The daemon is joined, and the lock dropped. -/
  | join (daemon : Nat)
deriving DecidableEq, Repr

/-- Whether a thread holds the lock of the handle. -/
def LifecyclePc.locks : LifecyclePc → Bool
  | .storeHandle _ | .take | .join _ => true
  | _ => false

/-- Whether a thread is in a call. -/
def LifecyclePc.underWay : LifecyclePc → Bool
  | .idle | .panicked => false
  | _ => true

/-- Whether a thread has panicked, or is about to. -/
def LifecyclePc.fails : LifecyclePc → Bool
  | .opening false | .panicked => true
  | _ => false

/-- How a call ends. -/
def LifecyclePc.outcome (p : LifecyclePc) : LifecyclePc := if p.fails then .panicked else .idle

theorem LifecyclePc.outcome_of_not_underWay {p : LifecyclePc} (hp : p.underWay = false) :
    p.outcome = p := by
  cases p with
  | idle | panicked => rfl
  | _ => cases hp

/-- How many accesses a call still makes, at most. -/
def LifecyclePc.left : LifecyclePc → Nat
  | .idle | .panicked => 0
  | .opening _ => 5
  | .start | .stop => 4
  | .spawn | .lockTake => 3
  | .lockHandle _ | .take => 2
  | .storeHandle _ | .join _ => 1

/-- The threads of an application, and the daemons. -/
structure Lifecycle (ι : Type*) where
  /-- `FLUSH_DAEMON_RUNNING` -/
  running : Bool
  /-- The daemons spawned so far. -/
  daemons : List DaemonRound
  /-- `FLUSH_DAEMON_HANDLE` -/
  handle : Option Nat
  /-- The thread that holds its lock. -/
  lock : Option ι
  /-- Where each thread is. -/
  pc : ι → LifecyclePc

namespace Lifecycle

/-- What happens at one time. -/
inductive Turn (ι : Type*) where
  /-- A thread calls `swift_initialize`, with a file that opens or not. -/
  | swiftInitialize (i : ι) (opens : Bool)
  /-- A thread calls `swift_shutdown`. -/
  | swiftShutdown (i : ι)
  /-- Its call goes on to the next access. -/
  | go (i : ι)
  /-- A daemon checks the flag, or comes to the end of a round. -/
  | daemon (d : Nat)
deriving DecidableEq, Repr

variable {ι : Type*}

/-- Before the first call. -/
def start : Lifecycle ι :=
  { running := false, daemons := [], handle := none, lock := none, pc := fun _ => .idle }

/-- A daemon that has not ended. -/
def Alive (daemons : List DaemonRound) (d : Nat) : Prop :=
  ∃ round, daemons[d]? = some round ∧ round ≠ .ended

variable [DecidableEq ι]

/-- The next access of a thread.  A lock that is taken and a daemon that has not ended make it
wait. -/
def go (s : Lifecycle ι) (i : ι) : Lifecycle ι :=
  match s.pc i with
  | .idle => s
  | .opening true => { s with pc := Function.update s.pc i .start }
  | .opening false => { s with pc := Function.update s.pc i .panicked }
  | .panicked => s
  | .start => { s with running := true, pc := Function.update s.pc i .spawn }
  | .spawn =>
    { s with daemons := s.daemons ++ [.check]
             pc := Function.update s.pc i (.lockHandle s.daemons.length) }
  | .lockHandle d =>
    match s.lock with
    | none => { s with lock := some i, pc := Function.update s.pc i (.storeHandle d) }
    | some _ => s
  | .storeHandle d =>
    { s with handle := some d, lock := none, pc := Function.update s.pc i .idle }
  | .stop => { s with running := false, pc := Function.update s.pc i .lockTake }
  | .lockTake =>
    match s.lock with
    | none => { s with lock := some i, pc := Function.update s.pc i .take }
    | some _ => s
  | .take =>
    match s.handle with
    | none => { s with lock := none, pc := Function.update s.pc i .idle }
    | some d => { s with handle := none, pc := Function.update s.pc i (.join d) }
  | .join d =>
    if s.daemons[d]? = some .ended then
      { s with lock := none, pc := Function.update s.pc i .idle }
    else s

/-- One turn.  A thread that is in a call makes no other. -/
def step (s : Lifecycle ι) : Turn ι → Lifecycle ι
  | .swiftInitialize i opens =>
    match s.pc i with
    | .idle => { s with pc := Function.update s.pc i (.opening opens) }
    | _ => s
  | .swiftShutdown i =>
    match s.pc i with
    | .idle => { s with pc := Function.update s.pc i .stop }
    | _ => s
  | .go i => s.go i
  | .daemon d =>
    match s.daemons[d]? with
    | some .check =>
      { s with daemons := s.daemons.set d (if s.running then .busy else .ended) }
    | some .busy => { s with daemons := s.daemons.set d .check }
    | _ => s

/-- A list of turns. -/
def run (s : Lifecycle ι) (turns : List (Turn ι)) : Lifecycle ι := turns.foldl step s

variable {s : Lifecycle ι} {i : ι}

/-! ## One turn -/

omit [DecidableEq ι] in
theorem alive_append {daemons : List DaemonRound} {d : Nat} :
    Alive (daemons ++ [.check]) d ↔ Alive daemons d ∨ d = daemons.length := by
  unfold Alive
  rcases lt_trichotomy d daemons.length with hd | rfl | hd
  · simp [List.getElem?_append_left hd, hd.ne]
  · simp
  · have hlen : (daemons ++ [DaemonRound.check]).length ≤ d := by simp; omega
    simp [List.getElem?_eq_none hlen, List.getElem?_eq_none hd.le, hd.ne']

omit [DecidableEq ι] in
theorem alive_set {daemons : List DaemonRound} {d d' : Nat} {round : DaemonRound}
    (hd : d < daemons.length) :
    Alive (daemons.set d round) d' ↔ (d = d' ∧ round ≠ .ended) ∨ (d ≠ d' ∧ Alive daemons d') := by
  unfold Alive
  by_cases h : d = d'
  · subst h
    simp [List.getElem?_set_self hd]
  · simp [List.getElem?_set_ne h, h]

theorem step_swiftInitialize (s : Lifecycle ι) (i : ι) (opens : Bool) :
    s.step (.swiftInitialize i opens) =
      if s.pc i = .idle then { s with pc := Function.update s.pc i (.opening opens) } else s := by
  cases h : s.pc i <;> simp [step, h]

theorem step_swiftShutdown (s : Lifecycle ι) (i : ι) :
    s.step (.swiftShutdown i) =
      if s.pc i = .idle then { s with pc := Function.update s.pc i .stop } else s := by
  cases h : s.pc i <;> simp [step, h]

/-- All that a turn of a daemon can do: no daemon comes to life, and none ends while the flag
is set. -/
theorem step_daemon (s : Lifecycle ι) (d : Nat) :
    ∃ daemons, s.step (.daemon d) = { s with daemons := daemons } ∧
      daemons.length = s.daemons.length ∧ (∀ d', Alive daemons d' → Alive s.daemons d') ∧
      (s.running = true → ∀ d', Alive s.daemons d' → Alive daemons d') := by
  rcases hd : s.daemons[d]? with _ | round
  · exact ⟨s.daemons, by simp [step, hd], rfl, fun _ h => h, fun _ _ h => h⟩
  · have hlt : d < s.daemons.length := (List.getElem?_eq_some_iff.mp hd).1
    cases round with
    | check =>
      refine ⟨s.daemons.set d (if s.running then .busy else .ended), by simp [step, hd],
        by simp, ?_, ?_⟩
      · intro d' h
        rcases (alive_set hlt).mp h with ⟨rfl, -⟩ | ⟨-, h⟩
        · exact ⟨_, hd, by decide⟩
        · exact h
      · intro hrun d' h
        by_cases heq : d = d'
        · exact (alive_set hlt).mpr (Or.inl ⟨heq, by simp [hrun]⟩)
        · exact (alive_set hlt).mpr (Or.inr ⟨heq, h⟩)
    | busy =>
      refine ⟨s.daemons.set d .check, by simp [step, hd], by simp, ?_, ?_⟩
      · intro d' h
        rcases (alive_set hlt).mp h with ⟨rfl, -⟩ | ⟨-, h⟩
        · exact ⟨_, hd, by decide⟩
        · exact h
      · intro _ d' h
        by_cases heq : d = d'
        · exact (alive_set hlt).mpr (Or.inl ⟨heq, by decide⟩)
        · exact (alive_set hlt).mpr (Or.inr ⟨heq, h⟩)
    | ended => exact ⟨s.daemons, by simp [step, hd], rfl, fun _ h => h, fun _ _ h => h⟩

/-! ## A shutdown that does not return -/

/-- A thread is behind the lock exactly when it holds it. -/
def Guarded (s : Lifecycle ι) : Prop := ∀ j, (s.pc j).locks = true ↔ s.lock = some j

theorem Guarded.update {t : Lifecycle ι} {p : LifecyclePc} (h : s.Guarded)
    (hpc : t.pc = Function.update s.pc i p)
    (hlock : ∀ j, j ≠ i → (s.lock = some j ↔ t.lock = some j))
    (hp : p.locks = true ↔ t.lock = some i) : t.Guarded := by
  intro j
  rw [hpc]
  by_cases hji : j = i
  · rw [hji, Function.update_self]
    exact hp
  · rw [Function.update_of_ne hji, h j]
    exact hlock j hji

/-- The lock taken. -/
theorem Guarded.taken {t : Lifecycle ι} {p : LifecyclePc} (h : s.Guarded)
    (hpc : t.pc = Function.update s.pc i p) (hfree : s.lock = none) (htaken : t.lock = some i)
    (hp : p.locks = true) : t.Guarded :=
  h.update hpc (fun j hji => by simp [hfree, htaken, hji.symm]) (by simp [hp, htaken])

/-- The lock dropped. -/
theorem Guarded.dropped {t : Lifecycle ι} {p : LifecyclePc} (h : s.Guarded)
    (hpc : t.pc = Function.update s.pc i p) (hi : (s.pc i).locks = true) (hfree : t.lock = none)
    (hp : p.locks = false) : t.Guarded :=
  h.update hpc (fun j hji => by simp [(h i).mp hi, hfree, hji.symm]) (by simp [hp, hfree])

/-- The lock left alone. -/
theorem Guarded.kept {t : Lifecycle ι} {p : LifecyclePc} (h : s.Guarded)
    (hpc : t.pc = Function.update s.pc i p) (hsame : t.lock = s.lock)
    (hp : p.locks = (s.pc i).locks) : t.Guarded :=
  h.update hpc (fun j _ => by rw [hsame]) (by rw [hp, hsame]; exact h i)

theorem Guarded.go (h : s.Guarded) (i : ι) : (s.go i).Guarded := by
  unfold Lifecycle.go
  cases hpc : s.pc i with
  | idle => exact h
  | opening opens => cases opens <;> exact h.kept rfl rfl (by rw [hpc]; rfl)
  | panicked => exact h
  | start => exact h.kept rfl rfl (by rw [hpc]; rfl)
  | spawn => exact h.kept rfl rfl (by rw [hpc]; rfl)
  | stop => exact h.kept rfl rfl (by rw [hpc]; rfl)
  | lockHandle d =>
    cases hlock : s.lock with
    | none => exact h.taken rfl hlock rfl rfl
    | some _ => exact h
  | lockTake =>
    cases hlock : s.lock with
    | none => exact h.taken rfl hlock rfl rfl
    | some _ => exact h
  | storeHandle d => exact h.dropped rfl (by rw [hpc]; rfl) rfl rfl
  | take =>
    cases s.handle with
    | none => exact h.dropped rfl (by rw [hpc]; rfl) rfl rfl
    | some d => exact h.kept rfl rfl (by rw [hpc]; rfl)
  | join d =>
    by_cases hended : s.daemons[d]? = some .ended
    · simp only [hended, if_true]
      exact h.dropped rfl (by rw [hpc]; rfl) rfl rfl
    · simp only [hended, if_false]
      exact h

theorem Guarded.step (h : s.Guarded) (turn : Turn ι) : (s.step turn).Guarded := by
  cases turn with
  | swiftInitialize i opens =>
    rw [step_swiftInitialize]
    split
    · rename_i hidle
      exact h.kept rfl rfl (by rw [hidle]; rfl)
    · exact h
  | swiftShutdown i =>
    rw [step_swiftShutdown]
    split
    · rename_i hidle
      exact h.kept rfl rfl (by rw [hidle]; rfl)
    · exact h
  | go i => exact h.go i
  | daemon d =>
    obtain ⟨daemons, hstep, -⟩ := step_daemon s d
    rw [hstep]
    exact h

/-- A thread waits, behind the lock, for a daemon that goes on, and nobody is about to clear the
flag. -/
structure Hung (s : Lifecycle ι) (i : ι) (d : Nat) : Prop where
  joins : s.pc i = .join d
  alive : Alive s.daemons d
  running : s.running = true
  silent : ∀ j, s.pc j ≠ .stop
  guarded : s.Guarded

variable {d : Nat}

omit [DecidableEq ι] in
theorem Hung.lock_eq (h : s.Hung i d) : s.lock = some i :=
  (h.guarded i).mp (by rw [h.joins]; rfl)

omit [DecidableEq ι] in
theorem Hung.locks_eq_false (h : s.Hung i d) {j : ι} (hji : j ≠ i) : (s.pc j).locks = false := by
  by_contra hj
  have hlock := (h.guarded j).mp (by simpa using hj)
  rw [h.lock_eq] at hlock
  exact hji (Option.some.inj hlock).symm

/-- A thread that is not in the way moves on within its call. -/
theorem Hung.update {t : Lifecycle ι} {j : ι} {p : LifecyclePc} (h : s.Hung i d) (hji : j ≠ i)
    (hpc : t.pc = Function.update s.pc j p) (halive : Alive t.daemons d)
    (hrun : t.running = true) (hp : p ≠ .stop) (hguarded : t.Guarded) : t.Hung i d := by
  refine ⟨?_, halive, hrun, ?_, hguarded⟩
  · rw [hpc, Function.update_of_ne hji.symm]
    exact h.joins
  · intro k
    rw [hpc]
    by_cases hk : k = j
    · rw [hk, Function.update_self]
      exact hp
    · rw [Function.update_of_ne hk]
      exact h.silent k

/-- The only moves left are those of an initialize up to the lock. -/
theorem Hung.go_cases (h : s.Hung i d) (j : ι) :
    s.go j = s ∨ j ≠ i ∧ ∃ running daemons p,
      s.go j = { s with running, daemons, pc := Function.update s.pc j p } ∧ running = true ∧
        Alive daemons d ∧ p ≠ .stop ∧ p ≠ .idle := by
  by_cases hji : j = i
  · subst hji
    obtain ⟨round, hround, hne⟩ := h.alive
    left
    simp [Lifecycle.go, h.joins, hround, hne]
  · have hlocks := h.locks_eq_false hji
    cases hpc : s.pc j with
    | opening opens =>
      refine Or.inr ⟨hji, s.running, s.daemons, if opens then .start else .panicked, ?_, h.running,
        h.alive, ?_⟩
      · cases opens <;> simp [Lifecycle.go, hpc]
      · cases opens <;> simp
    | start =>
      exact Or.inr ⟨hji, true, s.daemons, .spawn, by simp [Lifecycle.go, hpc], rfl, h.alive,
        by simp, by simp⟩
    | spawn =>
      exact Or.inr ⟨hji, s.running, s.daemons ++ [.check], .lockHandle s.daemons.length,
        by simp [Lifecycle.go, hpc], h.running, alive_append.mpr (Or.inl h.alive), by simp,
        by simp⟩
    | stop => exact absurd hpc (h.silent j)
    | idle | panicked => left; simp [Lifecycle.go, hpc]
    | lockHandle _ => left; simp [Lifecycle.go, hpc, h.lock_eq]
    | lockTake => left; simp [Lifecycle.go, hpc, h.lock_eq]
    | storeHandle _ => simp [hpc, LifecyclePc.locks] at hlocks
    | take => simp [hpc, LifecyclePc.locks] at hlocks
    | join _ => simp [hpc, LifecyclePc.locks] at hlocks

/-- **Every turn but the call of a further shutdown leaves it so**, and no call under way
returns. -/
theorem Hung.step (h : s.Hung i d) {turn : Turn ι} (hturn : ∀ j, turn ≠ .swiftShutdown j) :
    (s.step turn).Hung i d ∧ ∀ j, s.pc j ≠ .idle → (s.step turn).pc j ≠ .idle := by
  have hstays : ∀ {t : Lifecycle ι} {j : ι} {p : LifecyclePc}, t.pc = Function.update s.pc j p →
      p ≠ .idle → ∀ k, s.pc k ≠ .idle → t.pc k ≠ .idle := by
    intro t j p hpc hp k hk
    rw [hpc]
    by_cases hkj : k = j
    · rw [hkj, Function.update_self]
      exact hp
    · rwa [Function.update_of_ne hkj]
  have hguarded := h.guarded.step turn
  cases turn with
  | swiftInitialize j opens =>
    rw [step_swiftInitialize] at hguarded ⊢
    split at hguarded
    · rename_i hidle
      rw [if_pos hidle]
      have hji : j ≠ i := by
        rintro rfl
        simp [h.joins] at hidle
      exact ⟨h.update hji rfl h.alive h.running (by simp) hguarded, hstays rfl (by simp)⟩
    · rename_i hbusy
      rw [if_neg hbusy]
      exact ⟨h, fun _ hj => hj⟩
  | swiftShutdown j => exact absurd rfl (hturn j)
  | go j =>
    change (s.go j).Guarded at hguarded
    change (s.go j).Hung i d ∧ ∀ k, s.pc k ≠ .idle → (s.go j).pc k ≠ .idle
    rcases h.go_cases j with hgo | ⟨hji, running, daemons, p, hgo, hrun, halive, hstop, hidle⟩
    · rw [hgo]
      exact ⟨h, fun _ hj => hj⟩
    · rw [hgo] at hguarded ⊢
      exact ⟨h.update hji rfl halive hrun hstop hguarded, hstays rfl hidle⟩
  | daemon e =>
    obtain ⟨daemons, hstep, -, -, hkept⟩ := step_daemon s e
    rw [hstep] at hguarded ⊢
    exact ⟨⟨h.joins, hkept h.running d h.alive, h.running, h.silent, hguarded⟩, fun _ hj => hj⟩

theorem Hung.run (h : s.Hung i d) {turns : List (Turn ι)} (hturns : ∀ j, .swiftShutdown j ∉ turns) :
    (s.run turns).Hung i d ∧ ∀ j, s.pc j ≠ .idle → (s.run turns).pc j ≠ .idle := by
  induction turns generalizing s with
  | nil => exact ⟨h, fun _ hj => hj⟩
  | cons turn turns ih =>
    have hturn : ∀ j, turn ≠ .swiftShutdown j :=
      fun j hj => hturns j (hj ▸ List.mem_cons_self)
    obtain ⟨hone, hstays⟩ := h.step hturn
    obtain ⟨hrest, hstays'⟩ := ih hone (fun j hj => hturns j (List.mem_cons_of_mem _ hj))
    exact ⟨hrest, fun j hj => hstays' j (hstays j hj)⟩

omit [DecidableEq ι] in
theorem guarded_start : (start : Lifecycle ι).Guarded := by
  intro j
  simp [start, LifecyclePc.locks]

/-- **Once the flag is set again while a shutdown waits for a daemon that has not ended, that
shutdown never returns**, and neither does any other call under way, until somebody calls
shutdown again. -/
theorem hangs (before turns : List (Turn ι)) (i : ι) (d : Nat)
    (hjoins : (start.run before).pc i = .join d)
    (halive : Alive (start.run before).daemons d)
    (hrunning : (start.run before).running = true)
    (hstop : ∀ j, (start.run before).pc j ≠ .stop) (hturns : ∀ j, .swiftShutdown j ∉ turns) :
    (start.run (before ++ turns)).pc i = .join d ∧
      ∀ j, (start.run before).pc j ≠ .idle → (start.run (before ++ turns)).pc j ≠ .idle := by
  have hguarded : (start.run before).Guarded :=
    Machine.foldl_preserves (fun _ turn h => h.step turn) guarded_start before
  have hsplit : start.run (before ++ turns) = (start.run before).run turns :=
    List.foldl_append
  obtain ⟨hrest, hstays⟩ := Hung.run ⟨hjoins, halive, hrunning, hstop, hguarded⟩ hturns
  rw [hsplit]
  exact ⟨hrest.joins, hstays⟩

/-- The second thread sets the flag between the first one's two steps of a shutdown, and before
the daemon looks at it. -/
theorem hangs_of_two :
    let before : List (Turn Bool) :=
      [.swiftInitialize true true, .go true, .go true, .go true, .go true, .go true,
        .swiftShutdown true, .go true, .swiftInitialize false true, .go false, .go false, .go true,
        .go true]
    let turns : List (Turn Bool) := [.daemon 0, .go false, .go false, .daemon 0, .go true]
    (start.run (before ++ turns)).pc true = .join 0 ∧
      ∀ j, (start.run before).pc j ≠ .idle → (start.run (before ++ turns)).pc j ≠ .idle :=
  hangs _ _ true 0 (by decide) ⟨.check, by decide, by decide⟩ (by decide) (by decide)
    (by decide)

/-! ## One call at a time -/

/-- The states that are reached when a call is made only after the one before has returned, or
panicked, and an initialize only when no handle is stored. -/
inductive Orderly : Lifecycle ι → Prop where
  | start : Orderly start
  | swiftInitialize {s : Lifecycle ι} (i : ι) (opens : Bool) (h : Orderly s)
      (hnone : ∀ j, (s.pc j).underWay = false) (hhandle : s.handle = none) :
      Orderly (s.step (.swiftInitialize i opens))
  | swiftShutdown {s : Lifecycle ι} (i : ι) (h : Orderly s)
      (hnone : ∀ j, (s.pc j).underWay = false) : Orderly (s.step (.swiftShutdown i))
  | go {s : Lifecycle ι} (i : ι) (h : Orderly s) : Orderly (s.step (.go i))
  | daemon {s : Lifecycle ι} (d : Nat) (h : Orderly s) : Orderly (s.step (.daemon d))

/-- What holds when the thread whose turn it is stands there. -/
def Fits (s : Lifecycle ι) : LifecyclePc → Prop
  | .idle | .panicked | .stop =>
    (s.handle ≠ none → s.running = true) ∧ ∀ d, Alive s.daemons d ↔ s.handle = some d
  | .opening _ | .start => s.handle = none ∧ ∀ d, ¬ Alive s.daemons d
  | .spawn => s.handle = none ∧ s.running = true ∧ ∀ d, ¬ Alive s.daemons d
  | .lockHandle d | .storeHandle d =>
    s.handle = none ∧ s.running = true ∧ ∀ d', Alive s.daemons d' ↔ d' = d
  | .lockTake | .take =>
    s.running = false ∧ (∀ d, s.handle = some d → d < s.daemons.length) ∧
      ∀ d, Alive s.daemons d → s.handle = some d
  | .join d =>
    s.running = false ∧ s.handle = none ∧ d < s.daemons.length ∧ ∀ d', Alive s.daemons d' → d' = d

omit [DecidableEq ι] in
/-- A thread that has left its call has left all in order. -/
theorem Fits.rest {p : LifecyclePc} (h : s.Fits p) (hp : p.underWay = false) : s.Fits .idle := by
  cases p with
  | idle | panicked => exact h
  | _ => cases hp

omit [DecidableEq ι] in
theorem Alive.lt_length {daemons : List DaemonRound} (h : Alive daemons d) :
    d < daemons.length := by
  obtain ⟨round, hround, -⟩ := h
  exact (List.getElem?_eq_some_iff.mp hround).1

omit [DecidableEq ι] in
/-- A daemon that ends, or goes on, fits wherever the thread stands. -/
theorem Fits.daemon {p : LifecyclePc} (h : s.Fits p) {daemons : List DaemonRound}
    (hlen : daemons.length = s.daemons.length) (hback : ∀ d, Alive daemons d → Alive s.daemons d)
    (hkept : s.running = true → ∀ d, Alive s.daemons d → Alive daemons d) :
    Fits { s with daemons := daemons } p := by
  have hiff : s.running = true → ∀ d, Alive daemons d ↔ Alive s.daemons d :=
    fun hrun d => ⟨hback d, hkept hrun d⟩
  cases p with
  | idle | panicked | stop =>
    refine ⟨h.1, fun d => ⟨fun hd => (h.2 d).mp (hback d hd), fun hd => ?_⟩⟩
    exact hkept (h.1 (by simp [show s.handle = some d from hd])) d ((h.2 d).mpr hd)
  | opening _ | start => exact ⟨h.1, fun d hd => h.2 d (hback d hd)⟩
  | spawn => exact ⟨h.1, h.2.1, fun d hd => h.2.2 d (hback d hd)⟩
  | lockHandle d | storeHandle d =>
    exact ⟨h.1, h.2.1, fun d' => (hiff h.2.1 d').trans (h.2.2 d')⟩
  | lockTake | take =>
    exact ⟨h.1, fun d hd => hlen ▸ h.2.1 d hd, fun d hd => h.2.2 d (hback d hd)⟩
  | join d => exact ⟨h.1, h.2.1, hlen ▸ h.2.2.1, fun d' hd => h.2.2.2 d' (hback d' hd)⟩

/-- The next access of the thread fits again. -/
theorem Fits.go (h : s.Fits (s.pc i)) :
    ∃ p, (s.go i).pc = Function.update s.pc i p ∧ (s.go i).Fits p := by
  have hsame : s.go i = s → ∃ p, (s.go i).pc = Function.update s.pc i p ∧ (s.go i).Fits p := by
    intro heq
    rw [heq]
    exact ⟨s.pc i, (Function.update_eq_self i s.pc).symm, h⟩
  cases hpc : s.pc i with
  | idle | panicked => exact hsame (by simp [Lifecycle.go, hpc])
  | opening opens =>
    rw [hpc] at h
    cases opens with
    | true =>
      exact ⟨.start, by simp [Lifecycle.go, hpc], by simpa [Lifecycle.go, hpc, Fits] using h⟩
    | false =>
      -- nothing has been started
      refine ⟨.panicked, by simp [Lifecycle.go, hpc], ?_⟩
      simp only [Lifecycle.go, hpc]
      exact ⟨fun hne => absurd h.1 hne, fun d => ⟨fun hd => absurd hd (h.2 d), by simp [h.1]⟩⟩
  | start =>
    rw [hpc] at h
    exact ⟨.spawn, by simp [Lifecycle.go, hpc], by simpa [Lifecycle.go, hpc, Fits] using h⟩
  | spawn =>
    rw [hpc] at h
    refine ⟨.lockHandle s.daemons.length, by simp [Lifecycle.go, hpc], ?_⟩
    simp only [Lifecycle.go, hpc]
    exact ⟨h.1, h.2.1, fun d => alive_append.trans (or_iff_right (h.2.2 d))⟩
  | lockHandle d =>
    cases hlock : s.lock with
    | none =>
      rw [hpc] at h
      exact ⟨.storeHandle d, by simp [Lifecycle.go, hpc, hlock],
        by simpa [Lifecycle.go, hpc, hlock, Fits] using h⟩
    | some _ => exact hsame (by simp [Lifecycle.go, hpc, hlock])
  | storeHandle d =>
    rw [hpc] at h
    refine ⟨.idle, by simp [Lifecycle.go, hpc], ?_⟩
    simp only [Lifecycle.go, hpc]
    exact ⟨fun _ => h.2.1, fun d' => by rw [h.2.2 d', Option.some.injEq, eq_comm]⟩
  | stop =>
    rw [hpc] at h
    refine ⟨.lockTake, by simp [Lifecycle.go, hpc], ?_⟩
    simp only [Lifecycle.go, hpc]
    exact ⟨rfl, fun d hd => Alive.lt_length ((h.2 d).mpr hd), fun d hd => (h.2 d).mp hd⟩
  | lockTake =>
    cases hlock : s.lock with
    | none =>
      rw [hpc] at h
      exact ⟨.take, by simp [Lifecycle.go, hpc, hlock],
        by simpa [Lifecycle.go, hpc, hlock, Fits] using h⟩
    | some _ => exact hsame (by simp [Lifecycle.go, hpc, hlock])
  | take =>
    rw [hpc] at h
    obtain ⟨hrun, hlt, hfits⟩ := h
    cases hhandle : s.handle with
    | none =>
      refine ⟨.idle, by simp [Lifecycle.go, hpc, hhandle], ?_⟩
      simp only [Lifecycle.go, hpc, hhandle]
      refine ⟨by simp, fun d => ⟨fun hd => ?_, by simp⟩⟩
      rw [← hhandle]
      exact hfits d hd
    | some d =>
      refine ⟨.join d, by simp [Lifecycle.go, hpc, hhandle], ?_⟩
      simp only [Lifecycle.go, hpc, hhandle]
      exact ⟨hrun, rfl, hlt d hhandle,
        fun d' hd => (Option.some.inj (hhandle.symm.trans (hfits d' hd))).symm⟩
  | join d =>
    by_cases hended : s.daemons[d]? = some .ended
    · rw [hpc] at h
      obtain ⟨-, hhandle, -, honly⟩ := h
      refine ⟨.idle, by simp [Lifecycle.go, hpc, hended], ?_⟩
      simp only [Lifecycle.go, hpc, hended, if_true]
      refine ⟨fun hne => absurd hhandle hne, fun d' => ⟨fun hd => ?_, by simp [hhandle]⟩⟩
      -- the daemon that was joined was the last one
      obtain ⟨round, hround, hne⟩ := hd
      obtain rfl := honly d' ⟨round, hround, hne⟩
      exact absurd (Option.some.inj (hround.symm.trans hended)) hne
    · exact hsame (by simp [Lifecycle.go, hpc, hended])

/-- One thread at most is in a call, and all fits where it is. -/
structure Shape (s : Lifecycle ι) : Prop where
  alone : ∀ i j, (s.pc i).underWay = true → (s.pc j).underWay = true → i = j
  busy : ∀ i, (s.pc i).underWay = true → s.Fits (s.pc i)
  rest : (∀ i, (s.pc i).underWay = false) → s.Fits .idle

omit [DecidableEq ι] in
theorem Shape.others (h : s.Shape) (hi : (s.pc i).underWay = true) (j : ι) (hji : j ≠ i) :
    (s.pc j).underWay = false := by
  by_contra hj
  exact hji (h.alone j i (by simpa using hj) hi)

/-- The thread in a call moves on. -/
theorem Shape.of_update {t : Lifecycle ι} {p : LifecyclePc}
    (hothers : ∀ j, j ≠ i → (s.pc j).underWay = false) (hpc : t.pc = Function.update s.pc i p)
    (hfits : t.Fits p) : t.Shape := by
  have honly : ∀ j, (t.pc j).underWay = true → j = i := by
    intro j hj
    by_contra hji
    rw [hpc, Function.update_of_ne hji, hothers j hji] at hj
    cases hj
  have hp : t.pc i = p := by rw [hpc, Function.update_self]
  refine ⟨fun j k hj hk => (honly j hj).trans (honly k hk).symm, fun j hj => ?_, fun hnone => ?_⟩
  · rw [honly j hj, hp]
    exact hfits
  · exact hfits.rest (hp ▸ hnone i)

theorem Shape.go (h : s.Shape) (i : ι) : (s.go i).Shape := by
  by_cases hi : (s.pc i).underWay = true
  · obtain ⟨p, hpc, hfits⟩ := (h.busy i hi).go
    exact .of_update (h.others hi) hpc hfits
  · have hstays : s.go i = s := by
      cases hpc : s.pc i with
      | idle | panicked => simp [Lifecycle.go, hpc]
      | _ => exact absurd (by rw [hpc]; rfl) hi
    rwa [hstays]

theorem Orderly.shape (h : Orderly s) : s.Shape := by
  induction h with
  | start =>
    exact
      { alone := fun _ _ hi => by cases hi
        busy := fun _ hi => by cases hi
        rest := fun _ => ⟨by simp [Lifecycle.start], by simp [Lifecycle.start, Alive]⟩ }
  | @swiftInitialize s i opens _ hnone hhandle ih =>
    rw [step_swiftInitialize]
    split
    · refine .of_update (fun j _ => hnone j) rfl ?_
      exact ⟨hhandle, fun d hd => by simpa [hhandle] using ((ih.rest hnone).2 d).mp hd⟩
    · exact ih
  | @swiftShutdown s i _ hnone ih =>
    rw [step_swiftShutdown]
    split
    · refine .of_update (fun j _ => hnone j) rfl ?_
      exact ih.rest hnone
    · exact ih
  | go i _ ih => exact ih.go i
  | @daemon s d _ ih =>
    obtain ⟨daemons, hstep, hlen, hback, hkept⟩ := step_daemon s d
    rw [hstep]
    exact ⟨ih.alone, fun i hi => (ih.busy i hi).daemon hlen hback hkept,
      fun hnone => (ih.rest hnone).daemon hlen hback hkept⟩

omit [DecidableEq ι] in
theorem Fits.unique {p : LifecyclePc} (h : s.Fits p) {d d' : Nat} (hd : Alive s.daemons d)
    (hd' : Alive s.daemons d') : d = d' := by
  cases p with
  | idle | panicked | stop =>
    exact Option.some.inj (((h.2 d).mp hd).symm.trans ((h.2 d').mp hd'))
  | opening _ | start => exact absurd hd (h.2 d)
  | spawn => exact absurd hd (h.2.2 d)
  | lockHandle e | storeHandle e => exact ((h.2.2 d).mp hd).trans ((h.2.2 d').mp hd').symm
  | lockTake | take => exact Option.some.inj ((h.2.2 d hd).symm.trans (h.2.2 d' hd'))
  | join e => exact (h.2.2.2 d hd).trans (h.2.2.2 d' hd').symm

/-- **There is never more than one daemon**, when the calls come one at a time; and between two
calls exactly the daemon whose handle is stored goes on. -/
theorem one_daemon (h : Orderly s) :
    (∀ d d', Alive s.daemons d → Alive s.daemons d' → d = d') ∧
      ((∀ i, (s.pc i).underWay = false) → ∀ d, Alive s.daemons d ↔ s.handle = some d) := by
  refine ⟨fun d d' hd hd' => ?_, fun hnone => (h.shape.rest hnone).2⟩
  by_cases hnone : ∀ i, (s.pc i).underWay = false
  · exact (h.shape.rest hnone).unique hd hd'
  · obtain ⟨i, hi⟩ := not_forall.mp hnone
    exact (h.shape.busy i (by simpa using hi)).unique hd hd'

/-- Between an initialize and the shutdown. -/
theorem one_daemon_after_initialize :
    let s : Lifecycle Unit :=
      start.run [.swiftInitialize () true, .go (), .go (), .go (), .go (), .go ()]
    (∀ d d', Alive s.daemons d → Alive s.daemons d' → d = d') ∧
      ((∀ i, (s.pc i).underWay = false) → ∀ d, Alive s.daemons d ↔ s.handle = some d) :=
  one_daemon (.go () (.go () (.go () (.go () (.go ()
    (.swiftInitialize () true .start (by decide) rfl))))))

theorem Orderly.guarded (h : Orderly s) : s.Guarded := by
  induction h with
  | start => exact guarded_start
  | swiftInitialize i opens _ _ _ ih => exact ih.step _
  | swiftShutdown i _ _ ih => exact ih.step _
  | go i _ ih => exact ih.step _
  | daemon d _ ih => exact ih.step _

/-- Nobody else is behind the lock. -/
theorem Orderly.lock_eq_none (h : Orderly s) (hi : (s.pc i).underWay = true)
    (hlocks : (s.pc i).locks = false) : s.lock = none := by
  by_contra hlock
  obtain ⟨j, hj⟩ := Option.ne_none_iff_exists'.mp hlock
  have hbehind := (h.guarded j).mpr hj
  by_cases hji : j = i
  · rw [hji, hlocks] at hbehind
    exact Bool.false_ne_true hbehind
  · have hout := h.shape.others hi j hji
    cases hpc : s.pc j <;> rw [hpc] at hbehind hout <;> cases hbehind <;> cases hout

/-- Once the flag is cleared a daemon ends by itself. -/
theorem ends (hrun : s.running = false) (hd : d < s.daemons.length) :
    ∃ n, (s.run (List.replicate n (.daemon d))).daemons[d]? = some .ended ∧
      (s.run (List.replicate n (.daemon d))).pc = s.pc := by
  obtain ⟨round, hround⟩ : ∃ round, s.daemons[d]? = some round :=
    ⟨_, List.getElem?_eq_getElem hd⟩
  cases round with
  | ended => exact ⟨0, hround, rfl⟩
  | check =>
    refine ⟨1, ?_, ?_⟩ <;> simp [run, step, hround, hrun, List.getElem?_set_self hd]
  | busy =>
    refine ⟨2, ?_, ?_⟩ <;>
      simp [run, step, hround, hrun, List.replicate_succ, List.getElem?_set_self hd]

/-- The call under way gets nearer to its end. -/
theorem Orderly.advances (h : Orderly s) (hi : (s.pc i).underWay = true) :
    ∃ n d p, (s.run (List.replicate n (.daemon d) ++ [.go i])).pc = Function.update s.pc i p ∧
      p.left < (s.pc i).left ∧ p.fails = (s.pc i).fails := by
  have hgo : ∀ p, (s.go i).pc = Function.update s.pc i p → p.left < (s.pc i).left →
      p.fails = (s.pc i).fails →
        ∃ n d p, (s.run (List.replicate n (.daemon d) ++ [.go i])).pc = Function.update s.pc i p ∧
          p.left < (s.pc i).left ∧ p.fails = (s.pc i).fails :=
    fun p hpc hlt hfails => ⟨0, 0, p, hpc, hlt, hfails⟩
  have hfits := h.shape.busy i hi
  have hlock := h.lock_eq_none hi
  obtain ⟨q, hpc⟩ : ∃ q, s.pc i = q := ⟨_, rfl⟩
  cases q with
  | idle | panicked =>
    rw [hpc] at hi
    cases hi
  | opening opens =>
    cases opens with
    | true =>
      exact hgo .start (by simp [Lifecycle.go, hpc]) (by rw [hpc]; decide) (by rw [hpc]; rfl)
    | false =>
      exact hgo .panicked (by simp [Lifecycle.go, hpc]) (by rw [hpc]; decide) (by rw [hpc]; rfl)
  | start => exact hgo .spawn (by simp [Lifecycle.go, hpc]) (by rw [hpc]; decide) (by rw [hpc]; rfl)
  | spawn =>
    exact hgo (.lockHandle s.daemons.length) (by simp [Lifecycle.go, hpc])
      (by simp [hpc, LifecyclePc.left]) (by rw [hpc]; rfl)
  | stop =>
    exact hgo .lockTake (by simp [Lifecycle.go, hpc]) (by rw [hpc]; decide) (by rw [hpc]; rfl)
  | lockHandle d =>
    exact hgo (.storeHandle d) (by simp [Lifecycle.go, hpc, hlock (by rw [hpc]; rfl)])
      (by simp [hpc, LifecyclePc.left]) (by rw [hpc]; rfl)
  | lockTake =>
    exact hgo .take (by simp [Lifecycle.go, hpc, hlock (by rw [hpc]; rfl)]) (by rw [hpc]; decide)
      (by rw [hpc]; rfl)
  | storeHandle d =>
    exact hgo .idle (by simp [Lifecycle.go, hpc]) (by simp [hpc, LifecyclePc.left])
      (by rw [hpc]; rfl)
  | take =>
    cases hhandle : s.handle with
    | none =>
      exact hgo .idle (by simp [Lifecycle.go, hpc, hhandle]) (by rw [hpc]; decide)
        (by rw [hpc]; rfl)
    | some d =>
      exact hgo (.join d) (by simp [Lifecycle.go, hpc, hhandle]) (by simp [hpc, LifecyclePc.left])
        (by rw [hpc]; rfl)
  | join d =>
    rw [hpc] at hfits
    obtain ⟨n, hended, hsame⟩ := ends hfits.1 hfits.2.2.1
    refine ⟨n, d, .idle, ?_, by simp [hpc, LifecyclePc.left], by rw [hpc]; rfl⟩
    rw [run, List.foldl_append]
    change ((s.run (List.replicate n (.daemon d))).go i).pc = _
    simp [Lifecycle.go, hsame, hpc, hended]

theorem Orderly.run_daemons (h : Orderly s) (n d : Nat) :
    Orderly (s.run (List.replicate n (.daemon d))) := by
  induction n generalizing s with
  | zero => exact h
  | succ n ih => exact ih (h.daemon d)

/-- **Every call returns**, when the calls come one at a time, but for an initialize whose file
does not open, which panics: some turns of its thread and of the daemon bring it to its end, and
no other call is needed. -/
theorem calls_return (h : Orderly s) :
    ∃ turns : List (Turn ι),
      (∀ i, (∀ opens, .swiftInitialize i opens ∉ turns) ∧ .swiftShutdown i ∉ turns) ∧
        ∀ i, (s.run turns).pc i = (s.pc i).outcome := by
  by_cases hnone : ∀ i, (s.pc i).underWay = false
  · exact ⟨[], by simp, fun i => (LifecyclePc.outcome_of_not_underWay (hnone i)).symm⟩
  obtain ⟨i, hi⟩ := not_forall.mp hnone
  replace hi : (s.pc i).underWay = true := by simpa using hi
  -- by induction on what is left of the one call under way
  induction hn : (s.pc i).left using Nat.strong_induction_on generalizing s with
  | _ n ih =>
    obtain ⟨k, d, p, hpc, hlt, hfails⟩ := h.advances hi
    have hnext : Orderly (s.run (List.replicate k (.daemon d) ++ [.go i])) := by
      rw [run, List.foldl_append]
      exact (h.run_daemons k d).go i
    generalize hfirst : List.replicate k (Turn.daemon d) ++ [.go i] = first at hpc hnext
    have hcalls : ∀ j, (∀ opens, .swiftInitialize j opens ∉ first) ∧ .swiftShutdown j ∉ first := by
      intro j
      simp [← hfirst, List.mem_replicate]
    have hp : (s.run first).pc i = p := by rw [hpc, Function.update_self]
    have hsame : ∀ j, ((s.run first).pc j).outcome = (s.pc j).outcome := by
      intro j
      by_cases hji : j = i
      · rw [hji, hp, LifecyclePc.outcome, LifecyclePc.outcome, hfails]
      · rw [hpc, Function.update_of_ne hji]
    by_cases hpend : p.underWay = true
    · obtain ⟨turns, hturns, hend⟩ := ih p.left (hn ▸ hlt) hnext
        (fun hall => by simp [← hp, hall i] at hpend) (by rwa [hp]) (by rw [hp])
      refine ⟨first ++ turns, fun j => ?_, fun j => ?_⟩
      · simp [hcalls j, hturns j]
      · rw [run, List.foldl_append]
        exact (hend j).trans (hsame j)
    · refine ⟨first, hcalls, fun j => ?_⟩
      rw [← hsame j]
      refine (LifecyclePc.outcome_of_not_underWay ?_).symm
      by_cases hji : j = i
      · rw [hji, hp]
        simpa using hpend
      · rw [hpc, Function.update_of_ne hji]
        exact h.shape.others hi j hji

/-- A shutdown that has just been called after an initialize returns; an initialize whose file
does not open panics. -/
theorem calls_return_of_shutdown :
    let s : Lifecycle Unit :=
      start.run
        [.swiftInitialize () true, .go (), .go (), .go (), .go (), .go (), .swiftShutdown ()]
    let t : Lifecycle Unit := start.run [.swiftInitialize () false]
    (∃ turns : List (Turn Unit),
      (∀ i, (∀ opens, .swiftInitialize i opens ∉ turns) ∧ .swiftShutdown i ∉ turns) ∧
        ∀ i, (s.run turns).pc i = .idle) ∧
      ∃ turns : List (Turn Unit),
        (∀ i, (∀ opens, .swiftInitialize i opens ∉ turns) ∧ .swiftShutdown i ∉ turns) ∧
          ∀ i, (t.run turns).pc i = .panicked :=
  ⟨calls_return (.swiftShutdown () (.go () (.go () (.go () (.go () (.go ()
    (.swiftInitialize () true .start (by decide) rfl)))))) (by decide)),
    calls_return (.swiftInitialize () false .start (by decide) rfl)⟩

end Lifecycle

end Sherlog
