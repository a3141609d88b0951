import Sherlog.Disk.Linear

/-!
# No call on a shared buffer waits for ever

* `Pc.Follows.act_isSome` — a thread in a call has a next access; no slice index leaves the
  mapping.
* `Locking.Simulates.exists_go` — some thread can take its next turn, since every call takes its
  guards in one order.
* `Locking.progress` — so every call returns.
-/

namespace Sherlog

open Locks Histories LapLog PersistentRingBuffer

theorem Guard.rank_of_rival {g g' : Guard} (h : g' ∈ g.rivals) : g'.rank = g.rank := by
  cases g <;> cases g' <;> simp_all [Guard.rivals, Guard.rank]

section

variable [Hasher]

/-! ## No call panics -/

namespace Pc

theorem alone_none {b : PersistentRingBuffer} {pc : Pc} (h : pc.act b = none) (n : Nat) :
    alone (n + 1) b pc = some none :=
  Loop.loop_succ_inl (by rw [round, h]) n

omit [Hasher] in
theorem eq_idle {pc : Pc} (h : pc.phase = .idle) : pc = .idle := by
  rcases pc with _ | _ | _ | _ | ⟨_ | _, _, _⟩ | _ | _ | _ | _ <;> first | rfl | cases h

omit [Hasher] in
theorem eq_leave {pc : Pc} {reply : Reply} (h : pc.phase = .done reply) :
    pc = .leave pc.guards reply := by
  rcases pc with _ | _ | _ | _ | ⟨_ | _, _, _⟩ | _ | _ | _ | ⟨guards, reply'⟩ <;>
    first | (cases h; rfl) | cases h

/-- **A thread in a call has a next access**: no slice index leaves the mapping. -/
theorem Follows.act_isSome {a b : PersistentRingBuffer} {l : Log Record} {pc : Pc} {left : Nat}
    (h : pc.Follows a b left) (ha : a.Represents l) (hbusy : pc ≠ .idle)
    (hmap : Guard.mmapRead ∈ pc.guards → b.mmap = a.mmap ∧ b.size = a.size)
    (hcontrol : Guard.controlRead ∈ pc.guards → b.control = a.control) :
    ∃ act, pc.act b = some act := by
  cases hphase : pc.phase with
  | idle => exact absurd (eq_idle hphase) hbusy
  | done reply =>
    obtain ⟨hne, -⟩ := h.done reply hphase
    rw [eq_leave hphase]
    rcases hguards : pc.guards with _ | ⟨guard, _ | ⟨guard', guards⟩⟩
    · exact absurd hguards hne
    · exact ⟨_, rfl⟩
    · exact ⟨_, rfl⟩
  | pending op =>
    obtain ⟨k, -, halone⟩ := h.exists_pending ha hphase
    obtain ⟨reply, a', hanswer, -⟩ := ha.answer_represents op
    by_cases hheld : Guard.controlWrite ∈ pc.guards
    · rw [if_pos hheld] at halone
      by_contra hnone
      rw [alone_none (Option.eq_none_iff_forall_ne_some.mpr (not_exists.mp hnone)), hanswer]
        at halone
      cases halone
    · rw [if_neg hheld] at halone
      have hfirst := halone a l ha rfl
      rcases hact : pc.act a with _ | ⟨guard, pc'⟩ | ⟨guard, pc'⟩ | ⟨guard, reply'⟩ | ⟨a', pc'⟩
      · rw [alone_none hact, hanswer] at hfirst
        cases hfirst
      · exact ⟨_, (keeps hact).1 b⟩
      · exact ⟨_, (keeps hact).1 b⟩
      · have hdone := (keeps hact).2
        rw [hphase] at hdone
        cases hdone
      · obtain ⟨-, hact', -⟩ := act_of_not_mem (a := b) hheld hact
          (fun hread => ⟨(hmap hread).1.symm, (hmap hread).2.symm⟩)
          fun hread => (hcontrol hread).symm
        exact ⟨_, hact'⟩

end Pc

namespace Locking

variable {ι : Type*} [DecidableEq ι] {s s' : Locking ι} {a : PersistentRingBuffer}
  {phases : ι → CallPhase Operation Reply} {left : ι → Nat}

/-- The guard that a thread waits for. -/
def wants (s : Locking ι) (i : ι) : Option Guard :=
  match (s.pc i).act s.buf with
  | some (.acquire guard _) => some guard
  | _ => none

namespace Simulates

omit [DecidableEq ι] in
theorem act_isSome (h : Simulates s a phases left) {i : ι} (hbusy : s.pc i ≠ .idle) :
    ∃ act, (s.pc i).act s.buf = some act := by
  obtain ⟨l, hl⟩ := h.represents
  exact (h.follows i).act_isSome hl hbusy (fun hread => ⟨h.mmap_eq hread, h.size_eq⟩)
    fun hread => by rw [h.buf_eq hread]

/-- **The threads never all wait for one another.** -/
theorem exists_go (h : Simulates s a phases left) (hbusy : ∃ i, s.pc i ≠ .idle) :
    ∃ i, s.pc i ≠ .idle ∧ (s.step (.go i)).isSome = true := by
  have hactive : ∀ g, ∀ i ∈ s.guards g, s.pc i ≠ .idle := by
    intro g i hmem hidle
    rw [h.mem_iff, hidle] at hmem
    exact absurd hmem List.not_mem_nil
  have hrank : ∀ i g, s.wants i = some g → ∀ g', i ∈ s.guards g' → g'.rank < g.rank := by
    intro i g hwants g' hmem
    rw [wants] at hwants
    split at hwants
    · next guard pc hact =>
      obtain rfl := Option.some.inj hwants
      exact (Pc.keeps hact).2.2.1 g' ((h.mem_iff g' i).mp hmem)
    · cases hwants
  have hbound : ∀ g : Guard, g.rank ≤ 2 := by
    intro g
    cases g <;> decide
  obtain ⟨i, hi, hfree⟩ := exists_unblocked hbound hactive hrank hbusy
  refine ⟨i, hi, ?_⟩
  obtain ⟨act, hact⟩ := h.act_isSome hi
  rw [Locking.step, hact, Option.bind_some]
  cases act with
  | acquire guard pc =>
    have hwants : s.wants i = some guard := by rw [wants, hact]
    have hnone : s.guards.Free Guard.rivals guard :=
      fun g' hrival => hfree guard hwants g' (Guard.rank_of_rival hrival)
    simp only [if_pos hnone, Option.isSome_some]
  | release guard pc => rfl
  | returns guard reply => rfl
  | access buf pc => rfl

end Simulates

/-- Is it a call that the thread makes? -/
def Turn.calls (i : ι) : Turn ι → Bool
  | .call j _ => decide (j = i)
  | .go _ => false

/-- Is it a turn of the thread in its call? -/
def Turn.goes (i : ι) : Turn ι → Bool
  | .call _ _ => false
  | .go j => decide (j = i)

/-- What is left of the calls of a thread pays for its turns. -/
theorem Simulates.countP_goes (h : Simulates s a phases left) {turns : List (Turn ι)}
    {shown : List (Option (CallEvent ι Operation Reply))}
    (hrun : Machine.run Locking.step s turns = some (shown, s')) (i : ι) :
    turns.countP (Turn.goes i) ≤ left i + turns.countP (Turn.calls i) * (a.turns + 3) := by
  induction turns generalizing s a phases left shown with
  | nil => exact Nat.zero_le _
  | cons turn turns ih =>
    obtain ⟨first, s₁, rest, hone, hrest, -⟩ := Machine.run_cons_eq_some.mp hrun
    obtain ⟨events, a₁, phases₁, left₁, -, -, -, hsize, h₁, hspends⟩ := h.step hone
    have hcount := ih h₁ hrest
    rw [show a₁.turns = a.turns by rw [PersistentRingBuffer.turns, hsize]; rfl] at hcount
    rw [List.countP_cons, List.countP_cons]
    cases turn with
    | call j op =>
      obtain rfl : left₁ = Function.update left j (a.turns + 3) := hspends
      by_cases hj : j = i
      · subst hj
        rw [Function.update_self] at hcount
        simp only [Turn.goes, Turn.calls, decide_true, if_true, Bool.false_eq_true, if_false,
          Nat.add_mul]
        omega
      · rw [Function.update_of_ne (Ne.symm hj)] at hcount
        simpa [Turn.goes, Turn.calls, hj] using hcount
    | go j =>
      obtain ⟨m, hleft, rfl⟩ := hspends
      by_cases hj : j = i
      · subst hj
        rw [Function.update_self] at hcount
        simp only [Turn.goes, Turn.calls, decide_true, if_true, Bool.false_eq_true, if_false,
          Nat.add_zero]
        omega
      · rw [Function.update_of_ne (Ne.symm hj)] at hcount
        simpa [Turn.goes, Turn.calls, hj] using hcount

/-- **No call waits for ever.**  However the accesses and guards of the threads interleave: no
call panics; while calls are under way some thread can take its next turn, so they never all wait
for one another; and a thread takes no more turns than its calls are allowed, a number that
depends on the size of the buffer alone.  Without new calls, all calls return. -/
theorem progress (b : Live) {turns : List (Turn ι)}
    {shown : List (Option (CallEvent ι Operation Reply))}
    (hrun : Machine.run Locking.step (start b.buf) turns = some (shown, s')) :
    (∀ i, s'.pc i ≠ .idle → ∃ act, (s'.pc i).act s'.buf = some act) ∧
      ((∃ i, s'.pc i ≠ .idle) → ∃ i, s'.pc i ≠ .idle ∧ (s'.step (.go i)).isSome = true) ∧
      ∀ i, turns.countP (Turn.goes i) ≤
        turns.countP (Turn.calls i) * (4 * (b.buf.size / Header.SIZE) + 17) := by
  have hstart : Simulates (ι := ι) (start b.buf) b.buf (fun _ => .idle) fun _ => 0 :=
    Simulates.start ⟨b.log, b.represents⟩
  obtain ⟨_, _, _, _, -, -, -, hs'⟩ := hstart.run hrun
  refine ⟨fun i hbusy => hs'.act_isSome hbusy, hs'.exists_go, fun i => ?_⟩
  have hcount := hstart.countP_goes hrun i
  rwa [Nat.zero_add] at hcount

end Locking

end

section Ieee

attribute [local instance] Hasher.ieee

/-- A `write` waits for the control block, which a `read_all` holds. -/
theorem Locking.progress_of_two :
    let b := Live.fresh 64 (by decide) Sys.ok
    let turns : List (Turn Bool) :=
      [.call false (.write (Record.new [1, 2, 3] 0 0) Sys.ok), .go false,
        .call true (.readAll Sys.ok), .go true]
    ∃ shown s', Machine.run step (start b.buf) turns = some (shown, s') ∧
      (s'.step (.go false)).isSome = false ∧
      ∃ i, s'.pc i ≠ .idle ∧ (s'.step (.go i)).isSome = true := by
  intro b turns
  have hsome : ((Machine.run step (start b.buf) turns).map fun (_, s') =>
      ((s'.step (.go false)).isSome, (s'.pc true).guards)) = some (false, [.controlWrite]) := by
    decide +kernel
  obtain ⟨⟨shown, s'⟩, hrun, hs'⟩ := Option.map_eq_some_iff.mp hsome
  obtain ⟨hwaits, hguards⟩ := Prod.mk.inj hs'
  refine ⟨shown, s', hrun, hwaits, (progress b hrun).2.1 ⟨true, fun hidle => ?_⟩⟩
  rw [hidle] at hguards
  cases hguards

end Ieee

end Sherlog
