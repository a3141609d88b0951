import Sherlog.Disk.Atomic

/-!
# Threads that share a persistent buffer

The calls of any number of threads, interleaved access by access under the locks of the source,
are as good as the same calls made one after the other.

* `Locking.Simulates` — a buffer shared by threads, against one on which every call is a single
  step; `Simulates.step` — each turn keeps it.
* `Locking.linearizable` — so every history of a shared buffer is one of its sequential histories,
  with the calls moved to where they take effect.
-/

namespace Sherlog

open Locks Histories LapLog PersistentRingBuffer

section

variable [Hasher] {ι : Type*} [DecidableEq ι]

namespace Locking

/-- The shared buffer follows the buffer `a`, on which every call is a single step; the call of
each thread returns after so many more turns of the thread. -/
structure Simulates (s : Locking ι) (a : PersistentRingBuffer)
    (phases : ι → CallPhase Operation Reply) (left : ι → Nat) : Prop where
  phase_eq : ∀ i, phases i = (s.pc i).phase
  represents : ∃ l, a.Represents l
  size_eq : s.buf.size = a.size
  mem_iff : ∀ g i, i ∈ s.guards g ↔ g ∈ (s.pc i).guards
  exclusive : s.guards.Exclusive Guard.rivals
  follows : ∀ i, (s.pc i).Follows a s.buf (left i)
  settled : (∀ i, Guard.controlWrite ∉ (s.pc i).guards) → s.buf = a

/-- In one step, a call has this answer and leaves this buffer. -/
def Answers (a : PersistentRingBuffer) (op : Operation) (reply : Reply)
    (a' : PersistentRingBuffer) : Prop :=
  a.answer op = some (reply, a')

variable {s s' : Locking ι} {a a' b' : PersistentRingBuffer}
  {phases : ι → CallPhase Operation Reply}
  {left : ι → Nat} {i j : ι} {pc' : Pc} {guards' : Table ι Guard} {m : Nat}

namespace Simulates

omit [DecidableEq ι] in
/-- Guards that exclude one another are not held at the same time, not even by one thread. -/
theorem not_mem_of_rival (h : Simulates s a phases left) {g g' : Guard} (hrival : g' ∈ g.rivals)
    (hrank : g.rank = g'.rank) (hne : g ≠ g') (hg : g ∈ (s.pc i).guards) :
    g' ∉ (s.pc j).guards := by
  intro hg'
  obtain rfl := h.exclusive g g' hrival i ((h.mem_iff g i).mpr hg) j ((h.mem_iff g' j).mpr hg')
  exact hne ((h.follows i).eq_of_rank hg hg' hrank)

omit [DecidableEq ι] in
/-- Nobody has changed the mapping while a thread may read it. -/
theorem mmap_eq (h : Simulates s a phases left) (hread : Guard.mmapRead ∈ (s.pc i).guards) :
    s.buf.mmap = a.mmap := by
  by_cases hheld : ∃ j, Guard.controlWrite ∈ (s.pc j).guards
  · obtain ⟨j, hj⟩ := hheld
    exact (h.follows j).mapped hj
      (h.not_mem_of_rival (by decide) (by decide) (by decide) hread)
  · rw [h.settled (not_exists.mp hheld)]

omit [DecidableEq ι] in
/-- Nobody has changed the buffer while a thread may read the control block. -/
theorem buf_eq (h : Simulates s a phases left) (hread : Guard.controlRead ∈ (s.pc i).guards) :
    s.buf = a :=
  h.settled fun _ => h.not_mem_of_rival (by decide) (by decide) (by decide) hread

/-- One thread gets somewhere else. -/
theorem update (h : Simulates s a phases left) (hrep : ∃ l, a'.Represents l)
    (hsize : a'.size = a.size) (hsize' : b'.size = a'.size)
    (hmem : ∀ g j, j ∈ guards' g ↔ g ∈ (Function.update s.pc i pc' j).guards)
    (hexclusive : guards'.Exclusive Guard.rivals) (hfollows : pc'.Follows a' b' m)
    (hothers : ∀ j, j ≠ i → Guard.controlWrite ∈ (s.pc j).guards → b' = s.buf ∧ a' = a)
    (hsettled : (∀ j, Guard.controlWrite ∉ (Function.update s.pc i pc' j).guards) → b' = a') :
    Simulates { buf := b', guards := guards', pc := Function.update s.pc i pc' } a'
      (Function.update phases i pc'.phase) (Function.update left i m) where
  phase_eq := by
    intro j
    by_cases hj : j = i
    · subst hj
      simp
    · simp [hj, h.phase_eq j]
  represents := hrep
  size_eq := hsize'
  mem_iff := hmem
  exclusive := hexclusive
  follows := by
    intro j
    by_cases hj : j = i
    · subst hj
      simpa using hfollows
    · simp only [Function.update_of_ne hj]
      by_cases hheld : Guard.controlWrite ∈ (s.pc j).guards
      · obtain ⟨rfl, rfl⟩ := hothers j hj hheld
        exact h.follows j
      · exact (h.follows j).of_not_mem hheld hsize b'
  settled := hsettled

/-- The table after one guard of a thread is dropped. -/
theorem mem_release (h : Simulates s a phases left) {guard : Guard}
    (hguards : (s.pc i).guards = guard :: pc'.guards) (g : Guard) (j : ι) :
    j ∈ s.guards.release i guard g ↔ g ∈ (Function.update s.pc i pc' j).guards := by
  rw [Locks.mem_release, h.mem_iff]
  by_cases hj : j = i
  · subst hj
    have hnodup : guard ∉ pc'.guards := by
      intro hmem
      have hlt := (h.follows j).ordered
      rw [hguards] at hlt
      exact absurd ((List.pairwise_cons.mp hlt).1 guard hmem) (lt_irrefl _)
    rw [Function.update_self, hguards, List.mem_cons]
    constructor
    · rintro ⟨rfl | hg, hne⟩
      · exact absurd ⟨rfl, rfl⟩ hne
      · exact hg
    · intro hg
      exact ⟨.inr hg, fun ⟨_, heq⟩ => hnodup (heq ▸ hg)⟩
  · simp [hj]

/-- With the guard of the control block dropped, everybody sees what the calls have done. -/
theorem settled_release (h : Simulates s a phases left) {guard : Guard}
    (hguards : (s.pc i).guards = guard :: pc'.guards) (hcontrol : guard = .controlWrite → s.buf = a)
    (hnone : ∀ j, Guard.controlWrite ∉ (Function.update s.pc i pc' j).guards) : s.buf = a := by
  by_cases hguard : guard = .controlWrite
  · exact hcontrol hguard
  · refine h.settled fun j hj => hnone j ?_
    by_cases hji : j = i
    · subst hji
      rw [hguards] at hj
      rw [Function.update_self]
      exact (List.mem_cons.mp hj).resolve_left (Ne.symm hguard)
    · rwa [Function.update_of_ne hji]

/-- A turn adds to what is left of a call, or takes from it. -/
def Spends (turns : Nat) (left : ι → Nat) : Turn ι → (ι → Nat) → Prop
  | .call i _, left' => left' = Function.update left i (turns + 3)
  | .go i, left' => ∃ m, left i = m + 1 ∧ left' = Function.update left i m

/-- A turn is matched by what happens to the calls on the buffer `a`. -/
def Matched (a : PersistentRingBuffer) (phases : ι → CallPhase Operation Reply) (left : ι → Nat)
    (turn : Turn ι) (shown : Option (CallEvent ι Operation Reply)) (s' : Locking ι) : Prop :=
  ∃ events a' phases' left', events.filter CallEvent.visible = shown.toList ∧
    Proper phases events phases' ∧ Sequential Answers a events a' ∧ a'.size = a.size ∧
    Simulates s' a' phases' left' ∧ Spends a.turns left turn left'

variable {guard : Guard}

theorem matched_call (h : Simulates s a phases left) (op : Operation) (hidle : s.pc i = .idle) :
    Matched a phases left (.call i op) (some (.call i op)) (s.moveTo i (.start op)) := by
  have hguards : (Pc.start op).guards = [] := by cases op <;> rfl
  have hphase : (Pc.start op).phase = .pending op := by cases op <;> rfl
  have hsame : ∀ j, (Function.update s.pc i (.start op) j).guards = (s.pc j).guards := by
    intro j
    by_cases hj : j = i
    · subst hj
      rw [Function.update_self, hguards, hidle]
      rfl
    · simp [hj]
  refine ⟨[.call i op], a, _, _, rfl, ?_, .other rfl (.nil a), rfl,
    h.update h.represents rfl h.size_eq (fun g j => by rw [hsame, h.mem_iff]) h.exclusive
      (Pc.Follows.start a s.buf op) (fun _ _ _ => ⟨rfl, rfl⟩)
      (fun hnone => h.settled fun j => hsame j ▸ hnone j), rfl⟩
  rw [hphase]
  refine .cons ?_ (.nil _)
  have hnone : phases i = .idle := by rw [h.phase_eq, hidle]; rfl
  rw [show phases (CallEvent.call (ρ := Reply) i op).thread = .idle from hnone]
  exact .call i op

/-- A turn in which nothing happens to the call. -/
theorem update_phases (h : Simulates s a phases left) (hphase : pc'.phase = (s.pc i).phase) :
    Function.update phases i pc'.phase = phases := by
  rw [hphase, ← h.phase_eq, Function.update_eq_self]

theorem matched_acquire (h : Simulates s a phases left)
    (hact : (s.pc i).act s.buf = some (.acquire guard pc'))
    (hfree : s.guards.Free Guard.rivals guard) :
    Matched a phases left (.go i) none
      ({ s with guards := s.guards.acquire i guard }.moveTo i pc') := by
  obtain ⟨l, hl⟩ := h.represents
  obtain ⟨-, hguards, -, hphase, -⟩ := Pc.keeps hact
  have hcontrol : guard = .controlWrite → s.buf = a := by
    rintro rfl
    refine h.settled fun j hj => ?_
    have := (h.mem_iff _ j).mpr hj
    rw [hfree .controlWrite (by decide)] at this
    exact absurd this (Finset.notMem_empty _)
  have hmem : ∀ g j, j ∈ s.guards.acquire i guard g ↔
      g ∈ (Function.update s.pc i pc' j).guards := by
    intro g j
    rw [mem_acquire, h.mem_iff]
    by_cases hj : j = i
    · subst hj
      simp [hguards]
    · simp [hj]
  obtain ⟨m, hleft, hfollows⟩ := (h.follows i).acquire hl hact hcontrol
  refine ⟨[], a, _, _, rfl, .nil _, .nil a, rfl, ?_, m, hleft, rfl⟩
  have key := h.update ⟨l, hl⟩ rfl h.size_eq hmem
    (h.exclusive.acquire Guard.rivals_symm hfree) hfollows (fun _ _ _ => ⟨rfl, rfl⟩) ?_
  · rwa [h.update_phases hphase] at key
  · intro hnone
    refine h.settled fun j hj => hnone j ?_
    by_cases hji : j = i
    · subst hji
      rw [Function.update_self, hguards]
      exact List.mem_cons_of_mem _ hj
    · rwa [Function.update_of_ne hji]

theorem matched_release (h : Simulates s a phases left)
    (hact : (s.pc i).act s.buf = some (.release guard pc')) :
    Matched a phases left (.go i) none
      ({ s with guards := s.guards.release i guard }.moveTo i pc') := by
  obtain ⟨l, hl⟩ := h.represents
  obtain ⟨-, hguards, hphase, -⟩ := Pc.keeps hact
  obtain ⟨⟨m, hleft, hfollows⟩, hcontrol⟩ := (h.follows i).release hl hact
  refine ⟨[], a, _, _, rfl, .nil _, .nil a, rfl, ?_, m, hleft, rfl⟩
  have key := h.update ⟨l, hl⟩ rfl h.size_eq (h.mem_release hguards) h.exclusive.release hfollows
    (fun _ _ _ => ⟨rfl, rfl⟩) (h.settled_release hguards hcontrol)
  rwa [h.update_phases hphase] at key

theorem matched_returns (h : Simulates s a phases left) {reply : Reply}
    (hact : (s.pc i).act s.buf = some (.returns guard reply)) :
    Matched a phases left (.go i) (some (.ret i reply))
      ({ s with guards := s.guards.release i guard }.moveTo i .idle) := by
  obtain ⟨l, hl⟩ := h.represents
  obtain ⟨hguards, hdone, hpos, hcontrol⟩ := (h.follows i).returns hact
  refine ⟨[.ret i reply], a, _, _, rfl, ?_, .other rfl (.nil a), rfl,
    h.update h.represents rfl h.size_eq (h.mem_release hguards) h.exclusive.release
      (Pc.Follows.idle a s.buf (left i - 1)) (fun _ _ _ => ⟨rfl, rfl⟩)
      (h.settled_release hguards hcontrol), left i - 1, by omega, rfl⟩
  refine .cons ?_ (.nil _)
  have hphase : phases i = .done reply := by rw [h.phase_eq, hdone]
  rw [show phases (CallEvent.ret (ω := Operation) i reply).thread = .done reply from hphase]
  exact .ret i reply

omit [DecidableEq ι] in
/-- One thread holds the guard of the control block for writing. -/
theorem eq_of_held (h : Simulates s a phases left)
    (hi : Guard.controlWrite ∈ (s.pc i).guards) (hj : Guard.controlWrite ∈ (s.pc j).guards) :
    i = j :=
  h.exclusive .controlWrite .controlWrite (by decide) i ((h.mem_iff _ i).mpr hi) j
    ((h.mem_iff _ j).mpr hj)

omit [Hasher] in
theorem guards_update (hguards : pc'.guards = (s.pc i).guards) (j : ι) :
    (Function.update s.pc i pc' j).guards = (s.pc j).guards := by
  by_cases hj : j = i
  · subst hj
    rw [Function.update_self, hguards]
  · rw [Function.update_of_ne hj]

theorem proper_effect (h : Simulates s a phases left) {op : Operation} {reply : Reply}
    (hop : (s.pc i).phase = .pending op) (hdone : pc'.phase = .done reply) :
    Proper phases [.effect i op reply] (Function.update phases i pc'.phase) := by
  rw [hdone]
  refine .cons ?_ (.nil _)
  have hphase : phases i = .pending op := by rw [h.phase_eq, hop]
  rw [show phases (CallEvent.effect i op reply).thread = .pending op from hphase]
  exact .effect i op reply

theorem matched_access (h : Simulates s a phases left)
    (hact : (s.pc i).act s.buf = some (.access b' pc')) :
    Matched a phases left (.go i) none ({ s with buf := b' }.moveTo i pc') := by
  obtain ⟨l, hl⟩ := h.represents
  obtain ⟨hguards, -, -, hsize, -⟩ := Pc.keeps hact
  have hmem : ∀ g j, j ∈ s.guards g ↔ g ∈ (Function.update s.pc i pc' j).guards := by
    intro g j
    rw [guards_update hguards, h.mem_iff]
  by_cases hheld : Guard.controlWrite ∈ (s.pc i).guards
  · -- nobody else may see what the thread does
    have hothers : ∀ {a' : PersistentRingBuffer} j, j ≠ i →
        Guard.controlWrite ∈ (s.pc j).guards → b' = s.buf ∧ a' = a :=
      fun j hj hheld' => absurd (h.eq_of_held hheld' hheld) hj
    have hsettled : ∀ {a' : PersistentRingBuffer},
        (∀ j, Guard.controlWrite ∉ (Function.update s.pc i pc' j).guards) → b' = a' :=
      fun hnone => absurd hheld (guards_update hguards i ▸ hnone i)
    obtain ⟨m, op, hleft, hop, ⟨hpending, hfollows⟩ | ⟨reply, hdone, hanswer, hfollows⟩⟩ :=
      (h.follows i).access hl hact hheld
    · refine ⟨[], a, _, _, rfl, .nil _, .nil a, rfl, ?_, m, hleft, rfl⟩
      have key := h.update ⟨l, hl⟩ rfl (hsize.trans h.size_eq) hmem h.exclusive hfollows hothers
        hsettled
      rwa [h.update_phases (hpending.trans hop.symm)] at key
    · obtain ⟨reply', a', hanswer', hsize', hrep⟩ := hl.answer_represents op
      rw [hanswer] at hanswer'
      obtain ⟨-, rfl⟩ := Prod.mk.inj (Option.some.inj hanswer')
      exact ⟨[.effect i op reply], b', _, _, rfl, h.proper_effect hop hdone,
        .effect hanswer (.nil b'), hsize',
        h.update hrep hsize' rfl hmem h.exclusive hfollows hothers fun _ => rfl, m, hleft, rfl⟩
  · obtain ⟨m, op, reply, hleft, hop, hdone, rfl, hanswer, hfollows⟩ :=
      (h.follows i).look hl hact hheld (fun hread => ⟨h.mmap_eq hread, h.size_eq⟩)
        fun hread => by rw [h.buf_eq hread]
    exact ⟨[.effect i op reply], a, _, _, rfl, h.proper_effect hop hdone,
      .effect hanswer (.nil a), rfl,
      h.update ⟨l, hl⟩ rfl h.size_eq hmem h.exclusive hfollows (fun _ _ _ => ⟨rfl, rfl⟩)
        fun hnone => h.settled fun j => guards_update hguards j ▸ hnone j, m, hleft, rfl⟩

/-- **Every turn is matched.** -/
theorem step (h : Simulates s a phases left) {turn : Turn ι}
    {shown : Option (CallEvent ι Operation Reply)} (hstep : s.step turn = some (shown, s')) :
    Matched a phases left turn shown s' := by
  cases turn with
  | call i op =>
    rw [Locking.step] at hstep
    split at hstep
    · next hidle =>
      obtain ⟨rfl, rfl⟩ := Prod.mk.inj (Option.some.inj hstep)
      exact h.matched_call op hidle
    · cases hstep
  | go i =>
    obtain ⟨act, hact, hstep⟩ := Option.bind_eq_some_iff.mp hstep
    cases act with
    | acquire guard pc =>
      simp only at hstep
      split at hstep
      · next hfree =>
        obtain ⟨rfl, rfl⟩ := Prod.mk.inj (Option.some.inj hstep)
        exact h.matched_acquire hact hfree
      · cases hstep
    | release guard pc =>
      obtain ⟨rfl, rfl⟩ := Prod.mk.inj (Option.some.inj hstep)
      exact h.matched_release hact
    | returns guard reply =>
      obtain ⟨rfl, rfl⟩ := Prod.mk.inj (Option.some.inj hstep)
      exact h.matched_returns hact
    | access buf pc =>
      obtain ⟨rfl, rfl⟩ := Prod.mk.inj (Option.some.inj hstep)
      exact h.matched_access hact

omit [DecidableEq ι] in
theorem start {b : PersistentRingBuffer} (h : ∃ l, b.Represents l) :
    Simulates (ι := ι) (Locking.start b) b (fun _ => .idle) fun _ => 0 where
  phase_eq := fun _ => rfl
  represents := h
  size_eq := rfl
  mem_iff := by simp [Locking.start, Pc.guards]
  exclusive := by simp [Locking.start, Table.Exclusive]
  follows := fun _ => Pc.Follows.idle b b 0
  settled := fun _ => rfl

/-- What a whole run is matched by. -/
theorem run (h : Simulates s a phases left) {turns : List (Turn ι)}
    {shown : List (Option (CallEvent ι Operation Reply))}
    (hrun : Machine.run Locking.step s turns = some (shown, s')) :
    ∃ events a' phases' left', events.filter CallEvent.visible = shown.reduceOption ∧
      Proper phases events phases' ∧ Sequential Answers a events a' ∧
      Simulates s' a' phases' left' := by
  obtain ⟨events, a', phases', hfilter, hproper, hseq, left', hs'⟩ :=
    simulates (R := fun s a phases => ∃ left, Simulates s a phases left)
      (fun s a phases turn shown s' ⟨left, hs⟩ hstep => by
        obtain ⟨events, a', phases', left', hfilter, hproper, hseq, -, hs', -⟩ := hs.step hstep
        exact ⟨events, a', phases', hfilter, hproper, hseq, left', hs'⟩) ⟨left, h⟩ hrun
  exact ⟨events, a', phases', left', hfilter, hproper, hseq, hs'⟩

end Simulates

/-- **The calls of threads that share a buffer are linearizable.**  Any number of threads call
`write`, `read_at`, `read_all`, `reset_read_position`, `control_block` and `flush` on a buffer,
and their accesses and guards interleave in any order: each call can be thought to have happened
at one time between its call and its return, with the answer that the function of the source
gives in one step there, and when no call is under way the buffer is what these steps made. -/
theorem linearizable (b : Live) {turns : List (Turn ι)}
    {shown : List (Option (CallEvent ι Operation Reply))}
    (hrun : Machine.run step (start b.buf) turns = some (shown, s')) :
    ∃ last, Linearizes Answers b.buf shown.reduceOption last ∧
      ((∀ i, s'.pc i = .idle) → s'.buf = last) := by
  obtain ⟨events, last, phases, left, hfilter, hproper, hseq, hs'⟩ :=
    (Simulates.start ⟨b.log, b.represents⟩).run hrun
  refine ⟨last, ⟨events, phases, hfilter, hproper, hseq⟩, fun hidle => hs'.settled fun i => ?_⟩
  rw [hidle i, Pc.guards]
  exact List.not_mem_nil

end Locking

end

section Ieee

attribute [local instance] Hasher.ieee

/-- A `write` and a `read_all`, which gets the control block first. -/
theorem Locking.linearizable_of_two :
    let b := Live.fresh 64 (by decide) Sys.ok
    let turns : List (Turn Bool) :=
      [.call false (.write (Record.new [1, 2, 3] 0 0) Sys.ok), .go false,
        .call true (.readAll Sys.ok), .go true, .go true, .go true] ++
      List.replicate 11 (.go false)
    ∃ shown s', Machine.run step (start b.buf) turns = some (shown, s') ∧
      ∃ last, Linearizes Answers b.buf shown.reduceOption last ∧
        ((∀ i, s'.pc i = .idle) → s'.buf = last) := by
  intro b turns
  have hsome : (Machine.run step (start b.buf) turns).isSome = true := by decide +kernel
  obtain ⟨⟨shown, s'⟩, hrun⟩ := Option.isSome_iff_exists.mp hsome
  exact ⟨shown, s', hrun, linearizable b hrun⟩

end Ieee

end Sherlog
