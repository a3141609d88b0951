import Sherlog.Disk.CursorReads
import Sherlog.Disk.ReadAll

/-!
# Records nobody wrote

A reader keeps an offset: the read position of the buffer, or the position of a cursor.
When the writer has begun a new lap the offset need not be the start of a record any
more, and what lies there, payload included, is put to the checks of `read_at`: marker,
length, checksum.

* `Live.StartsAt` — a record of the log starts at an offset, and no later lap has reached
  it; `Live.OnBoundary`, `Live.OnRecords` — a reader stands where that is the case.
* `Session` — a buffer with any number of cursors, everything the API lets its clients
  do, and what it has delivered.
* `Session.Logged` — the records of the log are among those written, in every run.
* `Session.honest_of_safe` — in a run in which every reading call starts from such a
  place, every record delivered is one that was written.
-/

namespace Sherlog

open LapLog PersistentRingBuffer

section

variable [Hasher]

/-! ## Where a reader stands -/

namespace Live

/-- A record of the log starts at the offset: one of the current lap, or one of a finished
lap that no later lap has reached.  Its length fits the size field. -/
def StartsAt (b : Live) (r : Record) (p : UInt64) : Prop :=
  r.data.length < 2 ^ 32 ∧
    (b.log.CurrentAt Record.diskImage r p.toNat ∨ b.log.OldAt Record.diskImage r p.toNat)

/-- The offset is a record boundary of the current lap, and the lengths of the records
behind it fit the size field. -/
def OnBoundary (b : Live) (p : UInt64) : Prop :=
  ∃ front rest, b.log.lap = front ++ rest ∧ p.toNat = extent Record.diskImage front ∧
    ∀ r ∈ rest, r.data.length < 2 ^ 32

/-- For the next `n` calls of `next` the cursor has a record in front of it, or is at the
end. -/
def OnRecords (b : Live) : Nat → Cursor → Prop
  | 0, _ => True
  | n + 1, c => c.atEnd = false → ∃ r, b.StartsAt r c.position.offset ∧
      b.OnRecords n (c.settle b.buf.control (some (r.stored, r.footprint))).1

variable {b : Live}

theorem StartsAt.holds {r : Record} {p : UInt64} (h : b.StartsAt r p) : b.log.Holds r :=
  h.2.elim Log.CurrentAt.holds Log.OldAt.holds

theorem StartsAt.readAt {r : Record} {p : UInt64} (h : b.StartsAt r p) :
    b.buf.readAt p = some (.ok (some (r.stored, r.footprint))) := by
  obtain ⟨hshort, hcur | hold⟩ := h
  · have hread := b.represents.readAt_currentAt hcur hshort
    rwa [UInt64.ofNat_toNat] at hread
  · have hread := b.represents.readAt_oldAt hold hshort
    rwa [UInt64.ofNat_toNat] at hread

/-- **One `next` from such a place** returns nothing, or a record of the log. -/
theorem OnRecords.next {n : Nat} {c c' : Cursor} (h : b.OnRecords (n + 1) c)
    {res : Except PersistentError (Option Record)} (hnext : c.next b.buf = some (res, c')) :
    res = .ok none ∨ ∃ r, b.log.Holds r ∧ res = .ok (some r.stored) ∧ b.OnRecords n c' := by
  by_cases hend : c.atEnd = true
  · rw [Cursor.next_of_atEnd hend] at hnext
    exact Or.inl (Prod.mk.inj (Option.some.inj hnext)).1.symm
  · have hopen : c.atEnd = false := by simpa using hend
    obtain ⟨r, hstarts, hrest⟩ := h hopen
    rw [Cursor.next_of_record hopen hstarts.readAt] at hnext
    obtain ⟨rfl, rfl⟩ := Prod.mk.inj (Option.some.inj hnext)
    exact Or.inr ⟨r, hstarts.holds, rfl, hrest⟩

/-- **A `read_batch` from such a place** returns records of the log. -/
theorem OnRecords.readBatchLoop {n : Nat} :
    ∀ {c c' : Cursor} {acc records : List Record}, b.OnRecords n c →
      Cursor.readBatchLoop b.buf n c acc = some (.ok records, c') →
        ∀ r ∈ records, r ∈ acc ∨ ∃ w, b.log.Holds w ∧ r = w.stored := by
  induction n with
  | zero =>
    intro c c' acc records _ hbatch r hr
    simp only [Cursor.readBatchLoop, Option.some.injEq, Prod.mk.injEq, Except.ok.injEq] at hbatch
    rw [← hbatch.1] at hr
    exact Or.inl hr
  | succ n ih =>
    intro c c' acc records h hbatch r hr
    rw [Cursor.readBatchLoop] at hbatch
    rcases hnext : c.next b.buf with _ | ⟨res, d⟩
    · rw [hnext] at hbatch
      cases hbatch
    · rw [hnext] at hbatch
      rcases h.next hnext with rfl | ⟨w, hw, rfl, hrest⟩
      · simp only [Option.some.injEq, Prod.mk.injEq, Except.ok.injEq] at hbatch
        rw [← hbatch.1] at hr
        exact Or.inl hr
      · rcases ih hrest hbatch r hr with hold | hnew
        · rcases List.mem_append.mp hold with hacc | hone
          · exact Or.inl hacc
          · exact Or.inr ⟨w, hw, List.mem_singleton.mp hone⟩
        · exact Or.inr hnew

/-- **A `read_all` from a record boundary**, or from the write position on, returns records
of the log. -/
theorem readAll_holds (h : b.writePos ≤ b.readPos ∨ b.OnBoundary b.buf.control.readPos) {sys : Sys}
    {found : List Record} {b' : PersistentRingBuffer}
    (hread : b.buf.readAll sys = some (.ok found, b')) :
    ∀ r ∈ found, ∃ w, b.log.Holds w ∧ r = w.stored := by
  rcases h with hle | ⟨front, rest, hlap, hpos, hshort⟩
  · rw [b.readAll_of_writePos_le hle hread]
    rintro r ⟨⟩
  · rw [b.found_eq_of_readLoop (b.readLoop_of_boundary hlap hpos hshort) hread]
    intro r hr
    obtain ⟨w, hw, rfl⟩ := List.mem_map.mp hr
    exact ⟨w, ⟨b.log.lap, List.mem_cons_self .., by simp [hlap, hw]⟩, rfl⟩

/-- A call adds to the log at most the record that it writes. -/
theorem holds_step {op : Op} {r : Record} (h : (b.step op).log.Holds r) :
    b.log.Holds r ∨ ∃ sys, op = .write r sys ∧ r.footprint ≤ b.buf.size := by
  rcases b.step_cases op with ⟨hlog, -⟩ | ⟨s, sys, rfl, hs, hlog, -⟩
  · rw [hlog] at h
    exact Or.inl h
  · rw [hlog] at h
    rcases Log.Holds.of_push h with hold | rfl
    · exact Or.inl hold
    · exact Or.inr ⟨sys, rfl, hs⟩

end Live

/-! ## Sessions -/

/-- A buffer and its clients. -/
structure Session where
  /-- The buffer. -/
  live : Live
  /-- The cursors made on it. -/
  cursors : List Cursor
  /-- The positions cursors have reported. -/
  reported : List Position
  /-- The records that accepted writes were passed. -/
  written : List Record
  /-- The records that reading calls have returned. -/
  delivered : List Record

/-- A call of the API.  Cursors and reported positions go by their place in the list. -/
inductive Call where
  | write (r : Record) (sys : Sys)
  | readAll (sys : Sys)
  | resetReadPosition (sys : Sys)
  | newCursor
  | next (i : Nat)
  | readBatch (i maxCount : Nat)
  | position (i : Nat)
  | seekTo (i j : Nat)
  | seekToEnd (i : Nat)
  | commit (i : Nat) (sys : Sys)

/-- The records a reading call hands over. -/
def handed : Except PersistentError (List Record) → List Record
  | .ok records => records
  | .error _ => []

namespace Session

/-- A fresh buffer without cursors. -/
def fresh (size : Nat) (h : ControlBlock.SIZE + size < 2 ^ 63) (sys : Sys) : Session :=
  { live := Live.fresh size h sys, cursors := [], reported := [], written := [],
    delivered := [] }

/-- One call; `none` when it does not come back.  A call on a cursor or to a position that
there is not leaves everything as it is. -/
def step (s : Session) : Call → Option Session
  | .write r sys =>
    some { s with
      live := s.live.step (.write r sys)
      written := if r.footprint ≤ s.live.buf.size then s.written ++ [r] else s.written }
  | .readAll sys =>
    (s.live.buf.readAll sys).map fun res =>
      { s with live := s.live.step (.readAll sys), delivered := s.delivered ++ handed res.1 }
  | .resetReadPosition sys => some { s with live := s.live.step (.resetReadPosition sys) }
  | .newCursor => some { s with cursors := s.cursors ++ [Cursor.new s.live.buf none] }
  | .next i =>
    match s.cursors[i]? with
    | none => some s
    | some c =>
      (c.next s.live.buf).map fun res =>
        { s with
          cursors := s.cursors.set i res.2
          delivered := s.delivered ++ handed (res.1.map Option.toList) }
  | .readBatch i maxCount =>
    match s.cursors[i]? with
    | none => some s
    | some c =>
      (c.readBatch s.live.buf maxCount).map fun res =>
        { s with cursors := s.cursors.set i res.2, delivered := s.delivered ++ handed res.1 }
  | .position i =>
    match s.cursors[i]? with
    | none => some s
    | some c => some { s with reported := s.reported ++ [c.position] }
  | .seekTo i j =>
    match s.reported[j]? with
    | none => some s
    | some p => some { s with cursors := s.cursors.set i (Cursor.seekTo s.live.buf p) }
  | .seekToEnd i => some { s with cursors := s.cursors.set i (Cursor.seekToEnd s.live.buf) }
  | .commit i sys =>
    match s.cursors[i]? with
    | none => some s
    | some c => some { s with live := s.live.step (.commit c sys) }

/-- A list of calls. -/
def run (s : Session) (calls : List Call) : Option Session := calls.foldlM step s

/-- Every reading call starts from where a record of the log starts, or has nothing to
look at. -/
def Safe (s : Session) : Call → Prop
  | .readAll _ => s.live.writePos ≤ s.live.readPos ∨ s.live.OnBoundary s.live.buf.control.readPos
  | .next i => ∀ c, s.cursors[i]? = some c → s.live.OnRecords 1 c
  | .readBatch i maxCount => ∀ c, s.cursors[i]? = some c → s.live.OnRecords maxCount c
  | _ => True

/-- Every call of a run is safe in the state it finds. -/
def SafeRun : Session → List Call → Prop
  | _, [] => True
  | s, call :: calls => s.Safe call ∧ ∀ s', s.step call = some s' → SafeRun s' calls

/-- Every record delivered has the data, the time and the tag of one that was written. -/
def Honest (s : Session) : Prop :=
  ∀ r ∈ s.delivered, ∃ w ∈ s.written, r.content = w.content

/-! ## The records of the log were written -/

/-- The records of the log are among those that accepted writes were passed. -/
def Logged (s : Session) : Prop := ∀ r, s.live.log.Holds r → r ∈ s.written

/-- Calls that do not write keep the log. -/
theorem Logged.of_step {s : Session} (hs : s.Logged) {op : Op} (hop : ∀ r sys, op ≠ .write r sys) :
    ∀ r, (s.live.step op).log.Holds r → r ∈ s.written := by
  intro r hr
  rcases Live.holds_step hr with hold | ⟨sys, heq, -⟩
  · exact hs r hold
  · exact absurd heq (hop r sys)

/-- **One call.** -/
theorem Logged.step {s s' : Session} (hs : s.Logged) {call : Call}
    (hstep : s.step call = some s') : s'.Logged := by
  cases call with
  | write r sys =>
    obtain rfl := Option.some.inj hstep
    intro x hx
    show x ∈ if r.footprint ≤ s.live.buf.size then s.written ++ [r] else s.written
    rcases Live.holds_step hx with hold | ⟨sys', heq, hfit⟩
    · split
      · exact List.mem_append_left _ (hs x hold)
      · exact hs x hold
    · obtain ⟨rfl, -⟩ := Op.write.inj heq
      rw [if_pos hfit]
      exact List.mem_append_right _ (List.mem_singleton_self _)
  | readAll sys =>
    obtain ⟨res, -, rfl⟩ := Option.map_eq_some_iff.mp hstep
    exact hs.of_step (by rintro r sys' ⟨⟩)
  | resetReadPosition sys =>
    obtain rfl := Option.some.inj hstep
    exact hs.of_step (by rintro r sys' ⟨⟩)
  | newCursor =>
    obtain rfl := Option.some.inj hstep
    exact hs
  | next i =>
    rw [Session.step] at hstep
    split at hstep
    · obtain rfl := Option.some.inj hstep
      exact hs
    · obtain ⟨res, -, rfl⟩ := Option.map_eq_some_iff.mp hstep
      exact hs
  | readBatch i maxCount =>
    rw [Session.step] at hstep
    split at hstep
    · obtain rfl := Option.some.inj hstep
      exact hs
    · obtain ⟨res, -, rfl⟩ := Option.map_eq_some_iff.mp hstep
      exact hs
  | position i =>
    rw [Session.step] at hstep
    split at hstep
    · obtain rfl := Option.some.inj hstep
      exact hs
    · obtain rfl := Option.some.inj hstep
      exact hs
  | seekTo i j =>
    rw [Session.step] at hstep
    split at hstep
    · obtain rfl := Option.some.inj hstep
      exact hs
    · obtain rfl := Option.some.inj hstep
      exact hs
  | seekToEnd i =>
    obtain rfl := Option.some.inj hstep
    exact hs
  | commit i sys =>
    rw [Session.step] at hstep
    split at hstep
    · obtain rfl := Option.some.inj hstep
      exact hs
    · obtain rfl := Option.some.inj hstep
      exact hs.of_step (by rintro r sys' ⟨⟩)

/-! ## What is delivered was written -/

/-- Handing over records of the log keeps a session honest. -/
theorem Honest.append {s : Session} (hs : s.Honest) (hlogged : s.Logged) {found : List Record}
    (hfound : ∀ r ∈ found, ∃ w, s.live.log.Holds w ∧ r = w.stored) :
    ∀ r ∈ s.delivered ++ found, ∃ w ∈ s.written, r.content = w.content := by
  intro r hr
  rcases List.mem_append.mp hr with hold | hnew
  · exact hs r hold
  · obtain ⟨w, hw, rfl⟩ := hfound r hnew
    exact ⟨w, hlogged w hw, w.content_stored⟩

/-- **One safe call keeps a session honest.** -/
theorem Honest.step {s s' : Session} (hs : s.Honest) (hlogged : s.Logged) {call : Call}
    (hsafe : s.Safe call) (hstep : s.step call = some s') : s'.Honest := by
  cases call with
  | write r sys =>
    obtain rfl := Option.some.inj hstep
    intro x hx
    obtain ⟨w, hw, hcontent⟩ := hs x hx
    refine ⟨w, ?_, hcontent⟩
    show w ∈ if r.footprint ≤ s.live.buf.size then s.written ++ [r] else s.written
    split
    · exact List.mem_append_left _ hw
    · exact hw
  | readAll sys =>
    obtain ⟨⟨e | found, b'⟩, hread, rfl⟩ := Option.map_eq_some_iff.mp hstep
    · exact hs.append hlogged fun r hr => by cases hr
    · exact hs.append hlogged (Live.readAll_holds hsafe hread)
  | resetReadPosition sys =>
    obtain rfl := Option.some.inj hstep
    exact hs
  | newCursor =>
    obtain rfl := Option.some.inj hstep
    exact hs
  | next i =>
    rw [Session.step] at hstep
    split at hstep
    · obtain rfl := Option.some.inj hstep
      exact hs
    · next c hc =>
      obtain ⟨⟨res, c'⟩, hnext, rfl⟩ := Option.map_eq_some_iff.mp hstep
      rcases (hsafe c hc).next hnext with rfl | ⟨w, hw, rfl, -⟩
      · exact hs.append hlogged fun r hr => by cases hr
      · exact hs.append hlogged fun r hr => ⟨w, hw, List.mem_singleton.mp hr⟩
  | readBatch i maxCount =>
    rw [Session.step] at hstep
    split at hstep
    · obtain rfl := Option.some.inj hstep
      exact hs
    · next c hc =>
      obtain ⟨⟨e | records, c'⟩, hbatch, rfl⟩ := Option.map_eq_some_iff.mp hstep
      · exact hs.append hlogged fun r hr => by cases hr
      · refine hs.append hlogged fun r hr => ?_
        rcases (hsafe c hc).readBatchLoop (Cursor.readBatch_eq_some hbatch).2 r hr with
          hnil | hnew
        · cases hnil
        · exact hnew
  | position i =>
    rw [Session.step] at hstep
    split at hstep
    · obtain rfl := Option.some.inj hstep
      exact hs
    · obtain rfl := Option.some.inj hstep
      exact hs
  | seekTo i j =>
    rw [Session.step] at hstep
    split at hstep
    · obtain rfl := Option.some.inj hstep
      exact hs
    · obtain rfl := Option.some.inj hstep
      exact hs
  | seekToEnd i =>
    obtain rfl := Option.some.inj hstep
    exact hs
  | commit i sys =>
    rw [Session.step] at hstep
    split at hstep
    · obtain rfl := Option.some.inj hstep
      exact hs
    · obtain rfl := Option.some.inj hstep
      exact hs

/-- **A run of safe calls.** -/
theorem Honest.run {calls : List Call} : ∀ {s s' : Session}, s.Honest → s.Logged →
    s.SafeRun calls → s.run calls = some s' → s'.Honest := by
  induction calls with
  | nil =>
    intro s s' hs _ _ hrun
    obtain rfl := Option.some.inj hrun
    exact hs
  | cons call calls ih =>
    intro s s' hs hlogged hsafe hrun
    rw [Session.run, List.foldlM_cons] at hrun
    obtain ⟨s₁, hstep, hrest⟩ := Option.bind_eq_some_iff.mp hrun
    exact ih (hs.step hlogged hsafe.1 hstep) (hlogged.step hstep) (hsafe.2 s₁ hstep) hrest

theorem logged_fresh (size : Nat) (h : ControlBlock.SIZE + size < 2 ^ 63) (sys : Sys) :
    (fresh size h sys).Logged := fun _ hr => absurd hr Log.not_holds_empty

/-- **No forged record in a run of safe calls**: for every size and every list of calls on
a fresh buffer, whatever the payloads and the order of readers and writers, as long as
every reading call starts from a place where a record of the log starts that no later lap
has reached. -/
theorem honest_of_safe (size : Nat) (h : ControlBlock.SIZE + size < 2 ^ 63) (sys : Sys)
    (calls : List Call) (s : Session) (hrun : (fresh size h sys).run calls = some s)
    (hsafe : (fresh size h sys).SafeRun calls) : s.Honest := by
  refine Honest.run ?_ (logged_fresh size h sys) hsafe hrun
  rintro r ⟨⟩

end Session

end

section Ieee

attribute [local instance] Hasher.ieee

namespace Session

/-- A record written and read at once. -/
theorem honest_of_safe_one :
    let record := Record.new (List.replicate 16 7) 1 0
    ∃ s, (fresh 100 (by decide) Sys.ok).run [.write record Sys.ok, .readAll Sys.ok] = some s ∧
      s.Honest := by
  intro record
  have hsafe : (fresh 100 (by decide) Sys.ok).SafeRun
      [.write record Sys.ok, .readAll Sys.ok] := by
    refine ⟨trivial, fun s hstep => ⟨?_, fun _ _ => trivial⟩⟩
    obtain rfl := Option.some.inj hstep
    refine Or.inr ⟨[], [record], by decide +kernel, by decide +kernel, ?_⟩
    decide
  have hrun : ((fresh 100 (by decide) Sys.ok).run
      [.write record Sys.ok, .readAll Sys.ok]).isSome = true := by decide +kernel
  obtain ⟨s, hs⟩ := Option.isSome_iff_exists.mp hrun
  exact ⟨s, hs, honest_of_safe 100 (by decide) Sys.ok _ s hs hsafe⟩

/-- The frame of an empty record with the tag 99, as sixteen bytes into a payload. -/
def forgedPayload : List UInt8 :=
  List.replicate 16 0 ++ (Header.new 0 0 99).toBytes ++ List.replicate 16 0

/-- In an area of 100 bytes a reader has read 40, and the next record goes over them: its
payload reaches the read position with the frame of an empty record. -/
theorem forged_record_delivered :
    ∃ s, (fresh 100 (by decide) Sys.ok).run
        [.write (Record.new (List.replicate 16 0) 1 0) Sys.ok, .readAll Sys.ok,
          .write (Record.new forgedPayload 2 0) Sys.ok, .readAll Sys.ok] = some s ∧
      ¬ s.Honest := by
  have hrun : ((fresh 100 (by decide) Sys.ok).run
      [.write (Record.new (List.replicate 16 0) 1 0) Sys.ok, .readAll Sys.ok,
        .write (Record.new forgedPayload 2 0) Sys.ok, .readAll Sys.ok]).map
      (fun s => (s.delivered.map Record.content, s.written.map Record.content)) =
        some ([(List.replicate 16 0, 0, 1), ([], 0, 99)],
          [(List.replicate 16 0, 0, 1), (forgedPayload, 0, 2)]) := by
    decide +kernel
  obtain ⟨s, hs, hcontents⟩ := Option.map_eq_some_iff.mp hrun
  obtain ⟨hdelivered, hwritten⟩ := Prod.mk.inj hcontents
  refine ⟨s, hs, fun honest => ?_⟩
  have hmem : (([], 0, 99) : List UInt8 × UInt64 × UInt32) ∈ s.delivered.map Record.content := by
    rw [hdelivered]
    simp
  obtain ⟨r, hr, hcontent⟩ := List.mem_map.mp hmem
  obtain ⟨w, hw, heq⟩ := honest r hr
  have hforged := List.mem_map_of_mem (f := Record.content) hw
  rw [← heq, hcontent, hwritten] at hforged
  exact absurd hforged (by decide)

end Session

end Ieee

end Sherlog
