import Sherlog.Disk.CursorReads

/-!
# A cursor and a writer side by side

`next` takes the locks of the buffer twice: for `read_at`, and then for the copy of the
control block that decides about `atEnd`.  Between the two, and between the rounds of
`read_batch`, a writer may get in.  `write` holds both locks from start to end.

* `Scene` — a buffer, a cursor and how far its call under way has come;
  `Scene.step` — one turn of the writer, of the cursor or of its owner.
* `Scene.next_eq`, `Scene.readBatch_eq` — left alone, the turns of the cursor are
  `Cursor::next` and `Cursor::read_batch`.
* `Scene.InStep` — the invariant: the cursor stands behind the records it has returned,
  and `atEnd` is set exactly when the lap held no more at that moment.
* `Scene.Brings` — what a turn may bring: the next record of the lap, or nothing when the
  cursor has returned all that it held at that moment.
* `Scene.cursor_over_lap` — whatever the order of the turns, as long as the writer does
  not wrap the cursor returns the records of the lap one by one, and a position it once
  reported is where a later `seek_to` takes it up again, with the record behind it.
-/

namespace Sherlog

open LapLog PersistentRingBuffer

/-- How far the call under way has come.  A call of `next` is a round of its own; one of
`read_batch` has records from earlier rounds and rounds to go. -/
inductive Phase where
  /-- No call. -/
  | idle
  /-- `next` has been called and not yet looked at the buffer. -/
  | starting (got : List Record) (left : Nat)
  /-- `read_at` has come back and the control block is not loaded yet. -/
  | found (got : List Record) (left : Nat) (res : Option (Record × Nat))
deriving DecidableEq

/-- The records of earlier rounds of the call under way. -/
def Phase.got : Phase → List Record
  | .idle => []
  | .starting got _ => got
  | .found got _ _ => got

/-- A buffer, a cursor on it, and what its owner has seen. -/
structure Scene [Hasher] where
  /-- The buffer. -/
  live : Live
  /-- The cursor. -/
  cursor : Cursor
  /-- The call under way. -/
  phase : Phase
  /-- The records of the lap in front of where the cursor last sought to. -/
  skipped : Nat
  /-- What finished calls have returned since. -/
  returned : List Record
  /-- The records the lap held when `atEnd` was set, if it is. -/
  mark : Option Nat
  /-- The positions the owner has asked for, each with the number of records the cursor
  had then returned of the lap. -/
  reported : List (Nat × Position)

/-- One turn. -/
inductive Turn where
  /-- A write, unless it would start a new lap. -/
  | write (r : Record) (sys : Sys)
  /-- The owner calls `next`. -/
  | next
  /-- The owner calls `read_batch`, which panics before its first round when there is no vector
  of that capacity. -/
  | readBatch (maxCount : Nat)
  /-- The call under way goes on to its next access of the buffer. -/
  | advance
  /-- The owner asks for the position. -/
  | report
  /-- The owner seeks to a position it asked for, unless the cursor had then returned all
  that the lap holds by now. -/
  | seek (i : Nat)

/-- What comes of a turn: a `next` that came back, to the owner or to `read_batch`, or a
panic. -/
inductive Event where
  | panic
  | result (res : Except PersistentError (Option Record))

namespace Scene

variable [Hasher]

/-- How many records of the lap lie in front of the cursor. -/
def count (s : Scene) : Nat := s.skipped + (s.returned ++ s.phase.got).length

/-- A cursor that has just sought to a position. -/
def start (b : Live) (p : Position) : Scene :=
  { live := b, cursor := Cursor.seekTo b.buf p, phase := .idle, skipped := 0, returned := [],
    mark := if (Cursor.seekTo b.buf p).atEnd then some b.log.lap.length else none, reported := [] }

/-- A `next` comes back: the round, or the whole call, is over. -/
def comeBack (s : Scene) (got : List Record) (left : Nat)
    (res : Except PersistentError (Option Record)) : Scene × Option Event :=
  (match res, left with
    | .ok (some r), left + 1 => { s with phase := .starting (got ++ [r]) left }
    | .ok (some r), 0 => { s with phase := .idle, returned := s.returned ++ (got ++ [r]) }
    | .ok none, _ => { s with phase := .idle, returned := s.returned ++ got }
    | .error _, _ => { s with phase := .idle },
    some (.result res))

/-- The first half of `next`: the test of `atEnd`, and `read_at`. -/
def look (s : Scene) (got : List Record) (left : Nat) : Scene × Option Event :=
  if s.cursor.atEnd then s.comeBack got left (.ok none)
  else
    match s.live.buf.readAt s.cursor.position.offset with
    | none => ({ s with phase := .idle }, some .panic)
    | some (.error e) => s.comeBack got left (.error e)
    | some (.ok res) => ({ s with phase := .found got left res }, none)

/-- The cursor moves on. -/
def moveTo (s : Scene) (c : Cursor) : Scene :=
  { s with cursor := c, mark := if c.atEnd then some s.live.log.lap.length else none }

/-- The second half of `next`: the control block is loaded and the cursor moves on. -/
def settle (s : Scene) (got : List Record) (left : Nat) (res : Option (Record × Nat)) :
    Scene × Option Event :=
  match s.cursor.settle s.live.buf.control res with
  | (c, some result) => (s.moveTo c).comeBack got left (.ok result)
  | (c, none) => ({ s.moveTo c with phase := .starting got left }, none)

/-- The call under way goes on to its next access of the buffer. -/
def advance (s : Scene) : Scene × Option Event :=
  match s.phase with
  | .idle => (s, none)
  | .starting got left => s.look got left
  | .found got left res => s.settle got left res

/-- The owner calls for a number of rounds; `read_batch(0)` comes back at once. -/
def call (s : Scene) : Nat → Scene
  | 0 => s
  | left + 1 =>
    match s.phase with
    | .idle => { s with phase := .starting [] left }
    | _ => s

/-- The cursor seeks to a position in front of which `n` records of the lap lie. -/
def sought (s : Scene) (n : Nat) (p : Position) : Scene :=
  { s.moveTo (Cursor.seekTo s.live.buf p) with skipped := n, returned := [] }

/-- One turn. -/
def step (s : Scene) : Turn → Scene × Option Event
  | .write r sys =>
    (if s.live.startsLap (.write r sys) then s
      else { s with live := s.live.step (.write r sys) }, none)
  | .next => (s.call 1, none)
  | .readBatch maxCount =>
    match s.phase with
    | .idle =>
      if Cursor.capacityOverflow maxCount then (s, some .panic) else (s.call maxCount, none)
    | _ => (s, none)
  | .advance => s.advance
  | .report =>
    match s.phase with
    | .idle => ({ s with reported := s.reported ++ [(s.count, s.cursor.position)] }, none)
    | _ => (s, none)
  | .seek i =>
    match s.phase, s.reported[i]? with
    | .idle, some (n, p) =>
      (if n < s.live.log.lap.length then s.sought n p else s, none)
    | _, _ => (s, none)

/-- A list of turns. -/
def after (s : Scene) (turns : List Turn) : Scene := turns.foldl (fun s t => (s.step t).1) s

@[simp] theorem after_nil (s : Scene) : s.after [] = s := rfl

@[simp] theorem after_cons (s : Scene) (t : Turn) (turns : List Turn) :
    s.after (t :: turns) = ((s.step t).1).after turns := rfl

theorem after_append (s : Scene) (turns turns' : List Turn) :
    s.after (turns ++ turns') = (s.after turns).after turns' := List.foldl_append ..

/-! ## The turns of the cursor are `next` -/

variable {s : Scene} {got : List Record} {left : Nat}

theorem step_advance_of_starting (h : s.phase = .starting got left) :
    s.step .advance = s.look got left := by
  rw [step, advance, h]

theorem step_advance_of_found {res : Option (Record × Nat)} (h : s.phase = .found got left res) :
    s.step .advance = s.settle got left res := by
  rw [step, advance, h]

theorem look_of_ok (hend : s.cursor.atEnd = false) {res : Option (Record × Nat)}
    (hread : s.live.buf.readAt s.cursor.position.offset = some (.ok res)) :
    s.look got left = ({ s with phase := .found got left res }, none) := by
  rw [look, hend, hread]
  rfl

theorem comeBack_eq (s : Scene) (got : List Record) (left : Nat)
    (res : Except PersistentError (Option Record)) :
    (s.comeBack got left res).2 = some (.result res) ∧
      (s.comeBack got left res).1.cursor = s.cursor ∧
        (s.comeBack got left res).1.live = s.live := by
  unfold comeBack
  split <;> exact ⟨rfl, rfl, rfl⟩

/-- Where the call stood when it comes back is of no account. -/
theorem comeBack_phase (s : Scene) (phase : Phase) (got : List Record) (left : Nat)
    (res : Except PersistentError (Option Record)) :
    { s with phase }.comeBack got left res = s.comeBack got left res := by
  rcases res with _ | _ | r
  · rfl
  · rfl
  · cases left <;> rfl

/-- **Left alone, the cursor makes the `next` of the source**: after some turns of its own
it comes back with the same result and stands in the same place. -/
theorem next_eq {b : PersistentRingBuffer} {fuel : Nat} :
    ∀ {c c' : Cursor} {res : Except PersistentError (Option Record)} {s : Scene},
      Cursor.nextLoop b fuel c = some (res, c') → s.live.buf = b → s.cursor = c →
        s.phase = .starting got left →
          ∃ n mark, (s.after (List.replicate n .advance)).step .advance =
            { s with cursor := c', mark }.comeBack got left res := by
  induction fuel with
  | zero =>
    intro c c' res s hnext
    cases hnext
  | succ fuel ih =>
    rintro c c' res s hnext rfl rfl hphase
    have hlook := step_advance_of_starting hphase
    rw [Cursor.nextLoop] at hnext
    by_cases hend : s.cursor.atEnd = true
    · rw [if_pos hend] at hnext
      obtain ⟨rfl, rfl⟩ := Prod.mk.inj (Option.some.inj hnext)
      rw [look, if_pos hend] at hlook
      exact ⟨0, s.mark, hlook⟩
    · rw [if_neg hend] at hnext
      rcases hread : s.live.buf.readAt s.cursor.position.offset with _ | e | found
      · rw [hread] at hnext
        cases hnext
      · rw [hread] at hnext
        obtain ⟨rfl, rfl⟩ := Prod.mk.inj (Option.some.inj hnext)
        rw [look, if_neg hend, hread] at hlook
        exact ⟨0, s.mark, hlook⟩
      · rw [hread] at hnext
        rw [look_of_ok (by simpa using hend) hread] at hlook
        rcases hsettle : s.cursor.settle s.live.buf.control found with ⟨d, _ | result⟩
        · -- the cursor goes round again, and the rest is the call of `next` inside `next`
          simp only [hsettle] at hnext
          obtain ⟨n, mark, hn⟩ := ih (s := { s.moveTo d with phase := .starting got left }) hnext
            rfl rfl rfl
          refine ⟨2 + n, mark, ?_⟩
          have hround : s.after (List.replicate 2 .advance) =
              { s.moveTo d with phase := .starting got left } := by
            show ((s.step .advance).1.step .advance).1 = _
            rw [hlook, step_advance_of_found rfl, settle]
            simp only [hsettle]
            rfl
          rw [List.replicate_add, after_append, hround, hn]
          exact comeBack_phase { s with cursor := c', mark } (.starting got left) got left res
        · simp only [hsettle] at hnext
          obtain ⟨rfl, rfl⟩ := Prod.mk.inj (Option.some.inj hnext)
          refine ⟨1, (s.moveTo d).mark, ?_⟩
          have hone : s.after (List.replicate 1 .advance) =
              { s with phase := .found got left found } := by
            show (s.step .advance).1 = _
            rw [hlook]
          rw [hone, step_advance_of_found rfl, settle]
          simp only [hsettle]
          exact comeBack_phase (s.moveTo d) (.found got left found) got left (.ok result)

/-- **And the `read_batch` of the source**, round by round. -/
theorem readBatch_eq {b : PersistentRingBuffer} {c' : Cursor} {records : List Record} :
    ∀ {got : List Record} {s : Scene}, s.live.buf = b → s.phase = .starting got left →
      Cursor.readBatchLoop b (left + 1) s.cursor got = some (.ok records, c') →
        ∃ n mark, s.after (List.replicate n .advance) =
          { s with cursor := c', mark, phase := .idle, returned := s.returned ++ records } := by
  induction left with
  | zero =>
    intro got s hb hphase hbatch
    rw [Cursor.readBatchLoop] at hbatch
    rcases hnext : s.cursor.next b with _ | ⟨e | found, d⟩ <;> rw [hnext] at hbatch
    · cases hbatch
    · cases hbatch
    · obtain ⟨n, mark, hn⟩ := next_eq hnext hb rfl hphase
      refine ⟨n + 1, mark, ?_⟩
      rw [List.replicate_succ', after_append, after_cons, hn]
      cases found <;> cases hbatch <;> rfl
  | succ left ih =>
    intro got s hb hphase hbatch
    rw [Cursor.readBatchLoop] at hbatch
    rcases hnext : s.cursor.next b with _ | ⟨e | _ | r, d⟩ <;> rw [hnext] at hbatch
    · cases hbatch
    · cases hbatch
    · obtain ⟨n, mark, hn⟩ := next_eq hnext hb rfl hphase
      refine ⟨n + 1, mark, ?_⟩
      rw [List.replicate_succ', after_append, after_cons, hn]
      cases hbatch
      rfl
    · -- the round has brought a record, and the rest is a batch of one less
      obtain ⟨n, mark, hn⟩ := next_eq hnext hb rfl hphase
      let t : Scene := { s with cursor := d, mark, phase := .starting (got ++ [r]) left }
      obtain ⟨k, mark', hk⟩ := ih (s := t) hb rfl hbatch
      refine ⟨n + 1 + k, mark', ?_⟩
      rw [List.replicate_add, List.replicate_succ', after_append, after_append, after_cons, hn]
      exact hk

/-- The calls that the owner makes now do, left alone, what those of the source do. -/
structure CallsSource (s : Scene) : Prop where
  next : ∀ found c', s.cursor.next s.live.buf = some (.ok found, c') → ∃ n mark,
    (s.step .next).1.after (List.replicate n .advance) =
      { s with cursor := c', mark, returned := s.returned ++ found.toList }
  readBatch : ∀ maxCount records c',
    s.cursor.readBatch s.live.buf maxCount = some (.ok records, c') → ∃ n mark,
      (s.step (.readBatch maxCount)).1.after (List.replicate n .advance) =
        { s with cursor := c', mark, returned := s.returned ++ records }

theorem callsSource (hidle : s.phase = .idle) : s.CallsSource where
  next := by
    intro found c' hnext
    have hbatch : Cursor.readBatchLoop s.live.buf 1 s.cursor [] = some (.ok found.toList, c') := by
      rw [Cursor.readBatchLoop, hnext]
      cases found <;> rfl
    have hcall : (s.step .next).1 = { s with phase := .starting [] 0 } := by
      simp only [step, call, hidle]
    obtain ⟨n, mark, hn⟩ := readBatch_eq (s := { s with phase := .starting [] 0 }) rfl rfl hbatch
    refine ⟨n, mark, ?_⟩
    rw [hcall, hn, hidle]
  readBatch := by
    intro maxCount records c' hreadBatch
    obtain ⟨hcapacity, hbatch⟩ := Cursor.readBatch_eq_some hreadBatch
    cases maxCount with
    | zero =>
      obtain ⟨hrecords, rfl⟩ := Prod.mk.inj (Option.some.inj hbatch)
      obtain rfl := Except.ok.inj hrecords
      have hcall : (s.step (.readBatch 0)).1 = s := by
        simp only [step, call, hidle, hcapacity, Bool.false_eq_true, if_false]
      refine ⟨0, s.mark, ?_⟩
      rw [List.replicate_zero, after_nil, hcall, List.append_nil]
    | succ left =>
      have hcall : (s.step (.readBatch (left + 1))).1 = { s with phase := .starting [] left } := by
        simp [step, call, hidle, hcapacity]
      obtain ⟨n, mark, hn⟩ :=
        readBatch_eq (s := { s with phase := .starting [] left }) rfl rfl hbatch
      refine ⟨n, mark, ?_⟩
      rw [hcall, hn, hidle]

end Scene

/-! ## The lap under the cursor -/

namespace Live

variable [Hasher]

/-- Without a new lap the old one is only continued. -/
theorem log_step_of_not_startsLap (b : Live) {op : Op} (h : b.startsLap op = false) :
    ∃ more, (b.step op).log = { b.log with lap := b.log.lap ++ more } := by
  rcases b.step_cases op with ⟨hlog, -⟩ | ⟨r, sys, -, -, hlog, hstarts⟩
  · exact ⟨[], by rw [hlog, List.append_nil]⟩
  · refine ⟨[r], ?_⟩
    rw [hlog, Log.push_of_hasRoom]
    by_contra hno
    rw [hstarts.mpr hno] at h
    cases h

theorem wrapCount_step_of_not_startsLap (b : Live) {op : Op} (h : b.startsLap op = false) :
    (b.step op).buf.control.wrapCount = b.buf.control.wrapCount := by
  obtain ⟨more, hlog⟩ := b.log_step_of_not_startsLap h
  rw [(b.step op).represents.wrapCount_eq, b.represents.wrapCount_eq, hlog]

/-- At a record of the lap `read_at` finds that record. -/
theorem readAt_of_at (b : Live) (hsmall : b.buf.size < 2 ^ 32) {c : Cursor}
    {front rest : List Record} {r : Record} (hat : c.At b front)
    (hlap : b.log.lap = front ++ r :: rest) :
    b.buf.readAt c.position.offset = some (.ok (some (r.stored, r.footprint))) := by
  have hread := b.represents.readAt_currentAt (r := r) ⟨front, rest, hlap, rfl⟩
    (b.represents.short_of_mem hsmall (by simp [hlap]))
  rwa [← hat.offset_eq, UInt64.ofNat_toNat] at hread

/-- Behind the record the cursor is at the end exactly when it was the last one. -/
theorem settle_of_at (b : Live) {c : Cursor} {front rest : List Record} {r : Record}
    (hat : c.At b front) (hlap : b.log.lap = front ++ r :: rest) :
    ∃ c', c.settle b.buf.control (some (r.stored, r.footprint)) = (c', some (some r.stored)) ∧
      c'.At b (front ++ [r]) ∧ (c'.atEnd = true ↔ rest = []) := by
  refine ⟨_, rfl, ⟨Cursor.toNat_offset_add hlap hat.offset_eq, hat.wrapCount_eq⟩, ?_⟩
  have hoffset := Cursor.toNat_offset_add hlap hat.offset_eq
  have hwrite := b.represents.writePos_eq
  rw [Bool.and_eq_true, beq_iff_eq, beq_iff_eq, ← UInt64.toNat_inj, hoffset, hwrite]
  rw [show b.log.lap = front ++ [r] ++ rest by simp [hlap]]
  constructor
  · rintro ⟨hend, -⟩
    by_contra hrest
    exact absurd hend (extent_lt_of_ne_nil hrest).ne
  · rintro rfl
    exact ⟨by rw [List.append_nil], hat.wrapCount_eq⟩

/-- **Draining a cursor** that stands between two records of the lap. -/
theorem drains_of_at (b : Live) (hsmall : b.buf.size < 2 ^ 32) {rest : List Record} :
    ∀ {c : Cursor} {front : List Record}, c.At b front → b.log.lap = front ++ rest →
      (c.atEnd = true ↔ rest = []) →
        ∃ last, Cursor.Drains b.buf c (rest.map Record.stored) last := by
  induction rest with
  | nil =>
    intro c front _ _ hend
    exact ⟨c, Cursor.drains_of_atEnd (hend.mpr rfl)⟩
  | cons r rest ih =>
    intro c front hat hlap hend
    have hopen : c.atEnd = false := by
      rw [← Bool.not_eq_true, hend]
      simp
    have hnext := Cursor.next_of_record hopen (b.readAt_of_at hsmall hat hlap)
    obtain ⟨c', hsettle, hat', hend'⟩ := b.settle_of_at hat hlap
    rw [hsettle] at hnext
    obtain ⟨last, d, hreads, hlast⟩ := ih hat' (by simpa using hlap) hend'
    exact ⟨last, d, .cons hnext hreads, hlast⟩

/-- `seek_to` the start of the current lap, by its own position or that of an older lap. -/
theorem seekTo_start (b : Live) {p : Position}
    (hp : p = ⟨0, b.buf.control.wrapCount⟩ ∨ p.wrapCount < b.buf.control.wrapCount) :
    (Cursor.seekTo b.buf p).At b [] ∧
      ((Cursor.seekTo b.buf p).atEnd = true ↔ b.log.lap = []) := by
  have hwrite := b.represents.writePos_eq
  have hzero : extent Record.diskImage b.log.lap = 0 ↔ b.log.lap = [] := by
    constructor
    · intro hnil
      by_contra hne
      have := @extent_lt_of_ne_nil _ [] b.log.lap hne
      rw [List.nil_append, hnil, extent_nil] at this
      omega
    · intro hnil
      rw [hnil, extent_nil]
  rcases hp with rfl | hold
  · have hseek : Cursor.seekTo b.buf ⟨0, b.buf.control.wrapCount⟩ =
        ⟨⟨0, b.buf.control.wrapCount⟩, 0 == b.buf.control.writePos⟩ := by
      simp [Cursor.seekTo]
    rw [hseek]
    refine ⟨⟨rfl, rfl⟩, ?_⟩
    rw [beq_iff_eq, ← UInt64.toNat_inj, hwrite, ← hzero]
    exact eq_comm
  · have hne : ¬ (b.buf.control.wrapCount < p.wrapCount ∨
        p.wrapCount = b.buf.control.wrapCount ∧ b.buf.control.writePos < p.offset) := by
      rw [UInt64.lt_iff_toNat_lt] at hold
      rintro (hlt | ⟨heq, -⟩)
      · rw [UInt64.lt_iff_toNat_lt] at hlt
        omega
      · rw [heq] at hold
        omega
    have hseek : Cursor.seekTo b.buf p = ⟨⟨0, b.buf.control.wrapCount⟩, false⟩ := by
      simp only [Cursor.seekTo]
      rw [if_neg hne, if_pos hold]
    have hpast : b.log.past ≠ [] := by
      intro hnil
      rw [b.represents.wrapCount_eq, hnil, UInt64.lt_iff_toNat_lt] at hold
      simp at hold
    rw [hseek]
    exact ⟨⟨rfl, rfl⟩, by simpa using b.represents.lap_ne_nil hpast⟩

/-- `seek_to` a position inside the current lap. -/
theorem seekTo_inside (b : Live) {p : Position} {front rest : List Record}
    (hwrap : p.wrapCount = b.buf.control.wrapCount)
    (hoffset : p.offset.toNat = extent Record.diskImage front)
    (hlap : b.log.lap = front ++ rest) (hrest : rest ≠ []) :
    Cursor.seekTo b.buf p = ⟨p, false⟩ := by
  have hlt := @extent_lt_of_ne_nil _ front rest hrest
  have hwrite := b.represents.writePos_eq
  rw [← hlap, ← hwrite, ← hoffset] at hlt
  have hne : p.offset ≠ b.buf.control.writePos := by
    intro heq
    rw [heq] at hlt
    omega
  have hle : ¬ b.buf.control.writePos < p.offset := by
    rw [UInt64.lt_iff_toNat_lt]
    omega
  simp [Cursor.seekTo, hwrap, hle, hne]

end Live

namespace Scene

variable [Hasher] {s : Scene} {got : List Record} {left : Nat}

/-! ## The invariant -/

/-- The cursor stands behind the records returned, in the lap it started in. -/
structure InStep (s : Scene) : Prop where
  small : s.live.buf.size < 2 ^ 32
  at_count : s.cursor.At s.live (s.live.log.lap.take s.count)
  count_le : s.count ≤ s.live.log.lap.length
  records : s.returned ++ s.phase.got =
    ((s.live.log.lap.take s.count).drop s.skipped).map Record.stored
  atEnd : s.cursor.atEnd = true → s.mark = some s.count
  notEnd : s.cursor.atEnd = false → s.count < s.live.log.lap.length
  found : ∀ got left res, s.phase = .found got left res → s.cursor.atEnd = false ∧
    ∀ r, s.live.log.lap[s.count]? = some r → res = some (r.stored, r.footprint)
  reported : ∀ n p, (n, p) ∈ s.reported → n ≤ s.live.log.lap.length ∧
    p.offset.toNat = extent Record.diskImage (s.live.log.lap.take n) ∧
    p.wrapCount = s.live.buf.control.wrapCount

omit [Hasher] in
theorem lap_eq_of_getElem? {lap : List Record} {n : Nat} {r : Record} (h : lap[n]? = some r) :
    lap = lap.take n ++ r :: lap.drop (n + 1) ∧ lap.take (n + 1) = lap.take n ++ [r] := by
  obtain ⟨hlt, rfl⟩ := List.getElem?_eq_some_iff.mp h
  refine ⟨?_, List.take_succ_eq_append_getElem hlt⟩
  rw [← List.drop_eq_getElem_cons hlt, List.take_append_drop]

/-- The start of the lap. -/
theorem inStep_start {b : Live} (hsmall : b.buf.size < 2 ^ 32) {p : Position}
    (hp : p = ⟨0, b.buf.control.wrapCount⟩ ∨ p.wrapCount < b.buf.control.wrapCount) :
    (start b p).InStep := by
  obtain ⟨hat, hend⟩ := b.seekTo_start hp
  exact
    { small := hsmall
      at_count := hat
      count_le := Nat.zero_le _
      records := rfl
      atEnd := fun h => by
        have hnil := hend.mp h
        show (if (Cursor.seekTo b.buf p).atEnd then some b.log.lap.length else none) = some 0
        rw [if_pos (show (Cursor.seekTo b.buf p).atEnd = true from h), hnil, List.length_nil]
      notEnd := fun h => by
        refine List.length_pos_iff.mpr fun hnil => ?_
        rw [start, hend.mpr hnil] at h
        cases h
      found := fun _ _ _ h => by cases h
      reported := fun _ _ h => by cases h }

/-- A write that continues the lap. -/
theorem InStep.write (hs : s.InStep) {r : Record} {sys : Sys}
    (h : s.live.startsLap (.write r sys) = false) :
    { s with live := s.live.step (.write r sys) }.InStep := by
  obtain ⟨more, hlog⟩ := s.live.log_step_of_not_startsLap h
  have hwrap := s.live.wrapCount_step_of_not_startsLap h
  have hlap : (s.live.step (.write r sys)).log.lap = s.live.log.lap ++ more := by rw [hlog]
  have htake : ∀ n ≤ s.live.log.lap.length,
      (s.live.step (.write r sys)).log.lap.take n = s.live.log.lap.take n := by
    intro n hn
    rw [hlap, List.take_append_of_le_length hn]
  have hlength : s.live.log.lap.length ≤ (s.live.step (.write r sys)).log.lap.length := by
    rw [hlap, List.length_append]
    omega
  refine
    { small := by
        rw [Live.size_step]
        exact hs.small
      at_count := ⟨?_, by rw [hwrap]; exact hs.at_count.wrapCount_eq⟩
      count_le := hs.count_le.trans hlength
      records := hs.records.trans (by rw [← htake _ hs.count_le]; rfl)
      atEnd := hs.atEnd
      notEnd := fun hend => (hs.notEnd hend).trans_le hlength
      found := ?_
      reported := ?_ }
  · exact hs.at_count.offset_eq.trans (by rw [← htake _ hs.count_le]; rfl)
  · intro got left res hphase
    obtain ⟨hend, hfound⟩ := hs.found got left res hphase
    refine ⟨hend, fun x hx => hfound x ?_⟩
    have hlt := hs.notEnd hend
    rw [← hx]
    show s.live.log.lap[s.count]? = (s.live.step (.write r sys)).log.lap[s.count]?
    rw [hlap, List.getElem?_append_left hlt]
  · intro n p hp
    obtain ⟨hn, hoffset, hcount⟩ := hs.reported n p hp
    exact ⟨hn.trans hlength, by rw [htake n hn, hoffset], by rw [hwrap, hcount]⟩

/-- Only the call under way has come further: the buffer and the cursor are the same, and
the same records are out. -/
theorem InStep.of_same (hs : s.InStep) {t : Scene} (hlive : t.live = s.live)
    (hcursor : t.cursor = s.cursor) (hmark : t.mark = s.mark)
    (hreported : t.reported = s.reported) (hskipped : t.skipped = s.skipped)
    (hout : t.returned ++ t.phase.got = s.returned ++ s.phase.got)
    (hfound : ∀ got left res, t.phase = .found got left res → s.cursor.atEnd = false ∧
      ∀ r, s.live.log.lap[s.count]? = some r → res = some (r.stored, r.footprint)) :
    t.InStep := by
  have hcount : t.count = s.count := by rw [count, hskipped, hout, count]
  exact
    { small := by rw [hlive]; exact hs.small
      at_count := by rw [hcount, hcursor, hlive]; exact hs.at_count
      count_le := by rw [hcount, hlive]; exact hs.count_le
      records := by rw [hout, hcount, hlive, hskipped]; exact hs.records
      atEnd := by rw [hcount, hcursor, hmark]; exact hs.atEnd
      notEnd := by rw [hcount, hcursor, hlive]; exact hs.notEnd
      found := by rw [hcount, hcursor, hlive]; exact hfound
      reported := by rw [hreported, hlive]; exact hs.reported }

/-- A call that comes back without a record. -/
theorem InStep.comeBack_none (hs : s.InStep) (hphase : s.phase = .starting got left) :
    (s.comeBack got left (.ok none)).1.InStep := by
  have hstate : (s.comeBack got left (.ok none)).1 =
      { s with phase := .idle, returned := s.returned ++ got } := by
    rw [comeBack]
  rw [hstate]
  refine hs.of_same rfl rfl rfl rfl rfl ?_ (by intro g l x h; cases h)
  rw [hphase, Phase.got, Phase.got, List.append_nil]

/-- A call that comes back, or goes into its next round, with the next record of the lap. -/
theorem InStep.comeBack_record (hs : s.InStep) {res : Option (Record × Nat)} {r : Record}
    {c : Cursor} (hphase : s.phase = .found got left res)
    (hr : s.live.log.lap[s.count]? = some r)
    (hat : c.At s.live (s.live.log.lap.take (s.count + 1)))
    (hend : c.atEnd = true ↔ s.live.log.lap.drop (s.count + 1) = []) :
    ((s.moveTo c).comeBack got left (.ok (some r.stored))).1.InStep := by
  have hlt := (List.getElem?_eq_some_iff.mp hr).1
  have hrecords := hs.records
  rw [hphase, Phase.got] at hrecords
  have hskip : s.skipped ≤ (s.live.log.lap.take s.count).length := by
    rw [List.length_take, min_eq_left hlt.le, count]
    omega
  have hlast : s.returned ++ (got ++ [r.stored]) =
      ((s.live.log.lap.take (s.count + 1)).drop s.skipped).map Record.stored := by
    rw [(lap_eq_of_getElem? hr).2, List.drop_append_of_le_length hskip, List.map_append,
      ← hrecords]
    simp
  have hone : s.skipped + (s.returned ++ (got ++ [r.stored])).length = s.count + 1 := by
    rw [count, hphase, Phase.got]
    simp
    omega
  have hstate : ∀ t : Scene, t.live = s.live → t.cursor = c →
      t.mark = (s.moveTo c).mark → t.reported = s.reported → t.skipped = s.skipped →
      t.returned ++ t.phase.got = s.returned ++ (got ++ [r.stored]) →
      (∀ g l x, t.phase ≠ .found g l x) → t.InStep := by
    intro t hlive hcursor hmark hreported hskipped hout hidle
    have hcount : t.count = s.count + 1 := by
      rw [count, hout, hskipped, hone]
    refine
      { small := by rw [hlive]; exact hs.small
        at_count := by rw [hcount, hcursor, hlive]; exact hat
        count_le := by rw [hcount, hlive]; exact hlt
        records := by rw [hout, hcount, hlive, hskipped, hlast]
        atEnd := ?_
        notEnd := ?_
        found := fun g l x h => absurd h (hidle g l x)
        reported := by rw [hreported, hlive]; exact hs.reported }
    · intro h
      rw [hcursor] at h
      have hnil := List.drop_eq_nil_iff.mp (hend.mp h)
      rw [hcount, hmark, moveTo, if_pos h]
      exact congrArg some (le_antisymm hnil hlt)
    · intro h
      rw [hcursor] at h
      rw [hcount, hlive]
      by_contra hno
      have hnil : s.live.log.lap.drop (s.count + 1) = [] :=
        List.drop_eq_nil_of_le (by omega)
      rw [hend.mpr hnil] at h
      cases h
  cases left with
  | zero =>
    refine hstate _ rfl rfl rfl rfl rfl ?_ (by intro g l x h; cases h)
    show s.returned ++ (got ++ [r.stored]) ++ [] = _
    rw [List.append_nil]
  | succ left =>
    exact hstate _ rfl rfl rfl rfl rfl rfl (by intro g l x h; cases h)

/-- What a turn may bring. -/
inductive Brings (s : Scene) (turn : Turn) : Event → Prop
  /-- The record of the lap behind those in front of the cursor. -/
  | record {r : Record} : s.live.log.lap[s.count]? = some r →
      Brings s turn (.result (.ok (some r.stored)))
  /-- Nothing, when the lap held no more than these at the moment `atEnd` was set. -/
  | nothing : s.cursor.atEnd = true → s.mark = some s.count →
      Brings s turn (.result (.ok none))
  /-- A panic, of `read_batch` with no vector of the capacity. -/
  | panic {maxCount : Nat} : turn = .readBatch maxCount →
      Cursor.capacityOverflow maxCount = true → Brings s turn .panic

/-- From one state to another the cursor has brought a record out or not moved. -/
structure Stays (s t : Scene) : Prop where
  skipped_eq : t.skipped = s.skipped
  cursor_eq : t.returned ++ t.phase.got = [] →
    s.returned ++ s.phase.got = [] ∧ t.cursor = s.cursor

theorem Stays.of_same {t : Scene} (hskipped : t.skipped = s.skipped)
    (hcursor : t.cursor = s.cursor)
    (hout : t.returned ++ t.phase.got = s.returned ++ s.phase.got) : s.Stays t :=
  ⟨hskipped, fun h => ⟨hout ▸ h, hcursor⟩⟩

theorem Stays.refl (s : Scene) : s.Stays s := .of_same rfl rfl rfl

theorem Stays.trans {t u : Scene} (h : s.Stays t) (h' : t.Stays u) : s.Stays u where
  skipped_eq := h'.skipped_eq.trans h.skipped_eq
  cursor_eq := by
    intro hout
    obtain ⟨hout', hcursor'⟩ := h'.cursor_eq hout
    obtain ⟨hout'', hcursor⟩ := h.cursor_eq hout'
    exact ⟨hout'', hcursor'.trans hcursor⟩

/-- What a turn does. -/
structure Fine (s : Scene) (turn : Turn) (res : Scene × Option Event) : Prop where
  inStep : res.1.InStep
  brings : ∀ event, res.2 = some event → s.Brings turn event
  stays : (∀ i, turn ≠ .seek i) → s.Stays res.1
  /-- A call under way comes back, or has looked at the buffer and will. -/
  comesBack : turn = .advance → s.phase ≠ .idle → res.2 = none →
    ∃ got left, s.phase = .starting got left ∧ ∃ found, res.1.phase = .found got left found

theorem InStep.advance (hs : s.InStep) : s.Fine .advance s.advance := by
  rw [Scene.advance]
  rcases hphase : s.phase with _ | ⟨got, left⟩ | ⟨got, left, res⟩
  · exact ⟨hs, by rintro event ⟨⟩, fun _ => .refl s, fun _ h => absurd hphase h⟩
  · by_cases hend : s.cursor.atEnd = true
    · simp only [look, if_pos hend]
      refine ⟨hs.comeBack_none hphase, ?_, fun _ => .of_same rfl rfl ?_, by rintro _ _ ⟨⟩⟩
      · rintro event ⟨⟩
        exact .nothing hend (hs.atEnd hend)
      · rw [hphase]
        exact List.append_nil _
    · have hopen : s.cursor.atEnd = false := by simpa using hend
      have hlt := hs.notEnd hopen
      have hr : s.live.log.lap[s.count]? = some s.live.log.lap[s.count] :=
        List.getElem?_eq_getElem hlt
      have hread := s.live.readAt_of_at hs.small hs.at_count (lap_eq_of_getElem? hr).1
      simp only
      rw [look_of_ok hopen hread]
      refine ⟨hs.of_same rfl rfl rfl rfl rfl (by rw [hphase]; rfl) ?_, by rintro event ⟨⟩,
        fun _ => .of_same rfl rfl (by rw [hphase]; rfl),
        fun _ _ _ => ⟨got, left, hphase, _, rfl⟩⟩
      rintro g l x ⟨⟩
      refine ⟨hopen, fun r hx => ?_⟩
      obtain rfl := Option.some.inj (hr.symm.trans hx)
      rfl
  · obtain ⟨hopen, hfound⟩ := hs.found got left res hphase
    have hlt := hs.notEnd hopen
    have hr : s.live.log.lap[s.count]? = some s.live.log.lap[s.count] :=
      List.getElem?_eq_getElem hlt
    obtain ⟨hlap, htake⟩ := lap_eq_of_getElem? hr
    obtain ⟨c, hsettle, hat, hend⟩ := s.live.settle_of_at hs.at_count hlap
    rw [← htake] at hat
    simp only [Scene.settle]
    rw [hfound _ hr, hsettle]
    have hevent := (comeBack_eq (s.moveTo c) got left
      (.ok (some s.live.log.lap[s.count].stored))).1
    refine ⟨hs.comeBack_record hphase hr hat hend, ?_, fun _ => ⟨?_, ?_⟩, ?_⟩
    · intro event hsome
      obtain rfl := Option.some.inj (hevent.symm.trans hsome)
      exact .record hr
    · cases left <;> rfl
    · intro hout
      cases left <;> simp [comeBack, moveTo, Phase.got] at hout
    · intro _ _ hnone
      cases hevent.symm.trans hnone

/-- The owner asks for the position. -/
theorem InStep.report (hs : s.InStep) :
    { s with reported := s.reported ++ [(s.count, s.cursor.position)] }.InStep :=
  { small := hs.small
    at_count := hs.at_count
    count_le := hs.count_le
    records := hs.records
    atEnd := hs.atEnd
    notEnd := hs.notEnd
    found := hs.found
    reported := by
      intro n p hp
      rcases List.mem_append.mp hp with hold | hnew
      · exact hs.reported n p hold
      · obtain ⟨rfl, rfl⟩ := Prod.mk.inj (List.mem_singleton.mp hnew)
        exact ⟨hs.count_le, hs.at_count.offset_eq, hs.at_count.wrapCount_eq⟩ }

/-- The owner seeks to a position behind which the lap now has a record. -/
theorem InStep.seek (hs : s.InStep) (hphase : s.phase = .idle) {n : Nat} {p : Position}
    (hp : (n, p) ∈ s.reported) (hn : n < s.live.log.lap.length) :
    (s.sought n p).InStep := by
  obtain ⟨-, hoffset, hwrap⟩ := hs.reported n p hp
  have hseek := s.live.seekTo_inside hwrap hoffset (List.take_append_drop n _).symm
    (by rw [ne_eq, List.drop_eq_nil_iff]; omega)
  have hcount : (s.sought n p).count = n := by
    simp [count, sought, moveTo, hphase, Phase.got]
  exact
    { small := hs.small
      at_count := by
        rw [hcount, sought, hseek]
        exact ⟨hoffset, hwrap⟩
      count_le := by rw [hcount]; exact hn.le
      records := by
        rw [hcount]
        show [] ++ s.phase.got = ((s.live.log.lap.take n).drop n).map Record.stored
        rw [hphase, Phase.got, List.drop_eq_nil_of_le (List.length_take_le ..)]
        rfl
      atEnd := fun h => by
        rw [sought, hseek] at h
        cases h
      notEnd := fun _ => by rw [hcount]; exact hn
      found := fun g l x h => by
        have hidle : (s.sought n p).phase = .idle := hphase
        rw [hidle] at h
        cases h
      reported := hs.reported }

/-- A call begins. -/
theorem InStep.call (hs : s.InStep) (rounds : Nat) : (s.call rounds).InStep := by
  cases rounds with
  | zero => exact hs
  | succ left =>
    rw [Scene.call]
    split
    · next hphase =>
      refine hs.of_same rfl rfl rfl rfl rfl ?_ (by intro g l x h; cases h)
      rw [hphase]
      rfl
    · exact hs

/-- **One turn**, whoever takes it. -/
theorem InStep.step (hs : s.InStep) (t : Turn) : s.Fine t (s.step t) := by
  -- a turn of the owner or of the writer brings nothing and leaves the cursor alone
  have hquiet : ∀ u : Scene, u.InStep → ((∀ i, t ≠ .seek i) → s.Stays u) → t ≠ .advance →
      s.Fine t (u, none) :=
    fun u hu hstays hne => ⟨hu, by rintro event ⟨⟩, hstays, fun h => absurd h hne⟩
  have hcall : ∀ rounds, s.Stays (s.call rounds) := by
    intro rounds
    unfold Scene.call
    split
    · exact .refl s
    · split
      · next hphase => exact .of_same rfl rfl (by rw [hphase]; rfl)
      · exact .refl s
  cases t with
  | write r sys =>
    rw [Scene.step]
    split
    · exact hquiet s hs (fun _ => .refl s) (by simp)
    · next h =>
      exact hquiet _ (hs.write (by simpa using h)) (fun _ => .of_same rfl rfl rfl) (by simp)
  | next => exact hquiet _ (hs.call 1) (fun _ => hcall 1) (by simp)
  | readBatch maxCount =>
    rw [Scene.step]
    split
    · by_cases h : Cursor.capacityOverflow maxCount = true
      · rw [if_pos h]
        refine ⟨hs, ?_, fun _ => .refl s, by rintro ⟨⟩⟩
        rintro event ⟨⟩
        exact .panic rfl h
      · rw [if_neg h]
        exact hquiet _ (hs.call maxCount) (fun _ => hcall maxCount) (by simp)
    · exact hquiet s hs (fun _ => .refl s) (by simp)
  | advance => exact hs.advance
  | report =>
    rw [Scene.step]
    split
    · exact hquiet _ hs.report (fun _ => .of_same rfl rfl rfl) (by simp)
    · exact hquiet s hs (fun _ => .refl s) (by simp)
  | seek i =>
    rw [Scene.step]
    split
    · next n p hphase hi =>
      by_cases hn : n < s.live.log.lap.length
      · rw [if_pos hn]
        exact hquiet _ (hs.seek hphase (List.mem_of_getElem? hi) hn)
          (fun h => absurd rfl (h i)) (by simp)
      · rw [if_neg hn]
        exact hquiet s hs (fun _ => .refl s) (by simp)
    · exact hquiet s hs (fun _ => .refl s) (by simp)

/-- **Any number of turns**, in any order. -/
theorem InStep.after (turns : List Turn) : ∀ {s : Scene}, s.InStep → (s.after turns).InStep := by
  induction turns with
  | nil => exact fun hs => hs
  | cons t turns ih => exact fun hs => ih (hs.step t).inStep

theorem InStep.stays_after {turns : List Turn} (h : ∀ i, .seek i ∉ turns) :
    ∀ {s : Scene}, s.InStep → s.Stays (s.after turns) := by
  induction turns with
  | nil => exact fun _ => .refl _
  | cons t turns ih =>
    intro s hs
    have hfirst := (hs.step t).stays fun i ht => h i (ht ▸ List.mem_cons_self ..)
    exact hfirst.trans (ih (fun i hi => h i (List.mem_cons_of_mem _ hi)) (hs.step t).inStep)

/-! ## After a seek -/

/-- The cursor reads on behind the first `n` records of the lap: the first record it brings
is the next one of the lap. -/
structure ReadsOn (s : Scene) (n : Nat) : Prop where
  skipped_eq : s.skipped = n
  first : s.returned ++ s.phase.got = [] → ∀ turn found,
    (s.step turn).2 = some (.result (.ok found)) →
      ∃ r, s.live.log.lap[n]? = some r ∧ found = some r.stored

/-- **A seek to a reported position takes the lap up again**, whatever turns follow that are not
seeks. -/
theorem InStep.readsOn (hs : s.InStep) (hidle : s.phase = .idle) {i n : Nat} {p : Position}
    (hi : s.reported[i]? = some (n, p)) (hn : n < s.live.log.lap.length) {turns : List Turn}
    (h : ∀ j, .seek j ∉ turns) : ((s.step (.seek i)).1.after turns).ReadsOn n := by
  have hp := List.mem_of_getElem? hi
  obtain ⟨-, hoffset, hwrap⟩ := hs.reported n p hp
  have hsought : (s.step (.seek i)).1 = s.sought n p := by
    simp only [Scene.step, hidle, hi, if_pos hn]
  have hopen : (s.sought n p).cursor.atEnd = false := by
    show (Cursor.seekTo s.live.buf p).atEnd = false
    rw [s.live.seekTo_inside hwrap hoffset (List.take_append_drop n _).symm
      (by rw [ne_eq, List.drop_eq_nil_iff]; omega)]
  have hstart := hs.seek hidle hp hn
  rw [hsought]
  have hstays := hstart.stays_after h
  have hend := hstart.after turns
  refine ⟨hstays.skipped_eq, fun hout turn found hfound => ?_⟩
  have hcount : ((s.sought n p).after turns).count = n := by
    rw [count, hout, hstays.skipped_eq]
    rfl
  cases (hend.step turn).brings _ hfound with
  | record hr =>
    rw [hcount] at hr
    exact ⟨_, hr, rfl⟩
  | nothing hatEnd =>
    rw [(hstays.cursor_eq hout).2, hopen] at hatEnd
    cases hatEnd

/-- And without further writes it can be drained from there. -/
theorem InStep.drains (hs : s.InStep) {n : Nat} {p : Position} (hp : (n, p) ∈ s.reported)
    (hn : n < s.live.log.lap.length) :
    ∃ last, Cursor.Drains s.live.buf (Cursor.seekTo s.live.buf p)
      ((s.live.log.lap.drop n).map Record.stored) last := by
  obtain ⟨-, hoffset, hwrap⟩ := hs.reported n p hp
  have hsplit : s.live.log.lap = s.live.log.lap.take n ++ s.live.log.lap.drop n :=
    (List.take_append_drop n _).symm
  have hrest : s.live.log.lap.drop n ≠ [] := by
    rw [ne_eq, List.drop_eq_nil_iff]
    omega
  rw [s.live.seekTo_inside hwrap hoffset hsplit hrest]
  exact s.live.drains_of_at hs.small ⟨hoffset, hwrap⟩ hsplit (by simpa using hrest)

/-- **A cursor over the current lap returns the records of the lap, one by one.**  Whatever
run a buffer below 4 GiB has been through, and whatever the order in which a cursor sent
to the start of the lap, its owner and a writer that does not wrap take their turns:

* what the cursor has returned since it last sought are the records of the lap from that
  place on, and since the start when it has not sought since;
* a call that comes back brings the next record of the lap, or `Ok(None)` when `atEnd` was set
  while the lap held no more than the cursor had returned; nothing fails, only a `read_batch`
  for which there is no vector panics, a call comes back in two turns of its own for each
  record, and left alone it is the call of the source;
* a seek to a position that was reported with `n` records of the lap returned, while the lap
  holds more, makes the following reads go on with the record behind these: it is the first one
  to come, whatever turns follow, and without further writes the cursor can be drained and returns
  the rest of the lap;
* without further writes the cursor can be drained from the start, and returns the whole lap. -/
theorem cursor_over_lap (size : Nat) (h : ControlBlock.SIZE + size < 2 ^ 63)
    (hsmall : size < 2 ^ 32) (sys : Sys) (ops : List Op) (p : Position) :
    let b := (Live.fresh size h sys).after ops
    p = ⟨0, b.buf.control.wrapCount⟩ ∨ p.wrapCount < b.buf.control.wrapCount →
      (∀ turns : List Turn, let s := (start b p).after turns
        s.returned ++ s.phase.got =
            ((s.live.log.lap.take s.count).drop s.skipped).map Record.stored ∧
          s.count ≤ s.live.log.lap.length ∧ ((∀ i, .seek i ∉ turns) → s.skipped = 0) ∧
          (∀ turn event, (s.step turn).2 = some event → s.Brings turn event) ∧
          (s.phase = .idle → s.CallsSource) ∧
          (s.phase ≠ .idle → (s.step .advance).2 = none → ∃ got left,
            s.phase = .starting got left ∧
              ∃ found, (s.step .advance).1.phase = .found got left found) ∧
          ∀ i n q, s.reported[i]? = some (n, q) → n < s.live.log.lap.length →
            (s.phase = .idle → ∀ turns', (∀ j, .seek j ∉ turns') →
              ((s.step (.seek i)).1.after turns').ReadsOn n) ∧
            ∃ last, Cursor.Drains s.live.buf (Cursor.seekTo s.live.buf q)
              ((s.live.log.lap.drop n).map Record.stored) last) ∧
      ∃ last, Cursor.Drains b.buf (Cursor.seekTo b.buf p) (b.log.lap.map Record.stored) last := by
  intro b hp
  have hsize : b.buf.size < 2 ^ 32 := by rwa [Live.size_after]
  have hstart := inStep_start hsize hp
  refine ⟨fun turns => ?_, ?_⟩
  · have hs := hstart.after turns
    exact ⟨hs.records, hs.count_le, fun hseek => (hstart.stays_after hseek).skipped_eq,
      fun turn => (hs.step turn).brings, callsSource, (hs.step .advance).comesBack rfl,
      fun i n q hi hn => ⟨fun hidle turns' => hs.readsOn hidle hi hn,
        hs.drains (List.mem_of_getElem? hi) hn⟩⟩
  · obtain ⟨hat, hend⟩ := b.seekTo_start hp
    exact b.drains_of_at hsize hat (List.nil_append _).symm hend

end Scene

section Ieee

attribute [local instance] Hasher.ieee

/-- A lap of two records under a cursor sent to its start, and a third written while `next`
is between its two looks at the buffer.  A position reported after the first of them is where a
later seek takes up the other two. -/
theorem Scene.cursor_over_lap_of_three :
    let record := fun tag => Record.new (List.replicate 16 tag.toUInt8) tag 0
    let b := (Live.fresh 200 (by decide) Sys.ok).after
      [.write (record 1) Sys.ok, .write (record 2) Sys.ok]
    let turns := [.next, .advance, .advance, .report, .readBatch 5, .advance,
      .write (record 3) Sys.ok, .advance, .advance, .advance, .advance]
    let s := (start b ⟨0, 0⟩).after turns
    s.returned ++ s.phase.got = [record 1, record 2, record 3].map Record.stored ∧
      (((s.step (.seek 0)).1.after [.next, .advance]).ReadsOn 1 ∧
        ∃ last, Cursor.Drains s.live.buf (Cursor.seekTo s.live.buf ⟨40, 0⟩)
          ([record 2, record 3].map Record.stored) last) := by
  intro record b turns s
  have hstart : (⟨0, 0⟩ : Position) = ⟨0, b.buf.control.wrapCount⟩ := by decide +kernel
  have hrun := (cursor_over_lap 200 (by decide) (by decide) Sys.ok
    [.write (record 1) Sys.ok, .write (record 2) Sys.ok] ⟨0, 0⟩ (Or.inl hstart)).1
  obtain ⟨hreturned, -, -, -, -, -, hseek⟩ := hrun turns
  have hb : b = (Live.fresh 200 (by decide) Sys.ok).after
      [.write (record 1) Sys.ok, .write (record 2) Sys.ok] := rfl
  have hs : s = (start b ⟨0, 0⟩).after turns := rfl
  have hlap : s.live.log.lap = [record 1, record 2, record 3] := by decide +kernel
  have hcount : s.count = 3 ∧ s.skipped = 0 := by decide +kernel
  have hreported : s.reported[0]? = some (1, ⟨40, 0⟩) := by decide +kernel
  have hidle : s.phase = .idle := by decide +kernel
  rw [← hb, ← hs] at hreturned hseek
  rw [hlap, hcount.1, hcount.2] at hreturned
  obtain ⟨hon, hdrains⟩ := hseek 0 1 ⟨40, 0⟩ hreported (by rw [hlap]; decide)
  rw [hlap] at hdrains
  exact ⟨hreturned, hon hidle [.next, .advance] (by simp), hdrains⟩

end Ieee

end Sherlog
