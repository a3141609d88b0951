import Sherlog.Disk.Run

/-!
# What a cursor returns

Repeated calls of `next` on a buffer that stays as it is, and the two claims a cursor
makes about itself: that it can be kept and polled, and that its position can be
committed.

* `Cursor.Reads`, `Cursor.Drains` — the records that successive calls return.
* `Cursor.At` — the cursor stands behind some first records of the current lap;
  `Cursor.At.next` moves it behind one more.
* `Live.polled_iff` — a cursor made on a fresh buffer has `atEnd` set once and for all,
  so polling it after every write never returns anything.
* `Live.commit_keeps_iff` — `commit` stores the write position instead of the position
  of the cursor, which is the same only when the cursor has read everything.
-/

namespace Sherlog

open LapLog PersistentRingBuffer Window

section

variable [Hasher]

namespace Cursor

/-- Successive calls of `next` return the records `found` and leave the cursor `c'`. -/
inductive Reads (b : PersistentRingBuffer) : Cursor → List Record → Cursor → Prop
  | nil (c : Cursor) : Reads b c [] c
  | cons {c c' c'' : Cursor} {r : Record} {found : List Record} :
      c.next b = some (.ok (some r), c') → Reads b c' found c'' → Reads b c (r :: found) c''

/-- Calling `next` until it returns `Ok(None)` yields the records `found`. -/
def Drains (b : PersistentRingBuffer) (c : Cursor) (found : List Record) (last : Cursor) : Prop :=
  ∃ c', Reads b c found c' ∧ c'.next b = some (.ok none, last)

variable {b : PersistentRingBuffer} {c c' : Cursor}

theorem next_of_atEnd (h : c.atEnd = true) : c.next b = some (.ok none, c) := by
  rw [next, scanFuel, nextLoop, if_pos h]

theorem next_of_error (h : c.atEnd = false) {e : PersistentError}
    (hread : b.readAt c.position.offset = some (.error e)) : c.next b = some (.error e, c) := by
  rw [next, scanFuel, nextLoop, if_neg (by simp [h]), hread]

theorem next_of_record (h : c.atEnd = false) {r : Record} {n : Nat}
    (hread : b.readAt c.position.offset = some (.ok (some (r, n)))) :
    c.next b = some (.ok (some r), (c.settle b.control (some (r, n))).1) := by
  rw [next, scanFuel, nextLoop, if_neg (by simp [h]), hread]
  rfl

/-- A batch that comes back is its loop. -/
theorem readBatch_eq_some {n : Nat} {res : Except PersistentError (List Record) × Cursor}
    (h : c.readBatch b n = some res) :
    capacityOverflow n = false ∧ readBatchLoop b n c [] = some res := by
  rw [readBatch] at h
  split at h
  · cases h
  · next hcount => exact ⟨by simpa using hcount, h⟩

/-- A cursor at the end returns nothing, now or ever. -/
theorem reads_of_atEnd (h : c.atEnd = true) {found : List Record} (hreads : Reads b c found c') :
    found = [] ∧ c' = c := by
  cases hreads with
  | nil => exact ⟨rfl, rfl⟩
  | cons hnext _ =>
    rw [next_of_atEnd h] at hnext
    cases hnext

theorem drains_of_atEnd (h : c.atEnd = true) : Drains b c [] c :=
  ⟨c, .nil c, next_of_atEnd h⟩

theorem drains_nil_of_atEnd (h : c.atEnd = true) {found : List Record}
    (hdrains : Drains b c found c') : found = [] ∧ c' = c := by
  obtain ⟨d, hreads, hnext⟩ := hdrains
  obtain ⟨rfl, rfl⟩ := reads_of_atEnd h hreads
  rw [next_of_atEnd h] at hnext
  exact ⟨rfl, (Prod.mk.inj (Option.some.inj hnext)).2.symm⟩

/-! ## Over the current lap -/

/-- The cursor stands behind the records `front` of the current lap. -/
structure At (c : Cursor) (b : Live) (front : List Record) : Prop where
  offset_eq : c.position.offset.toNat = extent Record.diskImage front
  wrapCount_eq : c.position.wrapCount = b.buf.control.wrapCount

/-- Behind a record the position is that of the next one. -/
theorem toNat_offset_add {b : Live} {front rest : List Record} {r : Record}
    (hlap : b.log.lap = front ++ r :: rest) {offset : UInt64}
    (hoffset : offset.toNat = extent Record.diskImage front) :
    (offset + UInt64.ofNat r.footprint).toNat = extent Record.diskImage (front ++ [r]) := by
  have hlt := b.represents.size_lt
  have hfit := currentAt_fits b.represents.fits (r := r) ⟨front, rest, hlap, rfl⟩
  rw [UInt64.toNat_add, UInt64.toNat_ofNat', hoffset, extent_append, extent_cons, extent_nil,
    Record.length_diskImage, Nat.add_zero]
  rw [Nat.mod_eq_of_lt (a := r.footprint) (by omega), Nat.mod_eq_of_lt (by omega)]

/-- **A record returned moves the cursor behind it.** -/
theorem At.next {b : Live} {front rest : List Record} {r x : Record} (hat : c.At b front)
    (hlap : b.log.lap = front ++ r :: rest) (hnext : c.next b.buf = some (.ok (some x), c'))
    (hx : x.content = r.content) : c'.At b (front ++ [r]) := by
  have hfit := currentAt_fits b.represents.fits (r := r) ⟨front, rest, hlap, rfl⟩
  have hwin := b.represents.window_currentAt (r := r) ⟨front, rest, hlap, rfl⟩
  have hend : c.atEnd = false := by
    by_contra hne
    rw [next_of_atEnd (by simpa using hne)] at hnext
    cases hnext
  have hread := readAt_eq b.represents.sound c.position.offset
  rw [hat.offset_eq] at hread
  rcases hdec : decodeAt b.buf.area (extent Record.diskImage front) with e | _ | ⟨y, n⟩
  · rw [hdec] at hread
    rw [next_of_error hend hread] at hnext
    cases hnext
  · refine absurd hdec (decodeAt_ne_none ?_ hwin)
    rw [b.represents.sound.length_area]
    exact hfit
  · rw [hdec] at hread
    rw [next_of_record hend hread] at hnext
    obtain ⟨hy, rfl⟩ := Prod.mk.inj (Option.some.inj hnext)
    obtain rfl : y = x := by simpa using hy
    have hn : n = r.footprint := by
      have hdata : y.data = r.data := congrArg Prod.fst hx
      rw [(decodeAt_some hdec).1, hdata, Record.footprint]
    exact ⟨by rw [hn]; exact toNat_offset_add hlap hat.offset_eq, hat.wrapCount_eq⟩

/-- **After some records of the lap the cursor stands behind them.** -/
theorem Reads.at {b : Live} {found : List Record} (hreads : Reads b.buf c found c') :
    ∀ {front taken rest : List Record}, c.At b front → b.log.lap = front ++ taken ++ rest →
      found.map Record.content = taken.map Record.content → c'.At b (front ++ taken) := by
  induction hreads with
  | nil c =>
    intro front taken rest hat _ hfound
    obtain rfl : taken = [] := by simpa using hfound.symm
    rwa [List.append_nil]
  | cons hnext _ ih =>
    intro front taken rest hat hlap hfound
    cases taken with
    | nil => simp at hfound
    | cons t taken =>
      simp only [List.map_cons, List.cons.injEq] at hfound
      have hfirst : b.log.lap = front ++ t :: (taken ++ rest) := by simpa using hlap
      have hrest : b.log.lap = front ++ [t] ++ taken ++ rest := by simpa using hlap
      have key := ih (hat.next hfirst hnext hfound.1) hrest hfound.2
      simpa using key

end Cursor

namespace Live

/-! ## Polling -/

/-- The writes are accepted, one after the other, and after each of them the cursor is
polled until `Ok(None)`; `found` is all that it returned. -/
inductive Polled : Live → Cursor → List (Record × Sys) → List Record → Prop
  | nil (b : Live) (c : Cursor) : Polled b c [] []
  | cons {b : Live} {c c' : Cursor} {r : Record} {sys : Sys} {rs : List (Record × Sys)}
      {found later : List Record} : r.footprint ≤ b.buf.size →
      Cursor.Drains (b.step (.write r sys)).buf c found c' →
        Polled (b.step (.write r sys)) c' rs later → Polled b c ((r, sys) :: rs) (found ++ later)

/-- Polling a cursor at the end returns nothing. -/
theorem Polled.eq_nil {b : Live} {c : Cursor} {rs : List (Record × Sys)} {found : List Record}
    (h : Polled b c rs found) (hend : c.atEnd = true) : found = [] := by
  induction h with
  | nil => rfl
  | cons _ hdrains _ ih =>
    obtain ⟨rfl, rfl⟩ := Cursor.drains_nil_of_atEnd hend hdrains
    rw [ih hend, List.nil_append]

/-- And it does come back each time, with nothing. -/
theorem polled_of_atEnd {rs : List (Record × Sys)} : ∀ {b : Live} {c : Cursor},
    c.atEnd = true → (∀ r ∈ rs, r.1.footprint ≤ b.buf.size) → Polled b c rs [] := by
  induction rs with
  | nil => exact fun _ _ => .nil _ _
  | cons r rs ih =>
    intro b c hend hrs
    refine .cons (hrs r (List.mem_cons_self ..)) (Cursor.drains_of_atEnd hend) (ih hend ?_)
    intro s hs
    rw [size_step]
    exact hrs s (List.mem_cons_of_mem _ hs)

theorem atEnd_new_fresh (size : Nat) (h : ControlBlock.SIZE + size < 2 ^ 63) (sys : Sys) :
    (Cursor.new (fresh size h sys).buf none).atEnd = true := rfl

/-- **A cursor made on a fresh buffer and kept misses everything**: polled after each of
any accepted writes it returns their records exactly when there are none. -/
theorem polled_iff (size : Nat) (h : ControlBlock.SIZE + size < 2 ^ 63) (sys : Sys)
    (rs : List (Record × Sys)) :
    (∃ found, Polled (fresh size h sys) (Cursor.new (fresh size h sys).buf none) rs found ∧
        found.map Record.content = rs.map fun r => r.1.content) ↔
      rs = [] := by
  constructor
  · rintro ⟨found, hpolled, hfound⟩
    rw [hpolled.eq_nil (atEnd_new_fresh size h sys), List.map_nil, eq_comm,
      List.map_eq_nil_iff] at hfound
    exact hfound
  · rintro rfl
    exact ⟨[], .nil _ _, rfl⟩

/-! ## Committing -/

theorem at_new (b : Live) {front : List Record}
    (hpos : b.readPos = extent Record.diskImage front) : (Cursor.new b.buf none).At b front :=
  ⟨hpos, rfl⟩

/-- A cursor that stands in the current lap, beyond the read position, passes the test of
`commit`, and what is stored is the write position. -/
theorem commit_eq (b : Live) {c : Cursor} {front rest : List Record} (hat : c.At b front)
    (hlap : b.log.lap = front ++ rest) (hpos : b.readPos < extent Record.diskImage front)
    (sys : Sys) :
    c.commit b.buf sys =
      b.buf.storeControl { b.buf.control with readPos := b.buf.control.writePos } sys := by
  have hle : extent Record.diskImage front ≤ b.writePos := by
    rw [b.writePos_eq_extent, hlap, extent_append]
    omega
  have hcommits : c.commits b.buf = true := by
    rw [Cursor.commits, hat.wrapCount_eq, beq_self_eq_true, Bool.true_and, Bool.and_eq_true,
      decide_eq_true_iff, decide_eq_true_iff, UInt64.lt_iff_toNat_lt, UInt64.le_iff_toNat_le,
      hat.offset_eq]
    exact ⟨hpos, hle⟩
  rw [Cursor.commit, if_pos hcommits, resetReadPosition]

/-- **What `commit` does** for such a cursor, whether or not the flush succeeds. -/
theorem commit_stores (b : Live) {c : Cursor} {front rest : List Record} (hat : c.At b front)
    (hlap : b.log.lap = front ++ rest) (hpos : b.readPos < extent Record.diskImage front)
    (sys : Sys) :
    ∃ b', c.commit b.buf sys = some (flushed sys, b') ∧ b'.size = b.buf.size ∧
      b'.control = { b.buf.control with readPos := b.buf.control.writePos }.updateCrc ∧
        b'.area = b.buf.area := by
  obtain ⟨b', hstore, hsize, hcontrol, harea, -⟩ :=
    b.represents.storeControl_represents b.buf.control.writePos sys
  refine ⟨b', ?_, hsize, hcontrol, harea⟩
  rw [b.commit_eq hat hlap hpos sys, hstore]

/-- What `commit` promises: the read position becomes that of the cursor, whoever starts
from it gets the rest of the lap, and nothing else changes. -/
def CommitKeeps (b : Live) (c : Cursor) (rest : List Record) (sys : Sys) : Prop :=
  ∃ res b', c.commit b.buf sys = some (res, b') ∧
    b'.control.readPos = c.position.offset ∧
    (∃ found last, Cursor.Drains b' (Cursor.new b' none) found last ∧
      found.map Record.content = rest.map Record.content) ∧
    (∀ rsys, rsys.flush = true → ∃ found b'', b'.readAll rsys = some (.ok found, b'') ∧
      found.map Record.content = rest.map Record.content) ∧
    b'.control = { b.buf.control with
      readPos := b'.control.readPos, crc32 := b'.control.crc32 } ∧
    b'.area = b.buf.area ∧ b'.size = b.buf.size

/-- **`commit` keeps the unread records exactly when there are none left**: for every
reachable buffer, and every cursor made at a read position that lies in the current lap,
that has returned one or more of the unread records. -/
theorem commit_keeps_iff (size : Nat) (h : ControlBlock.SIZE + size < 2 ^ 63) (sys : Sys)
    (ops : List Op) (front taken rest : List Record) (found : List Record) (c : Cursor)
    (csys : Sys) :
    let b := (fresh size h sys).after ops
    b.log.lap = front ++ taken ++ rest → b.readPos = (front.map Record.footprint).sum →
      taken ≠ [] → Cursor.Reads b.buf (Cursor.new b.buf none) found c →
        found.map Record.content = taken.map Record.content →
          (b.CommitKeeps c rest csys ↔ rest = []) := by
  intro b hlap hpos htaken hreads hfound
  rw [← extent_diskImage] at hpos
  have hat := hreads.at (b.at_new hpos) hlap hfound
  have hgrow : b.readPos < extent Record.diskImage (front ++ taken) := by
    rw [hpos]
    exact extent_lt_of_ne_nil htaken
  obtain ⟨b', hcommit, hsize, hcontrol, harea⟩ := b.commit_stores hat hlap hgrow csys
  have hread : b'.control.readPos = b.buf.control.writePos := by
    rw [hcontrol]
    rfl
  have hwrite : b'.control.writePos = b.buf.control.writePos := by
    rw [hcontrol]
    rfl
  constructor
  · rintro ⟨res, b'', hcommit', hoffset, -⟩
    rw [hcommit] at hcommit'
    obtain ⟨-, rfl⟩ := Prod.mk.inj (Option.some.inj hcommit')
    by_contra hrest
    have hlt := @extent_lt_of_ne_nil _ (front ++ taken) rest hrest
    rw [← hlap, ← b.writePos_eq_extent, ← hat.offset_eq, ← hoffset, hread, writePos] at hlt
    omega
  · rintro rfl
    have hend : c.position.offset = b.buf.control.writePos := by
      rw [← UInt64.toNat_inj, hat.offset_eq, b.represents.writePos_eq, hlap, List.append_nil]
    have hnew : (Cursor.new b' none).atEnd = true := by
      simp [Cursor.new, hread, hwrite]
    refine ⟨_, b', hcommit, by rw [hread, hend], ⟨[], _, Cursor.drains_of_atEnd hnew, rfl⟩,
      fun rsys _ => ⟨[], b', ?_, rfl⟩, ?_, harea, hsize⟩
    · rw [readAll, if_pos (by rw [hread, hwrite])]
    · rw [hcontrol]
      rfl

end Live

end

section Ieee

attribute [local instance] Hasher.ieee

namespace Live

/-- One record written and polled for: nothing comes back. -/
theorem polled_misses_first :
    let record := Record.new (List.replicate 16 7) 1 0
    let b := fresh 64 (by decide) Sys.ok
    Polled b (Cursor.new b.buf none) [(record, Sys.ok)] [] ∧
      ¬ ∃ found, Polled b (Cursor.new b.buf none) [(record, Sys.ok)] found ∧
        found.map Record.content = [record.content] := by
  intro record b
  have hend : (Cursor.new b.buf none).atEnd = true := atEnd_new_fresh ..
  refine ⟨polled_of_atEnd hend (by decide), ?_⟩
  rintro ⟨found, hpolled, hfound⟩
  rw [hpolled.eq_nil hend] at hfound
  cases hfound

/-- Without a write there is nothing to miss. -/
theorem polled_iff_nil :
    ∃ found, Polled (fresh 64 (by decide) Sys.ok)
        (Cursor.new (fresh 64 (by decide) Sys.ok).buf none) [] found ∧
      found.map Record.content = [] :=
  (polled_iff 64 (by decide) Sys.ok []).mpr rfl

/-- Of two records one is read and committed: the read position goes behind both. -/
theorem commit_skips_second :
    let record := fun tag => Record.new (List.replicate 16 tag.toUInt8) tag 0
    let b := (fresh 200 (by decide) Sys.ok).after
      [.write (record 1) Sys.ok, .write (record 2) Sys.ok]
    ∃ c, Cursor.Reads b.buf (Cursor.new b.buf none) [(record 1).stored] c ∧
      ¬ b.CommitKeeps c [record 2] Sys.ok := by
  intro record b
  have hnext : (Cursor.new b.buf none).next b.buf =
      some (.ok (some (record 1).stored), ⟨⟨40, 0⟩, false⟩) := by decide +kernel
  refine ⟨_, .cons hnext (.nil _), ?_⟩
  rintro ⟨res, b', hcommit, hoffset, -⟩
  have hread : ((Cursor.mk ⟨40, 0⟩ false).commit b.buf Sys.ok).map
      (fun res => res.2.control.readPos) = some 80 := by decide +kernel
  rw [hcommit, Option.map_some, hoffset] at hread
  exact absurd hread (by decide)

/-- When the only record has been read the commit keeps its promise. -/
theorem commit_keeps_of_one :
    let record := Record.new (List.replicate 16 7) 1 0
    let b := (fresh 200 (by decide) Sys.ok).after [.write record Sys.ok]
    ∃ c, Cursor.Reads b.buf (Cursor.new b.buf none) [record.stored] c ∧
      b.CommitKeeps c [] Sys.ok := by
  intro record b
  have hnext : (Cursor.new b.buf none).next b.buf =
      some (.ok (some record.stored), ⟨⟨40, 0⟩, true⟩) := by decide +kernel
  have hreads := Cursor.Reads.cons hnext (.nil _)
  have hlap : b.log.lap = [] ++ [record] ++ [] := by decide +kernel
  exact ⟨_, hreads, (commit_keeps_iff 200 (by decide) Sys.ok [.write record Sys.ok] []
    [record] [] [record.stored] _ Sys.ok hlap (by decide +kernel) (by simp) hreads rfl).mpr rfl⟩

end Live

end Ieee

end Sherlog
