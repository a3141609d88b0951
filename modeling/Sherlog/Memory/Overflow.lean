import Sherlog.Lib.Machine
import Sherlog.Memory.Reservations

/-!
# The overflow queue

Records that find no slot wait in a queue of at most `max_overflow` records.  `write`
appends to it, at the cost of the oldest record when it is full; `read` moves records from
its front into slots.

* `VolatileRingBuffer.write_queue`, `VolatileRingBuffer.read_queue` — what one call does to
  the queue: the first refuses the record exactly when it appends it, the second takes
  as many records from the front as it takes slots.
* `Backlog` — a buffer with the records refused so far and the number of records that the
  reads have moved.
* `Backlog.Newest`, `Backlog.Newest.step` — the invariant, and that every call keeps it.
* `Backlog.keeps_newest` — the queue is a suffix of the records refused, never too long, and
  the longest one allowed as long as no read has moved a record.
-/

namespace Sherlog

namespace VolatileRingBuffer

variable {b b' : VolatileRingBuffer}

/-! ## One call -/

/-- **What a write does to the queue.**  A record that finds a slot leaves it alone; one that
does not is appended, and when the queue is full the front one is evicted. -/
theorem write_queue {record : Record} {ok : Bool} (hmax : 0 < b.maxOverflow)
    (hlen : b.overflowQueue.length ≤ b.maxOverflow) (h : b.write record = some (ok, b')) :
    b'.maxOverflow = b.maxOverflow ∧
      ((ok = true ∧ b'.overflowQueue = b.overflowQueue) ∨
        (ok = false ∧ b.overflowQueue.length < b.maxOverflow ∧
          b'.overflowQueue = b.overflowQueue ++ [record]) ∨
        (ok = false ∧ b.overflowQueue.length = b.maxOverflow ∧
          b'.overflowQueue = b.overflowQueue.drop 1 ++ [record])) := by
  obtain ⟨⟨res, b₁⟩, hreserve, hrest⟩ := Option.bind_eq_some_iff.mp h
  rcases reserve_cases hreserve with ⟨rfl, rfl⟩ | ⟨slot, -, -, rfl, rfl⟩
  · obtain ⟨rfl, rfl⟩ := Prod.mk.inj (Option.some.inj hrest)
    by_cases hroom : b₁.overflowQueue.length < b₁.maxOverflow
    · rw [enqueue, if_pos hroom]
      exact ⟨rfl, Or.inr (Or.inl ⟨rfl, hroom, rfl⟩)⟩
    · have hfull : b₁.overflowQueue.length = b₁.maxOverflow := by omega
      obtain ⟨oldest, queue, hqueue⟩ : ∃ oldest queue, b₁.overflowQueue = oldest :: queue :=
        List.exists_cons_of_length_pos (by omega)
      have henqueue : b₁.enqueue record = { b₁ with overflowQueue := queue ++ [record] } := by
        rw [enqueue, if_neg hroom, hqueue]
      rw [henqueue]
      exact ⟨rfl, Or.inr (Or.inr ⟨rfl, hfull, by rw [hqueue, List.drop_one, List.tail_cons]⟩)⟩
  · obtain ⟨b₂, hfill, hres⟩ := Option.map_eq_some_iff.mp hrest
    obtain ⟨rfl, rfl⟩ := Prod.mk.inj hres
    obtain ⟨signal, rfl⟩ := fill_eq hfill
    exact ⟨rfl, Or.inl ⟨rfl, rfl⟩⟩

/-- The drain takes records from the front of the queue, and a slot for each. -/
theorem drain_queue {queue : List Record} :
    ∀ {b : VolatileRingBuffer}, b.drain queue = some b' →
      b'.maxOverflow = b.maxOverflow ∧ ∃ n ≤ queue.length, b'.overflowQueue = queue.drop n ∧
        b'.prodSeq.value = b.prodSeq.value + UInt64.ofNat n := by
  induction queue with
  | nil =>
    intro b h
    obtain rfl := Option.some.inj h
    exact ⟨rfl, 0, le_rfl, rfl, (UInt64.add_zero _).symm⟩
  | cons record queue ih =>
    intro b h
    obtain ⟨⟨res, b₁⟩, hreserve, hrest⟩ := Option.bind_eq_some_iff.mp h
    rcases reserve_cases hreserve with ⟨rfl, rfl⟩ | ⟨slot, -, -, rfl, rfl⟩
    · obtain rfl := Option.some.inj hrest
      exact ⟨rfl, 0, Nat.zero_le _, rfl, (UInt64.add_zero _).symm⟩
    · obtain ⟨b₂, hfill, hmore⟩ := Option.bind_eq_some_iff.mp hrest
      obtain ⟨signal, rfl⟩ := fill_eq hfill
      obtain ⟨hmax, n, hn, hqueue, hseq⟩ := ih hmore
      refine ⟨hmax, n + 1, Nat.succ_le_succ hn, hqueue, ?_⟩
      rw [hseq]
      show b.prodSeq.value + 1 + UInt64.ofNat n = b.prodSeq.value + UInt64.ofNat (n + 1)
      rw [Nat.add_comm, UInt64.ofNat_add, UInt64.add_assoc]
      rfl

variable [Hasher]

/-- The walk over the ready slots leaves the queue and the production sequence alone. -/
theorem readLoop_queue {left : Nat} :
    ∀ {b : VolatileRingBuffer} {consSeq : UInt64} {records : List Record} {processed : Nat}
      {consSeq' : UInt64} {records' : List Record} {processed' : Nat},
      readLoop left b consSeq records processed = some (b', consSeq', records', processed') →
        b'.overflowQueue = b.overflowQueue ∧ b'.maxOverflow = b.maxOverflow ∧
          b'.prodSeq = b.prodSeq := by
  induction left with
  | zero =>
    intro b consSeq records processed consSeq' records' processed' h
    obtain rfl := (Prod.mk.inj (Option.some.inj h)).1
    exact ⟨rfl, rfl, rfl⟩
  | succ left ih =>
    intro b consSeq records processed consSeq' records' processed' h
    obtain ⟨slot, -, hrest⟩ := Option.bind_eq_some_iff.mp h
    split at hrest
    · obtain ⟨record, -, hmore⟩ := Option.bind_eq_some_iff.mp hrest
      have hafter := ih hmore
      exact hafter
    · obtain rfl := (Prod.mk.inj (Option.some.inj hrest)).1
      exact ⟨rfl, rfl, rfl⟩

/-- **What a read does to the queue**: it takes records from its front, and the next slot for
each of them. -/
theorem read_queue {records : List Record} (h : b.read = some (records, b')) :
    b'.maxOverflow = b.maxOverflow ∧ ∃ n ≤ b.overflowQueue.length,
      b'.overflowQueue = b.overflowQueue.drop n ∧
        b'.prodSeq.value = b.prodSeq.value + UInt64.ofNat n := by
  obtain ⟨⟨b₁, consSeq, records', processed⟩, hloop, hrest⟩ := Option.bind_eq_some_iff.mp h
  obtain ⟨hqueue, hmax, hseq⟩ := readLoop_queue hloop
  simp only at hrest
  split at hrest
  · obtain ⟨b₂, hdrain, hres⟩ := Option.map_eq_some_iff.mp hrest
    obtain ⟨-, rfl⟩ := Prod.mk.inj hres
    obtain ⟨hmax', n, hn, hqueue', hseq'⟩ := drain_queue hdrain
    rw [← hqueue, ← hmax, ← hseq]
    exact ⟨hmax', n, hn, hqueue', hseq'⟩
  · obtain ⟨-, rfl⟩ := Prod.mk.inj (Option.some.inj hrest)
    exact ⟨hmax, 0, Nat.zero_le _, hqueue, by rw [hseq]; exact (UInt64.add_zero _).symm⟩

end VolatileRingBuffer

/-! ## Runs -/

/-- A call on a buffer by its writers or its reader. -/
inductive QueueCall where
  | write (record : Record)
  | read
deriving DecidableEq, Repr

/-- A buffer, the records for which `write` returned false, and how many records the reads
have moved out of the queue. -/
structure Backlog where
  buf : VolatileRingBuffer
  refused : List Record
  moved : Nat

namespace Backlog

open VolatileRingBuffer

/-- A buffer at which nothing has been refused. -/
def start (b : VolatileRingBuffer) : Backlog := ⟨b, [], 0⟩

/-- The records waiting, oldest first. -/
def queue (s : Backlog) : List Record := s.buf.overflowQueue

variable [Hasher]

/-- One call. -/
def step (s : Backlog) : QueueCall → Option (Unit × Backlog)
  | .write record =>
    (s.buf.write record).map fun res =>
      ((), { s with buf := res.2,
                    refused := if res.1 then s.refused else s.refused ++ [record] })
  | .read =>
    s.buf.read.map fun res =>
      ((), { s with buf := res.2,
                    moved := s.moved + (s.queue.length - res.2.overflowQueue.length) })

/-- How records enter and leave the queue in one call. -/
def Moves (s s' : Backlog) : QueueCall → Prop
  | .write record =>
    s'.moved = s.moved ∧
      (s'.refused = s.refused ∧ s'.queue = s.queue ∨
        s'.refused = s.refused ++ [record] ∧
          (s.queue.length < s.buf.maxOverflow ∧ s'.queue = s.queue ++ [record] ∨
            s.queue.length = s.buf.maxOverflow ∧ s'.queue = s.queue.drop 1 ++ [record]))
  | .read =>
    s'.refused = s.refused ∧ ∃ n ≤ s.queue.length, s'.queue = s.queue.drop n ∧
      s'.buf.prodSeq.value = s.buf.prodSeq.value + UInt64.ofNat n ∧ s'.moved = s.moved + n

/-- The queue holds the newest of the records refused. -/
structure Newest (maxOverflow : Nat) (s : Backlog) : Prop where
  maxOverflow_eq : s.buf.maxOverflow = maxOverflow
  length_le : s.queue.length ≤ maxOverflow
  suffix : s.queue <:+ s.refused
  unmoved : s.moved = 0 → s.queue = s.refused.drop (s.refused.length - maxOverflow)

variable {s s' : Backlog} {maxOverflow : Nat}

omit [Hasher] in
theorem newest_start {b : VolatileRingBuffer} (h : b.overflowQueue = []) :
    Newest b.maxOverflow (start b) where
  maxOverflow_eq := rfl
  length_le := by rw [queue, start, h]; exact Nat.zero_le _
  suffix := by rw [queue, start, h]
  unmoved := fun _ => by rw [queue, start, h]; exact List.drop_nil.symm

/-- **What one call does**, as long as the queue is not too long. -/
theorem Newest.moves (hs : Newest maxOverflow s) (hmax : 0 < maxOverflow) {call : QueueCall}
    {u : Unit} (h : s.step call = some (u, s')) :
    s'.buf.maxOverflow = maxOverflow ∧ s.Moves s' call := by
  obtain ⟨hsame, hlen, -, -⟩ := hs
  cases call with
  | write record =>
    obtain ⟨⟨ok, b'⟩, hwrite, hres⟩ := Option.map_eq_some_iff.mp h
    obtain ⟨-, rfl⟩ := Prod.mk.inj hres
    obtain ⟨hmax', hcases⟩ := write_queue (hsame ▸ hmax) (hsame ▸ hlen) hwrite
    refine ⟨hmax'.trans hsame, rfl, ?_⟩
    rcases hcases with ⟨rfl, hqueue⟩ | ⟨rfl, hroom, hqueue⟩ | ⟨rfl, hfull, hqueue⟩
    · exact Or.inl ⟨rfl, hqueue⟩
    · exact Or.inr ⟨rfl, Or.inl ⟨hroom, hqueue⟩⟩
    · exact Or.inr ⟨rfl, Or.inr ⟨hfull, hqueue⟩⟩
  | read =>
    obtain ⟨⟨records, b'⟩, hread, hres⟩ := Option.map_eq_some_iff.mp h
    obtain ⟨-, rfl⟩ := Prod.mk.inj hres
    obtain ⟨hmax', n, hn, hqueue, hseq⟩ := read_queue hread
    refine ⟨hmax'.trans hsame, rfl, n, hn, hqueue, hseq, ?_⟩
    show s.moved + (s.queue.length - b'.overflowQueue.length) = s.moved + n
    rw [hqueue, List.length_drop]
    have hle : n ≤ s.queue.length := hn
    have hsub : s.buf.overflowQueue.length = s.queue.length := rfl
    omega

omit [Hasher] in
/-- A record appended, with room for it or in the place of the front one. -/
theorem Newest.append (hs : Newest maxOverflow s) (record : Record) {d : Nat}
    (hd : d ≤ s.queue.length) (hlen : s.queue.length - d + 1 ≤ maxOverflow)
    (hnewest : d + maxOverflow = s.queue.length + 1 ∨ d = 0) :
    s.queue.drop d ++ [record] <:+ s.refused ++ [record] ∧
      (s.queue.drop d ++ [record]).length ≤ maxOverflow ∧
      (s.moved = 0 → s.queue.drop d ++ [record] =
        (s.refused ++ [record]).drop ((s.refused ++ [record]).length - maxOverflow)) := by
  obtain ⟨front, hfront⟩ := (List.drop_suffix d s.queue).trans hs.suffix
  refine ⟨⟨front, by rw [← hfront, List.append_assoc]⟩, ?_, fun hmoved => ?_⟩
  · rw [List.length_append, List.length_drop, List.length_singleton]
    exact hlen
  · have hqueue := hs.unmoved hmoved
    have hlength := congrArg List.length hqueue
    rw [List.length_drop] at hlength
    have hplace : (s.refused ++ [record]).length - maxOverflow =
        s.refused.length - maxOverflow + d := by
      rw [List.length_append, List.length_singleton]
      omega
    rw [hplace, List.drop_append_of_le_length (by omega), ← List.drop_drop, ← hqueue]

/-- **Every call keeps the newest.** -/
theorem Newest.step (hs : Newest maxOverflow s) (hmax : 0 < maxOverflow) {call : QueueCall}
    {u : Unit} (h : s.step call = some (u, s')) : Newest maxOverflow s' := by
  obtain ⟨hsame, hmoves⟩ := hs.moves hmax h
  cases call with
  | write record =>
    obtain ⟨hmoved, ⟨hrefused, hqueue⟩ | ⟨hrefused, ⟨hroom, hqueue⟩ | ⟨hfull, hqueue⟩⟩⟩ := hmoves
    · exact ⟨hsame, by rw [hqueue]; exact hs.length_le, by rw [hqueue, hrefused]; exact hs.suffix,
        by rw [hqueue, hrefused, hmoved]; exact hs.unmoved⟩
    · rw [hs.maxOverflow_eq] at hroom
      obtain ⟨hsuffix, hlen, hnewest⟩ :=
        hs.append record (Nat.zero_le _) (by omega) (Or.inr rfl)
      rw [List.drop_zero, ← hqueue, ← hrefused] at *
      exact ⟨hsame, hlen, hsuffix, by rw [hmoved]; exact hnewest⟩
    · rw [hs.maxOverflow_eq] at hfull
      obtain ⟨hsuffix, hlen, hnewest⟩ :=
        hs.append record (d := 1) (by omega) (by omega) (Or.inl (by omega))
      rw [← hqueue, ← hrefused] at *
      exact ⟨hsame, hlen, hsuffix, by rw [hmoved]; exact hnewest⟩
  | read =>
    obtain ⟨hrefused, n, hn, hqueue, -, hmoved⟩ := hmoves
    refine ⟨hsame, ?_, ?_, fun hzero => ?_⟩
    · rw [hqueue, List.length_drop]
      have := hs.length_le
      omega
    · rw [hqueue, hrefused]
      exact (List.drop_suffix n s.queue).trans hs.suffix
    · obtain rfl : n = 0 := by omega
      rw [hqueue, List.drop_zero, hrefused]
      exact hs.unmoved (by omega)

/-- **The overflow queue keeps the newest records in order.**  For every buffer with an empty
queue that may hold a record, and every run of writes and reads on it: the queue is a suffix
of the records for which `write` returned false, in the order written; it is not too long;
and a record leaves it at the front only, into a slot that a read takes for it or evicted by
a write that found the queue full.  As long as no read has moved a record, the queue is the
last of those records, as many as it may hold. -/
theorem keeps_newest {b : VolatileRingBuffer} (hqueue : b.overflowQueue = [])
    (hmax : 1 ≤ b.maxOverflow) {calls : List QueueCall} {answers : List Unit} {s : Backlog}
    (hrun : Machine.run step (start b) calls = some (answers, s)) :
    s.queue <:+ s.refused ∧ s.queue.length ≤ b.maxOverflow ∧
      (s.moved = 0 → s.queue =
        s.refused.drop (s.refused.length - min s.refused.length b.maxOverflow)) ∧
      ∀ call u s', s.step call = some (u, s') → s.Moves s' call := by
  have hnewest : Newest b.maxOverflow s :=
    Machine.run_preserves (fun s call u s' hs h => hs.step hmax h) (newest_start hqueue) hrun
  refine ⟨hnewest.suffix, hnewest.length_le, fun hmoved => ?_, fun call u s' h =>
    (hnewest.moves hmax h).2⟩
  rw [hnewest.unmoved hmoved]
  congr 1
  omega

end Backlog

section Ieee

attribute [local instance] Hasher.ieee

namespace Backlog

/-- One slot and room for two records: of five the first takes the slot, and of the four
refused the last two are waiting. -/
theorem keeps_newest_of_five :
    ∃ answers s, Machine.run step (start (VolatileRingBuffer.blank 1 256 2 100 false))
        ((List.range 5).map fun i => .write (Record.new [] (UInt32.ofNat i) 0)) =
          some (answers, s) ∧
      s.refused.length = 4 ∧ s.queue = s.refused.drop 2 := by
  obtain ⟨⟨answers, s⟩, hrun⟩ := Option.isSome_iff_exists.mp
    (show (Machine.run step (start (VolatileRingBuffer.blank 1 256 2 100 false))
      ((List.range 5).map fun i => .write (Record.new [] (UInt32.ofNat i) 0))).isSome = true by
        decide +kernel)
  have hcounts : (Machine.run step (start (VolatileRingBuffer.blank 1 256 2 100 false))
      ((List.range 5).map fun i => .write (Record.new [] (UInt32.ofNat i) 0))).map
        (fun p => (p.2.refused.length, p.2.moved)) = some (4, 0) := by
    decide +kernel
  rw [hrun] at hcounts
  obtain ⟨hrefused, hmoved⟩ := Prod.mk.inj (Option.some.inj hcounts)
  have hnewest := (keeps_newest rfl (by decide) hrun).2.2.1 hmoved
  refine ⟨answers, s, hrun, hrefused, ?_⟩
  rw [hnewest, hrefused]
  rfl

end Backlog

end Ieee

end Sherlog
