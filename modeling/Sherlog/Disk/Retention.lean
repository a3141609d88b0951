import Sherlog.Disk.ReadAll
import Sherlog.Disk.Survival

/-!
# How much a persistent buffer keeps

An upper bound on the lap ends is one way to know that a record is still there; how many bytes
have been written since is another, and the only one that a caller can see.

* `Live.kept_after` — the run lemma: a record stays while the records accepted since, one more
  of the widest, and the record itself fit the area together.
* `Live.retains` — so a buffer always holds the newest records, up to its size less the widest
  record.
-/

namespace Sherlog

open LapLog PersistentRingBuffer

namespace Live

section

variable [Hasher]

/-- The bytes that the records accepted in a run take. -/
def acceptedBytes (size : Nat) (ops : List Op) : Nat :=
  ((Op.accepted size ops).map Record.footprint).sum

/-- **A record stays while there is room for it, for the records accepted since, and for one
record more**, however often the writer wraps. -/
theorem kept_after {r : Record} {a widest : Nat} {ops : List Op} :
    ∀ (b : Live) (total : Nat), b.log.Kept Record.diskImage b.buf.size widest r a total →
      (∀ s ∈ Op.accepted b.buf.size ops, s.footprint ≤ widest) →
      r.footprint + (total + acceptedBytes b.buf.size ops) + widest ≤ b.buf.size →
      ∃ total', (b.after ops).log.Kept Record.diskImage b.buf.size widest r a total' := by
  induction ops with
  | nil => exact fun _ _ hkept _ _ => ⟨_, hkept⟩
  | cons op ops ih =>
    intro b total hkept hwidest htotal
    rw [after_cons]
    have hsize : (b.step op).buf.size = b.buf.size := size_step b op
    by_cases hop : ∃ s sys, op = .write s sys ∧ s.footprint ≤ b.buf.size
    · obtain ⟨s, sys, rfl, hs⟩ := hop
      have haccepted : Op.accepted b.buf.size (.write s sys :: ops) =
          s :: Op.accepted b.buf.size ops := List.filterMap_cons_some (if_pos hs)
      rw [acceptedBytes, haccepted, List.map_cons, List.sum_cons] at htotal
      rw [haccepted] at hwidest
      have hpush := hkept.push (r := s) (by simpa using hwidest s List.mem_cons_self)
        (by simp only [Record.length_diskImage]; omega)
      rw [Record.length_diskImage] at hpush
      have key := ih (b.step (.write s sys)) (total + s.footprint)
        (by rwa [hsize, b.log_step_write hs])
        (by rw [hsize]; exact fun x hx => hwidest x (List.mem_cons_of_mem _ hx))
        (by rw [hsize, acceptedBytes]; omega)
      rwa [hsize] at key
    · have hlog : (b.step op).log = b.log := by
        rcases b.step_cases op with ⟨hlog, -⟩ | ⟨s, sys, rfl, hs, -⟩
        · exact hlog
        · exact absurd ⟨s, sys, rfl, hs⟩ hop
      have haccepted : Op.accepted b.buf.size (op :: ops) = Op.accepted b.buf.size ops := by
        refine List.filterMap_cons_none ?_
        cases op with
        | write s sys => exact if_neg fun hs => hop ⟨s, sys, rfl, hs⟩
        | _ => rfl
      rw [acceptedBytes, haccepted] at htotal
      rw [haccepted] at hwidest
      have key := ih (b.step op) total (by rwa [hsize, hlog])
        (by rwa [hsize]) (by rw [hsize, acceptedBytes]; omega)
      rwa [hsize] at key

/-- **A buffer keeps its newest records.**  In a buffer that any run has led to, a record shorter
than 4 GiB is written, and any calls follow, which may wrap any number of times: as long as the
record, the records accepted since and one more of the widest of these fit the area together,
`read_at` finds the record where it was stored, whole. -/
theorem retains (size : Nat) (h : ControlBlock.SIZE + size < 2 ^ 63) (sys : Sys)
    (before after : List Op) (r : Record) (wsys : Sys) (widest : Nat)
    (hshort : r.data.length < 2 ^ 32)
    (hwidest : ∀ s ∈ Op.accepted size after, s.footprint ≤ widest)
    (htotal : r.footprint + acceptedBytes size after + widest ≤ size) :
    let b := (fresh size h sys).after before
    ((b.step (.write r wsys)).after after).buf.readAt (b.buf.wrapControl r).writePos =
      some (.ok (some (r.stored, r.footprint))) := by
  intro b
  have hsize : b.buf.size = size := size_after ..
  have hr : r.footprint ≤ b.buf.size := by omega
  have hstep : (b.step (.write r wsys)).buf.size = size := (size_step ..).trans hsize
  have hkept : (b.step (.write r wsys)).log.Kept Record.diskImage
      (b.step (.write r wsys)).buf.size widest r (b.buf.wrapControl r).writePos.toNat 0 := by
    rw [b.log_step_write hr, b.represents.wrapControl_writePos hr, hstep, ← hsize]
    exact Log.kept_push b.log (by rwa [Record.length_diskImage]) widest
  obtain ⟨total, -, hlast⟩ := kept_after _ 0 hkept (by rwa [hstep])
    (by rw [hstep, Nat.zero_add]; exact htotal)
  rw [← UInt64.ofNat_toNat (x := (b.buf.wrapControl r).writePos)]
  rcases hlast with ⟨hcurrent, -⟩ | ⟨hold, -⟩
  · exact (Live.represents _).readAt_currentAt hcurrent hshort
  · exact (Live.represents _).readAt_oldAt hold hshort

end

section Ieee

attribute [local instance] Hasher.ieee

/-- In an area of 100 bytes the fourth record of 30 starts a lap, and the fifth does not reach
it. -/
theorem retains_fourth_of_five :
    let record := fun tag => Record.new (List.replicate 6 tag.toUInt8) tag 0
    let b := (fresh 100 (by decide) Sys.ok).after (Op.writes [record 1, record 1, record 1])
    ((b.step (.write (record 2) Sys.ok)).after (Op.writes [record 3])).buf.readAt
        (b.buf.wrapControl (record 2)).writePos =
      some (.ok (some ((record 2).stored, 30))) := by
  intro record
  exact retains 100 (by decide) Sys.ok (Op.writes [record 1, record 1, record 1])
    (Op.writes [record 3]) (record 2) Sys.ok 30 (by decide) (by decide) (by decide)

end Ieee

end Live

end Sherlog
