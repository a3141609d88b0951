import Sherlog.Disk.Run

/-!
# Reopening a buffer

`PersistentRingBuffer::new` on the bytes of an existing file takes the control block
from its first 48 bytes and checks its magic number and its checksum.

* `Live.new_mmap` — on the file of a reachable buffer the only thing that decides is
  the checksum: if it verifies, the buffer that comes back is the one that was there,
  bytes, control block and size; if not, the file is refused.
* `Live.lastUnsealed` — the control block that `update_crc` last saw in a run.
* `Live.reopen_iff` — since the checksum is taken over its own field, the buffer
  reopens exactly when that block already carried its checksum.
-/

namespace Sherlog

open LittleEndian Window

namespace Live

section

variable [Hasher]

/-- The control block last handed to `update_crc`, which before the run was `u`. -/
def lastUnsealed (b : Live) (u : ControlBlock) : List Op → ControlBlock
  | [] => u
  | op :: ops => (b.step op).lastUnsealed ((b.buf.unsealed op).getD u) ops

/-- The control block in memory is always one that has just been sealed. -/
theorem control_after (b : Live) {u : ControlBlock} (h : b.buf.control = u.updateCrc)
    (ops : List Op) : (b.after ops).buf.control = (b.lastUnsealed u ops).updateCrc := by
  induction ops generalizing b u with
  | nil => exact h
  | cons op ops ih =>
    refine ih (b.step op) ?_
    rw [control_step]
    cases hu : b.buf.unsealed op with
    | none => exact h
    | some v => rfl

/-- The first bytes of the file are the control block in memory. -/
theorem ofBytes_slice_mmap (b : Live) :
    (slice b.buf.mmap 0 ControlBlock.SIZE).map ControlBlock.ofBytes = some b.buf.control := by
  obtain ⟨pad, hmmap⟩ := b.represents.mmap_eq_area
  have hlen : 0 + ControlBlock.SIZE ≤ b.buf.mmap.length := by
    rw [b.represents.sound.length_mmap]
    omega
  have hfront := window_front (b.buf.control.toBytes pad) b.buf.area
  rw [ControlBlock.length_toBytes] at hfront
  have hblock := b.buf.control.ofBytes_toBytes pad []
  rw [List.append_nil] at hblock
  have hslice := slice_eq_some hlen
  rw [Nat.zero_add] at hslice
  rw [hslice, hmmap, hfront, Option.map_some, hblock]

/-- **Opening the file of a reachable buffer**: the checksum of its control block is
all that decides. -/
theorem new_mmap (b : Live) (size : Nat) (sys : Sys) :
    PersistentRingBuffer.new b.buf.mmap size sys =
      some (if b.buf.control.verifyCrc then .ok b.buf else .error .invalidBuffer) := by
  obtain ⟨bytes, hbytes, hcontrol⟩ := Option.map_eq_some_iff.mp b.ofBytes_slice_mmap
  have hne : b.buf.mmap ≠ [] := by
    intro hnil
    have := b.represents.sound.length_mmap
    rw [hnil, List.length_nil, ControlBlock.SIZE] at this
    omega
  have hsize : b.buf.control.bufferSize.toNat = b.buf.size := by
    have := b.represents.size_lt
    rw [b.represents.bufferSize_eq, UInt64.toNat_ofNat', Nat.mod_eq_of_lt (by omega)]
  rw [PersistentRingBuffer.new, if_neg hne, hbytes, Option.map_some]
  simp only [hcontrol, hsize, b.represents.magic_eq, ne_eq, not_true_eq_false, false_or]
  cases b.buf.control.verifyCrc <;> rfl

/-- **A buffer reopens exactly when the control block last sealed carried its own
checksum before it was sealed**: for every size, every run and whatever size the
caller passes when reopening. -/
theorem reopen_iff [Hasher.Ieee] (size : Nat) (h : ControlBlock.SIZE + size < 2 ^ 63) (sys : Sys)
    (ops : List Op) (size' : Nat) (sys' : Sys) :
    PersistentRingBuffer.new ((fresh size h sys).after ops).buf.mmap size' sys' =
        some (.ok ((fresh size h sys).after ops).buf) ↔
      ((fresh size h sys).lastUnsealed (ControlBlock.blank (UInt64.ofNat size)) ops).verifyCrc =
        true := by
  have hsealed := (fresh size h sys).control_after
    (u := ControlBlock.blank (UInt64.ofNat size)) rfl ops
  rw [new_mmap, hsealed, ControlBlock.verifyCrc_updateCrc]
  cases ((fresh size h sys).lastUnsealed (ControlBlock.blank (UInt64.ofNat size)) ops).verifyCrc
  · simp
  · simp

end

section Ieee

attribute [local instance] Hasher.ieee

/-- With the IEEE CRC-32 the file of an untouched buffer of 1024 bytes is refused. -/
theorem new_mmap_fresh_1024 :
    PersistentRingBuffer.new (fresh 1024 (by decide) Sys.ok).buf.mmap 1024 Sys.ok =
      some (.error .invalidBuffer) := by
  have : Hasher.Ieee := ⟨fun _ => rfl⟩
  have hverify : (ControlBlock.blank 1024).verifyCrc = false := by decide +kernel
  have hsealed : (fresh 1024 (by decide) Sys.ok).buf.control.verifyCrc = false := by
    rw [← hverify]
    exact ControlBlock.verifyCrc_updateCrc _
  rw [new_mmap, hsealed]
  rfl

/-- A size for which the buffer happens to reopen after a write of five bytes: the control block
of the write carries its own checksum already, namely that of the untouched buffer. -/
theorem reopen_iff_of_write :
    let b := (fresh 146467261 (by decide) Sys.ok).after
      [.write (Record.new [1, 2, 3, 4, 5] 7 0) Sys.ok]
    PersistentRingBuffer.new b.buf.mmap 0 Sys.ok = some (.ok b.buf) := by
  have : Hasher.Ieee := ⟨fun _ => rfl⟩
  have hverify : ((fresh 146467261 (by decide) Sys.ok).lastUnsealed
      (ControlBlock.blank (UInt64.ofNat 146467261))
      [.write (Record.new [1, 2, 3, 4, 5] 7 0) Sys.ok]).verifyCrc = true := by
    decide +kernel
  exact (reopen_iff 146467261 (by decide) Sys.ok [.write (Record.new [1, 2, 3, 4, 5] 7 0) Sys.ok] 0
    Sys.ok).mpr hverify

end Ieee

end Live

end Sherlog
