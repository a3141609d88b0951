import Sherlog.Disk.Persistent

/-!
# The one checksum that opens a file

The checksum of the control block is taken over the checksum field as well, so that a block
verifies only if the field holds a value that is its own checksum.

* `word_leBytes` — the word of the bytes of a number is the number.
* `ieeeCrc32_existsUnique` — whatever comes before it, one word of four bytes is the checksum of
  all up to its end, and only one.
* `PersistentRingBuffer.opens_under_one_seal` — so a file opens under exactly one of the 2 ^ 32
  values of its checksum field.
-/

namespace Sherlog

open LittleEndian Window

/-- The word of the bytes of a number. -/
theorem word_leBytes {w : Nat} : ∀ {k n : Nat}, n < 256 ^ k →
    (Crc.word (leBytes k n) : BitVec w) = BitVec.ofNat w n := by
  intro k
  induction k with
  | zero =>
    intro n hn
    obtain rfl : n = 0 := by simpa using hn
    rfl
  | succ k ih =>
    intro n hn
    have hrest : n / 256 < 256 ^ k := by
      rw [Nat.div_lt_iff_lt_mul (by decide), ← pow_succ]
      exact hn
    rw [leBytes, Crc.word, ih hrest]
    apply BitVec.eq_of_getLsbD_eq
    intro i hi
    have hbyte : (UInt8.ofNat n).toBitVec = BitVec.ofNat 8 n := rfl
    have hshift : (n / 256).testBit (i - 8) = n.testBit (8 + (i - 8)) := by
      rw [show 256 = 2 ^ 8 from rfl, Nat.testBit_div_two_pow, Nat.add_comm]
    rw [BitVec.getLsbD_xor, BitVec.getLsbD_setWidth, BitVec.getLsbD_shiftLeft, hbyte,
      BitVec.getLsbD_ofNat, BitVec.getLsbD_ofNat, BitVec.getLsbD_ofNat, hshift]
    by_cases hlow : i < 8
    · simp [hi, hlow]
    · simp [hi, hlow, show i - 8 < w by omega, show 8 + (i - 8) = i by omega]

/-- **One word of four bytes is the checksum of all up to its own end.** -/
theorem ieeeCrc32_existsUnique (front : List UInt8) :
    ∃! x : UInt32, ieeeCrc32 (front ++ leBytes 4 x.toNat) = x := by
  obtain ⟨x, hx, hunique⟩ := Crc.existsUnique_checksum ieeePoly (by decide) (k := 5) rfl
    0xFFFFFFFF#32 0xFFFFFFFF#32 front (fun x => leBytes 4 x.toNat)
    (fun x => by rw [length_leBytes])
    fun x => by rw [word_leBytes (by exact x.isLt), BitVec.ofNat_toNat, BitVec.setWidth_eq]
  refine ⟨⟨x⟩, congrArg UInt32.ofBitVec hx, fun y hy => ?_⟩
  exact UInt32.toBitVec_inj.mp (hunique y.toBitVec (congrArg UInt32.toBitVec hy))

namespace PersistentRingBuffer

variable [Hasher]

/-- Opening a file that begins with a control block. -/
theorem new_toBytes (c : ControlBlock) (pad : UInt32) (area : List UInt8) (size : Nat) (sys : Sys) :
    new (c.toBytes pad ++ area) size sys =
      some (if c.magic ≠ ControlBlock.MAGIC ∨ c.verifyCrc = false then .error .invalidBuffer
        else .ok { mmap := c.toBytes pad ++ area, control := c, size := c.bufferSize.toNat }) := by
  have hfront := window_front (c.toBytes pad) area
  rw [ControlBlock.length_toBytes] at hfront
  have hslice : slice (c.toBytes pad ++ area) 0 ControlBlock.SIZE = some (c.toBytes pad) := by
    have hfits : 0 + ControlBlock.SIZE ≤ (c.toBytes pad ++ area).length := by simp
    have hslice := slice_eq_some hfits
    rwa [Nat.zero_add, hfront] at hslice
  have hne : c.toBytes pad ++ area ≠ [] := by
    intro hnil
    have hlength := congrArg List.length hnil
    rw [List.length_append, ControlBlock.length_toBytes] at hlength
    exact absurd hlength (by simp [ControlBlock.SIZE])
  have hblock := c.ofBytes_toBytes pad []
  rw [List.append_nil] at hblock
  rw [new, if_neg hne, hslice, Option.map_some, hblock]

/-- **A file opens under exactly one value of its checksum field**, whatever else its control
block says, and whatever lies behind it. -/
theorem opens_under_one_seal [Hasher.Ieee] (c : ControlBlock)
    (hmagic : c.magic = ControlBlock.MAGIC) (pad : UInt32) (area : List UInt8) (size : Nat)
    (sys : Sys) :
    ∃! crc32 : UInt32, ∃ b,
      new (({ c with crc32 } : ControlBlock).toBytes pad ++ area) size sys = some (.ok b) := by
  have hopens : ∀ crc32 : UInt32, (∃ b,
      new (({ c with crc32 } : ControlBlock).toBytes pad ++ area) size sys = some (.ok b)) ↔
        ieeeCrc32 (packFields ((c.fields 0).take 6) ++ leBytes 4 crc32.toNat) = crc32 := by
    intro crc32
    have hverify : ({ c with crc32 } : ControlBlock).verifyCrc = true ↔
        ieeeCrc32 (packFields ((c.fields 0).take 6) ++ leBytes 4 crc32.toNat) = crc32 := by
      rw [ControlBlock.verifyCrc, ControlBlock.hashedBytes_eq, Hasher.Ieee.finalize_eq, beq_iff_eq,
        eq_comm]
      rfl
    rw [← hverify, new_toBytes]
    cases ({ c with crc32 } : ControlBlock).verifyCrc <;> simp [hmagic]
  simp only [hopens]
  exact ieeeCrc32_existsUnique _

end PersistentRingBuffer

section Ieee

attribute [local instance] Hasher.ieee

/-- The control block of an empty buffer of 64 bytes. -/
theorem PersistentRingBuffer.opens_under_one_seal_blank :
    ∃! crc32 : UInt32, ∃ b,
      new (({ ControlBlock.blank 64 with crc32 } : ControlBlock).toBytes 0 ++ List.replicate 64 0)
        0 Sys.ok = some (.ok b) := by
  have : Hasher.Ieee := ⟨fun _ => rfl⟩
  exact opens_under_one_seal (ControlBlock.blank 64) rfl 0 (List.replicate 64 0) 0 Sys.ok

end Ieee

end Sherlog
