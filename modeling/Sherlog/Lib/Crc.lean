import Mathlib

/-!
# Reflected cyclic redundancy checks

A reflected CRC is a shift register of `w` bits.  Each input byte is exclusive-ored
into its low end and the register is then shifted down eight times, the
polynomial being exclusive-ored in whenever a one falls out.

* `bitStep`, `bitSteps`, `absorbByte`, `absorb`, `checksum` — the register and
  the finished checksum, for any width, polynomial, initial value and final mask.
* `bitStep_xor` / `bitSteps_xor` — a step is linear over exclusive or.
* `bitStep_injective` — when the top bit of the polynomial is set a step loses
  nothing: the bit that fell out can be read off the top of the result.
* `absorb_eq_bitSteps_word` — absorbing at most `w / 8` bytes is exclusive-oring
  in one word and shifting, and hence `absorb_left_injective`: from one
  register value, two different byte strings of the same such length lead to two
  different register values.
* `checksum_burst` — two byte strings that differ in one burst of at most `w / 8`
  bytes have different checksums.
* `existsUnique_checksum` — a checksum of `w` bits at the end of the bytes it is taken
  over has exactly one value, as long as a step moves every register but zero.
-/

namespace Crc

variable {w : Nat}

/-- One shift of the register. -/
def bitStep (poly r : BitVec w) : BitVec w :=
  if r.getLsbD 0 then (r >>> 1) ^^^ poly else r >>> 1

/-- `n` shifts of the register. -/
def bitSteps (poly : BitVec w) : Nat → BitVec w → BitVec w
  | 0, r => r
  | n + 1, r => bitSteps poly n (bitStep poly r)

/-- Take one byte into the register. -/
def absorbByte (poly r : BitVec w) (b : UInt8) : BitVec w :=
  bitSteps poly 8 (r ^^^ b.toBitVec.setWidth w)

/-- Take a byte string into the register. -/
def absorb (poly r : BitVec w) (bs : List UInt8) : BitVec w :=
  bs.foldl (absorbByte poly) r

/-- The finished checksum. -/
def checksum (poly init mask : BitVec w) (bs : List UInt8) : BitVec w :=
  absorb poly init bs ^^^ mask

variable (poly : BitVec w)

@[simp] theorem absorb_nil (r : BitVec w) : absorb poly r [] = r := rfl

@[simp] theorem absorb_cons (r : BitVec w) (b : UInt8) (bs : List UInt8) :
    absorb poly r (b :: bs) = absorb poly (absorbByte poly r b) bs := rfl

theorem absorb_append (r : BitVec w) (as bs : List UInt8) :
    absorb poly r (as ++ bs) = absorb poly (absorb poly r as) bs := List.foldl_append

/-! ## Linearity -/

theorem bitStep_xor (a b : BitVec w) :
    bitStep poly (a ^^^ b) = bitStep poly a ^^^ bitStep poly b := by
  unfold bitStep
  rw [BitVec.getLsbD_xor, BitVec.ushiftRight_xor_distrib]
  have hself : (a >>> 1 ^^^ poly) ^^^ (b >>> 1 ^^^ poly) = a >>> 1 ^^^ b >>> 1 := by
    rw [BitVec.xor_assoc, BitVec.xor_comm poly, BitVec.xor_assoc, BitVec.xor_self,
      BitVec.xor_zero]
  cases a.getLsbD 0 <;> cases b.getLsbD 0
  · simp
  · simp [BitVec.xor_assoc]
  · simp only [Bool.xor_false, if_true, Bool.false_eq_true, if_false]
    rw [BitVec.xor_assoc, BitVec.xor_comm (b >>> 1) poly, BitVec.xor_assoc]
  · simpa using hself.symm

theorem bitSteps_xor (n : Nat) (a b : BitVec w) :
    bitSteps poly n (a ^^^ b) = bitSteps poly n a ^^^ bitSteps poly n b := by
  induction n generalizing a b with
  | zero => rfl
  | succ n ih => rw [bitSteps, bitSteps, bitSteps, bitStep_xor, ih]

theorem bitSteps_add (m n : Nat) (r : BitVec w) :
    bitSteps poly (m + n) r = bitSteps poly n (bitSteps poly m r) := by
  induction m generalizing r with
  | zero => simp [bitSteps]
  | succ m ih => rw [Nat.succ_add, bitSteps, bitSteps, ih]

/-! ## A step loses nothing -/

/-- With the top bit of the polynomial set, the bit that fell out is the top bit of
the result, so the step can be undone. -/
theorem bitStep_injective (hw : 0 < w) (hpoly : poly.getLsbD (w - 1) = true) :
    Function.Injective (bitStep poly) := by
  intro a b h
  have htop : ∀ r : BitVec w, (bitStep poly r).getLsbD (w - 1) = r.getLsbD 0 := by
    intro r
    have hsh : (r >>> 1).getLsbD (w - 1) = false := by
      rw [BitVec.getLsbD_ushiftRight, BitVec.getLsbD_of_ge _ _ (by omega)]
    unfold bitStep
    cases hr : r.getLsbD 0 <;> simp [hsh, hpoly]
  have hlow : a.getLsbD 0 = b.getLsbD 0 := by rw [← htop a, ← htop b, h]
  have hsh : a >>> 1 = b >>> 1 := by
    unfold bitStep at h
    rw [hlow] at h
    split at h
    · simpa [BitVec.xor_assoc] using congrArg (· ^^^ poly) h
    · exact h
  apply BitVec.eq_of_getLsbD_eq
  intro i hi
  cases i with
  | zero => exact hlow
  | succ i =>
    have := congrArg (fun r => r.getLsbD i) hsh
    simpa [BitVec.getLsbD_ushiftRight, Nat.add_comm] using this

theorem bitSteps_injective (hw : 0 < w) (hpoly : poly.getLsbD (w - 1) = true) (n : Nat) :
    Function.Injective (bitSteps poly n) := by
  induction n with
  | zero => exact fun _ _ h => h
  | succ n ih => exact ih.comp (bitStep_injective poly hw hpoly)

/-! ## Short byte strings as one word -/

/-- The word a byte string makes, first byte lowest. -/
def word : List UInt8 → BitVec w
  | [] => 0
  | b :: bs => b.toBitVec.setWidth w ^^^ (word bs <<< 8)

/-- A word whose low bits are clear only moves down. -/
theorem bitSteps_shiftLeft (n : Nat) (x : BitVec w) (h : ∀ i, w - n ≤ i → x.getLsbD i = false) :
    bitSteps poly n (x <<< n) = x := by
  induction n with
  | zero => simp [bitSteps]
  | succ n ih =>
    have hlow : (x <<< (n + 1)).getLsbD 0 = false := by simp [BitVec.getLsbD_shiftLeft]
    have hstep : bitStep poly (x <<< (n + 1)) = x <<< n := by
      rw [bitStep, hlow, if_neg (by simp)]
      apply BitVec.eq_of_getLsbD_eq
      intro i hi
      rw [BitVec.getLsbD_ushiftRight, BitVec.getLsbD_shiftLeft, BitVec.getLsbD_shiftLeft]
      by_cases hin : i < n
      · simp [hin, show 1 + i < n + 1 by omega]
      · have hsub : 1 + i - (n + 1) = i - n := by omega
        by_cases hiw : 1 + i < w
        · simp [hin, hi, hiw, hsub, show ¬ 1 + i < n + 1 by omega]
        · simp [hin, hi, hiw, h (i - n) (by omega)]
    rw [bitSteps, hstep]
    exact ih (fun i hi => h i (by omega))

theorem getLsbD_word_of_ge (bs : List UInt8) {i : Nat} (h : 8 * bs.length ≤ i) :
    (word bs : BitVec w).getLsbD i = false := by
  induction bs generalizing i with
  | nil => simp [word]
  | cons b bs ih =>
    rw [List.length_cons] at h
    rw [word, BitVec.getLsbD_xor, BitVec.getLsbD_shiftLeft, ih (by omega),
      BitVec.getLsbD_setWidth, BitVec.getLsbD_of_ge _ _ (by omega)]
    simp

/-- Absorbing at most `w / 8` bytes is exclusive-oring in their word and shifting. -/
theorem absorb_eq_bitSteps_word (bs : List UInt8) (hlen : 8 * bs.length ≤ w) (r : BitVec w) :
    absorb poly r bs = bitSteps poly (8 * bs.length) (r ^^^ word bs) := by
  induction bs generalizing r with
  | nil => simp [word, bitSteps]
  | cons b bs ih =>
    rw [List.length_cons] at hlen
    have hword : bitSteps poly 8 ((word bs : BitVec w) <<< 8) = word bs :=
      bitSteps_shiftLeft poly 8 _ (fun i hi => getLsbD_word_of_ge bs (by omega))
    rw [absorb_cons, ih (by omega), List.length_cons, Nat.mul_add, Nat.add_comm (8 * _),
      Nat.mul_one, bitSteps_add, absorbByte, word, ← BitVec.xor_assoc,
      bitSteps_xor poly 8 _ (word bs <<< 8), hword]

theorem word_injective {as bs : List UInt8} (hlen : as.length = bs.length)
    (hw : 8 * as.length ≤ w) (h : (word as : BitVec w) = word bs) : as = bs := by
  induction as generalizing bs with
  | nil => exact (List.eq_nil_of_length_eq_zero hlen.symm).symm
  | cons a as ih =>
    obtain _ | ⟨b, bs⟩ := bs
    · simp at hlen
    rw [List.length_cons] at hw
    simp only [List.length_cons, Nat.add_right_cancel_iff] at hlen
    have hbit := fun i => congrArg (fun x : BitVec w => x.getLsbD i) h
    simp only [word, BitVec.getLsbD_xor, BitVec.getLsbD_shiftLeft, BitVec.getLsbD_setWidth]
      at hbit
    have hhead : a = b := by
      apply UInt8.toBitVec_inj.mp
      apply BitVec.eq_of_getLsbD_eq
      intro i hi
      simpa [hi, show i < w by omega] using hbit i
    have htail : (word as : BitVec w) = word bs := by
      apply BitVec.eq_of_getLsbD_eq
      intro i _
      by_cases hi : 8 + i < w
      · simpa [hhead, hi] using hbit (8 + i)
      · rw [getLsbD_word_of_ge as (by omega), getLsbD_word_of_ge bs (by omega)]
    rw [hhead, ih hlen (by omega) htail]

/-- From one register value, different strings of the same length (of at most `w`
bits) lead to different register values. -/
theorem absorb_left_injective (hw : 0 < w) (hpoly : poly.getLsbD (w - 1) = true) (r : BitVec w)
    {as bs : List UInt8} (hlen : as.length = bs.length) (hfit : 8 * as.length ≤ w)
    (h : absorb poly r as = absorb poly r bs) : as = bs := by
  rw [absorb_eq_bitSteps_word poly as hfit, absorb_eq_bitSteps_word poly bs (by omega),
    hlen] at h
  have hxor := bitSteps_injective poly hw hpoly _ h
  exact word_injective hlen hfit ((BitVec.xor_right_inj r).mp hxor)

/-! ## Bursts -/

theorem absorbByte_injective (hw : 0 < w) (hpoly : poly.getLsbD (w - 1) = true) (b : UInt8) :
    Function.Injective (absorbByte poly · b) := by
  intro r s h
  exact (BitVec.xor_left_inj _).mp (bitSteps_injective poly hw hpoly 8 h)

/-- Over the same bytes, different registers stay different. -/
theorem absorb_injective (hw : 0 < w) (hpoly : poly.getLsbD (w - 1) = true) (bs : List UInt8) :
    Function.Injective (absorb poly · bs) := by
  induction bs with
  | nil => exact fun _ _ h => h
  | cons b bs ih => exact ih.comp (absorbByte_injective poly hw hpoly b)

/-- **A burst of at most `w` bits shows in the checksum.** -/
theorem checksum_burst (hw : 0 < w) (hpoly : poly.getLsbD (w - 1) = true) (init mask : BitVec w)
    (front back : List UInt8) {as bs : List UInt8} (hlen : as.length = bs.length)
    (hfit : 8 * as.length ≤ w)
    (h : checksum poly init mask (front ++ as ++ back) =
      checksum poly init mask (front ++ bs ++ back)) : as = bs := by
  have habs := (BitVec.xor_left_inj mask).mp h
  rw [absorb_append, absorb_append, absorb_append poly init (front ++ bs),
    absorb_append poly init front bs] at habs
  exact absorb_left_injective poly hw hpoly _ hlen hfit (absorb_injective poly hw hpoly back habs)

/-! ## A checksum over its own field -/

/-- Terms of an exclusive or may change sides. -/
theorem xor_eq_xor_comm {a b c d : BitVec w} (h : a ^^^ b = c ^^^ d) : a ^^^ c = b ^^^ d := by
  have hsum : a ^^^ b ^^^ (b ^^^ c) = c ^^^ d ^^^ (b ^^^ c) := by rw [h]
  have hleft : a ^^^ b ^^^ (b ^^^ c) = a ^^^ c := by
    rw [BitVec.xor_assoc, ← BitVec.xor_assoc b, BitVec.xor_self, BitVec.zero_xor]
  have hright : c ^^^ d ^^^ (b ^^^ c) = b ^^^ d := by
    rw [BitVec.xor_comm b, BitVec.xor_comm c, BitVec.xor_assoc, ← BitVec.xor_assoc c,
      BitVec.xor_self, BitVec.zero_xor, BitVec.xor_comm]
  rw [← hleft, hsum, hright]

/-- What the polynomial alone leaves in a register that is shifted. -/
def trail : Nat → BitVec w
  | 0 => 0
  | n + 1 => (trail n >>> 1) ^^^ poly

theorem trail_zero (n : Nat) : trail (0 : BitVec w) n = 0 := by
  induction n with
  | zero => rfl
  | succ n ih =>
    rw [trail, ih]
    simp

theorem eq_trail {r : BitVec w} (h : r = (r >>> 1) ^^^ poly) (n : Nat) :
    r = (r >>> n) ^^^ trail poly n := by
  induction n with
  | zero => simp [trail]
  | succ n ih =>
    have hshift := congrArg (fun x : BitVec w => x >>> 1) ih
    simp only [BitVec.ushiftRight_xor_distrib, ← BitVec.shiftRight_add] at hshift
    rw [trail, ← BitVec.xor_assoc, ← hshift]
    exact h

/-- **A step moves every register but zero**, if what the polynomial leaves behind has its lowest
bit clear. -/
theorem eq_zero_of_bitStep_eq (htrail : (trail poly w).getLsbD 0 = false) {r : BitVec w}
    (h : bitStep poly r = r) : r = 0 := by
  rw [bitStep] at h
  split at h
  · next hlow =>
    have hr := eq_trail poly h.symm w
    rw [BitVec.ushiftRight_eq_zero (Nat.le_refl w), BitVec.zero_xor] at hr
    rw [hr, htrail] at hlow
    cases hlow
  · have hr := eq_trail (0 : BitVec w) (r := r) (by simpa using h.symm) w
    rwa [BitVec.ushiftRight_eq_zero (Nat.le_refl w), BitVec.zero_xor, trail_zero] at hr

/-- Twice as many shifts are the same done twice. -/
theorem xor_bitSteps_double (n : Nat) (r : BitVec w) :
    r ^^^ bitSteps poly (2 * n) r =
      (r ^^^ bitSteps poly n r) ^^^ bitSteps poly n (r ^^^ bitSteps poly n r) := by
  rw [bitSteps_xor, Nat.two_mul, bitSteps_add, BitVec.xor_assoc r,
    ← BitVec.xor_assoc _ _ (bitSteps _ _ _), BitVec.xor_self, BitVec.zero_xor]

theorem xor_bitSteps_injective (htrail : (trail poly w).getLsbD 0 = false) (k : Nat) :
    Function.Injective fun r => r ^^^ bitSteps poly (2 ^ k) r := by
  induction k with
  | zero =>
    intro a b h
    have hstep : bitStep poly (a ^^^ b) = a ^^^ b := by
      rw [bitStep_xor]
      exact (xor_eq_xor_comm h).symm
    exact BitVec.xor_eq_zero_iff.mp (eq_zero_of_bitStep_eq poly htrail hstep)
  | succ k ih =>
    have hdouble : (fun r => r ^^^ bitSteps poly (2 ^ (k + 1)) r) =
        (fun r => r ^^^ bitSteps poly (2 ^ k) r) ∘ fun r => r ^^^ bitSteps poly (2 ^ k) r := by
      funext r
      rw [pow_succ', xor_bitSteps_double, Function.comp_apply]
    rw [hdouble]
    exact ih.comp ih

/-- **A checksum over its own field has exactly one value**: whatever comes before it. -/
theorem existsUnique_checksum (htrail : (trail poly w).getLsbD 0 = false) {k : Nat}
    (hk : w = 2 ^ k) (init mask : BitVec w) (front : List UInt8) (bytes : BitVec w → List UInt8)
    (hlength : ∀ x, 8 * (bytes x).length = w) (hword : ∀ x, word (bytes x) = x) :
    ∃! x, checksum poly init mask (front ++ bytes x) = x := by
  have hsum : ∀ x, checksum poly init mask (front ++ bytes x) =
      bitSteps poly w (absorb poly init front) ^^^ bitSteps poly w x ^^^ mask := by
    intro x
    rw [checksum, absorb_append, absorb_eq_bitSteps_word poly _ (hlength x).le, hlength, hword,
      bitSteps_xor]
  have hbijective : Function.Bijective fun x => x ^^^ bitSteps poly w x := by
    have hinj := xor_bitSteps_injective poly htrail k
    rw [← hk] at hinj
    exact Finite.injective_iff_bijective.mp hinj
  obtain ⟨x, hx, hunique⟩ :=
    hbijective.existsUnique (bitSteps poly w (absorb poly init front) ^^^ mask)
  have hiff : ∀ y, checksum poly init mask (front ++ bytes y) = y ↔
      y ^^^ bitSteps poly w y = bitSteps poly w (absorb poly init front) ^^^ mask := by
    intro y
    have hswap : bitSteps poly w (absorb poly init front) ^^^ bitSteps poly w y ^^^ mask =
        bitSteps poly w y ^^^ (bitSteps poly w (absorb poly init front) ^^^ mask) := by
      rw [BitVec.xor_comm (bitSteps poly w (absorb poly init front)), BitVec.xor_assoc]
    rw [hsum, hswap]
    constructor
    · intro h
      have hxor := congrArg (fun z => z ^^^ bitSteps poly w y) h.symm
      rwa [BitVec.xor_comm (bitSteps poly w y), BitVec.xor_assoc _ _ (bitSteps poly w y),
        BitVec.xor_self, BitVec.xor_zero] at hxor
    · intro h
      rw [← h, BitVec.xor_comm y, ← BitVec.xor_assoc, BitVec.xor_self, BitVec.zero_xor]
  exact ⟨x, (hiff x).mpr hx, fun y hy => hunique y ((hiff y).mp hy)⟩

end Crc
