import Mathlib

/-!
# Fixed-width little-endian words

The in-memory form of an unsigned integer on a little-endian target: `w` bytes,
least significant first.

* `leBytes w n` / `ofLe` — the two directions on natural numbers.
* `ofLe_leBytes`, `ofLe_leBytes_of_lt` — a number that fits its width comes
  back, and `leBytes_injective_of_lt`; `leBytes_ofLe` — so does a byte string.
* `packFields` / `unpackFields` — a struct without gaps: its fields' words, one
  after the other, with `unpackFields_packFields` reading them back whatever
  follows the struct, and `packFields_unpackFields` storing again what was read.
-/

namespace LittleEndian

/-- The low `w` bytes of `n`, least significant first. -/
def leBytes : Nat → Nat → List UInt8
  | 0, _ => []
  | w + 1, n => UInt8.ofNat n :: leBytes w (n / 256)

/-- The number a little-endian byte string stands for. -/
def ofLe : List UInt8 → Nat
  | [] => 0
  | b :: bs => b.toNat + 256 * ofLe bs

@[simp] theorem length_leBytes (w n : Nat) : (leBytes w n).length = w := by
  induction w generalizing n with
  | zero => rfl
  | succ w ih => simp [leBytes, ih]

theorem ofLe_leBytes (w n : Nat) : ofLe (leBytes w n) = n % 256 ^ w := by
  induction w generalizing n with
  | zero => simp [leBytes, ofLe, Nat.mod_one]
  | succ w ih =>
    have hbyte : (UInt8.ofNat n).toNat = n % 256 := UInt8.toNat_ofNat'
    rw [leBytes, ofLe, ih, hbyte, pow_succ', Nat.mod_mul]

theorem ofLe_leBytes_of_lt {w n : Nat} (h : n < 256 ^ w) : ofLe (leBytes w n) = n := by
  rw [ofLe_leBytes, Nat.mod_eq_of_lt h]

/-- Two numbers that fit the width and have the same bytes are equal. -/
theorem leBytes_injective_of_lt {w n m : Nat} (hn : n < 256 ^ w) (hm : m < 256 ^ w)
    (h : leBytes w n = leBytes w m) : n = m := by
  rw [← ofLe_leBytes_of_lt hn, ← ofLe_leBytes_of_lt hm, h]

/-- A byte string is the word of the number it stands for. -/
theorem leBytes_ofLe (bs : List UInt8) : leBytes bs.length (ofLe bs) = bs := by
  induction bs with
  | nil => rfl
  | cons b bs ih =>
    have hb : b.toNat < 256 := b.toNat_lt
    have hlow : UInt8.ofNat (b.toNat + 256 * ofLe bs) = b := by
      rw [← UInt8.toNat_inj, UInt8.toNat_ofNat']
      omega
    rw [List.length_cons, ofLe, leBytes, hlow, Nat.add_mul_div_left _ _ (by decide),
      Nat.div_eq_of_lt hb, Nat.zero_add, ih]

/-- Only the low bytes of the number count. -/
theorem leBytes_mod (w n : Nat) : leBytes w (n % 256 ^ w) = leBytes w n := by
  have h := leBytes_ofLe (leBytes w n)
  rwa [length_leBytes, ofLe_leBytes] at h

theorem uint16_ofNat_mod (x : UInt16) : UInt16.ofNat (x.toNat % 256 ^ 2) = x := by
  rw [Nat.mod_eq_of_lt (show x.toNat < 256 ^ 2 from x.toNat_lt), UInt16.ofNat_toNat]

theorem uint32_ofNat_mod (x : UInt32) : UInt32.ofNat (x.toNat % 256 ^ 4) = x := by
  rw [Nat.mod_eq_of_lt (show x.toNat < 256 ^ 4 from x.toNat_lt), UInt32.ofNat_toNat]

theorem uint64_ofNat_mod (x : UInt64) : UInt64.ofNat (x.toNat % 256 ^ 8) = x := by
  rw [Nat.mod_eq_of_lt (show x.toNat < 256 ^ 8 from x.toNat_lt), UInt64.ofNat_toNat]

/-! ## Structs -/

/-- The bytes of a struct whose fields are given by width and value. -/
def packFields (fs : List (Nat × Nat)) : List UInt8 := fs.flatMap fun f => leBytes f.1 f.2

/-- The values of the fields of the given widths at the front of a byte string. -/
def unpackFields : List Nat → List UInt8 → List Nat
  | [], _ => []
  | w :: ws, bs => ofLe (bs.take w) :: unpackFields ws (bs.drop w)

@[simp] theorem packFields_nil : packFields [] = [] := rfl

theorem packFields_cons (f : Nat × Nat) (fs : List (Nat × Nat)) :
    packFields (f :: fs) = leBytes f.1 f.2 ++ packFields fs := rfl

theorem length_packFields (fs : List (Nat × Nat)) :
    (packFields fs).length = (fs.map Prod.fst).sum := by
  induction fs with
  | nil => rfl
  | cons f fs ih => simp [packFields_cons, ih]

/-- **A struct reads back field by field**, whatever lies behind it. -/
theorem unpackFields_packFields (fs : List (Nat × Nat)) (rest : List UInt8) :
    unpackFields (fs.map Prod.fst) (packFields fs ++ rest) =
      fs.map fun f => f.2 % 256 ^ f.1 := by
  induction fs with
  | nil => rfl
  | cons f fs ih =>
    have hlen : (leBytes f.1 f.2).length = f.1 := length_leBytes _ _
    rw [List.map_cons, unpackFields, packFields_cons, List.append_assoc,
      List.take_left' hlen, List.drop_left' hlen, ih, ofLe_leBytes, List.map_cons]

/-- **The fields read are the struct**: packed again, they are the bytes they came from. -/
theorem packFields_unpackFields (ws : List Nat) :
    ∀ {bytes : List UInt8}, ws.sum = bytes.length →
      packFields (ws.zip (unpackFields ws bytes)) = bytes := by
  induction ws with
  | nil =>
    intro bytes h
    exact (List.eq_nil_of_length_eq_zero h.symm).symm
  | cons w ws ih =>
    intro bytes h
    rw [List.sum_cons] at h
    have hfront := leBytes_ofLe (bytes.take w)
    rw [List.length_take, Nat.min_eq_left (by omega)] at hfront
    rw [unpackFields, List.zip_cons_cons, packFields_cons, hfront,
      ih (by rw [List.length_drop]; omega), List.take_append_drop]

end LittleEndian
