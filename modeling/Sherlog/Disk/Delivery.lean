import Sherlog.Disk.Invariant

/-!
# What the calls of `read_all` deliver

Every successful `read_all` delivers records from places between the two positions of the
control block.  A place is a lap and a position in it.

* `readSpots` — the places of the records that `read_all` finds, with them.
* `Live.deliveries` — what a run delivers, place by place.
* `Live.Behind` — what has been delivered lies behind both positions, or in an earlier lap; every
  call keeps it.
* `Live.delivers_once` — so no place is delivered twice, and the places are delivered in order.
-/

namespace Sherlog

open LapLog Scanning PersistentRingBuffer

section

variable [Hasher]

namespace PersistentRingBuffer

/-- The places at which the loop of `read_all` finds a record. -/
def spots (b : PersistentRingBuffer) (writePos : UInt64) :
    Nat → UInt64 → List (UInt64 × Record)
  | 0, _ => []
  | fuel + 1, currentPos =>
    if currentPos < writePos then
      match b.readAt currentPos with
      | some (.ok (some (record, size))) =>
        (currentPos, record) :: b.spots writePos fuel (currentPos + UInt64.ofNat size)
      | some (.ok none) => b.spots writePos fuel (currentPos + UInt64.ofNat Header.SIZE)
      | _ => []
    else []

/-- The places that a call of `read_all` goes over. -/
def readSpots (b : PersistentRingBuffer) : List (UInt64 × Record) :=
  if b.control.readPos = b.control.writePos then []
  else b.spots b.control.writePos scanFuel b.control.readPos

variable {b : PersistentRingBuffer} {writePos : UInt64} {p q : Nat}
  {steps : List (Nat × Option (Record × Nat))}

theorem spots_of_scan (hb : b.Sound) (hw : writePos.toNat ≤ b.size)
    (h : Scan (decodeAt b.area) Header.SIZE writePos.toNat p steps q) (hp : p < 2 ^ 64) :
    ∀ fuel, b.spots writePos (steps.length + fuel) (UInt64.ofNat p) =
      ((items steps).map fun i => (UInt64.ofNat i.1, i.2.1)) ++
        b.spots writePos fuel (UInt64.ofNat q) := by
  have hlen := hb.length_area
  have hlt := hb.size_lt
  induction h with
  | nil p => intro fuel; simp
  | @cons p q found steps hstop hlook _ ih =>
    intro fuel
    have hrest := ih (advance_lt (by omega) (by omega) hlook) fuel
    rw [List.length_cons, Nat.add_right_comm, spots, if_pos ((ofNat_lt_iff hp).mpr hstop),
      readAt_ofNat hb hp, hlook]
    rcases found with _ | ⟨r, n⟩
    · simp only [← UInt64.ofNat_add]
      exact hrest
    · simp only [← UInt64.ofNat_add, items_cons_some, List.map_cons, List.cons_append,
        List.cons.injEq, true_and]
      exact hrest

theorem spots_of_done (hb : b.Sound) (hq : q < 2 ^ 64)
    (hdone : Done (decodeAt b.area) writePos.toNat q) (fuel : Nat) :
    b.spots writePos (fuel + 1) (UInt64.ofNat q) = [] := by
  by_cases hlt : q < writePos.toNat
  · obtain ⟨e, herror⟩ := hdone hlt
    rw [spots, if_pos ((ofNat_lt_iff hq).mpr hlt), readAt_ofNat hb hq, herror]
  · rw [spots, if_neg (mt (ofNat_lt_iff hq).mp hlt)]

/-- **What a successful `read_all` delivers**: the records at its places, which follow one another
between the read and the write position; the new read position lies behind them. -/
theorem Represents.readAll_spots {l : Log Record} (h : b.Represents l) {sys : Sys}
    {found : List Record} {b' : PersistentRingBuffer}
    (hread : b.readAll sys = some (.ok found, b')) :
    found = b.readSpots.map Prod.snd ∧
      (b.readSpots.map Prod.fst).Pairwise (· < ·) ∧
      ∀ s ∈ b.readSpots, b.control.readPos ≤ s.1 ∧ s.1 < b.control.writePos ∧
        s.1 < b'.control.readPos := by
  by_cases heq : b.control.readPos = b.control.writePos
  · rw [readAll, if_pos heq] at hread
    rw [readSpots, if_pos heq]
    exact ⟨(Except.ok.inj (Prod.mk.inj (Option.some.inj hread)).1).symm, .nil, by simp⟩
  · obtain ⟨steps, q, hscan, hdone, hq, hloop, -⟩ :=
      readLoop_eq h.sound h.writePos_le b.control.readPos
    obtain ⟨fuel, hfuel⟩ := length_lt_scanFuel hscan
    have hspots := spots_of_scan h.sound h.writePos_le hscan b.control.readPos.toNat_lt (fuel + 1)
    rw [← hfuel, UInt64.ofNat_toNat, spots_of_done h.sound hq hdone, List.append_nil] at hspots
    rw [readSpots, if_neg heq, hspots]
    by_cases hlt : q < b.control.writePos.toNat
    · rw [readAll, if_neg heq, hloop, if_pos hlt] at hread
      cases (Prod.mk.inj (Option.some.inj hread)).1
    · rw [if_neg hlt] at hloop
      rw [readAll_of_readLoop heq hloop] at hread
      obtain ⟨⟨res, b₁⟩, hstore, hres⟩ := Option.map_eq_some_iff.mp hread
      obtain ⟨hok, rfl⟩ := Prod.mk.inj hres
      have hfound : found = (items steps).map fun i => i.2.1 := by
        rcases res with e | u
        · cases hok
        · exact (Except.ok.inj hok).symm
      have hread' : b₁.control.readPos = UInt64.ofNat q := by
        rw [(storeControl_control hstore).1]
        rfl
      have hrange : ∀ i ∈ items steps, b.control.readPos.toNat ≤ i.1 ∧
          i.1 < b.control.writePos.toNat ∧ (UInt64.ofNat i.1).toNat = i.1 := by
        rintro ⟨p, r, n⟩ hmem
        obtain ⟨hle, hstop, -⟩ := hscan.mem_range _ (mem_items.mp hmem)
        have := b.control.writePos.toNat_lt
        exact ⟨hle, hstop, by rw [UInt64.toNat_ofNat', Nat.mod_eq_of_lt (by simp only; omega)]⟩
      refine ⟨by simp [hfound], ?_, ?_⟩
      · rw [List.pairwise_map, List.pairwise_map]
        refine hscan.pairwise_items.imp_of_mem ?_
        rintro ⟨p, r, n⟩ ⟨p', r', n'⟩ hx hy hle
        have hcovers := covers_decodeAt b.area p r n (hscan.mem_range _ (mem_items.mp hx)).2.2
        rw [UInt64.lt_iff_toNat_lt, (hrange _ hx).2.2, (hrange _ hy).2.2]
        simp only [Header.SIZE] at hle hcovers ⊢
        omega
      · intro s hs
        obtain ⟨i, hi, rfl⟩ := List.mem_map.mp hs
        obtain ⟨hle, hstop, hnat⟩ := hrange i hi
        rw [hread', UInt64.le_iff_toNat_le, UInt64.lt_iff_toNat_lt, UInt64.lt_iff_toNat_lt, hnat,
          UInt64.toNat_ofNat', Nat.mod_eq_of_lt hq]
        exact ⟨hle, hstop, by omega⟩

/-- **A call moves the read position at least up to the write position, or not at all**, unless it
is an accepted write, which leaves it alone. -/
theorem Represents.readPos_step {l : Log Record} (h : b.Represents l) {op : Op}
    {b' : PersistentRingBuffer} (hstep : b.step op = some b') :
    b'.control.readPos = b.control.readPos ∨
      b'.control.writePos = b.control.writePos ∧ b.control.writePos ≤ b'.control.readPos := by
  rw [step_control hstep]
  cases op with
  | write r sys =>
    rw [unsealed]
    split
    · exact .inl rfl
    · exact .inl (b.wrapControl_eq r).2.2.2
  | readAll sys =>
    rw [unsealed]
    split
    · exact .inl rfl
    · obtain ⟨steps, q, -, -, hq, hloop, -⟩ :=
        readLoop_eq h.sound h.writePos_le b.control.readPos
      rw [hloop]
      by_cases hlt : q < b.control.writePos.toNat
      · rw [if_pos hlt]
        exact .inl rfl
      · rw [if_neg hlt]
        refine .inr ⟨rfl, ?_⟩
        show b.control.writePos ≤ UInt64.ofNat q
        rw [UInt64.le_iff_toNat_le, UInt64.toNat_ofNat', Nat.mod_eq_of_lt hq]
        exact not_lt.mp hlt
  | resetReadPosition sys => exact .inr ⟨rfl, UInt64.le_refl _⟩
  | commit c sys =>
    rw [unsealed]
    split
    · exact .inr ⟨rfl, UInt64.le_refl _⟩
    · exact .inl rfl

end PersistentRingBuffer

namespace Live

/-- The records that a call returns, if it is a `read_all` that succeeds. -/
def returned (b : Live) : Op → List Record
  | .readAll sys =>
    match b.buf.readAll sys with
    | some (.ok found, _) => found
    | _ => []
  | _ => []

/-- These records with their places: the number of the lap, and the position in it. -/
def delivered (b : Live) : Op → List ((Nat × UInt64) × Record)
  | .readAll sys =>
    match b.buf.readAll sys with
    | some (.ok _, _) => b.buf.readSpots.map fun s => ((b.log.past.length, s.1), s.2)
    | _ => []
  | _ => []

/-- All that a run delivers, with the places. -/
def deliveries (b : Live) : List Op → List ((Nat × UInt64) × Record)
  | [] => []
  | op :: ops => b.delivered op ++ (b.step op).deliveries ops

/-- All that the calls of a run return. -/
def returns (b : Live) : List Op → List Record
  | [] => []
  | op :: ops => b.returned op ++ (b.step op).returns ops

/-- A place lies in an earlier lap, or behind both positions. -/
def Behind (b : Live) (place : Nat × UInt64) : Prop :=
  place.1 < b.log.past.length ∨
    place.1 = b.log.past.length ∧ place.2 < b.buf.control.readPos ∧
      place.2 < b.buf.control.writePos

variable {b : Live} {place : Nat × UInt64}

/-- **What lies behind stays behind.** -/
theorem Behind.step (h : b.Behind place) (op : Op) : (b.step op).Behind place := by
  have hread := b.represents.readPos_step (b.step_buf op)
  have hmoved : (b.step op).log.past.length = b.log.past.length ∧
      b.buf.control.writePos ≤ (b.step op).buf.control.writePos ∨
        b.log.past.length < (b.step op).log.past.length := by
    by_cases hstarts : b.startsLap op = true
    · rcases b.step_cases op with ⟨-, hno⟩ | ⟨r, sys, -, -, hlog, hroom⟩
      · rw [hstarts] at hno
        cases hno
      · rw [hlog, Log.push_of_not_hasRoom (hroom.mp hstarts)]
        exact .inr (Nat.lt_succ_self _)
    · have hwrite := b.writePos_le_step (Bool.eq_false_iff.mpr hstarts)
      refine .inl ⟨?_, UInt64.le_iff_toNat_le.mpr hwrite⟩
      rcases b.step_cases op with ⟨hlog, -⟩ | ⟨r, sys, -, -, hlog, hroom⟩
      · rw [hlog]
      · rw [hlog, Log.push_of_hasRoom (not_not.mp fun hno => hstarts (hroom.mpr hno))]
  rcases h with hlap | ⟨hlap, hpos, hpos'⟩
  · rcases hmoved with ⟨hsame, -⟩ | hless
    · exact .inl (hsame ▸ hlap)
    · exact .inl (hlap.trans hless)
  · rcases hmoved with ⟨hsame, hwrite⟩ | hless
    · refine .inr ⟨hlap.trans hsame.symm, ?_, UInt64.lt_of_lt_of_le hpos' hwrite⟩
      rcases hread with hread | ⟨-, hread⟩
      · rwa [hread]
      · exact UInt64.lt_of_lt_of_le hpos' hread
    · exact .inl (hlap ▸ hless)

/-- What a call delivers, if it delivers anything. -/
theorem delivered_cases (b : Live) (op : Op) :
    b.delivered op = [] ∧ b.returned op = [] ∨
      ∃ sys found, op = .readAll sys ∧ b.buf.readAll sys = some (.ok found, (b.step op).buf) ∧
        b.returned op = found ∧
        b.delivered op = b.buf.readSpots.map fun s => ((b.log.past.length, s.1), s.2) := by
  cases op with
  | readAll sys =>
    rcases hread : b.buf.readAll sys with _ | ⟨e | found, b'⟩
    · simp [delivered, returned, hread]
    · simp [delivered, returned, hread]
    · have hstep := b.step_buf (.readAll sys)
      rw [PersistentRingBuffer.step, hread] at hstep
      obtain rfl : b' = (b.step (.readAll sys)).buf := Option.some.inj hstep
      exact .inr ⟨sys, found, rfl, hread, by simp only [returned, hread],
        by simp only [delivered, hread]⟩
  | _ => exact .inl ⟨rfl, rfl⟩

/-- **What a call delivers** is in order, lies behind afterwards, and comes after all that lay
behind before. -/
theorem delivered_behind (b : Live) (op : Op) :
    ((b.delivered op).map Prod.fst).Pairwise (Prod.Lex (· < ·) (· < ·)) ∧
      (∀ x ∈ b.delivered op, (b.step op).Behind x.1) ∧
      ∀ place, b.Behind place → ∀ x ∈ b.delivered op, Prod.Lex (· < ·) (· < ·) place x.1 := by
  rcases b.delivered_cases op with ⟨hnone, -⟩ | ⟨sys, found, rfl, hread, -, hdelivered⟩
  · simp [hnone]
  · obtain ⟨-, hpairwise, hspots⟩ := b.represents.readAll_spots hread
    have hcontrol : (b.step (.readAll sys)).buf.control.writePos = b.buf.control.writePos :=
      (b.unchanged_step (by simp)).1
    rw [hdelivered]
    refine ⟨?_, ?_, ?_⟩
    · rw [List.map_map, List.pairwise_map]
      rw [List.pairwise_map] at hpairwise
      exact hpairwise.imp fun hlt => .right _ hlt
    · intro x hx
      obtain ⟨s, hs, rfl⟩ := List.mem_map.mp hx
      obtain ⟨-, hwrite, hpos⟩ := hspots s hs
      exact .inr ⟨rfl, hpos, hcontrol ▸ hwrite⟩
    · rintro ⟨lap, pos⟩ hbehind x hx
      obtain ⟨s, hs, rfl⟩ := List.mem_map.mp hx
      rcases hbehind with hlap | ⟨rfl, hpos, -⟩
      · exact .left _ _ hlap
      · exact .right _ (UInt64.lt_of_lt_of_le hpos (hspots s hs).1)

/-- What lies behind comes before all that a run delivers. -/
theorem Behind.before_deliveries {ops : List Op} : ∀ {b : Live} {place : Nat × UInt64},
    b.Behind place → ∀ x ∈ b.deliveries ops, Prod.Lex (· < ·) (· < ·) place x.1 := by
  induction ops with
  | nil => exact fun _ x hx => absurd hx List.not_mem_nil
  | cons op ops ih =>
    intro b place h x hx
    rcases List.mem_append.mp hx with hx | hx
    · exact (b.delivered_behind op).2.2 place h x hx
    · exact ih (h.step op) x hx

/-- **`read_all` delivers nothing twice.**  Whatever calls are made on a buffer, the records that
its successful `read_all`s return lie at places that go up from each to the next, in the order of
the laps and in each lap in that of the positions. -/
theorem delivers_once (b : Live) (ops : List Op) :
    b.returns ops = (b.deliveries ops).map Prod.snd ∧
      ((b.deliveries ops).map Prod.fst).Pairwise (Prod.Lex (· < ·) (· < ·)) := by
  induction ops generalizing b with
  | nil => exact ⟨rfl, .nil⟩
  | cons op ops ih =>
    obtain ⟨hreturns, hpairwise⟩ := ih (b.step op)
    obtain ⟨hone, hbehind, -⟩ := b.delivered_behind op
    constructor
    · rw [returns, deliveries, List.map_append, hreturns]
      rcases b.delivered_cases op with ⟨hnone, hnone'⟩ | ⟨sys, found, rfl, hread, hfound, hplaces⟩
      · rw [hnone, hnone', List.map_nil]
      · rw [hfound, hplaces, List.map_map, (b.represents.readAll_spots hread).1]
        rfl
    · rw [deliveries, List.map_append, List.pairwise_append]
      refine ⟨hone, hpairwise, ?_⟩
      intro place hplace place' hplace'
      obtain ⟨x, hx, rfl⟩ := List.mem_map.mp hplace
      obtain ⟨x', hx', rfl⟩ := List.mem_map.mp hplace'
      exact (hbehind x hx).before_deliveries x' hx'

end Live

end

end Sherlog
