import Sherlog.Disk.Locking
import Sherlog.Lib.Loop

/-!
# Calls under locks are single steps

What a call comes to when its thread has the buffer for itself is what the function of the
source comes to, and the locks see to it that a call never notices the other threads.

* `Pc.alone` — the turns of a thread that has the buffer for itself; `Pc.alone_start` — they
  come to the answer of the call, after `Pc.turns` at most.
* `Pc.keeps` — what a turn does to the guards of its thread, and to how far the call is.
* `Pc.Follows` — how far a call among others is along the call by itself; every turn keeps it, its
  own (`Follows.access`, `Follows.look`) and those of the others (`Follows.of_not_mem`).
-/

namespace Sherlog

open Window Locks Histories LapLog Scanning PersistentRingBuffer

section

variable [Hasher]

/-! ## A thread by itself -/

namespace Pc

/-- One turn of a thread that has the buffer for itself, until its call takes effect. -/
def round (s : PersistentRingBuffer × Pc) :
    Option (Reply × PersistentRingBuffer) ⊕ PersistentRingBuffer × Pc :=
  match s.2.act s.1 with
  | some (.acquire _ pc) | some (.release _ pc) => .inr (s.1, pc)
  | some (.access buf pc) =>
    match pc.phase with
    | .done reply => .inl (some (reply, buf))
    | _ => .inr (buf, pc)
  | _ => .inl none

/-- What a call comes to when the thread has the buffer for itself for so many turns. -/
def alone (n : Nat) (b : PersistentRingBuffer) (pc : Pc) :
    Option (Option (Reply × PersistentRingBuffer)) :=
  Loop.loop round n (b, pc)

variable {b b' : PersistentRingBuffer} {pc pc' : Pc} {guard : Guard} {n : Nat}

theorem alone_acquire (h : pc.act b = some (.acquire guard pc')) (n : Nat) :
    alone (n + 1) b pc = alone n b pc' :=
  Loop.loop_succ_inr (by rw [round, h]) n

theorem alone_release (h : pc.act b = some (.release guard pc')) (n : Nat) :
    alone (n + 1) b pc = alone n b pc' :=
  Loop.loop_succ_inr (by rw [round, h]) n

theorem alone_access {op : Operation} (h : pc.act b = some (.access b' pc'))
    (hphase : pc'.phase = .pending op) (n : Nat) : alone (n + 1) b pc = alone n b' pc' :=
  Loop.loop_succ_inr (by rw [round, h]; simp only [hphase]) n

theorem alone_effect {reply : Reply} (h : pc.act b = some (.access b' pc'))
    (hphase : pc'.phase = .done reply) (n : Nat) : alone (n + 1) b pc = some (some (reply, b')) :=
  Loop.loop_succ_inl (by rw [round, h]; simp only [hphase]) n

theorem alone_mono {res : Option (Reply × PersistentRingBuffer)} {m : Nat}
    (h : alone n b pc = some res) (hle : n ≤ m) : alone m b pc = some res := by
  obtain ⟨k, rfl⟩ := Nat.exists_eq_add_of_le hle
  exact Loop.loop_mono h k

end Pc

namespace PersistentRingBuffer

variable {b : PersistentRingBuffer} {l : Log Record}

/-! ### `write` -/

/-- The turns of `write` once it has the control block. -/
theorem Represents.alone_write (h : b.Represents l) (r : Record) (sys : Sys) :
    Pc.alone 8 b (.write r sys .check) = some (b.answer (.write r sys)) := by
  by_cases hbig : b.size < r.footprint
  · rw [answer, write, if_pos hbig]
    exact Pc.alone_effect (by rw [Pc.act, WritePc.act, if_pos hbig]) rfl 7
  · obtain ⟨b', hwrite, -⟩ := h.write_represents (not_lt.mp hbig) sys
    rw [answer, hwrite]
    rw [write, if_neg hbig, writeStores] at hwrite
    obtain ⟨mmap, hcopy, hres⟩ := Option.map_eq_some_iff.mp hwrite
    rw [copyAll_cons] at hcopy
    obtain ⟨mmap₁, hheader, hcopy⟩ := Option.bind_eq_some_iff.mp hcopy
    rw [copyAll_cons] at hcopy
    obtain ⟨mmap₂, hdata, hcopy⟩ := Option.bind_eq_some_iff.mp hcopy
    rw [copyAll_cons] at hcopy
    obtain ⟨mmap₃, hcontrol, hcopy⟩ := Option.bind_eq_some_iff.mp hcopy
    obtain rfl : mmap₃ = mmap := Option.some.inj hcopy
    obtain ⟨-, rfl⟩ := Prod.mk.inj hres
    -- the control block after the `if wrap`, and the mapping after each store
    have hcheck : (Pc.write r sys .check).act b =
        some (.access b (.write r sys (.mmap (b.wraps r)))) := by
      rw [Pc.act, WritePc.act, if_neg hbig]
    have hwrap : (Pc.write r sys (.wrap (b.wraps r))).act b =
        some (.access { b with control := b.wrapControl r } (.write r sys .header)) := rfl
    have hstore₁ : (Pc.write r sys .header).act { b with control := b.wrapControl r } =
        some (.access { b with mmap := mmap₁, control := b.wrapControl r }
          (.write r sys (.data (wrapping
            (wrapping (ControlBlock.SIZE + (b.wrapControl r).writePos.toNat) + Header.SIZE))))) :=
      Option.map_eq_some_iff.mpr ⟨mmap₁, hheader, rfl⟩
    have hstore₂ : (Pc.write r sys (.data (wrapping
        (wrapping (ControlBlock.SIZE + (b.wrapControl r).writePos.toNat) + Header.SIZE)))).act
          { b with mmap := mmap₁, control := b.wrapControl r } =
        some (.access { b with mmap := mmap₂, control := b.wrapControl r }
          (.write r sys .update)) :=
      Option.map_eq_some_iff.mpr ⟨mmap₂, hdata, rfl⟩
    have hupdate : (Pc.write r sys .update).act
        { b with mmap := mmap₂, control := b.wrapControl r } =
        some (.access { b with mmap := mmap₂, control := (b.writeControl r).updateCrc }
          (.write r sys .store)) := rfl
    have hstore₃ : (Pc.write r sys .store).act
        { b with mmap := mmap₂, control := (b.writeControl r).updateCrc } =
        some (.access { b with mmap := mmap₃, control := (b.writeControl r).updateCrc }
          (.write r sys .flush)) :=
      Option.map_eq_some_iff.mpr ⟨mmap₃, hcontrol, rfl⟩
    rw [Pc.alone_access hcheck rfl, Pc.alone_acquire rfl, Pc.alone_access hwrap rfl,
      Pc.alone_access hstore₁ rfl, Pc.alone_access hstore₂ rfl, Pc.alone_access hupdate rfl,
      Pc.alone_access hstore₃ rfl, Pc.alone_effect rfl rfl]
    rfl

/-! ### The end of `read_all` and of `reset_read_position` -/

/-- The turns of `storeControl`, once another control block is in place. -/
theorem alone_store {control : ControlBlock} {sys : Sys} {res : Except PersistentError Unit}
    {b' : PersistentRingBuffer} (h : b.storeControl control sys = some (res, b'))
    (found : Option (List Record)) :
    Pc.alone 3 { b with control := control.updateCrc } (.store found sys .mmap) =
      some (some (.stored found res, b')) := by
  obtain ⟨mmap, hcopy, hres⟩ := Option.map_eq_some_iff.mp h
  obtain ⟨rfl, rfl⟩ := Prod.mk.inj hres
  have hstore : (Pc.store found sys .store).act { b with control := control.updateCrc } =
      some (.access { b with mmap, control := control.updateCrc } (.store found sys .flush)) :=
    Option.map_eq_some_iff.mpr ⟨mmap, hcopy, rfl⟩
  cases found <;> rw [Pc.alone_acquire rfl, Pc.alone_access hstore rfl, Pc.alone_effect rfl rfl]

/-- The turns of `reset_read_position` once it has the control block. -/
theorem Represents.alone_reset (h : b.Represents l) (sys : Sys) :
    Pc.alone 4 b (.reset sys .update) = some (b.answer (.resetReadPosition sys)) := by
  obtain ⟨b', hstore, -⟩ := h.storeControl_represents b.control.writePos sys
  have hupdate : (Pc.reset sys .update).act b =
      some (.access { b with control := { b.control with readPos := b.control.writePos }.updateCrc }
        (.store none sys .mmap)) := rfl
  rw [Pc.alone_access hupdate rfl, alone_store hstore, answer, resetReadPosition, hstore]
  rfl

/-! ### `read_all` -/

/-- The turns of the loop of `read_all`: four a round. -/
theorem alone_loop {sys : Sys} {fuel n : Nat} {currentPos : UInt64} {records : List Record}
    {res : Except PersistentError (UInt64 × List Record)}
    {last : Option (Reply × PersistentRingBuffer)}
    (hlast : match res with
      | .error e => last = some (.records (.error e), b)
      | .ok (q, found) => Pc.alone n b (.readAll sys (.update q found)) = some last)
    (h : b.readLoop b.control.writePos fuel currentPos records = some res) :
    Pc.alone (4 * fuel + n) b (.readAll sys (.loop currentPos records)) = some last := by
  induction fuel generalizing currentPos records with
  | zero => cases h
  | succ fuel ih =>
    rw [readLoop] at h
    by_cases hlt : currentPos < b.control.writePos
    · rw [if_pos hlt] at h
      have hloop : (Pc.readAll sys (.loop currentPos records)).act b =
          some (.access b (.readAll sys (.mmap currentPos records))) := by
        rw [Pc.act, ReadAllPc.act, if_pos hlt]
      rw [show 4 * (fuel + 1) + n = 4 * fuel + n + 1 + 1 + 1 + 1 by omega,
        Pc.alone_access hloop rfl, Pc.alone_acquire rfl]
      rcases hread : b.readAt currentPos with _ | e | _ | ⟨record, size⟩
      · rw [hread] at h
        cases h
      · rw [hread] at h
        obtain rfl := Option.some.inj h
        obtain rfl := hlast
        exact Pc.alone_effect (by rw [Pc.act, ReadAllPc.act, hread]; rfl) rfl _
      · rw [hread] at h
        have hskip : (Pc.readAll sys (.read currentPos records)).act b = some (.access b
            (.readAll sys (.drop (currentPos + UInt64.ofNat Header.SIZE) records))) := by
          rw [Pc.act, ReadAllPc.act, hread]
          rfl
        rw [Pc.alone_access hskip rfl, Pc.alone_release rfl]
        exact ih h
      · rw [hread] at h
        have hfound : (Pc.readAll sys (.read currentPos records)).act b = some (.access b
            (.readAll sys (.drop (currentPos + UInt64.ofNat size) (records ++ [record])))) := by
          rw [Pc.act, ReadAllPc.act, hread]
          rfl
        rw [Pc.alone_access hfound rfl, Pc.alone_release rfl]
        exact ih h
    · rw [if_neg hlt] at h
      obtain rfl := Option.some.inj h
      have hloop : (Pc.readAll sys (.loop currentPos records)).act b =
          some (.access b (.readAll sys (.update currentPos records))) := by
        rw [Pc.act, ReadAllPc.act, if_neg hlt]
      rw [show 4 * (fuel + 1) + n = 4 * fuel + n + 3 + 1 by omega, Pc.alone_access hloop rfl]
      exact Pc.alone_mono hlast (by omega)

/-- The loop of `read_all` takes no more rounds than the area has room for headers. -/
theorem Represents.readLoop_rounds (h : b.Represents l) :
    ∃ res, b.readLoop b.control.writePos (b.size / Header.SIZE + 2) b.control.readPos [] =
        some res ∧
      b.readLoop b.control.writePos scanFuel b.control.readPos [] = some res := by
  obtain ⟨steps, q, hscan, hdone, hq, hloop, -⟩ :=
    readLoop_eq h.sound h.writePos_le b.control.readPos
  refine ⟨_, ?_, hloop⟩
  have hlooks := hscan.looks_le (covers_decodeAt _) (by decide)
  have hwrite : b.control.writePos.toNat / Header.SIZE ≤ b.size / Header.SIZE :=
    Nat.div_le_div_right h.writePos_le
  obtain ⟨fuel, hfuel⟩ : ∃ fuel, b.size / Header.SIZE + 2 = steps.length + (fuel + 1) :=
    ⟨b.size / Header.SIZE + 1 - steps.length, by omega⟩
  have hread := (readLoop_of_scan h.sound h.writePos_le hscan b.control.readPos.toNat_lt).2
    (fuel + 1) []
  rwa [UInt64.ofNat_toNat, List.nil_append, readLoop_of_done h.sound hq hdone, ← hfuel] at hread

/-- The turns of `read_all` once it has the control block. -/
theorem Represents.alone_readAll (h : b.Represents l) (sys : Sys) :
    Pc.alone (4 * (b.size / Header.SIZE) + 13) b (.readAll sys .check) =
      some (b.answer (.readAll sys)) := by
  by_cases heq : b.control.readPos = b.control.writePos
  · rw [answer, readAll, if_pos heq]
    exact Pc.alone_effect (by rw [Pc.act, ReadAllPc.act, if_pos heq]) rfl _
  · have hcheck : (Pc.readAll sys .check).act b =
        some (.access b (.readAll sys (.loop b.control.readPos []))) := by
      rw [Pc.act, ReadAllPc.act, if_neg heq]
    obtain ⟨res, hrounds, hloop⟩ := h.readLoop_rounds
    rw [Pc.alone_access hcheck rfl,
      show 4 * (b.size / Header.SIZE) + 12 = 4 * (b.size / Header.SIZE + 2) + 4 by omega]
    refine alone_loop ?_ hrounds
    rcases res with e | ⟨q, found⟩
    · simp only [answer, readAll, if_neg heq, hloop, Option.map_some]
    · obtain ⟨b', hstore, -⟩ := h.storeControl_represents q sys
      have hupdate : (Pc.readAll sys (.update q found)).act b =
          some (.access { b with control := { b.control with readPos := q }.updateCrc }
            (.store (some found) sys .mmap)) := rfl
      simp only [answer, readAll_of_readLoop heq hloop, hstore]
      rw [Pc.alone_access hupdate rfl, alone_store hstore]
      rfl

/-! ### Every call -/

/-- The turns that any call takes until it has taken effect. -/
def turns (b : PersistentRingBuffer) : Nat := 4 * (b.size / Header.SIZE) + 14

/-- **By itself, a call comes to what the function of the source comes to.** -/
theorem Represents.alone_start (h : b.Represents l) (op : Operation) :
    Pc.alone b.turns b (.start op) = some (b.answer op) := by
  have hmono : ∀ n m pc, n ≤ m → Pc.alone n b pc = some (b.answer op) →
      Pc.alone m b pc = some (b.answer op) := fun n m pc hle hn => Pc.alone_mono hn hle
  unfold turns
  cases op with
  | write r sys =>
    refine hmono 10 _ _ (by omega) ?_
    rw [Pc.start, Pc.alone_acquire rfl, Pc.alone_acquire rfl]
    exact h.alone_write r sys
  | readAt position =>
    refine hmono 2 _ _ (by omega) ?_
    have hread := readAt_eq h.sound position
    rw [Pc.start, Pc.alone_acquire rfl, answer, hread]
    exact Pc.alone_effect (by rw [Pc.act, hread]; rfl) rfl _
  | readAll sys =>
    rw [Pc.start, Pc.alone_acquire rfl]
    exact h.alone_readAll sys
  | resetReadPosition sys =>
    refine hmono 5 _ _ (by omega) ?_
    rw [Pc.start, Pc.alone_acquire rfl]
    exact h.alone_reset sys
  | controlBlock =>
    refine hmono 2 _ _ (by omega) ?_
    rw [Pc.start, Pc.alone_acquire rfl]
    exact Pc.alone_effect rfl rfl _
  | flush sys =>
    refine hmono 2 _ _ (by omega) ?_
    rw [Pc.start, Pc.alone_acquire rfl]
    exact Pc.alone_effect rfl rfl _

/-- Every call keeps the size, and leaves a buffer that holds some log. -/
theorem Represents.answer_represents (h : b.Represents l) (op : Operation) :
    ∃ reply b', b.answer op = some (reply, b') ∧ b'.size = b.size ∧ ∃ l', b'.Represents l' := by
  cases op with
  | write r sys =>
    obtain ⟨b', hstep, hsize, hb'⟩ := h.step (.write r sys)
    obtain ⟨⟨res, b'⟩, hwrite, rfl⟩ := Option.map_eq_some_iff.mp hstep
    exact ⟨_, b', by rw [answer, hwrite]; rfl, hsize, _, hb'⟩
  | readAt position =>
    exact ⟨_, b, by rw [answer, readAt_eq h.sound]; rfl, rfl, l, h⟩
  | readAll sys =>
    obtain ⟨res, b', hread, hsize, -, hb'⟩ := h.readAll_represents sys
    exact ⟨_, b', by rw [answer, hread]; rfl, hsize, l, hb'⟩
  | resetReadPosition sys =>
    obtain ⟨b', hstore, hsize, -, -, hb'⟩ := h.storeControl_represents b.control.writePos sys
    exact ⟨_, b', by rw [answer, resetReadPosition, hstore]; rfl, hsize, l, hb'⟩
  | controlBlock => exact ⟨_, b, rfl, rfl, l, h⟩
  | flush sys => exact ⟨_, b, rfl, rfl, l, h⟩

end PersistentRingBuffer

/-! ## What one turn can do -/

/-- What a turn does to the guards of a thread and to how far its call is.  Whether it takes
or drops a guard does not depend on the buffer. -/
def Act.Keeps (b : PersistentRingBuffer) (pc : Pc) : Act → Prop
  | .acquire guard pc' =>
    (∀ b', pc.act b' = some (.acquire guard pc')) ∧ pc'.guards = guard :: pc.guards ∧
      (∀ g ∈ pc.guards, g.rank < guard.rank) ∧ pc'.phase = pc.phase ∧
      ∃ op, pc.phase = .pending op
  | .release guard pc' =>
    (∀ b', pc.act b' = some (.release guard pc')) ∧ pc.guards = guard :: pc'.guards ∧
      pc'.phase = pc.phase ∧
      (guard = .mmapRead ∧ (∃ op, pc.phase = .pending op) ∨
        pc'.guards ≠ [] ∧ ∃ reply, pc.phase = .done reply)
  | .returns guard reply => pc.guards = [guard] ∧ pc.phase = .done reply
  | .access b' pc' =>
    pc'.guards = pc.guards ∧ pc.guards ≠ [] ∧ pc.guards.length ≤ 3 ∧ b'.size = b.size ∧
      (Guard.mmapWrite ∉ pc.guards → b'.mmap = b.mmap) ∧
      ∃ op, pc.phase = .pending op ∧ (pc'.phase = .pending op ∨ ∃ reply, pc'.phase = .done reply)

theorem WritePc.keeps {b : PersistentRingBuffer} {r : Record} {sys : Sys} {pc : WritePc} {act : Act}
    (h : pc.act b r sys = some act) : act.Keeps b (.write r sys pc) := by
  cases pc with
  | lock | control | mmap | wrap | update | flush =>
    obtain rfl := Option.some.inj h
    simp [Act.Keeps, Pc.act, act, Pc.guards, guards, Pc.phase, Guard.rank]
  | check =>
    rw [WritePc.act] at h
    split at h <;>
    · obtain rfl := Option.some.inj h
      simp [Act.Keeps, Pc.guards, guards, Pc.phase]
  | header | data | store =>
    obtain ⟨mmap, -, rfl⟩ := Option.map_eq_some_iff.mp h
    simp [Act.Keeps, Pc.guards, guards, Pc.phase]

theorem ReadAllPc.keeps {b : PersistentRingBuffer} {sys : Sys} {pc : ReadAllPc} {act : Act}
    (h : pc.act b sys = some act) : act.Keeps b (.readAll sys pc) := by
  cases pc with
  | control | mmap | drop | update =>
    obtain rfl := Option.some.inj h
    simp [Act.Keeps, Pc.act, act, Pc.guards, guards, StorePc.guards, Pc.phase, Guard.rank]
  | check | loop =>
    rw [ReadAllPc.act] at h
    split at h <;>
    · obtain rfl := Option.some.inj h
      simp [Act.Keeps, Pc.guards, guards, Pc.phase]
  | read =>
    obtain ⟨res, -, rfl⟩ := Option.map_eq_some_iff.mp h
    rcases res with e | _ | ⟨record, size⟩ <;> simp [Act.Keeps, Pc.guards, guards, Pc.phase]

theorem StorePc.keeps {b : PersistentRingBuffer} {found : Option (List Record)} {sys : Sys}
    {pc : StorePc} {act : Act} (h : pc.act b found sys = some act) :
    act.Keeps b (.store found sys pc) := by
  cases pc with
  | mmap | flush =>
    obtain rfl := Option.some.inj h
    cases found <;> simp [Act.Keeps, Pc.act, act, Pc.guards, guards, Pc.phase, Guard.rank]
  | store =>
    obtain ⟨mmap, -, rfl⟩ := Option.map_eq_some_iff.mp h
    cases found <;> simp [Act.Keeps, Pc.guards, guards, Pc.phase]

/-- **What one turn can do**, wherever the thread is. -/
theorem Pc.keeps {b : PersistentRingBuffer} {pc : Pc} {act : Act} (h : pc.act b = some act) :
    act.Keeps b pc := by
  cases pc with
  | idle => cases h
  | write r sys pc => exact WritePc.keeps h
  | readAll sys pc => exact ReadAllPc.keeps h
  | reset sys pc =>
    cases pc <;>
    · obtain rfl := Option.some.inj h
      simp [Act.Keeps, act, ResetPc.act, guards, ResetPc.guards, StorePc.guards, phase]
  | store found sys pc => exact StorePc.keeps h
  | readAt position guarded =>
    cases guarded with
    | false =>
      obtain rfl := Option.some.inj h
      simp [Act.Keeps, act, guards, phase]
    | true =>
      obtain ⟨res, -, rfl⟩ := Option.map_eq_some_iff.mp h
      simp [Act.Keeps, guards, phase]
  | controlBlock guarded | flush sys guarded =>
    cases guarded <;>
    · obtain rfl := Option.some.inj h
      simp [Act.Keeps, act, guards, phase]
  | leave guards reply =>
    rcases guards with _ | ⟨guard, _ | ⟨guard', guards⟩⟩
    · cases h
    · obtain rfl := Option.some.inj h
      exact ⟨rfl, rfl⟩
    · obtain rfl := Option.some.inj h
      exact ⟨fun _ => rfl, rfl, rfl, .inr ⟨List.cons_ne_nil _ _, reply, rfl⟩⟩

/-- **Without the guard of the control block a thread only looks at what its guards cover**, and
what it does next takes effect. -/
theorem Pc.act_of_not_mem {a b b' : PersistentRingBuffer} {pc pc' : Pc}
    (hfree : Guard.controlWrite ∉ pc.guards) (hact : pc.act b = some (.access b' pc'))
    (hmap : Guard.mmapRead ∈ pc.guards → b.mmap = a.mmap ∧ b.size = a.size)
    (hcontrol : Guard.controlRead ∈ pc.guards → b.control = a.control) :
    b' = b ∧ pc.act a = some (.access a pc') ∧ ∃ reply, pc'.phase = .done reply := by
  cases pc with
  | idle => cases hact
  | write r sys pc =>
    cases pc with
    | lock | control => cases hact
    | _ => simp [Pc.guards, WritePc.guards] at hfree
  | readAll sys pc =>
    cases pc with
    | control => cases hact
    | _ => simp [Pc.guards, ReadAllPc.guards] at hfree
  | reset sys pc =>
    cases pc with
    | control => cases hact
    | update => simp [Pc.guards, ResetPc.guards] at hfree
  | store found sys pc => cases pc <;> simp [Pc.guards, StorePc.guards] at hfree
  | readAt position guarded =>
    cases guarded with
    | false => cases hact
    | true =>
      obtain ⟨hmmap, hsize⟩ := hmap (by simp [guards])
      have hread : b.readAt position = a.readAt position := by
        rw [PersistentRingBuffer.readAt, PersistentRingBuffer.readAt, hmmap, hsize]
      obtain ⟨res, hres, hact⟩ := Option.map_eq_some_iff.mp hact
      obtain ⟨rfl, rfl⟩ := Act.access.inj hact
      exact ⟨rfl, Option.map_eq_some_iff.mpr ⟨res, hread ▸ hres, rfl⟩, _, rfl⟩
  | controlBlock guarded =>
    cases guarded with
    | false => cases hact
    | true =>
      obtain ⟨rfl, rfl⟩ := Act.access.inj (Option.some.inj hact)
      exact ⟨rfl, by rw [act, hcontrol (by simp [guards])], _, rfl⟩
  | flush sys guarded =>
    cases guarded with
    | false => cases hact
    | true =>
      obtain ⟨rfl, rfl⟩ := Act.access.inj (Option.some.inj hact)
      exact ⟨rfl, rfl, _, rfl⟩
  | leave guards reply => rcases guards with _ | ⟨guard, _ | ⟨guard', guards⟩⟩ <;> cases hact

/-! ## Against one step -/

/-- A thread is on its way in a call on the buffer `a`, of which the shared buffer `b` shows what
the call has done so far; its call returns after so many more turns. -/
structure Pc.Follows (a b : PersistentRingBuffer) (pc : Pc) (left : Nat) : Prop where
  ordered : pc.guards.Pairwise fun g g' => g'.rank < g.rank
  pending : ∀ op, pc.phase = .pending op → ∃ n, n + 3 ≤ left ∧
    if Guard.controlWrite ∈ pc.guards then Pc.alone n b pc = some (a.answer op)
    else ∀ a' l, PersistentRingBuffer.Represents a' l → a'.size = a.size →
      Pc.alone n a' pc = some (a'.answer op)
  done : ∀ reply, pc.phase = .done reply → pc.guards ≠ [] ∧ pc.guards.length ≤ left ∧
    (Guard.controlWrite ∈ pc.guards → b = a)
  mapped : Guard.controlWrite ∈ pc.guards → Guard.mmapWrite ∉ pc.guards → b.mmap = a.mmap

namespace Pc.Follows

variable {a a' b b' : PersistentRingBuffer} {l : Log Record} {pc pc' : Pc} {left : Nat}
  {guard : Guard} {reply : Reply}

theorem start (a b : PersistentRingBuffer) (op : Operation) :
    (Pc.start op).Follows a b (a.turns + 3) := by
  have hguards : (Pc.start op).guards = [] := by cases op <;> rfl
  have hphase : (Pc.start op).phase = .pending op := by cases op <;> rfl
  refine ⟨by rw [hguards]; exact .nil, ?_, ?_, by simp [hguards]⟩
  · intro op' hop'
    obtain rfl : op = op' := by rw [hphase] at hop'; cases hop'; rfl
    refine ⟨a.turns, le_rfl, ?_⟩
    rw [if_neg (by simp [hguards])]
    intro a' l ha' hsize
    have hturns : a'.turns = a.turns := by rw [turns, turns, hsize]
    exact hturns ▸ ha'.alone_start op
  · intro reply hreply
    rw [hphase] at hreply
    cases hreply

theorem idle (a b : PersistentRingBuffer) (left : Nat) : Pc.idle.Follows a b left where
  ordered := .nil
  pending := by rintro op ⟨⟩
  done := by rintro reply ⟨⟩
  mapped := by rintro ⟨⟩

/-- A thread without the guard of the control block has seen nothing of the buffer. -/
theorem of_not_mem (h : pc.Follows a b left) (hfree : Guard.controlWrite ∉ pc.guards)
    (hsize : a'.size = a.size) (b' : PersistentRingBuffer) : pc.Follows a' b' left where
  ordered := h.ordered
  pending := by
    intro op hop
    obtain ⟨n, hn, halone⟩ := h.pending op hop
    rw [if_neg hfree] at halone
    refine ⟨n, hn, ?_⟩
    rw [if_neg hfree, hsize]
    exact halone
  done := by
    intro reply hreply
    obtain ⟨hne, hlen, -⟩ := h.done reply hreply
    exact ⟨hne, hlen, fun hmem => absurd hmem hfree⟩
  mapped := fun hmem => absurd hmem hfree

/-- A pending call has a turn left, with the buffer it has to look at. -/
theorem exists_pending (h : pc.Follows a b left) (ha : a.Represents l) {op : Operation}
    (hop : pc.phase = .pending op) : ∃ k, k + 4 ≤ left ∧
      if Guard.controlWrite ∈ pc.guards then Pc.alone (k + 1) b pc = some (a.answer op)
      else ∀ a' l, PersistentRingBuffer.Represents a' l → a'.size = a.size →
        Pc.alone (k + 1) a' pc = some (a'.answer op) := by
  obtain ⟨n, hn, halone⟩ := h.pending op hop
  cases n with
  | zero =>
    split at halone
    · cases halone
    · cases halone a l ha rfl
  | succ k => exact ⟨k, hn, halone⟩

/-- **Taking a guard.**  With the guard of the control block a thread first sees the buffer. -/
theorem acquire (h : pc.Follows a b left) (ha : a.Represents l)
    (hact : pc.act b = some (.acquire guard pc')) (hcontrol : guard = .controlWrite → b = a) :
    ∃ m, left = m + 1 ∧ pc'.Follows a b m := by
  obtain ⟨hsame, hguards, hrank, hphase, op, hop⟩ := Pc.keeps hact
  obtain ⟨k, hk, halone⟩ := h.exists_pending ha hop
  refine ⟨left - 1, by omega, ?_, ?_, ?_, ?_⟩
  · rw [hguards]
    exact List.pairwise_cons.mpr ⟨hrank, h.ordered⟩
  · intro op' hop'
    obtain rfl : op' = op := by rw [hphase, hop] at hop'; cases hop'; rfl
    refine ⟨k, by omega, ?_⟩
    by_cases hheld : Guard.controlWrite ∈ pc.guards
    · rw [if_pos hheld, Pc.alone_acquire hact] at halone
      rwa [if_pos (by rw [hguards]; exact List.mem_cons_of_mem _ hheld)]
    · rw [if_neg hheld] at halone
      by_cases hguard : guard = .controlWrite
      · rw [if_pos (by simp [hguards, hguard]), ← Pc.alone_acquire hact, hcontrol hguard]
        exact halone a l ha rfl
      · rw [if_neg (by simp [hguards, hheld, Ne.symm hguard])]
        intro a' l' ha' hsize
        rw [← Pc.alone_acquire (hsame a')]
        exact halone a' l' ha' hsize
  · intro reply hreply
    rw [hphase, hop] at hreply
    cases hreply
  · intro hmem hmap
    rw [hguards] at hmem hmap
    rcases List.mem_cons.mp hmem with hguard | hheld
    · rw [hcontrol hguard.symm]
    · exact h.mapped hheld fun hmapped => hmap (List.mem_cons_of_mem _ hmapped)

/-- **Dropping a guard.**  Where the guard of the control block, or of the mapping for writing,
is dropped, the call has taken effect. -/
theorem release (h : pc.Follows a b left) (ha : a.Represents l)
    (hact : pc.act b = some (.release guard pc')) :
    (∃ m, left = m + 1 ∧ pc'.Follows a b m) ∧ (guard = .controlWrite → b = a) := by
  obtain ⟨hsame, hguards, hphase, hcases⟩ := Pc.keeps hact
  have hordered : pc'.guards.Pairwise fun g g' => g'.rank < g.rank := by
    have := h.ordered
    rw [hguards] at this
    exact (List.pairwise_cons.mp this).2
  rcases hcases with ⟨rfl, op, hop⟩ | ⟨hne, reply, hreply⟩
  · have hheld_iff : Guard.controlWrite ∈ pc.guards ↔ Guard.controlWrite ∈ pc'.guards := by
      simp [hguards]
    obtain ⟨k, hk, halone⟩ := h.exists_pending ha hop
    refine ⟨⟨left - 1, by omega, hordered, ?_, ?_, ?_⟩, by simp⟩
    · intro op' hop'
      obtain rfl : op' = op := by rw [hphase, hop] at hop'; cases hop'; rfl
      refine ⟨k, by omega, ?_⟩
      by_cases hheld : Guard.controlWrite ∈ pc.guards
      · rw [if_pos hheld, Pc.alone_release hact] at halone
        rwa [if_pos (hheld_iff.mp hheld)]
      · rw [if_neg hheld] at halone
        rw [if_neg (mt hheld_iff.mpr hheld)]
        intro a' l' ha' hsize
        rw [← Pc.alone_release (hsame a')]
        exact halone a' l' ha' hsize
    · intro reply hreply
      rw [hphase, hop] at hreply
      cases hreply
    · intro hmem hmap
      exact h.mapped (hheld_iff.mpr hmem) (by simpa [hguards] using hmap)
  · obtain ⟨-, hlen, hsettled⟩ := h.done reply hreply
    rw [hguards, List.length_cons] at hlen
    refine ⟨⟨left - 1, by omega, hordered, ?_, ?_, ?_⟩, fun hguard => ?_⟩
    · intro op hop
      rw [hphase, hreply] at hop
      cases hop
    · intro reply' _
      exact ⟨hne, by omega,
        fun hmem => hsettled (by rw [hguards]; exact List.mem_cons_of_mem _ hmem)⟩
    · intro hmem _
      rw [hsettled (by rw [hguards]; exact List.mem_cons_of_mem _ hmem)]
    · exact hsettled (by rw [hguards, hguard]; exact List.mem_cons_self)

/-- The last guard. -/
theorem returns (h : pc.Follows a b left) (hact : pc.act b = some (.returns guard reply)) :
    pc.guards = [guard] ∧ pc.phase = .done reply ∧ 0 < left ∧ (guard = .controlWrite → b = a) := by
  obtain ⟨hguards, hreply⟩ := Pc.keeps hact
  obtain ⟨-, hlen, hsettled⟩ := h.done reply hreply
  rw [hguards] at hlen hsettled
  exact ⟨hguards, hreply, hlen, fun hguard => hsettled (by simp [hguard])⟩

/-- An access that ends the call: from here on the thread only drops its guards. -/
theorem of_done (hguards : pc'.guards = pc.guards) (hne : pc.guards ≠ [])
    (hlen : pc.guards.length ≤ left) (hordered : pc.guards.Pairwise fun g g' => g'.rank < g.rank)
    (hdone : pc'.phase = .done reply) (hsettled : Guard.controlWrite ∈ pc.guards → b = a) :
    pc'.Follows a b left where
  ordered := hguards ▸ hordered
  pending := by
    intro op hop
    rw [hdone] at hop
    cases hop
  done := fun _ _ => hguards ▸ ⟨hne, hlen, hsettled⟩
  mapped := fun hmem _ => by rw [hsettled (hguards ▸ hmem)]

/-- **An access under the guard of the control block** goes on with the call, or ends it with
the answer that the call has in one step. -/
theorem access (h : pc.Follows a b left) (ha : a.Represents l)
    (hact : pc.act b = some (.access b' pc')) (hheld : Guard.controlWrite ∈ pc.guards) :
    ∃ m op, left = m + 1 ∧ pc.phase = .pending op ∧
      (pc'.phase = .pending op ∧ pc'.Follows a b' m ∨
        ∃ reply, pc'.phase = .done reply ∧ a.answer op = some (reply, b') ∧
          pc'.Follows b' b' m) := by
  obtain ⟨hguards, hne, hlen, -, hmap, op, hop, hcases⟩ := Pc.keeps hact
  obtain ⟨k, hk, halone⟩ := h.exists_pending ha hop
  rw [if_pos hheld] at halone
  refine ⟨left - 1, op, by omega, hop, ?_⟩
  rcases hcases with hpending | ⟨reply, hdone⟩
  · rw [Pc.alone_access hact hpending] at halone
    refine .inl ⟨hpending, hguards ▸ h.ordered, ?_, ?_, ?_⟩
    · intro op' hop'
      obtain rfl : op' = op := by rw [hpending] at hop'; cases hop'; rfl
      exact ⟨k, by omega, by rwa [if_pos (hguards ▸ hheld)]⟩
    · intro reply hreply
      rw [hpending] at hreply
      cases hreply
    · intro _ hmapped
      rw [hguards] at hmapped
      rw [hmap hmapped, h.mapped hheld hmapped]
  · rw [Pc.alone_effect hact hdone] at halone
    exact .inr ⟨reply, hdone, (Option.some.inj halone).symm,
      of_done hguards hne (by omega) h.ordered hdone fun _ => rfl⟩

/-- **An access without it** ends the call with the answer that the call has in one step, and
leaves the buffer alone. -/
theorem look (h : pc.Follows a b left) (ha : a.Represents l)
    (hact : pc.act b = some (.access b' pc')) (hfree : Guard.controlWrite ∉ pc.guards)
    (hmap : Guard.mmapRead ∈ pc.guards → b.mmap = a.mmap ∧ b.size = a.size)
    (hcontrol : Guard.controlRead ∈ pc.guards → b.control = a.control) :
    ∃ m op reply, left = m + 1 ∧ pc.phase = .pending op ∧ pc'.phase = .done reply ∧ b' = b ∧
      a.answer op = some (reply, a) ∧ pc'.Follows a b m := by
  obtain ⟨hguards, hne, hlen, -, -, op, hop, -⟩ := Pc.keeps hact
  obtain ⟨rfl, hact', reply, hdone⟩ := Pc.act_of_not_mem hfree hact hmap hcontrol
  obtain ⟨k, hk, halone⟩ := h.exists_pending ha hop
  rw [if_neg hfree] at halone
  have heffect := halone a l ha rfl
  rw [Pc.alone_effect hact' hdone] at heffect
  exact ⟨left - 1, op, reply, by omega, hop, hdone, rfl, (Option.some.inj heffect).symm,
    of_done hguards hne (by omega) h.ordered hdone fun hmem => absurd hmem hfree⟩

/-- A thread holds one guard of each lock at most. -/
theorem eq_of_rank (h : pc.Follows a b left) {g g' : Guard} (hg : g ∈ pc.guards)
    (hg' : g' ∈ pc.guards) (hrank : g.rank = g'.rank) : g = g' := by
  have hnodup : (pc.guards.map Guard.rank).Nodup :=
    List.pairwise_map.mpr (h.ordered.imp fun hlt => (ne_of_lt hlt).symm)
  exact List.inj_on_of_nodup_map hnodup hg hg' hrank

end Pc.Follows

end

end Sherlog
