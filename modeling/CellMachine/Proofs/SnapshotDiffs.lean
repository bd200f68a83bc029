import CellMachine.Machine.Inspect
import CellMachine.Proofs.BitVectors
import CellMachine.Proofs.MemoryHistories

/-!
# What two snapshots tell

A snapshot shows the cells of a block from some position on as bytes, each cell as the four bytes of
its two's complement, the least significant first (`littleEndian`). The comparison of two snapshots
reads the bytes back as words and lists the cells that have changed.

* `wordsOfBytes?_flatMap` is the way back from bytes to words. Every cell holds a word, so nothing
  is lost on the way.
* `Snapshot.mem_changedWords_iff` is the comparison: a position is listed exactly if the words there
  differ.
* `Machine.OfWords.snapshot_eq` is the part of the block that a snapshot shows. It is cut at the end
  of the block, and empty beyond it.
* `snapshot_diff_exact` is about any two states of a memory. The comparison lists exactly the cells
  of the part that differ, in order, so writing the new words over the earlier state gives the later
  one there.
-/

namespace CellMachine

open Exec

/-! ### Words as bytes -/

/-- The bytes of the last 32 bits of a number, the least significant first. -/
def littleEndian (v : Int) : List UInt8 :=
  [0, 8, 16, 24].map fun shift => UInt8.ofBitVec ((BitVec.ofInt 32 v).extractLsb' shift 8)

theorem wordBytes_eq_littleEndian (v : Int) : wordBytes v = littleEndian v := by
  have hbyte (shift : Nat) :
      UInt8.ofBitVec ((BitVec.ofInt 32 v).extractLsb' shift 8) =
        UInt8.ofNat ((v % 4294967296).toNat >>> shift % 256) := by
    apply UInt8.toNat_inj.mp
    rw [UInt8.toNat_ofBitVec, BitVec.extractLsb'_toNat, BitVec.toNat_ofInt, UInt8.toNat_ofNat']
    exact (Nat.mod_mod _ 256).symm
  -- to shift the bits is to divide the number that they write
  simp only [wordBytes, littleEndian, List.map_cons, List.map_nil, hbyte,
    Nat.shiftRight_eq_div_pow, Nat.reducePow, Nat.div_one]

/-- The bytes of a number, read back, give its word. -/
theorem wordsOfBytes?_wordBytes_append (v : Int) (rest : List UInt8) :
    wordsOfBytes? (wordBytes v ++ rest) = (wordsOfBytes? rest).map (Word.wrap v :: ·) := by
  -- the four bytes are the digits of the remainder in base 256, which add up to it again
  have hword (n : Nat) (hn : n = (v % 4294967296).toNat) :
      wordOfBytes (UInt8.ofNat (n % 256)) (UInt8.ofNat (n / 256 % 256))
        (UInt8.ofNat (n / 65536 % 256)) (UInt8.ofNat (n / 16777216 % 256)) = Word.wrap v := by
    have hsum : ((n % 256 % 256 : Nat) : Int) + 256 * (n / 256 % 256 % 256 : Nat) +
        65536 * (n / 65536 % 256 % 256 : Nat) + 16777216 * (n / 16777216 % 256 % 256 : Nat) =
          v % 4294967296 := by omega
    simp only [wordOfBytes, UInt8.toNat_ofNat', Nat.reducePow]
    rw [hsum]
    exact Int.emod_bmod v 4294967296
  show (wordsOfBytes? rest).map (_ :: ·) = _
  rw [hword _ rfl]

/-- **Words come back from their bytes.** -/
theorem wordsOfBytes?_flatMap {words : List Int} (h : ∀ v ∈ words, Word.InRange v) :
    wordsOfBytes? (words.flatMap wordBytes) = some words := by
  induction words with
  | nil => rfl
  | cons v words ih =>
    obtain ⟨hv, hwords⟩ := List.forall_mem_cons.mp h
    rw [List.flatMap_cons, wordsOfBytes?_wordBytes_append, ih hwords, Word.wrap_of_inRange hv]
    rfl

/-! ### The words that differ -/

namespace Snapshot

/-- **A position is listed exactly if the words there differ.** -/
theorem mem_changedWords_iff {base i old new : Int} {as bs : List Int} :
    (i, old, new) ∈ changedWords base as bs ↔
      ∃ k : Nat, as[k]? = some old ∧ bs[k]? = some new ∧ old ≠ new ∧ i = base + k := by
  -- the first position is looked at, and the others have moved by one
  induction as generalizing base bs with
  | nil => simp [changedWords]
  | cons a as ih =>
    cases bs with
    | nil => simp [changedWords]
    | cons b bs =>
      have hfirst : ((a :: as)[0]? = some old ∧ (b :: bs)[0]? = some new ∧ old ≠ new ∧
          i = base + (0 : Nat)) ↔ a ≠ b ∧ (i, old, new) = (base, a, b) := by
        simp only [List.getElem?_cons_zero, Option.some.injEq, Prod.mk.injEq]
        grind
      have hrest : (i, old, new) ∈ changedWords (base + 1) as bs ↔
          ∃ k : Nat, (a :: as)[k + 1]? = some old ∧ (b :: bs)[k + 1]? = some new ∧ old ≠ new ∧
            i = base + (k + 1 : Nat) := by
        rw [ih]
        refine exists_congr fun k => ?_
        rw [List.getElem?_cons_succ, List.getElem?_cons_succ, Int.natCast_succ, Int.add_assoc,
          Int.add_comm 1]
      rw [← Nat.or_exists_add_one, ← hrest, hfirst, changedWords]
      split
      · next hab => simp [hab]
      · next hab => simp [hab]

theorem pairwise_changedWords (base : Int) (as bs : List Int) :
    (changedWords base as bs).Pairwise fun x y => x.1 < y.1 := by
  fun_induction changedWords base as bs with
  | case1 base as bs b ih => exact ih
  | case2 base a as b bs hne ih =>
    refine List.pairwise_cons.mpr ⟨?_, ih⟩
    rintro ⟨i, old, new⟩ hmem
    obtain ⟨k, -, -, -, hi⟩ := mem_changedWords_iff.mp hmem
    show base < i
    omega
  | case3 => exact .nil

end Snapshot

/-! ### The cells that a snapshot shows -/

namespace Machine

variable {count : Nat} {m earlier later : Machine}

/-- The words of the cells from `start` up to `stop`. -/
def wordsBetween (m : Machine) (start stop : Int) : List Int :=
  m.cells.range start.toNat (stop - start).toNat

theorem getElem?_wordsBetween {start stop v : Int} {k : Nat} :
    (m.wordsBetween start stop)[k]? = some v ↔
      k < (stop - start).toNat ∧ m.cells.get (start.toNat + k) = v := by
  unfold wordsBetween Cells.range
  rw [List.getElem?_map]
  by_cases hk : k < (stop - start).toNat
  · simp [hk]
  · simp [hk]

/-- Some bytes show the cells from `start` up to `stop`, one word after the other. -/
def Shows (m : Machine) (start stop : Int) (bytes : List UInt8) : Prop :=
  ∃ words : List Int, bytes = words.flatMap littleEndian ∧ words.length = (stop - start).toNat ∧
    ∀ (k : Nat) (v : Int), words[k]? = some v → readCell (start + k) m = .ok v m

namespace OfWords

theorem inRange_wordsBetween (h : m.OfWords count false) (start stop : Int) :
    ∀ v ∈ m.wordsBetween start stop, Word.InRange v := by
  intro v hv
  obtain ⟨k, -, rfl⟩ := List.mem_map.mp hv
  exact h.words _

/-- Every cell of a block that is held can be read. -/
theorem readCell_eq (h : m.OfWords count false) (hlimit : (count : Int) ≤ sizeLimit) {i : Int}
    (hi : 0 ≤ i ∧ i < count) : readCell i m = .ok (m.cells.get i.toNat) m := by
  have hcount := h.count
  rw [Machine.readCell_eq, cellAt, locate_of_held (by omega) h.released (by omega)]
  rfl

theorem writeCell_eq (h : m.OfWords count false) (hlimit : (count : Int) ≤ sizeLimit) {i : Int}
    (hi : 0 ≤ i ∧ i < count) (v : Int) :
    writeCell i v m = .ok () { m with cells := m.cells.set i.toNat (Word.wrap v) } := by
  have hcount := h.count
  rw [Machine.writeCell_eq, cellSet, locate_of_held (by omega) h.released (by omega)]
  rfl

/-- **A snapshot** shows the part of the block that was asked for, as far as the block goes. -/
theorem snapshot_eq (h : m.OfWords count false) {start n : Int} (hstart : 0 ≤ start) (hn : 0 ≤ n) :
    m.snapshot start n =
      .ok ((m.wordsBetween start (min (start + n) count)).flatMap wordBytes) := by
  unfold snapshot
  rw [h.released, if_neg Bool.false_ne_true, h.count]
  dsimp only
  rw [if_neg (Int.not_lt.mpr hstart), if_neg (by omega)]
  refine congrArg (fun words : List Int => Except.ok (words.flatMap wordBytes)) ?_
  by_cases hend : start ≤ count
  · have hfirst : min count start.toNat = start.toNat := by omega
    have hlength : min count (start + n).toNat - start.toNat =
        (min (start + n) (count : Int) - start).toNat := by omega
    simp only [hfirst, hlength]
    rfl
  · -- beyond the end of the block there is nothing to show
    have hnone : min count (start + n).toNat - min count start.toNat = 0 := by omega
    have hnone' : (min (start + n) (count : Int) - start).toNat = 0 := by omega
    simp only [hnone, wordsBetween, hnone']
    rfl

theorem shows_snapshot (h : m.OfWords count false) (hlimit : (count : Int) ≤ sizeLimit)
    {start stop : Int} (hstart : 0 ≤ start) (hstop : stop ≤ count) :
    m.Shows start stop ((m.wordsBetween start stop).flatMap wordBytes) := by
  refine ⟨m.wordsBetween start stop, ?_, ?_, fun k v hk => ?_⟩
  · rw [funext wordBytes_eq_littleEndian]
  · simp [wordsBetween, Cells.range]
  · obtain ⟨hlt, rfl⟩ := getElem?_wordsBetween.mp hk
    rw [h.readCell_eq hlimit (by omega)]
    congr 2
    omega

end OfWords

/-! ### Changes -/

/-- Write the new words of a list of changes. -/
def overwrite : List (Int × Int × Int) → Exec Unit
  | [] => pure ()
  | (i, _, new) :: changes => do
    writeCell i new
    overwrite changes

/-- A list has the changes between two states of a block, on the cells from `start` up to `stop`. -/
structure Changes (earlier later : Machine) (start stop : Int)
    (changes : List (Int × Int × Int)) : Prop where
  /-- The cells that are listed are those that differ. -/
  listed : ∀ i old new, (i, old, new) ∈ changes ↔
    (start ≤ i ∧ i < stop) ∧ readCell i earlier = .ok old earlier ∧
      readCell i later = .ok new later ∧ old ≠ new
  /-- Each cell is listed once, in order. -/
  ascending : changes.Pairwise fun x y => x.1 < y.1
  /-- Writing the new words gives the later state. -/
  restores : ∃ m', overwrite changes earlier = .ok () m' ∧
    ∀ i, start ≤ i → i < stop → ∃ v, readCell i later = .ok v later ∧ readCell i m' = .ok v m'

/-- **Writing words of the later state** leaves the others as they were. -/
theorem OfWords.overwrite (hlater : later.OfWords count false) (hlimit : (count : Int) ≤ sizeLimit)
    {changes : List (Int × Int × Int)}
    (hchanges : ∀ x ∈ changes, (0 ≤ x.1 ∧ x.1 < count) ∧ x.2.2 = later.cells.get x.1.toNat)
    (h : m.OfWords count false) :
    ∃ m', Machine.overwrite changes m = .ok () m' ∧ m'.OfWords count false ∧
      ∀ c : Nat, m'.cells.get c = later.cells.get c ∨
        m'.cells.get c = m.cells.get c ∧ ∀ x ∈ changes, x.1 ≠ c := by
  induction changes generalizing m with
  | nil => exact ⟨m, rfl, h, fun c => Or.inr ⟨rfl, fun x hx => nomatch hx⟩⟩
  | cons x changes ih =>
    obtain ⟨i, old, new⟩ := x
    obtain ⟨⟨hi, (hnew : new = later.cells.get i.toNat)⟩, hrest⟩ :=
      List.forall_mem_cons.mp hchanges
    obtain ⟨m', hrun, hwords, hcells⟩ := ih hrest (h.setCell i.toNat new)
    refine ⟨m', ?_, hwords, fun c => ?_⟩
    · show (writeCell i new >>= fun _ => Machine.overwrite changes) m = _
      rw [Exec.bind_apply, h.writeCell_eq hlimit hi]
      exact hrun
    · refine (hcells c).elim Or.inl ?_
      rintro ⟨hkept, hother⟩
      rw [Cells.get_set] at hkept
      split at hkept
      · -- the cell that was just written, and then no more
        next hc =>
        left
        have hword : Word.InRange new := hnew ▸ hlater.words _
        rw [hkept, Word.wrap_of_inRange hword, ← hc, hnew]
      · next hc =>
        refine Or.inr ⟨hkept, List.forall_mem_cons.mpr ⟨fun (hic : i = c) => hc ?_, hother⟩⟩
        omega

/-- What the comparison of two states gives for the cells from `start` up to `stop`. -/
def changesTo (earlier later : Machine) (start stop : Int) : List (Int × Int × Int) :=
  Snapshot.changedWords start (earlier.wordsBetween start stop) (later.wordsBetween start stop)

namespace OfWords

variable (h : earlier.OfWords count false) (h' : later.OfWords count false)
  (hlimit : (count : Int) ≤ sizeLimit) {start stop : Int} (hstart : 0 ≤ start)
  (hstop : stop ≤ count)

include h h' hlimit hstart hstop

/-- A cell is listed exactly if it has changed. -/
theorem mem_changesTo_iff (i old new : Int) :
    (i, old, new) ∈ earlier.changesTo later start stop ↔
      (start ≤ i ∧ i < stop) ∧ readCell i earlier = .ok old earlier ∧
        readCell i later = .ok new later ∧ old ≠ new := by
  unfold changesTo
  rw [Snapshot.mem_changedWords_iff]
  constructor
  · rintro ⟨k, hold, hnew, hne, rfl⟩
    obtain ⟨hk, rfl⟩ := getElem?_wordsBetween.mp hold
    obtain ⟨-, rfl⟩ := getElem?_wordsBetween.mp hnew
    have hcell : (start + k).toNat = start.toNat + k := by omega
    rw [h.readCell_eq hlimit (by omega), h'.readCell_eq hlimit (by omega), hcell]
    exact ⟨by omega, rfl, rfl, hne⟩
  · rintro ⟨⟨hlow, hhigh⟩, hold, hnew, hne⟩
    rw [h.readCell_eq hlimit (by omega)] at hold
    rw [h'.readCell_eq hlimit (by omega)] at hnew
    have hcell : start.toNat + (i - start).toNat = i.toNat := by omega
    refine ⟨(i - start).toNat, getElem?_wordsBetween.mpr ⟨by omega, ?_⟩,
      getElem?_wordsBetween.mpr ⟨by omega, ?_⟩, hne, by omega⟩
    · rw [hcell]
      exact (EStateM.Result.ok.inj hold).1
    · rw [hcell]
      exact (EStateM.Result.ok.inj hnew).1

/-- A cell that is not listed has not changed, so it is enough to write the listed words. -/
theorem overwrite_changesTo :
    ∃ m', Machine.overwrite (earlier.changesTo later start stop) earlier = .ok () m' ∧
      ∀ i, start ≤ i → i < stop →
        ∃ v, readCell i later = .ok v later ∧ readCell i m' = .ok v m' := by
  have hlisted := h.mem_changesTo_iff h' hlimit hstart hstop
  have hchanges : ∀ x ∈ earlier.changesTo later start stop,
      (0 ≤ x.1 ∧ x.1 < count) ∧ x.2.2 = later.cells.get x.1.toNat := by
    rintro ⟨i, old, new⟩ hx
    obtain ⟨hi, -, hnew, -⟩ := (hlisted i old new).mp hx
    rw [h'.readCell_eq hlimit (by omega)] at hnew
    exact ⟨⟨by omega, by omega⟩, (EStateM.Result.ok.inj hnew).1.symm⟩
  obtain ⟨m', hrun, hwords, hcells⟩ := h'.overwrite hlimit hchanges h
  refine ⟨m', hrun, fun i hlow hhigh => ⟨_, h'.readCell_eq hlimit (by omega), ?_⟩⟩
  rw [hwords.readCell_eq hlimit (by omega)]
  rcases hcells i.toNat with hsame | ⟨hkept, hother⟩
  · rw [hsame]
  · by_cases heq : earlier.cells.get i.toNat = later.cells.get i.toNat
    · rw [hkept, heq]
    · have hmem := (hlisted i _ _).mpr ⟨⟨hlow, hhigh⟩, h.readCell_eq hlimit (by omega),
        h'.readCell_eq hlimit (by omega), heq⟩
      exact absurd (Int.toNat_of_nonneg (by omega)).symm (hother _ hmem)

/-- **Comparing two blocks of words** of one size finds the changes between them. -/
theorem changes : earlier.Changes later start stop (earlier.changesTo later start stop) where
  listed := h.mem_changesTo_iff h' hlimit hstart hstop
  ascending := Snapshot.pairwise_changedWords _ _ _
  restores := h.overwrite_changesTo h' hlimit hstart hstop

end OfWords

end Machine

open Machine

/-- **The comparison of two snapshots is exact.** The two are taken of a memory that was created
with some size, at any two times, whatever has happened before and between them, as long as the
block is held. Each shows the words of the cells that it was asked for, as far as the block goes.
Compared, they give the cells of this part that differ, in order, with the old word and the new, and
no other; so the new words, written over the earlier state, give the later one there. -/
theorem snapshot_diff_exact {size : Int} {checked : Bool} {created earlier later : Machine}
    (hcreate : Machine.create size checked = .ok created) {before between : List MemoryEvent}
    (hearlier : created.afterEvents before = earlier)
    (hlater : earlier.afterEvents between = later) (hheld : later.released = false)
    {start n : Int} (hstart : 0 ≤ start) (hn : 0 ≤ n) :
    ∃ a b changes,
      (earlier.snapshot start n = .ok a ∧
        earlier.Shows start (min (start + n) created.cellCount) a) ∧
      (later.snapshot start n = .ok b ∧
        later.Shows start (min (start + n) created.cellCount) b) ∧
      Snapshot.diff? a b start = some changes ∧
      earlier.Changes later start (min (start + n) created.cellCount) changes := by
  obtain ⟨hnew, hlimit⟩ := ofWords_create hcreate
  obtain ⟨released, h, -⟩ := ofWords_afterEvents hnew before
  rw [hearlier] at h
  obtain ⟨released', h', hstays⟩ := ofWords_afterEvents h between
  rw [hlater] at h'
  -- the block is held at the later time, so it was held at the earlier
  obtain rfl : released' = false := h'.released.symm.trans hheld
  obtain rfl : released = false := by
    cases released with
    | false => rfl
    | true => exact (hstays rfl).symm
  have hstop : min (start + n) (created.cellCount : Int) ≤ created.cellCount := Int.min_le_right ..
  refine ⟨_, _, _, ⟨h.snapshot_eq hstart hn, h.shows_snapshot hlimit hstart hstop⟩,
    ⟨h'.snapshot_eq hstart hn, h'.shows_snapshot hlimit hstart hstop⟩, ?_,
    h.changes h' hlimit hstart hstop⟩
  unfold Snapshot.diff?
  rw [wordsOfBytes?_flatMap (h.inRange_wordsBetween _ _),
    wordsOfBytes?_flatMap (h'.inRange_wordsBetween _ _)]
  rfl

/-- A checked block of three cells, two of which have been written. -/
def threeCells : Machine :=
  afterEvents { cellCount := 3, checked := true } [.access (.write 1 7), .access (.write 2 5)]

/-- The same block after two more writes. A third is refused. -/
def threeCellsLater : Machine :=
  threeCells.afterEvents [.access (.write 1 (-2)), .access (.write 0 1), .access (.write 9 4)]

/-- The snapshots end with the block, and the one change after the first cell is found. -/
theorem threeCells_diff :
    threeCells.snapshot 1 5 = .ok [7, 0, 0, 0, 5, 0, 0, 0] ∧
    threeCellsLater.snapshot 1 5 = .ok [254, 255, 255, 255, 5, 0, 0, 0] ∧
    threeCells.Changes threeCellsLater 1 3 [(1, 7, -2)] := by
  have hcreate : Machine.create 12 true = .ok { cellCount := 3, checked := true } := rfl
  obtain ⟨a, b, changes, ⟨ha, -⟩, ⟨hb, -⟩, hdiff, hchanges⟩ :=
    snapshot_diff_exact hcreate (rfl : _ = threeCells) (rfl : _ = threeCellsLater) rfl
      (by decide : (0 : Int) ≤ 1) (by decide : (0 : Int) ≤ 5)
  have ha' : threeCells.snapshot 1 5 = .ok [7, 0, 0, 0, 5, 0, 0, 0] := rfl
  have hb' : threeCellsLater.snapshot 1 5 = .ok [254, 255, 255, 255, 5, 0, 0, 0] := rfl
  obtain rfl := Except.ok.inj (ha.symm.trans ha')
  obtain rfl := Except.ok.inj (hb.symm.trans hb')
  obtain rfl : changes = [(1, 7, -2)] := Option.some.inj (hdiff.symm.trans (by decide))
  exact ⟨ha', hb', hchanges⟩

end CellMachine
