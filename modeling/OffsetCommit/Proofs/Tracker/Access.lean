import OffsetCommit.Proofs.Tracker.Refinement

/-!
# Trackers stay within their blocks

The operations of a tracker are total: a block that is not there reads as empty, a mark beyond the
blocks is dropped, and no number is too large. Here each of them gets a strict twin (`resolve?`,
`takeRun?`, `run?`) that reads and writes allocated blocks only, shifts a word by less than its
width, counts in 64 bits, and otherwise fails.

* `WellFormed.isLaidOut`: how the marks of a tracker lie in its blocks (`Tracker.IsLaidOut`).
* `resolve?_eq`, `WellFormed.isSafe`, `WellFormed.run?_eq`: so the strict operations never fail
  and do what the total ones do.
* `WellFormed.pendingRun?_eq_none_iff`: one sum can leave the 64 bits, the length of a run from
  offset 0 to the last one. It takes the last offset resolved while nothing is committed, so runs
  that stay nearer to the commit point than that (`IsNear`) are free of it.
* `accesses_are_safe`: all of this of every run.
-/

namespace OffsetCommit

/-! ## Strict arithmetic -/

namespace Word

/-- The number, if it fits into 64 bits. -/
def fit? (n : Nat) : Option Nat :=
  if n < 0x10000000000000000 then some n else none

/-- What is left of a number, unless more is taken away than there is. -/
def sub? (a b : Nat) : Option Nat :=
  if b ≤ a then some (a - b) else none

/-- A single bit, moved up by at most 63 places. -/
def flag? (bit : Nat) : Option (BitVec 64) :=
  if bit ≤ 63 then some (1#64 <<< bit) else none

/-- All bits, moved down by at most 63 places. -/
def ones? (amount : Nat) : Option (BitVec 64) :=
  if amount ≤ 63 then some (BitVec.allOnes 64 >>> amount) else none

/-- A number below `2 ^ 64` fits. -/
theorem fit?_of_lt {n : Nat} (h : n < 0x10000000000000000) : fit? n = some n :=
  if_pos h

/-- The difference of `a` and `b ≤ a` is there. -/
theorem sub?_of_le {a b : Nat} (h : b ≤ a) : sub? a b = some (a - b) :=
  if_pos h

/-- More cannot be taken away than there is. -/
theorem sub?_of_lt {a b : Nat} (h : a < b) : sub? a b = none :=
  if_neg (Nat.not_le_of_lt h)

/-- A single bit can be moved up by `bit < 64` places. -/
theorem flag?_of_lt {bit : Nat} (h : bit < 64) : flag? bit = some (BitVec.twoPow 64 bit) := by
  rw [flag?, if_pos (Nat.le_of_lt_succ h), BitVec.twoPow]

end Word

/-! ## Strict bitmaps -/

/-- How far a place is from the beginning, counted in 64 bits. -/
def Position.distance? (p : Position) : Option Nat := do
  let start ← Word.fit? (p.block * 64)
  Word.fit? (start + p.bit)

/-- A distance below `2 ^ 64` is counted. -/
theorem Position.distance?_of_lt {p : Position} (h : p.distance < 0x10000000000000000) :
    p.distance? = some p.distance := by
  have hstart : p.block * 64 < 0x10000000000000000 := Nat.lt_of_le_of_lt (Nat.le_add_right _ _) h
  rw [Position.distance?, Word.fit?_of_lt hstart]
  exact Word.fit?_of_lt h

namespace Bitmap

/-- The blocks in front of a given one, if all of them are allocated. -/
def slice? (m : Bitmap) (block : Nat) : Option (Array (BitVec 64)) :=
  if block ≤ m.blocks.size then some (m.blocks.extract 0 block) else none

/-- Writes a block, if it is allocated. -/
def write? (m : Bitmap) (block : Nat) (word : BitVec 64) : Option Bitmap :=
  if h : block < m.blocks.size then some ⟨m.blocks.set block word h⟩ else none

/-- Makes a block addressable, with the new number of blocks counted in 64 bits. -/
def reserve? (m : Bitmap) (block : Nat) : Option Bitmap :=
  if block < m.blocks.size then some m
  else do
    let needed ← Word.fit? (block + 1)
    let size ← Word.fit? (2 * needed)
    let new ← Word.sub? size m.blocks.size
    some ⟨m.blocks ++ Array.replicate new 0⟩

/-- The block whose marks are exactly the bits up to `bit`. -/
def lowMask? (bit : Nat) : Option (BitVec 64) := do
  let amount ← Word.sub? 63 bit
  Word.ones? amount

/-- Whether the blocks up to that of `p` are marked exactly at the places up to `p`. -/
def isFilledTo? (m : Bitmap) (p : Position) : Option Bool := do
  let earlier ← m.slice? p.block
  let last ← m.blocks[p.block]?
  let mask ← lowMask? p.bit
  some (earlier.all (· == BitVec.allOnes 64) && last == mask)

/-- Up to the block of the last offset the number of blocks stays within 64 bits. -/
theorem reserve?_of_lt {m : Bitmap} {block : Nat} (h : block < 0x400000000000000) :
    m.reserve? block = some (m.reserve block) := by
  unfold reserve? reserve
  split
  · rfl
  · next hsize =>
      have hneeded : block + 1 < 0x10000000000000000 := by omega
      have htwice : 2 * (block + 1) < 0x10000000000000000 := by omega
      have hmore : m.blocks.size ≤ 2 * (block + 1) := by omega
      simp only [Word.fit?_of_lt hneeded, Word.fit?_of_lt htwice, Word.sub?_of_le hmore,
        Option.bind_eq_bind, Option.bind_some]

/-- The mask of the bits up to `bit < 64` is there. -/
theorem lowMask?_of_lt {bit : Nat} (h : bit < 64) : lowMask? bit = some (lowMask bit) := by
  have hle : bit ≤ 63 := Nat.le_of_lt_succ h
  rw [lowMask?, Word.sub?_of_le hle]
  exact if_pos (Nat.sub_le 63 bit)

/-- Comparing the blocks in front of an allocated one reads allocated blocks only. -/
theorem isFilledTo?_of_lt {m : Bitmap} {p : Position} (hp : p.block < m.blocks.size)
    (hb : p.bit < 64) : m.isFilledTo? p = some (m.isFilledTo p) := by
  have hall : (m.blocks.extract 0 p.block).all (· == BitVec.allOnes 64) =
      m.blocks.all (· == BitVec.allOnes 64) 0 p.block := by
    rw [Bool.eq_iff_iff, Array.all_iff_forall, Array.all_iff_forall]
    simp only [Array.getElem_extract, Nat.zero_add, Array.size_extract, Nat.zero_le, true_and]
    constructor
    · intro h i hi hlt
      exact h i (by omega) (by omega)
    · intro h i hi _
      exact h i (by omega) (by omega)
  have hslice : m.slice? p.block = some (m.blocks.extract 0 p.block) := if_pos hp.le
  have hlast : m.blocks[p.block]? = some m.blocks[p.block] := Array.getElem?_eq_getElem hp
  rw [isFilledTo?, isFilledTo, hslice, hlast, lowMask?_of_lt hb, ← hall]
  rfl

/-- A flag is set in a word just when its bit is. -/
theorem and_twoPow_ne_zero_iff {word : BitVec 64} {bit : Nat} (h : bit < 64) :
    word &&& BitVec.twoPow 64 bit ≠ 0 ↔ word.getLsbD bit = true := by
  rw [BitVec.and_twoPow]
  split
  · next hset =>
      refine ⟨fun _ => hset, fun _ hzero => ?_⟩
      have hbit := congrArg (·.getLsbD bit) hzero
      simp [h] at hbit
  · next hunset => exact ⟨fun hne => absurd rfl hne, fun hset => absurd hset hunset⟩

/-- Writing a word with one more flag is marking a place. -/
theorem write?_mark {m : Bitmap} {p : Position} (hp : p.block < m.blocks.size) :
    m.write? p.block (m.blocks[p.block] ||| BitVec.twoPow 64 p.bit) = some (m.mark p) := by
  have hsame : m.blocks.set p.block (m.blocks[p.block] ||| BitVec.twoPow 64 p.bit) hp =
      m.blocks.modify p.block (· ||| BitVec.twoPow 64 p.bit) := by
    apply Array.ext_getElem?
    intro i
    rw [Array.getElem?_set, Array.getElem?_modify]
    split
    · next hi =>
        subst hi
        rw [Array.getElem?_eq_getElem hp, Option.map_some]
    · rfl
  rw [write?, dif_pos hp, mark, hsame]

end Bitmap

/-! ## Strict trackers -/

/-- The length of the run that waits for a commit, counted in 64 bits. -/
def Snapshot.committableRun? (s : Snapshot) : Option Nat :=
  match s.committable, s.highest with
  | true, some high => do
      let distance ← Word.sub? high.toNat s.commitPoint.toNat
      Word.fit? (distance + 1)
  | _, _ => some 0

namespace Tracker

/-- Notes that an offset is resolved, and fails when it would have to reach out of the blocks. -/
def resolve? (t : Tracker) (o : Offset) : Option (Resolution × Tracker) :=
  match Word.sub? o.toNat t.commitPoint.toNat with
  | none => some (.stale, t)
  | some distance => do
      let p := Position.ofDistance distance
      let bitmap ← t.bitmap.reserve? p.block
      let flag ← Word.flag? p.bit
      let word ← bitmap.blocks[p.block]?
      if word &&& flag ≠ 0 then
        some (.duplicate, { t with bitmap := bitmap })
      else do
        let marked ← bitmap.write? p.block (word ||| flag)
        some (.marked, { t with bitmap := marked, highWater := raise t.highWater p })

/-- Whether every offset from the commit point up to the highest resolved one is resolved. -/
def isCommittable? (t : Tracker) : Option Bool :=
  match t.highWater with
  | none => some false
  | some high => t.bitmap.isFilledTo? high

/-- The number of offsets up to the highest resolved one, counted in 64 bits. -/
def pendingRun? (t : Tracker) : Option Nat :=
  match t.highWater with
  | none => some 0
  | some high => do
      let distance ← high.distance?
      Word.fit? (distance + 1)

/-- The highest resolved offset; there is no stopping at the last offset. -/
def highestResolved? (t : Tracker) : Option (Option Offset) :=
  match t.highWater with
  | none => some none
  | some high => do
      let distance ← high.distance?
      let o ← Offset.ofNat? (t.commitPoint.toNat + distance)
      some (some o)

/-- Takes the run out if it is complete. -/
def takeRun? (t : Tracker) : Option (Option Advance × Tracker) := do
  if ← t.isCommittable? then
    let count ← t.pendingRun?
    let point := t.commitPoint.advance count
    some (some ⟨point, count⟩, t.rebase point)
  else
    some (none, t)

/-- The tracker after an action. Re-basing asks for no block and no sum. -/
def act? (t : Tracker) : TrackerAction → Option Tracker
  | .resolve o => (t.resolve? o).map Prod.snd
  | .takeRun => t.takeRun?.map Prod.snd
  | .rebase o => some (t.rebase o)

/-- The tracker after several actions, one after the other. -/
def run? (t : Tracker) (actions : List TrackerAction) : Option Tracker :=
  actions.foldlM act? t

/-! ### How the marks lie in the blocks -/

/-- How the marks of a tracker lie in its blocks, said of `t.bitmap.blocks` itself:
`WellFormed.isLaidOut` shows it of every tracker between two operations. -/
structure IsLaidOut (t : Tracker) : Prop where
  /-- There is always a block. -/
  nonempty : 0 < t.bitmap.blocks.size
  /-- There is a high-water mark just when some block is not zero. -/
  highWater_eq_none_iff : t.highWater = none ↔ ∀ block ∈ t.bitmap.blocks, block = 0
  /-- The high-water mark is a bit of its block. -/
  bit_le : ∀ high, t.highWater = some high → high.bit ≤ 63
  /-- The high-water mark lies in an allocated block. -/
  block_lt : ∀ high, t.highWater = some high → high.block < t.bitmap.blocks.size
  /-- In its block the bit of the high-water mark is the highest that is set. -/
  top : ∀ high, t.highWater = some high → ∃ block, t.bitmap.blocks[high.block]? = some block ∧
    block.getLsbD high.bit = true ∧ ∀ bit, high.bit < bit → block.getLsbD bit = false
  /-- All later blocks are zero. -/
  above : ∀ high, t.highWater = some high → ∀ (i : Nat) (block : BitVec 64), high.block < i →
    t.bitmap.blocks[i]? = some block → block = 0

/-- Whether a place is marked is a bit of its block. -/
theorem test_of_getElem? {m : Bitmap} {i : Nat} {block : BitVec 64} (h : m.blocks[i]? = some block)
    (bit : Nat) : m.test ⟨i, bit⟩ = block.getLsbD bit := by
  rw [Bitmap.test, h, Option.getD_some]

/-- A block without a marked place is zero. -/
theorem eq_zero_of_test {m : Bitmap} {i : Nat} {block : BitVec 64} (h : m.blocks[i]? = some block)
    (hunmarked : ∀ bit, bit < 64 → m.test ⟨i, bit⟩ = false) : block = 0 := by
  apply BitVec.eq_of_getLsbD_eq
  intro bit hbit
  rw [← test_of_getElem? h, hunmarked bit hbit]
  exact BitVec.getLsbD_zero.symm

/-- Where all blocks are zero no place is marked. -/
theorem test_of_forall_eq_zero {m : Bitmap} (h : ∀ block ∈ m.blocks, block = 0) (p : Position) :
    m.test p = false := by
  rw [Bitmap.test]
  rcases hblock : m.blocks[p.block]? with _ | block
  · exact BitVec.getLsbD_zero
  · rw [Option.getD_some, h block (Array.mem_of_getElem? hblock)]
    exact BitVec.getLsbD_zero

/-- **The invariant on the blocks** follows from the one on places: `WellFormed` gives `IsLaidOut`. -/
theorem WellFormed.isLaidOut {t : Tracker} (h : t.WellFormed) : t.IsLaidOut where
  nonempty := h.capacity_pos
  highWater_eq_none_iff := by
    constructor
    · intro hnone block hblock
      obtain ⟨i, hi⟩ := Array.mem_iff_getElem?.mp hblock
      exact eq_zero_of_test hi fun bit _ => h.unmarked hnone ⟨i, bit⟩
    · intro hzero
      rw [Option.eq_none_iff_forall_not_mem]
      intro high hhigh
      have hmarked := h.marked high hhigh
      rw [test_of_forall_eq_zero hzero] at hmarked
      cases hmarked
  bit_le high hhigh := Nat.le_of_lt_succ (h.bit_lt high hhigh)
  block_lt := h.block_lt
  top high hhigh := by
    have hat := Array.getElem?_eq_getElem (h.block_lt high hhigh)
    refine ⟨_, hat, ?_, fun bit hbit => ?_⟩
    · rw [← test_of_getElem? hat]
      exact h.marked high hhigh
    · by_cases hreal : bit < 64
      · rw [← test_of_getElem? hat]
        exact h.unmarked_above high hhigh ⟨high.block, bit⟩ hreal (.inr ⟨rfl, hbit⟩)
      · exact BitVec.getLsbD_of_ge _ bit (Nat.le_of_not_lt hreal)
  above high hhigh i block hi hblock :=
    eq_zero_of_test hblock fun bit hbit =>
      h.unmarked_above high hhigh ⟨i, bit⟩ hbit (.inl hi)

/-! ### No access is refused -/

/-- The distance of an offset that is not stale is counted. -/
theorem sub?_toNat {t : Tracker} {o : Offset} (h : t.commitPoint ≤ o) :
    Word.sub? o.toNat t.commitPoint.toNat = some (o.toNat - t.commitPoint.toNat) :=
  Word.sub?_of_le (Offset.le_def.mp h)

/-- **Resolving never reaches out of the blocks**, whichever offset is resolved: `t.resolve? o =
some (t.resolve o)`. -/
theorem resolve?_eq (t : Tracker) (o : Offset) : t.resolve? o = some (t.resolve o) := by
  by_cases hstale : o < t.commitPoint
  · rw [resolve?, Word.sub?_of_lt (Offset.lt_def.mp hstale), resolve, if_pos hstale]
  have hle : t.commitPoint ≤ o := le_of_not_gt hstale
  have hbit : (t.position o).bit < 64 := position_bit_lt t o
  have hblock : (t.position o).block < 0x400000000000000 := by
    have := o.toNat_lt
    simp only [position, Position.ofDistance]
    omega
  have hroom : (t.position o).block < (t.bitmap.reserve (t.position o).block).blocks.size := by
    have hcapacity := Bitmap.capacity_reserve t.bitmap (t.position o).block
    unfold Bitmap.capacity at hcapacity
    rw [hcapacity]
    split <;> omega
  have hword := Array.getElem?_eq_getElem hroom
  simp only [resolve?, sub?_toNat hle, resolve, if_neg hstale]
  rw [show Position.ofDistance (o.toNat - t.commitPoint.toNat) = t.position o from rfl,
    Bitmap.reserve?_of_lt hblock, Word.flag?_of_lt hbit]
  simp only [Option.bind_eq_bind, Option.bind_some, hword, Bitmap.and_twoPow_ne_zero_iff hbit,
    ← test_of_getElem? hword, Bitmap.write?_mark hroom]
  split
  · rfl
  · rfl

/-- To look for gaps never fails: `isCommittable?` gives what `isCommittable` gives. -/
theorem WellFormed.isCommittable?_eq {t : Tracker} (h : t.WellFormed) :
    t.isCommittable? = some t.isCommittable := by
  unfold isCommittable? isCommittable
  rcases hhigh : t.highWater with _ | high
  · rfl
  · exact Bitmap.isFilledTo?_of_lt (h.block_lt high hhigh) (h.bit_lt high hhigh)

/-- The distance of the high-water mark is counted in 64 bits. -/
theorem WellFormed.distance?_eq {t : Tracker} (h : t.WellFormed) {high : Position}
    (hhigh : t.highWater = some high) : high.distance? = some high.distance := by
  apply Position.distance?_of_lt
  have := h.in_range high hhigh
  omega

/-- The highest resolved offset is found without stopping at the last one. -/
theorem WellFormed.highestResolved?_eq {t : Tracker} (h : t.WellFormed) :
    t.highestResolved? = some t.highestResolved := by
  unfold highestResolved?
  rcases hhigh : t.highWater with _ | high
  · rw [highestResolved_eq_none.mpr hhigh]
  · have hrange := h.in_range high hhigh
    obtain ⟨o, ho, -, -, hnat⟩ := h.highestResolved_eq hhigh
    have hfits : Offset.ofNat? (t.commitPoint.toNat + high.distance) = some o := by
      rw [Offset.ofNat?, dif_pos hrange, Option.some_inj]
      ext
      exact hnat.symm
    simp only [h.distance?_eq hhigh, Option.bind_eq_bind, Option.bind_some, hfits, ho]

/-! ### The one sum that can be too large -/

/-- Of the sums for the pending run only the last one can leave the 64 bits. -/
theorem WellFormed.pendingRun?_eq {t : Tracker} (h : t.WellFormed) :
    t.pendingRun? = Word.fit? t.pendingRun := by
  unfold pendingRun? pendingRun
  rcases hhigh : t.highWater with _ | high
  · rfl
  · simp only [h.distance?_eq hhigh, Option.bind_eq_bind, Option.bind_some]

/-- The highest resolved offset does not lie below the commit point. -/
theorem WellFormed.commitPoint_le {t : Tracker} (h : t.WellFormed) {high : Offset}
    (hhigh : t.highestResolved = some high) : t.commitPoint ≤ high :=
  (isMarked_iff.mp (h.isMarked_highest hhigh).1).1

/-- If the pending run has a length below `2^64`, the length of the run that waits for a commit fits
as well. -/
theorem WellFormed.committableRun?_eq {t : Tracker} (h : t.WellFormed)
    (hlt : t.pendingRun < 0x10000000000000000) :
    t.snapshot.committableRun? = some t.snapshot.committableRun := by
  unfold Snapshot.committableRun? Snapshot.committableRun
  simp only [snapshot]
  rcases hcommittable : t.isCommittable with _ | _
  · rfl
  · rcases hhigh : t.highestResolved with _ | high
    · rfl
    · rw [h.pendingRun_eq hhigh] at hlt
      simp only [sub?_toNat (h.commitPoint_le hhigh), Word.fit?_of_lt hlt, Option.bind_eq_bind,
        Option.bind_some]

/-- **What makes the sum too large**: `.last` is marked, and the commit point is `.zero`. -/
theorem WellFormed.pendingRun?_eq_none_iff {t : Tracker} (h : t.WellFormed) :
    t.pendingRun? = none ↔ t.commitPoint = .zero ∧ t.isMarked .last = true := by
  rw [h.pendingRun?_eq, Word.fit?, ite_eq_right_iff, imp_iff_not (Option.some_ne_none _), not_lt]
  constructor
  · intro hlarge
    rcases hhigh : t.highestResolved with _ | high
    · rw [pendingRun_of_none hhigh] at hlarge
      exact absurd hlarge (by decide)
    · have hmarked := (h.isMarked_highest hhigh).1
      have hlast := high.toNat_lt
      rw [h.pendingRun_eq hhigh] at hlarge
      have hpoint : t.commitPoint = .zero := by
        ext
        rw [Offset.toNat_zero]
        omega
      have hhighest : high = .last := by
        ext
        rw [Offset.toNat_last]
        omega
      exact ⟨hpoint, hhighest ▸ hmarked⟩
  · rintro ⟨hpoint, hlast⟩
    obtain ⟨high, hhigh⟩ := Option.ne_none_iff_exists'.mp fun hnone =>
      Bool.false_ne_true ((h.isMarked_of_none hnone .last).symm.trans hlast)
    have hle := Offset.le_def.mp ((h.isMarked_highest hhigh).2 .last hlast)
    rw [h.pendingRun_eq hhigh, hpoint, Offset.toNat_zero]
    rw [Offset.toNat_last] at hle
    omega

/-- Whether every marked offset `o` is near the commit point: `o.toNat - t.commitPoint.toNat <
0xffffffffffffffff`. -/
def IsNear (t : Tracker) : Prop :=
  ∀ o, t.isMarked o = true → o.toNat - t.commitPoint.toNat < 0xffffffffffffffff

/-- Whether the action resolves no offset as far from the commit point as the last offset is from
zero. -/
def keepsNear (t : Tracker) : TrackerAction → Bool
  | .resolve o => o.toNat - t.commitPoint.toNat < 0xffffffffffffffff
  | .takeRun => true
  | .rebase _ => true

/-- Whether every action of a run `keepsNear` the tracker that it finds. -/
def staysNear (t : Tracker) : List TrackerAction → Bool
  | [] => true
  | action :: rest => t.keepsNear action && (t.act action).staysNear rest

/-- A tracker without marks is near. -/
theorem isNear_of_unmarked {t : Tracker} (h : ∀ o, t.isMarked o = false) : t.IsNear := by
  intro o ho
  rw [h o] at ho
  cases ho

/-- An action that `keepsNear` preserves `IsNear`. -/
theorem IsNear.act {t : Tracker} (h : t.IsNear) (hwf : t.WellFormed) {action : TrackerAction}
    (hkeeps : t.keepsNear action = true) : (t.act action).IsNear := by
  cases action with
  | resolve o =>
      rcases hwf.resolve_cases o with
        ⟨-, heq⟩ | ⟨-, -, heq⟩ | ⟨-, -, marked, heq, -, hpoint, hmarked⟩
      · rwa [Tracker.act, heq]
      · rwa [Tracker.act, heq]
      · rw [Tracker.act, heq]
        intro q hq
        rw [hpoint]
        rcases (hmarked q).mp hq with rfl | hold
        · exact of_decide_eq_true hkeeps
        · exact h q hold
  | takeRun =>
      rcases t.takeRun_cases with ⟨-, heq⟩ | ⟨-, heq⟩
      · rwa [Tracker.act, heq]
      · rw [Tracker.act, heq]
        exact isNear_of_unmarked fun o => isMarked_rebase t _ o
  | rebase point => exact isNear_of_unmarked fun o => isMarked_rebase t point o

/-- So do actions that `staysNear` one after the other. -/
theorem IsNear.run {t : Tracker} (h : t.IsNear) (hwf : t.WellFormed)
    {actions : List TrackerAction} (hstays : t.staysNear actions = true) :
    (t.run actions).IsNear := by
  induction actions generalizing t with
  | nil => exact h
  | cons action rest ih =>
      rw [staysNear, Bool.and_eq_true] at hstays
      exact ih (h.act hwf hstays.1) (hwf.act action) hstays.2

/-- Near the commit point the length of the pending run fits into 64 bits. -/
theorem IsNear.pendingRun_lt {t : Tracker} (h : t.IsNear) (hwf : t.WellFormed) :
    t.pendingRun < 0x10000000000000000 := by
  by_contra hlarge
  have hnone : t.pendingRun? = none := by rw [hwf.pendingRun?_eq, Word.fit?, if_neg hlarge]
  obtain ⟨hpoint, hlast⟩ := hwf.pendingRun?_eq_none_iff.mp hnone
  have hfar := h .last hlast
  rw [hpoint] at hfar
  exact absurd hfar (by decide)

/-! ### Safety -/

/-- Whether every access stays within the blocks and every number within 64 bits, whatever is asked
of the tracker next: the strict operations give what the total ones give. -/
structure IsSafe (t : Tracker) : Prop where
  /-- How any offset is taken. -/
  resolve : ∀ o, t.resolve? o = some (t.resolve o)
  /-- Whether a run is complete. -/
  isCommittable : t.isCommittable? = some t.isCommittable
  /-- The length of the pending run. -/
  pendingRun : t.pendingRun? = some t.pendingRun
  /-- The highest resolved offset. -/
  highestResolved : t.highestResolved? = some t.highestResolved
  /-- The run that is taken out. -/
  takeRun : t.takeRun? = some t.takeRun
  /-- The length of the run that waits for a commit. -/
  committableRun : t.snapshot.committableRun? = some t.snapshot.committableRun

/-- If the comparison and the sum succeed, so does taking the run out. -/
theorem takeRun?_eq {t : Tracker} (hcommittable : t.isCommittable? = some t.isCommittable)
    (hpending : t.pendingRun? = some t.pendingRun) : t.takeRun? = some t.takeRun := by
  rw [takeRun?, hcommittable, hpending, Tracker.takeRun]
  rcases t.isCommittable with _ | _
  · rfl
  · rfl

/-- A well-formed tracker that is near `IsSafe`. -/
theorem WellFormed.isSafe {t : Tracker} (h : t.WellFormed) (hnear : t.IsNear) : t.IsSafe := by
  have hlt := hnear.pendingRun_lt h
  have hpending : t.pendingRun? = some t.pendingRun := by
    rw [h.pendingRun?_eq, Word.fit?_of_lt hlt]
  refine ⟨t.resolve?_eq, h.isCommittable?_eq, hpending, h.highestResolved?_eq,
    takeRun?_eq h.isCommittable?_eq hpending, h.committableRun?_eq hlt⟩

/-- Every action of a safe tracker succeeds and does what the total one does. -/
theorem IsSafe.act?_eq {t : Tracker} (h : t.IsSafe) (action : TrackerAction) :
    t.act? action = some (t.act action) := by
  cases action with
  | resolve o => rw [act?, h.resolve, Option.map_some, act]
  | takeRun => rw [act?, h.takeRun, Option.map_some, act]
  | rebase point => rfl

/-- The strict run goes through, and ends where the total one does: `t.run? actions = some (t.run
actions)`. -/
theorem WellFormed.run?_eq {t : Tracker} (h : t.WellFormed) (hnear : t.IsNear)
    {actions : List TrackerAction} (hstays : t.staysNear actions = true) :
    t.run? actions = some (t.run actions) := by
  induction actions generalizing t with
  | nil => rfl
  | cons action rest ih =>
      rw [staysNear, Bool.and_eq_true] at hstays
      rw [run?, List.foldlM_cons, (h.isSafe hnear).act?_eq action]
      exact ih (h.act action) (hnear.act h hstays.1) hstays.2

/-! ### Re-basing -/

/-- Re-basing leaves no bit of any block. -/
theorem WellFormed.eq_zero_of_rebase {t : Tracker} (h : t.WellFormed) (point : Offset) :
    ∀ block ∈ (t.rebase point).bitmap.blocks, block = 0 :=
  (h.rebase point).isLaidOut.highWater_eq_none_iff.mp rfl

/-- After a re-base a tracker represents `.start point`, whatever it held before. -/
theorem WellFormed.represents_rebase {t : Tracker} (h : t.WellFormed) (point : Offset) :
    (t.rebase point).Represents (.start point) where
  wellFormed := h.rebase point
  commitPoint_eq := rfl
  mem_iff o := by simp [ResolvedSet.start]

/-- Trackers that represent one set have the same marks. -/
theorem Represents.isMarked_eq {t u : Tracker} {s : ResolvedSet} (ht : t.Represents s)
    (hu : u.Represents s) (o : Offset) : t.isMarked o = u.isMarked o := by
  rw [Bool.eq_iff_iff, ← ht.mem_iff, hu.mem_iff]

/-- **No access of a tracker is out of bounds.** While no offset is resolved that is as far from the
commit point as the last offset is from zero (`staysNear`), the strict operations do what the total
ones do: `new.run? actions = some (new.run actions)`, and so does whatever is asked of the tracker
afterwards (`IsSafe`). The marks lie in allocated blocks, up to the high-water mark (`IsLaidOut`). A
re-base leaves no mark: all blocks are zero, and from there on the tracker `Agrees` with
`ResolvedSet.start point`. To take a run out ends with a re-base. -/
theorem accesses_are_safe (first : Offset) {threshold : Nat} (hthreshold : 0 < threshold)
    (actions : List TrackerAction) (hnear : (start first threshold).staysNear actions = true) :
    ∃ new, Tracker.new? first threshold = .ok new ∧
      new.run? actions = some (new.run actions) ∧
      let t := new.run actions
      t.IsLaidOut ∧ t.IsSafe ∧
      (∀ point, (∀ block ∈ (t.rebase point).bitmap.blocks, block = 0) ∧
        ∀ later,
          (∀ o, ((t.rebase point).run later).isMarked o =
            ((start point threshold).run later).isMarked o) ∧
          ((t.rebase point).run later).Agrees ((ResolvedSet.start point).run later)) ∧
      (∀ advance, t.takeRun.1 = some advance → t.takeRun.2 = t.rebase advance.offset) := by
  have hstart := wellFormed_start first threshold
  have hfirst : (start first threshold).IsNear := isNear_of_unmarked (isMarked_start first threshold)
  refine ⟨start first threshold, by rw [new?, if_neg (Nat.pos_iff_ne_zero.mp hthreshold)],
    hstart.run?_eq hfirst hnear, ?_⟩
  intro t
  have hwf : t.WellFormed := hstart.run actions
  refine ⟨hwf.isLaidOut, hwf.isSafe (hfirst.run hstart hnear), fun point => ?_,
    fun advance hadvance => ?_⟩
  · refine ⟨hwf.eq_zero_of_rebase point, fun later => ?_⟩
    have hrebased := (hwf.represents_rebase point).run later
    exact ⟨hrebased.isMarked_eq ((represents_start point threshold).run later), hrebased.agrees⟩
  · rcases t.takeRun_cases with ⟨-, heq⟩ | ⟨-, heq⟩
    · rw [heq] at hadvance
      cases hadvance
    · rw [heq] at hadvance ⊢
      rw [← Option.some.inj hadvance]

/-- The bitmap grows past its first block and is given up at a re-base; then it grows again for an
offset in the fourth block, where the high-water mark is the eighth bit. -/
theorem accesses_are_safe_across_blocks :
    let actions : List TrackerAction :=
      [.resolve (.clamp 63), .resolve (.clamp 64), .resolve (.clamp 64), .takeRun,
        .rebase (.clamp 1), .resolve (.clamp 200), .resolve (.clamp 0)]
    0 < 1 ∧ (start .zero 1).staysNear actions = true ∧
      ∃ new, Tracker.new? .zero 1 = .ok new ∧ new.run? actions = some (new.run actions) ∧
        let t := new.run actions
        t.highWater = some ⟨3, 7⟩ ∧ t.bitmap.blocks[3]? = some 0x80 ∧
        t.pendingRun? = some 200 ∧ t.highestResolved? = some (some (.clamp 200)) ∧
        t.resolve? (.clamp 200) = some (.duplicate, t) := by
  intro actions
  have hnear : (start .zero 1).staysNear actions = true := by decide +kernel
  obtain ⟨new, hnew, hrun, -, hsafe, -⟩ := accesses_are_safe .zero Nat.zero_lt_one actions hnear
  obtain rfl := Except.ok.inj hnew
  refine ⟨Nat.zero_lt_one, hnear, _, hnew, hrun, by decide +kernel, by decide +kernel, ?_, ?_, ?_⟩
  · rw [hsafe.pendingRun]
    decide +kernel
  · rw [hsafe.highestResolved]
    decide +kernel
  · rw [hsafe.resolve]
    decide +kernel

end Tracker

end OffsetCommit
