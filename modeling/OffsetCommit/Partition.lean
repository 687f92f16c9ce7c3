import Std.Data.ExtTreeMap

/-!
# Partitions

A topic is split into numbered partitions, and offsets are committed per partition. Partitions
are ordered by topic, code point by code point, and then by number. The order is the key order
of every table of the library, so that a listing of a table is sorted.
-/

namespace OffsetCommit

/-- A numbered partition of a topic. -/
@[ext]
structure Partition where
  /-- The name of the topic. -/
  topic : String
  /-- The number of the partition within its topic. -/
  number : UInt32
deriving DecidableEq

namespace Partition

instance : Inhabited Partition := ⟨"", 0⟩

/-! ## Order -/

/-- By topic, then by number. -/
instance : Ord Partition :=
  ⟨compareLex (compareOn topic) (compareOn number)⟩

instance : Std.TransOrd Partition :=
  inferInstanceAs (Std.TransCmp (compareLex (compareOn topic) (compareOn number)))

instance : Std.LawfulEqOrd Partition where
  eq_of_compare {a b} h := by
    have h' : (compareOn topic a b).then (compareOn number a b) = .eq := h
    rw [Ordering.then_eq_eq] at h'
    exact Partition.ext (Std.LawfulEqOrd.eq_of_compare h'.1) (Std.LawfulEqOrd.eq_of_compare h'.2)

/-- A list of partitions in ascending order; equal partitions stay. -/
def sort (partitions : List Partition) : List Partition :=
  partitions.mergeSort fun a b => (compare a b).isLE

/-- A finite table with a partition for its key. -/
abbrev Table (α : Type) : Type := Std.ExtTreeMap Partition α

/-- After `t.insert p a` the entry of `p` is `a`, and every other entry is that of `t`. -/
theorem getElem?_insert {α : Type} (t : Table α) (p q : Partition) (a : α) :
    (t.insert p a)[q]? = if p = q then some a else t[q]? := by
  simp only [Std.ExtTreeMap.getElem?_insert, Std.LawfulEqOrd.compare_eq_iff_eq]

/-- After `t.erase p` there is no entry of `p`, and every other entry is that of `t`. -/
theorem getElem?_erase {α : Type} (t : Table α) (p q : Partition) :
    (t.erase p)[q]? = if p = q then none else t[q]? := by
  simp only [Std.ExtTreeMap.getElem?_erase, Std.LawfulEqOrd.compare_eq_iff_eq]

/-- After `t.alter p f` the entry of `p` is `f t[p]?`, and every other entry is that of `t`. -/
theorem getElem?_alter {α : Type} (t : Table α) (p q : Partition) (f : Option α → Option α) :
    (t.alter p f)[q]? = if p = q then f t[p]? else t[q]? := by
  simp only [Std.ExtTreeMap.getElem?_alter, Std.LawfulEqOrd.compare_eq_iff_eq]

/-- The different partitions of a list, in ascending order. -/
def distinct (partitions : List Partition) : List Partition :=
  (partitions.foldl (fun (table : Table Unit) p => table.insert p ()) ∅).keys

/-! ## Text -/

/-- The number alone, as it stands in log lines. -/
def numberText (p : Partition) : String := toString p.number.toNat

/-- The number with the word that says what it counts, for diagnostics. -/
def numberLabel (p : Partition) : String := "partition(" ++ p.numberText ++ ")"

/-- Topic and number with a slash between. -/
instance : ToString Partition := ⟨fun p => p.topic ++ "/" ++ p.numberText⟩

end Partition

end OffsetCommit
