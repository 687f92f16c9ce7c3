import OffsetCommit.Proofs.OffsetOrder

/-!
# The order of partitions

Partitions are listed by the bytes of their topics, and those of one topic by their numbers
(`Partition.Precedes`). The tables compare topics code point by code point instead. The two orders
are the same, because UTF-8 gives the greater code point the greater bytes, and its codes are told
apart by their first bytes.

* `utf8EncodeChar_append_lt`: the greater of two characters has the greater bytes, whatever
  follows.
* `flatMap_utf8EncodeChar_lt`: so texts are ordered like their bytes, by induction on the order.
* `Partition.precedes_of_compare`: the table order is the order of the listing.
-/

namespace OffsetCommit

/-- The greater of two characters has the greater bytes, whatever follows them: if `c < d`, then the
bytes of `c` and `l` come before those of `d` and `m`. -/
theorem utf8EncodeChar_append_lt {c d : Char} (h : c < d) (l m : List UInt8) :
    String.utf8EncodeChar c ++ l < String.utf8EncodeChar d ++ m := by
  have hlt : c.val.toNat < d.val.toNat := h
  have hd : d.val.toNat < 0x110000 := by
    rcases d.valid with hvalid | hvalid
    · exact hvalid.trans (by decide)
    · exact hvalid.2
  unfold String.utf8EncodeChar
  generalize c.val.toNat = x at hlt
  generalize d.val.toNat = y at hlt hd
  -- the digits of a number to the base 64
  have hx : x / 64 / 64 = x / 4096 := Nat.div_div_eq_div_mul x 64 64
  have hx' : x / 4096 / 64 = x / 262144 := Nat.div_div_eq_div_mul x 4096 64
  have hy : y / 64 / 64 = y / 4096 := Nat.div_div_eq_div_mul y 64 64
  have hy' : y / 4096 / 64 = y / 262144 := Nat.div_div_eq_div_mul y 4096 64
  dsimp only
  split_ifs <;>
    simp (disch := omega) only [List.cons_append, List.nil_append, List.cons_lt_cons_iff,
      UInt8.lt_iff_toNat_lt, ← UInt8.toNat_inj, UInt8.toNat_ofNat', Nat.mod_eq_of_lt] <;>
    omega

/-- Texts are ordered like their bytes: `l < m` for lists of characters carries over to `flatMap
String.utf8EncodeChar`. -/
theorem flatMap_utf8EncodeChar_lt {l m : List Char} (h : l < m) :
    l.flatMap String.utf8EncodeChar < m.flatMap String.utf8EncodeChar := by
  induction h with
  | nil =>
      rename_i d m
      rw [List.flatMap_nil, List.flatMap_cons]
      rcases hd : String.utf8EncodeChar d with _ | ⟨byte, rest⟩
      · exact absurd hd String.utf8EncodeChar_ne_nil
      · exact List.nil_lt_cons _ _
  | rel h =>
      rw [List.flatMap_cons, List.flatMap_cons]
      exact utf8EncodeChar_append_lt h _ _
  | cons h ih =>
      rw [List.flatMap_cons, List.flatMap_cons]
      exact List.append_left_lt ih

namespace Partition

/-- The bytes of the topic. -/
def topicBytes (p : Partition) : List UInt8 :=
  p.topic.toUTF8.data.toList

/-- Whether a partition is listed before another: by the bytes of the topics, then by the numbers. -/
def Precedes (p q : Partition) : Prop :=
  p.topicBytes < q.topicBytes ∨ p.topic = q.topic ∧ p.number < q.number

/-- The bytes of a topic are those of its characters, one after the other. -/
theorem topicBytes_eq (p : Partition) :
    p.topicBytes = p.topic.toList.flatMap String.utf8EncodeChar := by
  rw [topicBytes, String.toUTF8, ← String.utf8Encode_toList, List.utf8Encode]
  simp

/-- The table order is the order of the listing: `compare p q = .lt` gives `p.Precedes q`. -/
theorem precedes_of_compare {p q : Partition} (h : compare p q = .lt) : p.Precedes q := by
  have hthen : (compare p.topic q.topic).then (compare p.number q.number) = .lt := h
  rw [Ordering.then_eq_lt] at hthen
  rcases hthen with htopic | ⟨htopic, hnumber⟩
  · have hlt : p.topic < q.topic := compareOfLessAndEq_eq_lt.mp htopic
    rw [Precedes, topicBytes_eq, topicBytes_eq]
    exact .inl (flatMap_utf8EncodeChar_lt hlt)
  · exact .inr ⟨Std.LawfulEqOrd.eq_of_compare htopic, compareOfLessAndEq_eq_lt.mp hnumber⟩

end Partition

end OffsetCommit
