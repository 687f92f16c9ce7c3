/-!
# Queues

First in, first out. A queue is two lists, so that adding at the end and taking from the front
both cost a constant on average. Everything about a queue is said of `Queue.toList`, its
elements from the oldest to the newest.
-/

namespace OffsetCommit

/-- Elements that are taken in the order in which they came. -/
structure Queue (α : Type) where
  /-- The older elements, the oldest first. -/
  front : List α
  /-- The newer elements, the newest first. -/
  back : List α
  /-- The number of elements. -/
  size : Nat
  /-- The number is that of the elements of both lists. -/
  size_eq : size = front.length + back.length

namespace Queue

variable {α : Type}

/-- The queue without elements. -/
def empty : Queue α := ⟨[], [], 0, rfl⟩

instance : Inhabited (Queue α) := ⟨empty⟩

/-- The elements, the oldest first. -/
def toList (q : Queue α) : List α :=
  q.front ++ q.back.reverse

/-- Whether there is no element. -/
def isEmpty (q : Queue α) : Bool :=
  q.size = 0

/-- Adds an element at the end. -/
def push (q : Queue α) (a : α) : Queue α :=
  ⟨q.front, a :: q.back, q.size + 1, by rw [q.size_eq, List.length_cons, Nat.add_assoc]⟩

/-- Takes the oldest element, if there is one. -/
def pop? (q : Queue α) : Option (α × Queue α) :=
  match q with
  | ⟨a :: front, back, size, h⟩ =>
      some (a, ⟨front, back, size - 1, by rw [h, List.length_cons]; omega⟩)
  | ⟨[], back, size, h⟩ =>
      match hr : back.reverse with
      | [] => none
      | a :: front =>
          some (a, ⟨front, [], size - 1, by
            have hl := congrArg List.length hr
            simp only [List.length_reverse, List.length_cons] at hl h ⊢
            omega⟩)

/-! ## What the operations do to the elements -/

/-- The empty queue has no elements. -/
@[simp] theorem toList_empty : (empty : Queue α).toList = [] := rfl

/-- The size of a queue is the length of `toList`. -/
@[simp] theorem length_toList (q : Queue α) : q.toList.length = q.size := by
  rw [q.size_eq, toList, List.length_append, List.length_reverse]

/-- Pushing appends: `(q.push a).toList = q.toList ++ [a]`. -/
@[simp] theorem toList_push (q : Queue α) (a : α) : (q.push a).toList = q.toList ++ [a] := by
  simp only [toList, push, List.reverse_cons, List.append_assoc]

/-- A queue `isEmpty` exactly when `toList` is `[]`. -/
theorem isEmpty_iff {q : Queue α} : q.isEmpty = true ↔ q.toList = [] := by
  rw [← List.length_eq_zero_iff, length_toList, isEmpty, decide_eq_true_eq]

/-- A queue yields no element exactly when it has none: `q.pop? = none ↔ q.toList = []`. -/
theorem pop?_eq_none_iff {q : Queue α} : q.pop? = none ↔ q.toList = [] := by
  obtain ⟨_ | ⟨a, front⟩, back, size, h⟩ := q
  · simp only [pop?, toList, List.nil_append]
    split <;> simp_all
  · simp [pop?, toList]

/-- What a queue yields is its oldest element, and all others stay in their order: if `q.pop? = some
(a, rest)`, then `q.toList = a :: rest.toList`. -/
theorem toList_of_pop? {q rest : Queue α} {a : α} (h : q.pop? = some (a, rest)) :
    q.toList = a :: rest.toList := by
  obtain ⟨_ | ⟨b, front⟩, back, size, hs⟩ := q
  · simp only [pop?] at h
    simp only [toList, List.nil_append]
    split at h
    · cases h
    · next b front hb =>
        simp only [Option.some.injEq, Prod.mk.injEq] at h
        obtain ⟨rfl, rfl⟩ := h
        simp [hb]
  · simp only [pop?, Option.some.injEq, Prod.mk.injEq] at h
    obtain ⟨rfl, rfl⟩ := h
    rfl

end Queue

end OffsetCommit
