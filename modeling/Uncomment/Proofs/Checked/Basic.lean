import Uncomment.Proofs.Text

/-! # Checked steps

The functions on texts accept any position. A checked step asks for what a machine needs: an item
that is there, a slice in bounds, bounds in order, a difference that is not negative. Any other step
is a fault, and a checked computation ends with the first one. -/

namespace Uncomment

/-- A step outside its domain. -/
inductive Fault
  /-- There is no item at the index. -/
  | item (index : Nat)
  /-- The slice ends before it starts, lies out of bounds or splits a character. -/
  | slice (start stop : Nat)
  /-- The low bound exceeds the high one. -/
  | clamp (low high : Nat)
  | difference (minuend subtrahend : Nat)
  deriving DecidableEq, Repr

abbrev Checked (Value : Type) := Except Fault Value

namespace Checked

@[simp] theorem ok_bind {First Second : Type} (value : First) (next : First → Checked Second) :
    (Except.ok value : Checked First) >>= next = next value := rfl

/-! ## Numbers -/

def difference (minuend subtrahend : Nat) : Checked Nat :=
  if subtrahend ≤ minuend then .ok (minuend - subtrahend)
  else .error (.difference minuend subtrahend)

def clamp (value low high : Nat) : Checked Nat :=
  if low ≤ high then .ok (max low (min value high)) else .error (.clamp low high)

theorem difference_of_le {minuend subtrahend : Nat} (ordered : subtrahend ≤ minuend) :
    difference minuend subtrahend = .ok (minuend - subtrahend) :=
  if_pos ordered

theorem clamp_of_le (value : Nat) {low high : Nat} (ordered : low ≤ high) :
    clamp value low high = .ok (max low (min value high)) :=
  if_pos ordered

/-! ## Lists -/

section

variable {Item : Type}

def item (items : List Item) (index : Nat) : Checked Item :=
  match items[index]? with
  | some item => .ok item
  | none => .error (.item index)

def slice (items : List Item) (start stop : Nat) : Checked (List Item) :=
  if start ≤ stop ∧ stop ≤ items.length then .ok ((items.take stop).drop start)
  else .error (.slice start stop)

theorem item_of_getElem? {items : List Item} {index : Nat} {found : Item}
    (isFound : items[index]? = some found) : item items index = .ok found := by
  rw [item, isFound]

theorem slice_of_le {items : List Item} {start stop : Nat} (ordered : start ≤ stop)
    (within : stop ≤ items.length) :
    slice items start stop = .ok ((items.take stop).drop start) :=
  if_pos ⟨ordered, within⟩

theorem mapM_eq_ok {Value : Type} {visit : Item → Checked Value} {value : Item → Value}
    {items : List Item} (each : ∀ item ∈ items, visit item = .ok (value item)) :
    items.mapM visit = .ok (items.map value) := by
  induction items with
  | nil => rfl
  | cons item later induction =>
      rw [List.mapM_cons, each item List.mem_cons_self,
        induction fun other member => each other (List.mem_cons_of_mem _ member)]
      rfl

end

end Checked

/-! ## Texts -/

namespace Text

def checkedSlice (text : Text) (start stop : Nat) : Checked Text :=
  match text.slice? start stop with
  | some part => .ok part
  | none => .error (.slice start stop)

def checkedFloor (text : Text) : (position : Nat) → Checked Nat
  | 0 => if text.isBoundary 0 then .ok 0 else .error (.difference 0 1)
  | position + 1 =>
      if text.isBoundary (position + 1) then .ok (position + 1) else text.checkedFloor position

theorem checkedSlice_of_boundaries {text : Text} {start stop : Nat} (ordered : start ≤ stop)
    (startBoundary : text.isBoundary start = true) (stopBoundary : text.isBoundary stop = true) :
    text.checkedSlice start stop = .ok (text.slice start stop) := by
  rw [checkedSlice, slice?, if_pos ⟨ordered, startBoundary, stopBoundary⟩]

theorem checkedSlice_append (before middle after : Text) :
    checkedSlice (before ++ middle ++ after) before.byteLength
      (before.byteLength + middle.byteLength) = .ok middle := by
  rw [checkedSlice, slice?_append]

theorem floorBoundary_of_isBoundary {text : Text} {position : Nat}
    (boundary : text.isBoundary position = true) : text.floorBoundary position = position := by
  rcases (isBoundary_iff _ _).mp boundary with ⟨before, after, rfl, rfl⟩
  rw [floorBoundary, takeBytes_byteLength_append]

private theorem takeBytes_succ {text : Text} {position : Nat}
    (between : text.isBoundary (position + 1) = false) :
    text.takeBytes (position + 1) = text.takeBytes position := by
  induction text generalizing position with
  | nil => rfl
  | cons character rest induction =>
      have size := character.utf8Size_pos
      rw [isBoundary_cons (by omega), Bool.and_eq_false_iff, decide_eq_false_iff_not]
        at between
      rw [takeBytes, takeBytes]
      by_cases fits : character.utf8Size ≤ position
      · have later := between.resolve_left (by omega)
        rw [Nat.sub_add_comm fits] at later
        rw [if_pos (by omega), if_pos fits, Nat.sub_add_comm fits, induction later]
      · -- The character does not end at the next byte either, as no boundary is there.
        rw [if_neg fits, if_neg]
        intro ends
        have zero : position + 1 - character.utf8Size = 0 := by omega
        rw [zero, isBoundary_zero] at between
        simp [ends] at between

@[simp] theorem checkedFloor_eq_ok (text : Text) (position : Nat) :
    text.checkedFloor position = .ok (text.floorBoundary position) := by
  induction position with
  | zero =>
      rw [checkedFloor, if_pos (isBoundary_zero text), floorBoundary, takeBytes_zero]
      rfl
  | succ position induction =>
      rw [checkedFloor]
      by_cases boundary : text.isBoundary (position + 1) = true
      · rw [if_pos boundary, floorBoundary_of_isBoundary boundary]
      · rw [if_neg boundary, induction, floorBoundary, floorBoundary,
          takeBytes_succ (Bool.eq_false_iff.mpr boundary)]

end Text

end Uncomment
