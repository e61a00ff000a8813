import Dataflow.Bytes

/-!
# Identifiers

Datums and transforms are numbered in the order of their creation, from 1. Records of a
checkpoint log carry a sequence number of 64 bits, which stays at its greatest value once it has
reached it.

* `DatumId`, `TransformId`, `SequenceNumber`: the three kinds of number, each with its text.
* `SequenceNumber.next`: the number after a number.
* `Numbering`: hands out the numbers 1, 2, 3, …
-/

namespace Dataflow

/-- Identifies a datum. -/
structure DatumId where
  number : Nat
  deriving DecidableEq, Repr

/-- Identifies a transform. -/
structure TransformId where
  number : Nat
  deriving DecidableEq, Repr

/-- The position of a record in the history of its log. -/
structure SequenceNumber where
  number : Nat
  deriving DecidableEq, Repr

instance : Ord DatumId := ⟨fun a b => compare a.number b.number⟩

instance : Ord TransformId := ⟨fun a b => compare a.number b.number⟩

def DatumId.text (id : DatumId) : String := s!"datum_{id.number}"

def TransformId.text (id : TransformId) : String := s!"transform_{id.number}"

namespace SequenceNumber

def maxNumber : Nat := Bytes.capacity 8 - 1

/-- Nothing has been written yet. -/
def zero : SequenceNumber := ⟨0⟩

/-- The number after this one; the greatest number is followed by itself. -/
def next (s : SequenceNumber) : SequenceNumber := ⟨min (s.number + 1) maxNumber⟩

def max (s t : SequenceNumber) : SequenceNumber := ⟨Nat.max s.number t.number⟩

def text (s : SequenceNumber) : String := s!"#{s.number}"

end SequenceNumber

/-- A source of fresh numbers. -/
structure Numbering where
  issued : Nat := 0
  deriving DecidableEq, Repr

namespace Numbering

/-- The next number and the counter after it. -/
def next (c : Numbering) : Nat × Numbering := (c.issued + 1, ⟨c.issued + 1⟩)

/-- The numbers of the next `count` draws, and the counter after them. -/
def draw : (count : Nat) → Numbering → List Nat × Numbering
  | 0, c => ([], c)
  | count + 1, c =>
    let (n, c) := c.next
    let (rest, c) := draw count c
    (n :: rest, c)

end Numbering

end Dataflow
