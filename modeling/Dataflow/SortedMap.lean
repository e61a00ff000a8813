/-!
# Maps as sorted lists

A finite map from the keys of an ordered type, as the list of its entries in ascending order. Keys
that are equal in the order may still differ; the map keeps the one that it was first given.

* `SortedMap.Sorted`: the keys ascend strictly.
* `SortedMap.find?`, `insert`, `modify`, `erase`: the map's operations.
* `SortedMap.sorted_erase`, `SortedMap.sorted_modify`: both keep the order.
-/

namespace Dataflow

/-- A finite map, by its entries in ascending order. -/
structure SortedMap (K V : Type) where
  entries : List (K × V) := []
  deriving DecidableEq, Repr

namespace SortedMap

variable {K V : Type}

/-! ## Views -/

def empty : SortedMap K V := {}

def toList (m : SortedMap K V) : List (K × V) := m.entries

def keys (m : SortedMap K V) : List K := m.entries.map (·.1)

def values (m : SortedMap K V) : List V := m.entries.map (·.2)

def size (m : SortedMap K V) : Nat := m.entries.length

def isEmpty (m : SortedMap K V) : Bool := m.entries.isEmpty

def min? (m : SortedMap K V) : Option (K × V) := m.entries.head?

def max? (m : SortedMap K V) : Option (K × V) := m.entries.getLast?

variable [Ord K]

/-- The keys ascend strictly. -/
def Sorted (m : SortedMap K V) : Prop :=
  m.entries.Pairwise fun a b => compare a.1 b.1 = .lt

/-! ## Reading -/

/-- The entry of a key, with the key as the map keeps it. -/
def find? (m : SortedMap K V) (k : K) : Option (K × V) :=
  m.entries.find? fun e => compare k e.1 == .eq

def get? (m : SortedMap K V) (k : K) : Option V := (m.find? k).map (·.2)

def contains (m : SortedMap K V) (k : K) : Bool := (m.find? k).isSome

def entriesFrom (m : SortedMap K V) (k : K) : List (K × V) :=
  m.entries.filter fun e => compare e.1 k != .lt

/-! ## Writing -/

/-- Put an entry in its place. The key that is there stays, and only its value changes. -/
def insertEntry (k : K) (v : V) : List (K × V) → List (K × V)
  | [] => [(k, v)]
  | e :: rest =>
    match compare k e.1 with
    | .lt => (k, v) :: e :: rest
    | .eq => (e.1, v) :: rest
    | .gt => e :: insertEntry k v rest

def insert (m : SortedMap K V) (k : K) (v : V) : SortedMap K V := ⟨insertEntry k v m.entries⟩

/-- Change the value of a key, if it has one. -/
def modify (m : SortedMap K V) (k : K) (f : V → V) : SortedMap K V :=
  ⟨m.entries.map fun e => if compare k e.1 == .eq then (e.1, f e.2) else e⟩

def erase (m : SortedMap K V) (k : K) : SortedMap K V :=
  ⟨m.entries.filter fun e => compare k e.1 != .eq⟩

/-! ## Order -/

theorem sorted_empty : Sorted (empty : SortedMap K V) := List.Pairwise.nil

theorem sorted_erase {m : SortedMap K V} (h : m.Sorted) (k : K) : (m.erase k).Sorted :=
  List.Pairwise.filter _ h

theorem sorted_modify {m : SortedMap K V} (h : m.Sorted) (k : K) (f : V → V) :
    (m.modify k f).Sorted := by
  refine List.Pairwise.map _ ?_ h
  intro a b hab
  split <;> split <;> exact hab

end SortedMap

end Dataflow
