/-!
# Data in JSON

A value is null, a truth value, a number, a string, an array or an object.  Whole numbers from
`-2^63` to `2^64 - 1` are kept exactly, and all other numbers as the bits of a floating-point
number.  The canonical form of a value has the keys of its objects in order and each key once,
where the last of several entries for a key counts.
-/

namespace Stencil

/-- A value. -/
inductive Json where
  | null
  | bool (b : Bool)
  | int (n : Int)
  | float (bits : UInt64)
  | string (s : String)
  | array (items : List Json)
  | object (entries : List (String × Json))
  deriving Inhabited, Repr

namespace Json

mutual

/-- The values are the same. -/
def same : Json → Json → Bool
  | null, null => true
  | bool a, bool b => a == b
  | int a, int b => a == b
  | float a, float b => Float.ofBits a == Float.ofBits b
  | string a, string b => a == b
  | array a, array b => sameItems a b
  | object a, object b => sameEntries a b
  | _, _ => false

/-- The values of two lists are the same one by one. -/
def sameItems : List Json → List Json → Bool
  | [], [] => true
  | a :: as, b :: bs => same a b && sameItems as bs
  | _, _ => false

/-- The entries of two lists are the same one by one. -/
def sameEntries : List (String × Json) → List (String × Json) → Bool
  | [], [] => true
  | (k, a) :: as, (l, b) :: bs => k == l && same a b && sameEntries as bs
  | _, _ => false

end

/-- Adds an entry to entries in the order of their keys, in place of an entry with the same
key. -/
def insertEntry {α : Type} (key : String) (value : α) : List (String × α) → List (String × α)
  | [] => [(key, value)]
  | (k, v) :: rest =>
    if key < k then (key, value) :: (k, v) :: rest
    else if key == k then (key, value) :: rest
    else (k, v) :: insertEntry key value rest

/-- The entries in the order of their keys, each key once with its last value. -/
def sortEntries {α : Type} (entries : List (String × α)) : List (String × α) :=
  entries.foldl (fun sorted (k, v) => insertEntry k v sorted) []

mutual

/-- The canonical form of a value. -/
def canonical : Json → Json
  | array items => array (canonicalItems items)
  | object entries => object (sortEntries (canonicalEntries entries))
  | v => v

/-- The canonical forms of the values of a list. -/
def canonicalItems : List Json → List Json
  | [] => []
  | v :: rest => canonical v :: canonicalItems rest

/-- The canonical forms of the values of entries. -/
def canonicalEntries : List (String × Json) → List (String × Json)
  | [] => []
  | (k, v) :: rest => (k, canonical v) :: canonicalEntries rest

end

/-- The value of the first entry of an object with the given key. -/
def get? (v : Json) (key : String) : Option Json :=
  match v with
  | object entries => entries.lookup key
  | _ => none

end Json

end Stencil
