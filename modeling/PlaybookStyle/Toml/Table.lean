/-
TOML tables while they are built.

A table comes about in three ways: named by a header, passed on the way of a
header, or passed on the way of a dotted key. The first may be named by no
header again; the second may, once; the third belongs to the table in which its
dotted keys stand and to no header at all.
-/

import PlaybookStyle.Toml.Value

namespace PlaybookStyle.Toml

/-- How a table came about. -/
inductive Origin where
  | header
  | passed
  | dotted
deriving DecidableEq, Repr, Inhabited

inductive Item where
  | value (value : Value)
  | table (origin : Origin) (members : List (String × Item))
  /-- Tables of one name in a row, the last one first. -/
  | tables (last : List (String × Item)) (earlier : List (List (String × Item)))
deriving Repr, Inhabited

abbrev Members : Type := List (String × Item)

/-- Puts an item in the place of a key's item, or at the end. -/
def put (members : Members) (key : String) (item : Item) : Members :=
  match members with
  | [] => [(key, item)]
  | (other, old) :: rest =>
    if other = key then (key, item) :: rest else (other, old) :: put rest key item

/-! ### Dotted keys -/

/-- Sets a value under a dotted key, which passes only tables that no header
named and ends in one that dotted keys made. -/
def assign (members : Members) (value : Value) : List String → Option Members
  | [] => none
  | [key] =>
    if (members.lookup key).isSome then none
    else some (members ++ [(key, .value value)])
  | key :: path =>
    match members.lookup key with
    | none => do
      let inner ← assign [] value path
      return members ++ [(key, .table .dotted inner)]
    | some (.value _) => none
    | some (.table origin inner) =>
      if origin = .header then none
      else
        match path with
        | [_] =>
          if origin = .dotted then do
            return put members key (.table origin (← assign inner value path))
          else none
        | _ => do
          return put members key (.table origin (← assign inner value path))
    | some (.tables last earlier) =>
      match path with
      | [_] => none
      | _ => do
        return put members key (.tables (← assign last value path) earlier)

/-! ### Headers -/

/-- Changes the table at the end of a way; tables that are missing are passed. -/
def descend (change : Members → Option Members) (members : Members) :
    List String → Option Members
  | [] => change members
  | key :: path =>
    match members.lookup key with
    | none => do
      return members ++ [(key, .table .passed (← descend change [] path))]
    | some (.value _) => none
    | some (.table origin inner) => do
      return put members key (.table origin (← descend change inner path))
    | some (.tables last earlier) => do
      return put members key (.tables (← descend change last path) earlier)

/-- Opens a table under a key. One that was passed goes on behind the other
members. -/
def openTable (key : String) (members : Members) : Option Members :=
  match members.lookup key with
  | none => some (members ++ [(key, .table .header [])])
  | some (.table .passed inner) =>
    some (members.filter (·.1 != key) ++ [(key, .table .header inner)])
  | _ => none

/-- Opens a further table of a row under a key. -/
def openNext (key : String) (members : Members) : Option Members :=
  match members.lookup key with
  | none => some (members ++ [(key, .tables [] [])])
  | some (.tables last earlier) => some (put members key (.tables [] (last :: earlier)))
  | _ => none

/-! ### Finished tables -/

mutual

def Item.finished : Item → Value
  | .value value => value
  | .table _ members => .table (valuesOf members)
  | .tables last earlier => .list ((valuesOfTables earlier).reverse ++ [.table (valuesOf last)])

def valuesOf : List (String × Item) → List (String × Value)
  | [] => []
  | (key, item) :: rest => (key, Item.finished item) :: valuesOf rest

def valuesOfTables : List (List (String × Item)) → List Value
  | [] => []
  | members :: rest => .table (valuesOf members) :: valuesOfTables rest

end

end PlaybookStyle.Toml
