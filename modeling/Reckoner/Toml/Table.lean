import Reckoner.Toml.Basic

/-!
Tables built from statements. A table that came about only because something below it was named is
implied, and may still be stated once itself; anything else is stated once.
-/

namespace Reckoner.Toml

/-- A value in a table. The rows of an array of tables start with the last. -/
inductive Item where
  | scalar (s : Scalar)
  | array
  | rows (tables : List (List (String × Item)))
  | table (entries : List (String × Item))
  deriving Inhabited

abbrev Table := List (String × Item)

namespace Table

def set (key : String) (item : Item) : Table → Table
  | [] => [(key, item)]
  | (other, old) :: rest =>
    if other == key then (key, item) :: rest else (other, old) :: set key item rest

/-- Changes the table at a key. An array of tables stands for its last row. -/
def within (change : Table → Option Table) : Key → Table → Option Table
  | [], t => change t
  | name :: rest, t =>
    match t.lookup name with
    | some (.table inner) => do
      return t.set name (.table (← within change rest inner))
    | some (.rows (row :: rows)) => do
      return t.set name (.rows ((← within change rest row) :: rows))
    | _ => none

def at? : Key → Table → Option Table
  | [], t => some t
  | name :: rest, t =>
    match t.lookup name with
    | some (.table inner) => at? rest inner
    | some (.rows (row :: _)) => at? rest row
    | _ => none

end Table

structure Draft where
  table : Table
  implied : List Key

namespace Draft

def empty : Draft := { table := [], implied := [] }

def imply (key : Key) (d : Draft) : Draft := { d with implied := key :: d.implied.erase key }

def settle (key : Key) (d : Draft) : Draft := { d with implied := d.implied.erase key }

def change (place : Key) (f : Table → Option Table) (d : Draft) : Option Draft := do
  return { d with table := ← d.table.within f place }

def item? (d : Draft) (place : Key) (name : String) : Option (Option Item) :=
  (d.table.at? place).map fun t => t.lookup name

/-- States an item in the table at a key. Where an implied table is, only an array takes its
place. -/
def state (place : Key) (name : String) (item : Item) (d : Draft) : Option Draft := do
  let key := place ++ [name]
  match ← d.item? place name with
  | none => d.change place fun t => some (t.set name item)
  | some _ =>
    if !d.implied.contains key then none
    else
      let d := d.settle key
      match item with
      | .array => d.change place fun t => some (t.set name item)
      | _ => some d

def reach : (place : Key) → Key → Draft → Option Draft
  | _, [], d => some d
  | place, name :: rest, d => do
    let d ← match ← d.item? place name with
      | none => (d.imply (place ++ [name])).change place fun t => some (t.set name (.table []))
      | some _ => some d
    reach (place ++ [name]) rest d

def openTable (key : Key) (d : Draft) : Option Draft := do
  let d ← d.reach [] key.dropLast
  d.state key.dropLast (key.getLastD "") (.table [])

def openRow (key : Key) (d : Draft) : Option Draft := do
  let d ← d.reach [] key.dropLast
  d.change key.dropLast fun t =>
    let name := key.getLastD ""
    match t.lookup name with
    | none => some (t.set name (.rows [[]]))
    | some (.rows rows) => some (t.set name (.rows ([] :: rows)))
    | some _ => none

def openPath (place : Key) : Key → Draft → Option (Key × Draft)
  | [], d => some (place, d)
  | name :: rest, d => do
    let place := place ++ [name]
    openPath place rest (← (d.imply place).openTable place)

def itemOf : Term → Item
  | .scalar s => .scalar s
  | .array _ => .array
  | .table _ => .table []

mutual

def enterTerm (place : Key) (inArray : Bool) : Term → Draft → Option Draft
  | .scalar _, d => some d
  | .array items, d => enterItems place items d
  | .table pairs, d => do
    let d := d.imply place
    let d ← if inArray then d.openRow place else d.openTable place
    enterPairs place pairs d

def enterItems (place : Key) : List Term → Draft → Option Draft
  | [], d => some d
  | item :: rest, d => do enterItems place rest (← enterTerm place true item d)

def enterPairs (place : Key) : List (Key × Term) → Draft → Option Draft
  | [], d => some d
  | (key, value) :: rest, d => do
    let (inner, d) ← d.openPath place key.dropLast
    let name := key.getLastD ""
    let d ← enterTerm (inner ++ [name]) false value d
    enterPairs place rest (← d.state inner name (itemOf value))

end

def take (place : Key) (s : Statement) (d : Draft) : Option (Key × Draft) :=
  match s with
  | .header key => (d.openTable key).map fun d => (key, d)
  | .element key => (d.openRow key).map fun d => (key, d)
  | .pair key value => (d.enterPairs place [(key, value)]).map fun d => (place, d)

end Draft

def Table.ofStatements? (statements : List Statement) : Option Table := do
  let (_, d) ← statements.foldlM (fun (place, d) s => Draft.take place s d) ([], Draft.empty)
  return d.table

end Reckoner.Toml
