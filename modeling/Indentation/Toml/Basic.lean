import Indentation.Text.Basic

/-! # TOML values and tables -/

namespace Indentation.Toml

/-- How a table came to be, which decides what may still be added to it. -/
inductive Origin where
  /-- By its own header, or as the whole document. -/
  | header
  /-- On the way to the header of a table below it. -/
  | passed
  /-- By a key with dots. -/
  | dotted
  /-- Written as a value. -/
  | inline
deriving DecidableEq, Repr

mutual

inductive Value where
  | str (value : String)
  | bool (value : Bool)
  | int (value : Int)
  /-- A float, and whether it fits a double. -/
  | float (fits : Bool)
  | datetime
  | arr (items : List Value)
  /-- An array of tables that have headers of their own. -/
  | tables (items : List Table)
  | table (table : Table)

inductive Table where
  | mk (origin : Origin) (entries : List (String × Value))

end

namespace Table

def origin : Table → Origin
  | .mk origin _ => origin

def entries : Table → List (String × Value)
  | .mk _ entries => entries

def empty (origin : Origin) : Table := .mk origin []

def get? (t : Table) (key : String) : Option Value := t.entries.lookup key

def replaceIn (key : String) (value : Value) : List (String × Value) → List (String × Value)
  | [] => [(key, value)]
  | (other, old) :: rest =>
    if key = other then (key, value) :: rest else (other, old) :: replaceIn key value rest

/-- Set a key. A new one comes last. -/
def set (t : Table) (key : String) (value : Value) : Table :=
  .mk t.origin (replaceIn key value t.entries)

def withOrigin (t : Table) (origin : Origin) : Table := .mk origin t.entries

/-- Add a value under a key with dots. Tables on the way are made, or have been made by keys with
dots, or all but the last on the way to a header. -/
def add? (t : Table) : List String → Value → Option Table
  | [], _ => none
  | [key], value =>
    match t.get? key with
    | none => some (t.set key value)
    | some _ => none
  | key :: next :: path, value => do
    let child ←
      match t.get? key with
      | none => some (empty .dotted)
      | some (.table child) =>
        if child.origin = .dotted ∨ (child.origin = .passed ∧ path ≠ []) then some child else none
      | some _ => none
    return t.set key (.table (← add? child (next :: path) value))

/-- Change a part of a table: the table under a key, or the last one of an array of tables. Only
tables with headers can be entered, and those made on the way to one or by a key with dots. -/
def enter? (t : Table) (key : String) (change : Table → Option Table) : Option Table :=
  match t.get? key with
  | none => do return t.set key (.table (← change (empty .passed)))
  | some (.table child) =>
    if child.origin = .inline then none else do return t.set key (.table (← change child))
  | some (.tables items) =>
    match items.getLast? with
    | none => none
    | some last => do return t.set key (.tables (items.dropLast ++ [← change last]))
  | some _ => none

/-- Change the table that a header names. -/
def within? (change : Table → Option Table) : List String → Table → Option Table
  | [], t => change t
  | key :: path, t => t.enter? key (within? change path)

/-- Begin a table with a header. One made on the way to another header may be begun later. -/
def begin? (key : String) (t : Table) : Option Table :=
  match t.get? key with
  | none => some (t.set key (.table (empty .header)))
  | some (.table child) =>
    if child.origin = .passed then some (t.set key (.table (child.withOrigin .header))) else none
  | some _ => none

/-- Begin the next table of an array of tables. -/
def append? (key : String) (t : Table) : Option Table :=
  match t.get? key with
  | none => some (t.set key (.tables [empty .header]))
  | some (.tables items) => some (t.set key (.tables (items ++ [empty .header])))
  | some _ => none

end Table

mutual

/-- Whether all numbers of a value can be represented: whole ones in 64 bits, floats as doubles. -/
def Value.representable : Value → Bool
  | .str _ | .bool _ | .datetime => true
  | .int n => -(2 ^ 63) ≤ n && n < 2 ^ 64
  | .float fits => fits
  | .arr items => Value.allRepresentable items
  | .tables items => Table.allRepresentable items
  | .table t => Table.representable t

def Value.allRepresentable : List Value → Bool
  | [] => true
  | v :: rest => Value.representable v && Value.allRepresentable rest

def Table.representable : Table → Bool
  | .mk _ entries => Table.entriesRepresentable entries

def Table.entriesRepresentable : List (String × Value) → Bool
  | [] => true
  | (_, v) :: rest => Value.representable v && Table.entriesRepresentable rest

def Table.allRepresentable : List Table → Bool
  | [] => true
  | t :: rest => Table.representable t && Table.allRepresentable rest

end

end Indentation.Toml
