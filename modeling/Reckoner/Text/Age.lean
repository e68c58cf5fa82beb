import Reckoner.Text.Columns

/-!
The age of a moment in words. Every unit is used up to the next one; a month has thirty days and a
year twelve months.
-/

namespace Reckoner.Text

def second : Nat := 1000000000

def minute : Nat := 60 * second

def hour : Nat := 60 * minute

def day : Nat := 24 * hour

def week : Nat := 7 * day

def month : Nat := 30 * day

def year : Nat := 12 * month

structure Wording where
  bound : Nat
  unit : Option Nat
  noun : String

def wordings : List Wording :=
  [⟨2 * second, none, "1 second"⟩, ⟨minute, some second, "seconds"⟩,
    ⟨2 * minute, none, "1 minute"⟩, ⟨hour, some minute, "minutes"⟩,
    ⟨2 * hour, none, "1 hour"⟩, ⟨day, some hour, "hours"⟩,
    ⟨2 * day, none, "1 day"⟩, ⟨week, some day, "days"⟩,
    ⟨2 * week, none, "1 week"⟩, ⟨month, some week, "weeks"⟩,
    ⟨2 * month, none, "1 month"⟩, ⟨year, some month, "months"⟩,
    ⟨18 * month, none, "1 year"⟩, ⟨2 * year, none, "2 years"⟩, ⟨37 * year, some year, "years"⟩]

def distance (nanoseconds : Nat) : String :=
  match wordings.find? fun w => nanoseconds < w.bound with
  | some { unit := some unit, noun, .. } => natural (nanoseconds / unit) ++ " " ++ noun
  | some { unit := none, noun, .. } => noun
  | none => "a long while"

def age (now moment : Int) : String :=
  let gap := (now - moment).natAbs
  if gap < second then "now"
  else distance gap ++ (if now < moment then " from now" else " ago")

end Reckoner.Text
