import Reckoner.Benchmark.Suite
import Reckoner.Machine.Run
import Reckoner.Text.Grouped

/-!
Measurements of benchmarks and their report as a table.
-/

namespace Reckoner

structure Measurement where
  category : String
  name : String
  durations : List Int
  instructions : List Int
  deriving Repr, DecidableEq, Inhabited

namespace Measurement

/-- A sum of 64-bit integers, which wraps around. -/
def wordSum (ns : List Int) : Int :=
  ns.foldl (fun total n => (total + n).bmod 0x10000000000000000) 0

def averageDuration (m : Measurement) : Int :=
  if m.durations.isEmpty then 0 else (wordSum m.durations).tdiv m.durations.length

def averageInstructions (m : Measurement) : Binary :=
  if m.instructions.isEmpty then Binary.ofInt 0
  else (Binary.ofInt (wordSum m.instructions)).div (Binary.ofInt m.instructions.length)

def milliseconds (m : Measurement) : Binary :=
  (Binary.ofInt m.averageDuration).div (Binary.ofInt 1000000)

def perMillisecond (m : Measurement) : Binary :=
  if m.milliseconds.isZero then Binary.ofInt 0 else m.averageInstructions.div m.milliseconds

def cells (m : Measurement) : List String :=
  [m.category, m.name, m.milliseconds.fixed 1 ++ "ms",
    Text.grouped m.averageInstructions.truncate, Text.groupedFraction 1 m.perMillisecond]

end Measurement

namespace Benchmark

def headers : List String :=
  ["Category", "Name", "Avg Duration", "Instructions", "Avg Instr/ms"]

def leftColumns : Nat := 2

/-- A cell in the middle of its column. Widths count bytes. -/
def padCenter (width : Nat) (cell : String) : String :=
  let pad := width - cell.utf8ByteSize
  Text.spaces (pad / 2) ++ cell ++ Text.spaces (pad - pad / 2)

def padEnd (width : Nat) (cell : String) : String :=
  cell ++ Text.spaces (width - cell.utf8ByteSize)

def columnWidths (rows : List (List String)) : List Nat :=
  rows.foldl (fun widths row => widths.zipWith (fun w cell => max w cell.utf8ByteSize) row)
    (headers.map String.utf8ByteSize)

def tableRow (widths : List Nat) (centered : Bool) (cells : List String) : String :=
  let set (cell : String × Nat) (i : Nat) : String :=
    " " ++ (if centered || leftColumns ≤ i then padCenter cell.2 cell.1 else padEnd cell.2 cell.1)
      ++ " |"
  "|" ++ String.join (((cells.zip widths).zipIdx).map fun (cell, i) => set cell i) ++ "\n"

def report (ms : List Measurement) : String :=
  if ms.isEmpty then ""
  else
    let rows := ms.map Measurement.cells
    let widths := columnWidths rows
    let dashes (w : Nat) : String := String.ofList (List.replicate (w + 2) '-') ++ "+"
    let rule := "+" ++ String.join (widths.map dashes) ++ "\n"
    rule ++ tableRow widths true headers ++ rule
      ++ String.join (rows.map (tableRow widths false)) ++ rule

def defaultRuns : Nat := 3

def runOnce (fuel : Nat) (world : World) (source : String) : Except Machine.Result Nat :=
  match (Machine.new 0 world).interpretSource Host.standard fuel source with
  | .done .success m => .ok m.count
  | .done result _ => .error result
  | _ => .error .runtimeError

/-- Runs a benchmark some times. All runs start on equal machines, so that one tells the count of
all. -/
def measure (fuel : Nat) (world : World) (scale : Binary) (runs : Int) (b : Benchmark) :
    Except String Measurement :=
  let runs := if runs ≤ 0 then defaultRuns else runs.toNat
  let source := b.source scale
  match runOnce fuel world source with
  | .error result => .error ("benchmark " ++ b.name ++ ": " ++ result.text)
  | .ok count =>
    .ok
      { category := b.category, name := b.name
        durations := List.replicate runs 0, instructions := List.replicate runs count }

end Benchmark

end Reckoner
