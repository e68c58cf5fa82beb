import Reckoner.Decimal.BinaryArithmetic

/-!
The scripts of the benchmark suite. A scale multiplies their loop counts.
-/

namespace Reckoner

structure Benchmark where
  category : String
  name : String
  script : Binary → String

namespace Benchmark

def micro : String := "MicroBenchmark"

def calculations : String := "Calculations"

def nativeCalls : String := "Native Calls"

def loopCount : Int := 1000000

def newtonCount : Int := 10000

def fibonacciDepth : Int := 30

def scaled (n : Int) (scale : Binary) : Int := max 1 (Binary.round ((Binary.ofInt n).mul scale))

def loop (before after : String) (scale : Binary) : String :=
  before ++ Text.integer (scaled loopCount scale) ++ after

def incrementVariable (scale : Binary) : String :=
  (List.replicate (scaled loopCount scale).toNat "i += 1;").foldl (· ++ ·) "var i = 0; "

/-- The depth of the recursion. A smaller scale takes a step off for each halving. -/
def recursionDepth (scale : Binary) : Int :=
  if scale.isBelowOne then max 3 (fibonacciDepth + scale.floorLog) else fibonacciDepth

def recursiveFibonacci (scale : Binary) : String :=
  "\nfn fibonacci(n) \x7b\n    if n <= 2:\n        return 1;\n    else:\n"
    ++ "        return fibonacci(n - 1) + fibonacci(n - 2);\n\x7d\n\nfibonacci("
    ++ Text.integer (recursionDepth scale) ++ ");"

def newtonRoots (scale : Binary) : String :=
  "\nfn newton(x, n) \x7b\n    var y = x / 2;\n    for var i = 0; i < 8; i += 1: \x7b\n"
    ++ "        y = ((n-1) * y**n + x) / (n * y**(n-1));\n    \x7d\n    return y;\n\x7d\n\n"
    ++ "for var i = 0; i < " ++ Text.integer (scaled newtonCount scale)
    ++ "; i += 1: \x7b\n    newton(58463165, 2);\n    newton(8732648, 3);\n"
    ++ "    newton(216876, 5);\n\x7d"

def suite : List Benchmark :=
  [⟨micro, "CountForLoop", loop "for var i = 0; i < " "; i += 1: \x7b\x7d"⟩,
    ⟨micro, "CountWhileLoop", loop "var i = 0; while i < " ": i += 1;"⟩,
    ⟨micro, "FunctionCallGlobal",
      loop "fn nop() \x7b\x7d for var i = 0; i < " "; i += 1: \x7b nop(); \x7d"⟩,
    ⟨micro, "FunctionCallLocal",
      loop "\x7b fn nop() \x7b\x7d for var i = 0; i < " "; i += 1: \x7b nop(); \x7d \x7d"⟩,
    ⟨micro, "IncrementVariable", incrementVariable⟩,
    ⟨nativeCalls, "ClockCalls", loop "for var i = 0; i < " "; i += 1: clock();"⟩,
    ⟨nativeCalls, "RandomCalls", loop "for var i = 0; i < " "; i += 1: random();"⟩,
    ⟨calculations, "RecursiveFibonacci30", recursiveFibonacci⟩,
    ⟨calculations, "NewtonRoots", newtonRoots⟩]

def precedes (a b : Benchmark) : Bool :=
  if a.category = b.category then a.name ≤ b.name else a.category ≤ b.category

def ordered : List Benchmark := suite.mergeSort precedes

def find? (name : String) : Option Benchmark := suite.find? fun b => b.name == name

def source (b : Benchmark) (scale : Binary) : String :=
  b.script (if scale.isBelowZero || scale.isZero then Binary.ofInt 1 else scale)

end Benchmark

end Reckoner
