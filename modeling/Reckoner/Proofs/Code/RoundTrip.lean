import Reckoner.Proofs.Code.Layout
import Reckoner.Proofs.Machine.Decoding

/-!
Reading code and writing it again. Decoding goes through any code from its first byte to its last, or
to the first instruction that cannot be read; the bytes it has passed are those of the instructions it
has found.
-/

namespace Reckoner

open Script

def Instruction.bytes (i : Instruction) : List UInt8 :=
  i.byte :: Directive.operandBytes (i.operand.getD 0) (i.size - 1)

namespace Routine

def blank (r : Routine) : Routine := { r with code := #[], lines := #[] }

def writeEach (r : Routine) (parts : List (Int × List UInt8)) : Routine :=
  parts.foldl (fun r part => r.writeAll part.1 part.2) r

theorem writeAll_append (r : Routine) (line : Int) (bytes : List UInt8) :
    (r.writeAll line bytes).code.toList = r.code.toList ++ bytes ∧
      (r.writeAll line bytes).lines.toList = r.lines.toList ++ List.replicate bytes.length line ∧
      (r.writeAll line bytes).constants = r.constants := by
  induction bytes generalizing r with
  | nil => simp [writeAll]
  | cons b rest ih =>
      obtain ⟨code, lines, constants⟩ := ih (r.write line b)
      refine ⟨code.trans ?_, lines.trans ?_, constants⟩
      · simp [write]
      · simp [write, List.replicate_succ]

theorem writeEach_append (r : Routine) (parts : List (Int × List UInt8)) :
    (r.writeEach parts).code.toList = r.code.toList ++ parts.flatMap Prod.snd ∧
      (r.writeEach parts).lines.toList =
        r.lines.toList ++ parts.flatMap (fun part => List.replicate part.2.length part.1) ∧
      (r.writeEach parts).constants = r.constants := by
  induction parts generalizing r with
  | nil => simp [writeEach]
  | cons part rest ih =>
      obtain ⟨code, lines, constants⟩ := ih (r.writeAll part.1 part.2)
      obtain ⟨bytes, marks, pool⟩ := r.writeAll_append part.1 part.2
      refine ⟨code.trans ?_, lines.trans ?_, constants.trans pool⟩
      · rw [bytes, List.append_assoc, List.flatMap_cons]
      · rw [marks, List.append_assoc, List.flatMap_cons]

/-! What decoding reads -/

/-- Instructions that follow one another without a gap, each as it is decoded at its offset. -/
inductive Decodes (r : Routine) : (offset : Nat) → List Instruction → (stop : Nat) → Prop where
  | done (offset : Nat) : Decodes r offset [] offset
  | next {offset stop : Nat} {i : Instruction} {rest : List Instruction}
    (read : r.decodeAt offset = .ok i) (others : Decodes r (offset + i.size) rest stop) :
    Decodes r offset (i :: rest) stop

/-- Where decoding ends: behind the last byte, or before an instruction that cannot be read. -/
inductive Ends (r : Routine) (stop : Nat) : Option DecodeFault → Prop where
  | whole (all : stop = r.code.size) : Ends r stop none
  | broken {fault : DecodeFault} (inside : stop < r.code.size) (unread : r.decodeAt stop = .error fault) :
    Ends r stop (some fault)

section

variable {r : Routine} {offset : Nat}

theorem take_succ {b : UInt8} (byte : r.code[offset]? = some b) :
    r.code.toList.take (offset + 1) = r.code.toList.take offset ++ [b] := by
  rw [List.take_add_one, Array.getElem?_toList, byte]
  rfl

theorem take_operand {kind : Operand} {value : Nat} (read : r.operandAt? offset kind.width = some value) :
    r.code.toList.take (offset + kind.width) =
      r.code.toList.take offset ++ Directive.operandBytes value kind.width := by
  cases kind with
  | none => simp [Operand.width, Directive.operandBytes]
  | constant | slot | count =>
      obtain ⟨b, byte, rfl⟩ := Option.map_eq_some_iff.mp read
      rw [Operand.width, take_succ byte, Directive.operandBytes, Nat.toUInt8, UInt8.ofNat_toNat]
  | jump | loop =>
      simp only [Operand.width, operandAt?] at read ⊢
      split at read
      · rename_i high low first second
        obtain rfl := Option.some.inj read
        have upper : (high.toNat * 256 + low.toNat) / 256 = high.toNat := by
          have := low.toNat_lt
          omega
        have lower : (high.toNat * 256 + low.toNat).toUInt8 = low := by
          apply UInt8.toNat_inj.mp
          have := low.toNat_lt
          simp only [Nat.toUInt8, UInt8.toNat_ofNat']
          omega
        rw [show offset + 2 = offset + 1 + 1 from rfl, take_succ second, take_succ first, List.append_assoc,
          Directive.operandBytes, upper, lower, Nat.toUInt8, UInt8.ofNat_toNat]
        rfl
        all_goals omega
      · cases read

structure Reads (r : Routine) (offset : Nat) (i : Instruction) : Prop where
  start : i.offset = offset
  size : i.bytes.length = i.size
  bytes : r.code.toList.take (offset + i.size) = r.code.toList.take offset ++ i.bytes

theorem reads_of_decodeAt {i : Instruction} (read : r.decodeAt offset = .ok i) : r.Reads offset i := by
  rw [decodeAt] at read
  split at read
  · cases read
  · rename_i b byte
    split at read
    · obtain rfl := Except.ok.inj read
      exact ⟨rfl, rfl, take_succ byte⟩
    · rename_i op known
      obtain rfl := Operation.byte_of_known known
      split at read
      · cases read
      · rename_i value operand
        rcases r.withOperand_cases offset op value with ⟨j, made, renders⟩ | ⟨kind, missing⟩
        · obtain rfl := Except.ok.inj (made.symm.trans read)
          have written : j.bytes = op.byte :: Directive.operandBytes value op.operand.width := by
            rw [Instruction.bytes, renders.byte, renders.size, Nat.add_sub_cancel_left, renders.operand]
            cases op.operand <;> rfl
          refine ⟨renders.offset, ?_, ?_⟩
          · rw [written, renders.size]
            cases op.operand <;> rfl
          · rw [written, renders.size, ← Nat.add_assoc, take_operand operand, take_succ byte,
              List.append_assoc]
            rfl
        · simp only [withOperand, kind, missing] at read
          cases read

theorem Reads.size_pos {i : Instruction} (reads : r.Reads offset i) : 0 < i.size := by
  rw [← reads.size]
  exact Nat.succ_pos _

theorem Reads.inside {i : Instruction} (reads : r.Reads offset i) (inside : offset ≤ r.code.size) :
    offset + i.size ≤ r.code.size := by
  have lengths := congrArg List.length reads.bytes
  have positive := reads.size_pos
  rw [List.length_append, List.length_take, List.length_take, Array.length_toList, reads.size] at lengths
  omega

namespace Decodes

variable {is : List Instruction} {stop : Nat} (decodes : r.Decodes offset is stop)

include decodes

theorem le : offset ≤ stop := by
  induction decodes with
  | done => exact Nat.le_refl _
  | next _ _ ih => exact Nat.le_trans (Nat.le_add_right ..) ih

theorem bytes : r.code.toList.take stop = r.code.toList.take offset ++ is.flatMap Instruction.bytes := by
  induction decodes with
  | done => simp
  | next read _ ih =>
      rw [ih, (reads_of_decodeAt read).bytes, List.flatMap_cons, List.append_assoc]

theorem lines (shared : ∀ i ∈ is, ∀ k < i.size, r.lineAt (i.offset + k : Nat) = r.lineAt i.offset) :
    (is.flatMap fun i => List.replicate i.bytes.length (r.lineAt i.offset)) =
      (List.range' offset (stop - offset)).map fun p : Nat => r.lineAt p := by
  induction decodes with
  | done => simp
  | @next offset stop i rest read others ih =>
      have reads := reads_of_decodeAt read
      have one := shared i List.mem_cons_self
      have parts : stop - offset = i.size + (stop - (offset + i.size)) := by
        have := others.le
        omega
      have first : (List.range' offset i.size).map (fun p : Nat => r.lineAt p) =
          List.replicate i.bytes.length (r.lineAt i.offset) := by
        rw [reads.size, List.eq_replicate_iff]
        refine ⟨by simp, fun line member => ?_⟩
        obtain ⟨p, inside, rfl⟩ := List.mem_map.mp member
        obtain ⟨k, small, rfl⟩ := List.mem_range'.mp inside
        rw [Nat.one_mul, ← reads.start]
        exact one k small
      rw [List.flatMap_cons, ih fun j member => shared j (List.mem_cons_of_mem i member), ← first, parts,
        ← List.map_append, List.range'_append_1]

end Decodes

theorem decodeFrom_ends {fuel : Nat} (inside : offset ≤ r.code.size) (enough : r.code.size ≤ offset + fuel)
    (found : Array Instruction) :
    ∃ is stop, r.Decodes offset is stop ∧ r.Ends stop (r.decodeFrom fuel offset found).2 ∧
      (r.decodeFrom fuel offset found).1 = found ++ is.toArray := by
  induction fuel generalizing offset found with
  | zero => exact ⟨[], offset, .done offset, .whole (by omega), by simp [decodeFrom]⟩
  | succ fuel ih =>
      rw [decodeFrom]
      split
      · exact ⟨[], offset, .done offset, .whole (by omega), by simp⟩
      · rename_i more
        cases read : r.decodeAt offset with
        | error fault => exact ⟨[], offset, .done offset, .broken (by omega) read, by simp⟩
        | ok i =>
            have reads := reads_of_decodeAt read
            have positive := reads.size_pos
            obtain ⟨is, stop, decodes, ends, array⟩ := ih (reads.inside inside) (by omega) (found.push i)
            refine ⟨i :: is, stop, .next read decodes, ends, array.trans ?_⟩
            simp

theorem instructions_end (r : Routine) :
    ∃ is stop, r.Decodes 0 is stop ∧ r.Ends stop r.instructions.2 ∧ r.instructions.1 = is.toArray := by
  obtain ⟨is, stop, decodes, ends, array⟩ :=
    decodeFrom_ends (Nat.zero_le r.code.size) (Nat.le_of_eq (Nat.zero_add _).symm) #[]
  exact ⟨is, stop, decodes, ends, by rwa [Array.empty_append] at array⟩

theorem decodes_of_unbroken (unbroken : r.instructions.2 = none) :
    r.Decodes 0 r.instructions.1.toList r.code.size := by
  obtain ⟨is, stop, decodes, ends, array⟩ := r.instructions_end
  rw [unbroken] at ends
  obtain ⟨rfl⟩ := ends
  rwa [array]

end

/-! Writing what is decoded, and decoding what is written -/

/-- All bytes of an instruction are on one line. -/
def SharesLines (r : Routine) : Prop :=
  ∀ i ∈ r.instructions.1, ∀ k < i.size, r.lineAt (i.offset + k : Nat) = r.lineAt i.offset

def assembled (r : Routine) (code : List (Int × Directive)) : Routine :=
  r.blank.writeEach (code.map fun part => (part.1, part.2.bytes))

/-- The routine with each of its instructions written again, on the line of its first byte. -/
def rewritten (r : Routine) : Routine :=
  r.blank.writeEach (r.instructions.1.toList.map fun i => (r.lineAt i.offset, i.bytes))

theorem assembled_instructions (r : Routine) (code : List (Int × Directive))
    (fits : ∀ part ∈ code, part.2.Fits r.constants) :
    (r.assembled code).instructions = ((instructionsFrom r.constants 0 (code.map Prod.snd)).toArray, none) := by
  obtain ⟨written, -, pool⟩ := r.blank.writeEach_append (code.map fun part => (part.1, part.2.bytes))
  have constants : (r.assembled code).constants = r.constants := pool
  have bytes : (r.assembled code).code.toList = [] ++ bytesOfAll (code.map Prod.snd) := by
    rw [assembled, written, bytesOfAll, List.flatMap_map, List.flatMap_map]
    rfl
  have size : (r.assembled code).code.size = codeSize (code.map Prod.snd) := by
    rw [← Array.length_toList, bytes, List.nil_append, length_bytesOfAll]
  have each : ∀ d ∈ code.map Prod.snd, d.Fits (r.assembled code).constants := by
    intro d member
    obtain ⟨part, inside, rfl⟩ := List.mem_map.mp member
    rw [constants]
    exact fits part inside
  have decoded := decodeFrom_eq bytes (Nat.le_of_eq size.symm) each #[]
  rwa [Array.empty_append, constants] at decoded

section

variable {r : Routine} (unbroken : r.instructions.2 = none)

include unbroken

theorem rewritten_code : r.rewritten.code = r.code := by
  obtain ⟨written, -, -⟩ :=
    r.blank.writeEach_append (r.instructions.1.toList.map fun i => (r.lineAt i.offset, i.bytes))
  have bytes := (decodes_of_unbroken unbroken).bytes
  rw [← Array.length_toList, List.take_length, List.take_zero, List.nil_append] at bytes
  rw [← Array.toList_inj, bytes, rewritten, written, List.flatMap_map]
  rfl

variable (shared : r.SharesLines)

include shared

theorem rewritten_lines :
    r.rewritten.lines.toList = (List.range' 0 r.code.size).map fun p : Nat => r.lineAt p := by
  obtain ⟨-, marked, -⟩ :=
    r.blank.writeEach_append (r.instructions.1.toList.map fun i => (r.lineAt i.offset, i.bytes))
  have lines := (decodes_of_unbroken unbroken).lines fun i member => shared i (Array.mem_toList_iff.mp member)
  rw [rewritten, marked, List.flatMap_map, ← Nat.sub_zero r.code.size, ← lines]
  rfl

theorem rewritten_entry {p : Nat} (inside : p < r.code.size) : r.rewritten.lines[p]? = some (r.lineAt p) := by
  rw [← Array.getElem?_toList, rewritten_lines unbroken shared, List.getElem?_map,
    List.getElem?_range' inside]
  simp

theorem rewritten_lineAt {p : Nat} (inside : p < r.code.size) : r.rewritten.lineAt p = r.lineAt p := by
  rw [lineAt, if_neg (by omega), Int.toNat_natCast, rewritten_entry unbroken shared inside]
  rfl

theorem rewritten_lines_eq (sized : r.lines.size = r.code.size) : r.rewritten.lines = r.lines := by
  have size : r.rewritten.lines.size = r.code.size := by
    rw [← Array.length_toList, rewritten_lines unbroken shared, List.length_map, List.length_range']
  apply Array.ext_getElem?
  intro p
  by_cases inside : p < r.code.size
  · rw [rewritten_entry unbroken shared inside, lineAt, if_neg (by omega), Int.toNat_natCast,
      Array.getElem?_eq_getElem (sized ▸ inside)]
    rfl
  · rw [Array.getElem?_eq_none (by omega), Array.getElem?_eq_none (by omega)]

end

end Routine

/-- What a listing shows of an instruction: its offset, its line or a bar where the line is that of the
byte before it, and what it says. -/
def Routine.entry (r : Routine) (i : Instruction) : String :=
  let line := if 0 < i.offset ∧ r.lineAt i.offset = r.lineAt (i.offset - 1 : Nat) then "|"
    else Text.integer (r.lineAt i.offset)
  Text.zeroPadded 4 i.offset ++ " " ++ Text.padLeft 4 line ++ " " ++ i.text ++ "\n"

theorem Listing.code_ends (l : Listing) (r : Routine) :
    ∃ is stop, r.Decodes 0 is stop ∧ r.Ends stop (l.code r).2 ∧
      (l.code r).1.text = l.text ++ String.join (is.map r.entry) := by
  obtain ⟨is, stop, decodes, ends, array⟩ := r.instructions_end
  refine ⟨is, stop, decodes, ends, ?_⟩
  have shown : Listing.instructionLine r = r.entry := rfl
  simp only [Listing.code, Listing.append, array]
  rw [← shown, String.join, List.foldl_map, List.foldl_toArray]

/-- Directives that are written are the instructions that are decoded, and instructions that are decoded
are written with the bytes they were decoded from. A listing goes on with one entry for every instruction
before the end of the code or before the first offset that has none. -/
theorem code_round_trip :
    (∀ (r : Routine) (code : List (Int × Directive)), (∀ part ∈ code, part.2.Fits r.constants) →
      (r.assembled code).instructions =
          ((instructionsFrom r.constants 0 (code.map Prod.snd)).toArray, none) ∧
        (r.assembled code).Decodes 0 (instructionsFrom r.constants 0 (code.map Prod.snd))
          (r.assembled code).code.size) ∧
    (∀ r : Routine, r.instructions.2 = none → r.rewritten.code = r.code ∧
      (r.SharesLines →
        (∀ p : Nat, p < r.code.size → r.rewritten.lineAt p = r.lineAt p) ∧
        (r.lines.size = r.code.size → r.rewritten.lines = r.lines))) ∧
    ∀ (l : Listing) (r : Routine), ∃ is stop, r.Decodes 0 is stop ∧ r.Ends stop (l.code r).2 ∧
      (l.code r).1.text = l.text ++ String.join (is.map r.entry) := by
  refine ⟨fun r code fits => ?_, fun r unbroken => ⟨Routine.rewritten_code unbroken, fun shared => ?_⟩,
    Listing.code_ends⟩
  · have decoded := r.assembled_instructions code fits
    have decodes := Routine.decodes_of_unbroken (congrArg Prod.snd decoded)
    rw [decoded] at decodes
    exact ⟨decoded, decodes⟩
  · exact ⟨fun p inside => Routine.rewritten_lineAt unbroken shared inside,
      Routine.rewritten_lines_eq unbroken shared⟩

/-- Loads, a jump over more than a byte can count, and a way back; then a reserved byte between two
operations. -/
theorem code_round_trip_reserved :
    ∃ (r : Routine) (code : List (Int × Directive)) (s : Routine),
      (∀ part ∈ code, part.2.Fits r.constants) ∧
      (r.assembled code).code = #[2, 0, 33, 1, 44, 34, 0, 8, 28] ∧
      (r.assembled code).instructions =
        ((instructionsFrom r.constants 0 (code.map Prod.snd)).toArray, none) ∧
      s.instructions.2 = none ∧ s.code = #[0, 3, 37] ∧ s.rewritten.code = s.code ∧
      s.rewritten.lines = s.lines := by
  let r : Routine := { Routine.empty default "" with constants := #[.bool true] }
  let s : Routine := { Routine.empty default "" with code := #[0, 3, 37], lines := #[1, 1, 2] }
  let code : List (Int × Directive) := [(1, ⟨.constant, 0⟩), (1, ⟨.jumpIfFalse, 300⟩), (2, ⟨.loop, 8⟩), (3, ⟨.print, 0⟩)]
  have fits : ∀ part ∈ code, part.2.Fits r.constants := by
    intro part member
    simp only [code, List.mem_cons, List.not_mem_nil, or_false] at member
    rcases member with rfl | rfl | rfl | rfl <;> exact ⟨by decide, by decide⟩
  obtain ⟨reading, writing, -⟩ := code_round_trip
  obtain ⟨same, lines⟩ := writing s rfl
  have shared : s.SharesLines := by
    intro i member k small
    have sizes : ∀ i ∈ s.instructions.1, i.size = 1 := by decide
    rw [sizes i member] at small
    rw [Nat.lt_one_iff.mp small, Nat.add_zero]
  exact ⟨r, code, s, fits, rfl, (reading r code fits).1, rfl, rfl, same, (lines shared).2 rfl⟩

end Reckoner
