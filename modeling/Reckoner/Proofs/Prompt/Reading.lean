import Reckoner.Prompt.Reading
import Reckoner.Text.Blank
import Reckoner.Proofs.Compiler.Source
import Reckoner.Proofs.Script.Nearest

/-!
All that read an input read it the same way. The prompt looks at the last token before it tries an
expression; since no expression holds a semicolon or a brace, it loses nothing by that.
-/

namespace Reckoner

def Kind.isSeparator (kind : Kind) : Bool :=
  kind == .semicolon || kind == .leftBrace || kind == .rightBrace

theorem Kind.separator_cases {kind : Kind} (separates : kind.isSeparator) :
    kind = .semicolon ∨ kind = .leftBrace ∨ kind = .rightBrace := by
  simpa [isSeparator, or_assoc] using separates

namespace Script.Grammar

theorem not_separator_of_kind {t : Token} {kind : Kind} (here : t.kind = kind)
    (plain : kind.isSeparator = false) : t.kind.isSeparator = false := by
  rw [here]
  exact plain

theorem not_separator_of_compound {t : Token} {op : Operator}
    (compound : Operator.ofAssignment? t.kind = some op) : t.kind.isSeparator = false := by
  by_contra separates
  have kinds := Kind.separator_cases (Bool.not_eq_false _ ▸ separates)
  rcases kinds with kind | kind | kind <;> (rw [kind] at compound; exact absurd compound nofun)

theorem not_separator_of_operator {t : Token} {op : Operator}
    (operator : Operator.ofKind? t.kind = some op) : t.kind.isSeparator = false := by
  by_contra separates
  have kinds := Kind.separator_cases (Bool.not_eq_false _ ▸ separates)
  rcases kinds with kind | kind | kind <;> (rw [kind] at operator; exact absurd operator nofun)

theorem Phrase.separators {part : Part} {ts rest : List Token} {tree : part.Tree}
    (phrase : Phrase part ts tree rest) {t : Token} (member : t ∈ ts)
    (separates : t.kind.isSeparator = true) : t ∈ rest := by
  have later : ∀ {u : Token} {us : List Token}, u.kind.isSeparator = false → t ∈ u :: us → t ∈ us := by
    intro u us plain member
    rcases List.mem_cons.mp member with rfl | behind
    · rw [separates] at plain
      exact absurd plain nofun
    · exact behind
  induction phrase with
  | tighter _ _ _ ih | argument _ ih => exact ih member
  | assign name equal _ ih =>
      exact ih (later (not_separator_of_kind equal rfl) (later (not_separator_of_kind name rfl) member))
  | update name compound _ ih =>
      exact ih (later (not_separator_of_compound compound)
        (later (not_separator_of_kind name rfl) member))
  | or _ kind _ left right | and _ kind _ left right | power _ kind _ left right
  | arguments _ kind _ left right =>
      exact right (later (not_separator_of_kind kind rfl) (left member))
  | binary _ operator _ _ left right =>
      exact right (later (not_separator_of_operator operator) (left member))
  | negate kind _ ih | not kind _ ih => exact ih (later (not_separator_of_kind kind rfl) member)
  | call _ opening _ closing left right =>
      have behind := right (later (not_separator_of_kind opening rfl) (left member))
      exact later (not_separator_of_kind closing rfl) behind
  | callNone _ opening closing ih =>
      have behind := later (not_separator_of_kind opening rfl) (ih member)
      exact later (not_separator_of_kind closing rfl) behind
  | number kind | trueLiteral kind | falseLiteral kind | read kind =>
      exact later (not_separator_of_kind kind rfl) member
  | parentheses opening _ closing ih =>
      have behind := ih (later (not_separator_of_kind opening rfl) member)
      exact later (not_separator_of_kind closing rfl) behind

end Script.Grammar

open Script

theorem no_separator_in_expression {unit : Nat} {source : List UInt8} {r : Routine}
    (accepted : compileExpressionBytes unit source = .ok r) {t : Token} (member : t ∈ scan source) :
    t.kind.isSeparator = false := by
  obtain ⟨f, tree, -⟩ := Compiler.expression_implements accepted
  obtain ⟨e, read, -⟩ := Option.map_eq_some_iff.mp tree
  obtain ⟨last, whole, ended⟩ :=
    (Grammar.singleExpression_eq_some_iff (scan_spec source).1 (Compiler.fuelFor_enough source)).mp read
  by_contra separates
  have remains := whole.separators member (by simpa using separates)
  rw [List.mem_singleton.mp remains, ended] at separates
  exact separates rfl

namespace Prompt

/-- What reads as statements is no expression. -/
theorem statement_not_expression (unit : Nat) {source : String}
    (statement : isStatement source = true) : ∃ ds, compileExpression unit source = .error ds := by
  cases compiled : compileExpression unit source with
  | error ds => exact ⟨ds, rfl⟩
  | ok r =>
      rw [isStatement, lastKind?] at statement
      cases final : (scan (bytesOf source)).dropLast.getLast? with
      | none => simp [final] at statement
      | some t =>
          have member := List.dropLast_subset _ (List.mem_of_getLast? final)
          have plain := no_separator_in_expression compiled member
          rw [final] at statement
          rcases Bool.or_eq_true_iff.mp statement with semicolon | brace
          · rw [Option.some.inj (eq_of_beq semicolon)] at plain
            exact absurd plain nofun
          · rw [Option.some.inj (eq_of_beq brace)] at plain
            exact absurd plain nofun

theorem read_eq (unit : Nat) (source : String) :
    (read unit source).toOption = (readEither unit source).toOption := by
  rw [read, readEither]
  split
  · rename_i statement
    obtain ⟨ds, failed⟩ := statement_not_expression unit statement
    rw [failed]
  · cases compileExpression unit source with
    | ok r => rfl
    | error ds => cases compile unit source <;> rfl

end Prompt

namespace Text

/-- There is no white space at either end of the text. -/
structure Bare (s : String) : Prop where
  first : ∀ c ∈ s.toList.head?, isBlank c = false
  last : ∀ c ∈ s.toList.getLast?, isBlank c = false

theorem dropWhile_of_head? {p : Char → Bool} {cs : List Char} (plain : ∀ c ∈ cs.head?, p c = false) :
    cs.dropWhile p = cs := by
  cases cs with
  | nil => rfl
  | cons c rest => rw [List.dropWhile_cons_of_neg (by rw [plain c rfl]; exact Bool.false_ne_true)]

theorem Bare.trim_eq {s : String} (bare : Bare s) : trim s = s := by
  have back : s.toList.reverse.dropWhile isBlank = s.toList.reverse :=
    dropWhile_of_head? (by rw [List.head?_reverse]; exact bare.last)
  rw [trim, trimEnd, dropWhile_of_head? bare.first, back, List.reverse_reverse, String.ofList_toList]

end Text

/-- All that read an input read it the same way. The prompt, which asks first whether an input looks
like statements, and the service and the engine, which always try an expression first, take it in the
same mode and compile it to the same routine, or none of them compiles it; for what ends like a
statement is never an expression. -/
theorem readings_agree (unit : Nat) {source : String} (bare : Text.Bare source) :
    (Prompt.read unit (Text.trim source)).toOption = (readEither unit source).toOption ∧
      (compileEither unit source).toOption =
        (Prompt.read unit (Text.trim source)).toOption.map Prod.snd ∧
      (Prompt.isStatement source = true → ∃ ds, compileExpression unit source = .error ds) := by
  have same := Prompt.read_eq unit source
  rw [bare.trim_eq]
  refine ⟨same, ?_, Prompt.statement_not_expression unit⟩
  rw [same, compileEither]
  cases readEither unit source <;> rfl

/-- A block behind which a comment holds an expression. -/
theorem readings_agree_block :
    Text.Bare "\x7b print 1; \x7d // 2" ∧ Prompt.isStatement "\x7b print 1; \x7d // 2" = true ∧
      ∃ ds, compileExpression 0 "\x7b print 1; \x7d // 2" = .error ds := by
  have bare : Text.Bare "\x7b print 1; \x7d // 2" := ⟨by simp [Text.isBlank], by simp [Text.isBlank]⟩
  have statement : Prompt.isStatement "\x7b print 1; \x7d // 2" = true := by
    with_unfolding_all rfl
  exact ⟨bare, statement, (readings_agree 0 bare).2.2 statement⟩

end Reckoner
