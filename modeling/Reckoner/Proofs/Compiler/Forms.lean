import Reckoner.Proofs.Compiler.Filing
import Reckoner.Proofs.Script.Rephrasing

/-!
Surface forms. What can be said in two ways is compiled to the same code with the same constants,
wherever it is said: an assignment with its operator joined to the `=` or spelled out, and a loop with
nothing but a test.
-/

namespace Reckoner.Script.Grammar

open Compiler (Precedence)
open Reader (kindAt)

/-- One assignment at one place, with its operator joined to the `=` and spelled out. -/
inductive AssignmentForms (before : List Token) : List Token → List Token → Prop where
  | intro {name compound equal again operator opening closing : Token} {value after : List Token}
    {op : Operator} {e : Expression} (isName : name.kind = .identifier)
    (isCompound : Operator.ofAssignment? compound.kind = some op) (isEqual : equal.kind = .equal)
    (same : again.spelling = name.spelling) (isOperator : Operator.ofKind? operator.kind = some op)
    (isOpening : opening.kind = .leftParen) (isClosing : closing.kind = .rightParen)
    (isValue : Whole value e []) (ends : (Part.expression Precedence.assignment).Follow (kindAt after)) :
    AssignmentForms before (before ++ name :: compound :: (value ++ after))
      (before ++ name :: equal :: again :: operator :: opening :: (value ++ closing :: after))

/-- One loop at one place, as a `while` loop and as a `for` loop. What follows its head is the same. -/
inductive LoopForms : List Token → List Token → Prop where
  | intro {keyword other first second colon : Token} {before condition after : List Token}
    {c : Expression} (isWhile : keyword.kind = .while) (isFor : other.kind = .for)
    (isFirst : first.kind = .semicolon) (isSecond : second.kind = .semicolon)
    (isColon : colon.kind = .colon) (isCondition : Whole condition c []) :
    LoopForms (before ++ keyword :: (condition ++ colon :: after))
      (before ++ other :: first :: (condition ++ second :: colon :: after))

theorem whole_of_operator {op : Operator} {t : Token} {ts us rest : List Token} {a b : Expression}
    (left : Phrase (.expression primary) ts a (t :: us)) (operator : Operator.ofKind? t.kind = some op)
    (right : Phrase (.expression primary) us b rest) : Whole ts (.binary op a b) rest := by
  by_cases isPower : op = .power
  · subst isPower
    have kind : t.kind = .starStar := by
      generalize t.kind = kind at operator
      cases kind <;> first
        | rfl
        | exact absurd operator (by decide)
    exact .loosen (by decide) (by decide) (by decide)
      (.power (.loosen (by decide) (by decide) (by decide) left) kind
        (.loosen (by decide) (by decide) (by decide) right))
  · have bounds : 1 ≤ op.level ∧ op.level + 1 ≤ primary := by
      cases op <;> decide
    exact .loosen (by decide) bounds.1 (Nat.le_of_succ_le bounds.2)
      (.binary (.loosen bounds.1 (Nat.le_of_succ_le bounds.2) (Nat.le_refl _) left) operator isPower
        (.loosen (Nat.le_add_left _ _) bounds.2 (Nat.le_refl _) right))

theorem AssignmentForms.rephrases {before ts us : List Token} (forms : AssignmentForms before ts us) :
    Rephrases [] [] .eof ts us ∧ (lastKind .eof before ≠ .var → Rephrases [] [] .eof us ts) := by
  obtain ⟨isName, isCompound, isEqual, same, isOperator, isOpening, isClosing, isValue, ends⟩ := forms
  rename_i name compound equal again operator opening closing value after op e
  obtain ⟨f, joined, plainJoined⟩ := isValue.before rfl after
  obtain ⟨g, apart, plainApart⟩ := isValue.before rfl (closing :: after)
  have kind : again.kind = .identifier := (congrArg Prod.fst same).trans isName
  have lexeme : again.lexeme = name.lexeme := congrArg Prod.snd same
  have first : Whole (name :: compound :: (value ++ after)) (.update name.lexeme op f) after :=
    .update isName isCompound joined
  have second : Whole (name :: equal :: again :: operator :: opening :: (value ++ closing :: after))
      (.assign name.lexeme (.binary op (.read again.lexeme) g)) after :=
    .assign isName isEqual (whole_of_operator (.read kind) isOperator (.parentheses isOpening apart isClosing))
  have plain : Expression.plain (.update name.lexeme op f) =
      Expression.plain (.assign name.lexeme (.binary op (.read again.lexeme) g)) := by
    simp only [Expression.plain, plainJoined, plainApart, lexeme]
  constructor
  · refine .behind rfl (.assignment isName (isAssignment_of_compound isCompound) ?_ first ends second
      plain.symm (.refl .eof after))
    intro _ other
    rw [other] at isCompound
    exact absurd isCompound nofun
  · intro free
    exact .behind rfl (.assignment isName (by rw [isEqual]; rfl) (fun behind => absurd behind free) second
      ends first plain (.refl .eof after))

theorem LoopForms.rephrases {ts us : List Token} (forms : LoopForms ts us) :
    Rephrases [] [] .eof ts us ∧ Rephrases [] [] .eof us ts := by
  obtain ⟨isWhile, isFor, isFirst, isSecond, isColon, isCondition⟩ := forms
  rename_i keyword other first second colon before condition after c
  obtain ⟨f, inWhile, plainWhile⟩ := isCondition.before rfl (colon :: after)
  obtain ⟨g, inFor, plainFor⟩ := isCondition.before rfl (second :: colon :: after)
  have short : LoopHead (keyword :: (condition ++ colon :: after)) f after :=
    .while isWhile ⟨inWhile, isColon⟩
  have long : LoopHead (other :: first :: (condition ++ second :: colon :: after)) g after :=
    .for isFor isFirst ⟨inFor, isSecond⟩ isColon
  have plain : f.plain = g.plain := plainWhile.trans plainFor.symm
  exact ⟨.behind rfl (.loop short long plain.symm (.refl .colon after)),
    .behind rfl (.loop long short plain (.refl .colon after))⟩

end Reckoner.Script.Grammar

namespace Reckoner

open Compiler Script Script.Grammar

def Spells (source : List UInt8) (ts : List Token) : Prop :=
  (scan source).map Token.spelling = ts.map Token.spelling

/-- Where the first source is accepted the second one is, too, and its routine is the same but for the
line tables. -/
def CompilesAs (unit : Nat) (a b : List UInt8) : Prop :=
  ∀ r, compileBytes unit a = .ok r → ∃ q, compileBytes unit b = .ok q ∧ q.unlined = r.unlined

theorem scriptTree?_eq_some_iff {source : List UInt8} {f : Function} : scriptTree? source = some f ↔
    ∃ body, Sentence (scan source) body ∧ NearestAll body ∧ scriptOf body = f := by
  simp only [scriptTree?, Option.map_eq_some_iff,
    declarations_eq_some_iff (scan_spec source).1 (fuelFor_enough source), and_assoc]

theorem script_accepted {unit : Nat} {source : List UInt8} {r : Routine}
    (accepted : compileBytes unit source = .ok r) : ∃ body, Sentence (scan source) body ∧
      NearestAll body ∧ LegalScript body ∧ Implements unit true r (scriptOf body) ∧
        Stocked unit true r (scriptOf body) := by
  obtain ⟨f, tree, implements⟩ := script_implements accepted
  obtain ⟨body, read, rfl⟩ := Option.map_eq_some_iff.mp tree
  obtain ⟨other, sentence, nearest, same⟩ := scriptTree?_eq_some_iff.mp tree
  obtain rfl : other = body := (Function.mk.inj same).2.2.2.1
  exact ⟨other, sentence, nearest,
    (compiles_of_read unit sentence.proper read).mp ⟨r, accepted⟩, implements,
    script_stocked accepted tree⟩

theorem script_compiles (unit : Nat) {source : List UInt8} {body : List Declaration}
    (sentence : Sentence (scan source) body) (nearest : NearestAll body) (legal : LegalScript body) :
    ∃ r, compileBytes unit source = .ok r ∧ Implements unit true r (scriptOf body) ∧
      Stocked unit true r (scriptOf body) := by
  obtain ⟨r, accepted⟩ := accepted_of_sentence unit sentence nearest legal
  have tree := scriptTree?_eq_some_iff.mpr ⟨body, sentence, nearest, rfl⟩
  obtain ⟨f, known, implements⟩ := script_implements accepted
  obtain rfl := Option.some.inj (known.symm.trans tree)
  exact ⟨r, accepted, implements, script_stocked accepted tree⟩

theorem compilesAs_of_rephrases (unit : Nat) {a b : List UInt8} {ts us : List Token}
    (rephrases : Rephrases [] [] .eof ts us) (first : Spells a ts) (second : Spells b us) :
    CompilesAs unit a b := by
  intro r accepted
  obtain ⟨body, sentence, nearest, legal, implements, stocked⟩ := script_accepted accepted
  have there : Rephrases [] [] .eof (scan a) ts := .of_alike first.symm
  have back : Rephrases [] [] .eof us (scan b) := .of_alike second
  obtain ⟨one, sentenceOne, plainOne⟩ := sentence.recast there
  obtain ⟨two, sentenceTwo, plainTwo⟩ := sentenceOne.recast rephrases
  obtain ⟨other, sentenceToo, plainToo⟩ := sentenceTwo.recast back
  have same : plainOfBody other = plainOfBody body := plainToo.trans (plainTwo.trans plainOne)
  have nearestToo : NearestAll other := by
    rw [← nearestAll_plain, same, nearestAll_plain]
    exact nearest
  have legalToo : LegalScript other := by
    rw [← legalScript_plain, same, legalScript_plain]
    exact legal
  obtain ⟨q, acceptedToo, implementsToo, stockedToo⟩ :=
    script_compiles unit sentenceToo nearestToo legalToo
  exact ⟨q, acceptedToo, stockedToo.determined implementsToo stocked implements
    (congrArg scriptOf same)⟩

/-! Expressions -/

theorem expression_accepted {unit : Nat} {source : List UInt8} {r : Routine}
    (accepted : compileExpressionBytes unit source = .ok r) : ∃ e, SingleExpression (scan source) e ∧
      (View.script unit (scan source)).Accepts e ∧ Implements unit true r (expressionOf e) ∧
        Pool.Holds r.constants ((expressionOf e).entries true) := by
  obtain ⟨f, tree, implements⟩ := expression_implements accepted
  obtain ⟨e, read, rfl⟩ := Option.map_eq_some_iff.mp tree
  have enough := fuelFor_enough source
  have single := (singleExpression_eq_some_iff (scan_spec source).1 enough).mp read
  obtain ⟨t, value, last⟩ := single
  have found : Reader.expression (fuelFor (scan source)) (scan source) = some (e, [t]) :=
    expression_of_read value.read_of (by rw [Reader.kindAt, last]; decide)
      (by rw [Reader.kindAt, last]; rfl) (by omega)
  have poised := poised_script unit (scan_spec source).1 (SingleExpression.proper ⟨t, value, last⟩)
  have judged := (expressionVerdicts (fuelFor (scan source))).expression poised found
  rw [compileExpressionBytes, Compiler.singleExpression] at accepted
  obtain ⟨clean, rfl⟩ := finish_ok accepted
  have cleanValue := ((reports_consume _ .eof .expectEndOfExpression).emitOp .return).clean clean
  have behind := judged.poised cleanValue
  have ended : Reader.kindAt [t] = .eof := last
  have here : (Compiler.expression (fuelFor (scan source)) (start unit (scan source)).advance).check
      .eof = true := by
    rw [behind.check_eq]
    exact beq_iff_eq.mpr ended
  refine ⟨e, ⟨t, value, last⟩, judged.clean_iff.mp cleanValue, implements, ?_⟩
  rw [Compiler.consume, if_pos here]
  have pool := behind.pool_advance ended
  have holds := behind.holds
  rw [← pool] at holds
  exact holds

def statementOf (e : Expression) : Function := scriptOf [.statement (.expression e)]

section

variable (pool : Pool) (unit : Nat) (e : Expression)

theorem code_expressionOf :
    (expressionOf e).code pool unit true = e.code pool [] ++ [{ op := .return }] := rfl

theorem code_statementOf : (statementOf e).code pool unit true =
    e.code pool [] ++ [{ op := .pop }, { op := .false }, { op := .return }] := by
  have body : codeOfBody pool unit true [] none 0 [.statement (.expression e)] =
      fixedSlots (e.code pool [] ++ [{ op := .pop }]) := List.append_nil _
  rw [Function.code]
  show (codeOfBody pool unit true [] none 0 [.statement (.expression e)]).map Slot.draft ++
    [{ op := .false }] ++ [{ op := .return }] = _
  rw [body, map_draft_fixedSlots]
  simp only [List.append_assoc, List.cons_append, List.nil_append]

theorem entries_expressionOf : (expressionOf e).entries true = gather [] (e.entries []) := rfl

theorem entries_statementOf : (statementOf e).entries true = gather [] (e.entries []) := by
  rw [Function.entries]
  show gather [] (e.entries [] ++ [] ++ []) = _
  rw [List.append_nil, List.append_nil]

end

theorem plain_statementOf {e f : Expression} (same : f.plain = e.plain) :
    (statementOf f).plain = (statementOf e).plain := by
  rw [Function.plain_eq, Function.plain_eq]
  show scriptOf [.statement (.expression f.plain)] = scriptOf [.statement (.expression e.plain)]
  rw [same]

theorem legal_statementOf {unit : Nat} {tokens : List Token} {e : Expression}
    (accepts : (View.script unit tokens).Accepts e) : LegalScript [.statement (.expression e)] := by
  have fits : Fits [] e.Legal (e.code #[] []) (e.entries []) :=
    ((View.settled_script unit tokens).accepts_iff e).mp accepts
  refine ⟨⟨fits.legal, trivial⟩, ?_, ?_⟩
  · show ((statementOf e).entries true).length ≤ maxConstants
    rw [entries_statementOf]
    exact fits.few
  · show ∀ d ∈ (statementOf e).code #[] 0 true, d.Short
    rw [code_statementOf, List.forall_mem_append]
    refine ⟨fits.short, fun d member => ?_⟩
    simp only [List.mem_cons, List.not_mem_nil, or_false] at member
    rcases member with rfl | rfl | rfl <;> exact short_of_operand (by decide)

theorem legalScript_congr {body other : List Declaration} (same : plainOfBody other = plainOfBody body)
    (legal : LegalScript body) : LegalScript other := by
  rw [← legalScript_plain, same, legalScript_plain]
  exact legal

theorem sentence_ended {text : List UInt8} {e : Expression} (single : SingleExpression (scan text) e) :
    ∃ f, Sentence (scan (text ++ bytesOf "\n;")) [.statement (.expression f)] ∧ f.plain = e.plain := by
  have spelled : (scan (text ++ bytesOf "\n;")).map Token.spelling =
      ((scan text).map Token.spelling).dropLast ++ [(.semicolon, ";"), (.eof, "")] :=
    scan_newline text (bytesOf ";")
  obtain ⟨us, new, split, alike, ending⟩ := List.map_eq_append_iff.mp spelled
  obtain ⟨s, others, rfl, first, ending⟩ := List.map_eq_cons_iff.mp ending
  obtain ⟨t, others, rfl, second, ending⟩ := List.map_eq_cons_iff.mp ending
  obtain rfl := List.map_eq_nil_iff.mp ending
  obtain ⟨f, value, plain⟩ : ∃ f, Whole (us ++ [s, t]) f [s, t] ∧ f.plain = e.plain :=
    single.before alike
  refine ⟨f, ?_, plain⟩
  rw [split]
  exact ⟨1, t, .cons (.statement (.expression ⟨value, congrArg Prod.fst first⟩)) .nil,
    congrArg Prod.fst second⟩

/-- An expression is compiled to the same code and constants as a script that ends it on a line of its
own and drops its value. -/
theorem expression_compilesAs {unit : Nat} {text : List UInt8} {r : Routine}
    (accepted : compileExpressionBytes unit text = .ok r) :
    ∃ k q, r.code.toList = k ++ [Operation.return.byte] ∧
      compileBytes unit (text ++ bytesOf "\n;") = .ok q ∧
      q.code.toList = k ++ [Operation.pop.byte, Operation.false.byte, Operation.return.byte] ∧
      q.constants = r.constants := by
  obtain ⟨e, single, accepts, implements, holds⟩ := expression_accepted accepted
  obtain ⟨f, sentence, plain⟩ := sentence_ended single
  have legal : LegalScript [.statement (.expression f)] :=
    legalScript_congr (congrArg Function.body (plain_statementOf plain)) (legal_statementOf accepts)
  obtain ⟨q, acceptedToo, implementsToo, stocked⟩ :=
    script_compiles unit sentence ⟨trivial, trivial⟩ legal
  have holdsToo : Pool.Holds q.constants ((expressionOf e).entries true) := by
    rw [entries_expressionOf, ← entries_statementOf, ← Function.entries_plain, ← plain_statementOf plain,
      Function.entries_plain]
    exact stocked.holds
  have noRoutine := implementsToo.no_routine rfl
  have constants : q.constants = r.constants := by
    rw [← map_unlined_of_none noRoutine, ← map_unlined_of_none (implements.no_routine rfl)]
    exact holdsToo.unlined_eq holds fun p _ member => absurd member (noRoutine p)
  have code : (statementOf f).code q.constants unit true = (statementOf e).code r.constants unit true := by
    rw [constants, ← Function.code_plain, plain_statementOf plain, Function.code_plain]
  obtain ⟨marked, carries⟩ := implements.carries
  obtain ⟨marks, carriesToo⟩ := implementsToo.carries
  refine ⟨bytesOfAll (e.code r.constants []), q, ?_, acceptedToo, ?_, constants⟩
  · rw [carries.bytes, code_expressionOf, bytesOfAll_append]
    rfl
  · rw [carriesToo.bytes, ← statementOf, code, code_statementOf, bytesOfAll_append]
    rfl

/-- What can be said in two ways is compiled to the same code with the same constants, wherever it is
said. An assignment may have its operator joined to the `=` or spelled out, unless it stands right behind
`var`, where it is no assignment; a loop with nothing but a test may be a `while` loop or a `for` loop; and
an expression may be compiled alone or as a statement. -/
theorem forms_compile_alike :
    (∀ unit a b before ts us, AssignmentForms before ts us → Spells a ts → Spells b us →
      CompilesAs unit a b ∧ (lastKind .eof before ≠ .var → CompilesAs unit b a)) ∧
    (∀ unit a b ts us, LoopForms ts us → Spells a ts → Spells b us →
      CompilesAs unit a b ∧ CompilesAs unit b a) ∧
    ∀ unit text r, compileExpressionBytes unit text = .ok r →
      ∃ k q, r.code.toList = k ++ [Operation.return.byte] ∧
        compileBytes unit (text ++ bytesOf "\n;") = .ok q ∧
        q.code.toList = k ++ [Operation.pop.byte, Operation.false.byte, Operation.return.byte] ∧
        q.constants = r.constants := by
  refine ⟨?_, ?_, fun unit text r => expression_compilesAs⟩
  · intro unit a b before ts us forms first second
    obtain ⟨there, back⟩ := forms.rephrases
    exact ⟨compilesAs_of_rephrases unit there first second,
      fun free => compilesAs_of_rephrases unit (back free) second first⟩
  · intro unit a b ts us forms first second
    obtain ⟨there, back⟩ := forms.rephrases
    exact ⟨compilesAs_of_rephrases unit there first second,
      compilesAs_of_rephrases unit back second first⟩

theorem exists_of_isOk {ε α : Type} {outcome : Except ε α} (accepted : outcome.isOk = true) :
    ∃ r, outcome = .ok r := by
  cases outcome with
  | ok r => exact ⟨r, rfl⟩
  | error => cases accepted

def spelled (kind : Kind) (lexeme : String) : Token := ⟨kind, lexeme, 1, 0, 0⟩

/-- A power of a sum, a loop that is left, and a difference with a comment behind it. -/
theorem forms_compile_alike_power :
    (∃ r q, compileBytes 0 (bytesOf "x **= y + z;") = .ok r ∧
      compileBytes 0 (bytesOf "x = x ** (y + z);") = .ok q ∧ q.unlined = r.unlined) ∧
    (∃ r q, compileBytes 0 (bytesOf "while x: if y: break;") = .ok r ∧
      compileBytes 0 (bytesOf "for ; x;: if y: break;") = .ok q ∧ q.unlined = r.unlined) ∧
    ∃ k r q, compileExpressionBytes 0 (bytesOf "x - y // all") = .ok r ∧
      r.code.toList = k ++ [Operation.return.byte] ∧
      compileBytes 0 (bytesOf "x - y // all" ++ bytesOf "\n;") = .ok q ∧
      q.code.toList = k ++ [Operation.pop.byte, Operation.false.byte, Operation.return.byte] := by
  have sum : Whole [spelled .identifier "y", spelled .plus "+", spelled .identifier "z"]
      (.binary .add (.read "y") (.read "z")) [] := whole_of_operator (.read rfl) rfl (.read rfl)
  have test : Whole [spelled .identifier "x"] (.read "x") [] :=
    .loosen (by decide) (by decide) (by decide) (.read rfl)
  have assignment : AssignmentForms []
      ([] ++ spelled .identifier "x" :: spelled .starStarEqual "**=" ::
        ([spelled .identifier "y", spelled .plus "+", spelled .identifier "z"] ++
          [spelled .semicolon ";", spelled .eof ""]))
      ([] ++ spelled .identifier "x" :: spelled .equal "=" :: spelled .identifier "x" ::
        spelled .starStar "**" :: spelled .leftParen "(" ::
          ([spelled .identifier "y", spelled .plus "+", spelled .identifier "z"] ++
            spelled .rightParen ")" :: [spelled .semicolon ";", spelled .eof ""])) :=
    .intro rfl rfl rfl rfl rfl rfl rfl sum ⟨.of_lt (by decide), rfl⟩
  have loop : LoopForms
      ([] ++ spelled .while "while" :: ([spelled .identifier "x"] ++ spelled .colon ":" ::
        [spelled .if "if", spelled .identifier "y", spelled .colon ":", spelled .break "break",
          spelled .semicolon ";", spelled .eof ""]))
      ([] ++ spelled .for "for" :: spelled .semicolon ";" :: ([spelled .identifier "x"] ++
        spelled .semicolon ";" :: spelled .colon ":" ::
          [spelled .if "if", spelled .identifier "y", spelled .colon ":", spelled .break "break",
            spelled .semicolon ";", spelled .eof ""])) :=
    .intro rfl rfl rfl rfl rfl test
  refine ⟨?_, ?_, ?_⟩
  · obtain ⟨r, accepted⟩ : ∃ r, compileBytes 0 (bytesOf "x **= y + z;") = .ok r :=
      exists_of_isOk (by decide +kernel)
    obtain ⟨q, acceptedToo, same⟩ := (forms_compile_alike.1 0 _ (bytesOf "x = x ** (y + z);") _ _ _
      assignment (by unfold Spells; decide) (by unfold Spells; decide)).1 r accepted
    exact ⟨r, q, accepted, acceptedToo, same⟩
  · obtain ⟨r, accepted⟩ : ∃ r, compileBytes 0 (bytesOf "while x: if y: break;") = .ok r :=
      exists_of_isOk (by decide +kernel)
    obtain ⟨q, acceptedToo, same⟩ := (forms_compile_alike.2.1 0 _ (bytesOf "for ; x;: if y: break;") _ _
      loop (by unfold Spells; decide) (by unfold Spells; decide)).1 r accepted
    exact ⟨r, q, accepted, acceptedToo, same⟩
  · obtain ⟨r, accepted⟩ : ∃ r, compileExpressionBytes 0 (bytesOf "x - y // all") = .ok r :=
      exists_of_isOk (by decide +kernel)
    obtain ⟨k, q, code, acceptedToo, codeToo, -⟩ := forms_compile_alike.2.2 0 _ r accepted
    exact ⟨k, r, q, accepted, code, acceptedToo, codeToo⟩

end Reckoner
