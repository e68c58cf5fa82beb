import Reckoner.Proofs.Compiler.Source
import Reckoner.Proofs.Compiler.StatementVerdict

/-!
The language of the compiler: which sources it accepts.
-/

namespace Reckoner.Compiler

open Script

namespace View

def script (unit : Nat) (tokens : List Token) : View where
  tokens := tokens
  locals := [⟨"", some 0⟩]
  depth := 0
  loops := []
  created := 1
  enclosing := []
  identity := { unit, index := 0 }
  arity := 0
  entries := []
  here := 0

variable (unit : Nat) (tokens : List Token)

theorem settled_script : (script unit tokens).Settled where
  nonempty := List.cons_ne_nil _ _
  bounded := by
    intro l member
    rw [List.mem_singleton.mp member]
    exact ⟨0, rfl, Nat.le_refl _⟩
  behind := nofun
  inside := nofun

theorem acceptsBody_script (body : List Declaration) :
    (script unit tokens).AcceptsBody body ↔ LegalScript body := by
  have compact : LegalBody .script body ∧ (scriptOf body).Compact true ↔ _ := fits_compact
  rw [scriptOf, codeOfOptional, fits_short (short_singleton (short_of_operand (by decide))),
    entriesOfOptional, List.append_nil] at compact
  constructor
  · intro accepted
    obtain ⟨legal, compact⟩ := compact.mpr accepted
    exact ⟨legal, compact⟩
  · rintro ⟨legal, small⟩
    exact compact.mp ⟨legal, small⟩

end View

theorem poised_script (unit : Nat) {tokens : List Token} (closed : Closed tokens)
    (proper : ∀ t ∈ tokens, t.kind ≠ .error) :
    Poised (start unit tokens).advance (.script unit tokens) := by
  cases tokens with
  | nil => exact closed.elim
  | cons t rest =>
      have fetched : (start unit (t :: rest)).advance =
          { start unit (t :: rest) with tokens := rest, current := t } :=
        if_neg (proper t List.mem_cons_self)
      rw [fetched]
      exact {
        clean := rfl
        audible := rfl
        stream := rfl
        closed := closed
        plain := proper
        locals := rfl
        room := (by decide : 1 ≤ maxLocals)
        depth := rfl
        loops := rfl
        created := rfl
        enclosing := rfl
        identity := rfl
        unit := rfl
        arity := rfl
        holds := rfl
        few := Nat.zero_le _
        numbered := nofun
        here := rfl }

theorem Poised.declarations {fuel : Nat} {s : Compiler} {v : View} {body : List Declaration}
    (poised : Poised s v) (settled : v.Settled) (deep : v.Deep)
    (read : Reader.declarations fuel v.created v.tokens = some body) :
    (declarations fuel s).diagnostics = #[] ↔ v.AcceptsBody body := by
  induction fuel generalizing s v body with
  | zero => exact absurd read (by simp [Reader.declarations])
  | succ fuel ih =>
      rw [Reader.declarations] at read
      rw [Compiler.declarations, poised.check_eq]
      split at read
      · rename_i ended
        cases read
        rw [if_pos ended]
        have closed : Closed s.stream := by
          rw [poised.stream]
          exact poised.closed
        have last : s.current.kind = .eof := poised.kindAt.symm.trans (eq_of_beq ended)
        have same : s.advance.diagnostics = s.diagnostics := by
          rw [Compiler.advance, closed.eq_nil last]
          rfl
        rw [same]
        exact iff_of_true poised.clean (acceptsBody_nil poised.few)
      · rename_i more
        rw [if_neg more]
        simp only [Option.bind_eq_bind, Option.bind_eq_some_iff, Prod.exists] at read
        obtain ⟨d, m, us, first, body', others, last⟩ := read
        cases last
        have judged := (statementVerdicts fuel).declaration poised settled first
        have deeper : (v.overDeclaration us m d).Deep := View.Deep.pass _ _ _ _ deep _
        have grown := reports_declarations fuel (Compiler.declaration fuel s)
        rw [acceptsBody_cons settled us m d body' deep]
        constructor
        · intro done
          have clean := grown.clean done
          exact ⟨judged.clean_iff.mp clean, (ih (judged.poised clean)
            (settled_declaration settled us m d) deeper others).mp done⟩
        · rintro ⟨accepted, rest⟩
          exact (ih (judged.poised (judged.clean_iff.mpr accepted))
            (settled_declaration settled us m d) deeper others).mpr rest

theorem finish_isOk (s : Compiler) : (∃ r, s.finish = .ok r) ↔ s.diagnostics = #[] := by
  constructor
  · rintro ⟨r, accepted⟩
    exact (finish_ok accepted).1
  · intro clean
    exact ⟨s.draft.routine, if_pos (by rw [clean]; rfl)⟩

theorem compiles_of_read (unit : Nat) {source : List UInt8} {body : List Declaration}
    (proper : ∀ t ∈ scan source, t.kind ≠ .error)
    (read : Reader.declarations (fuelFor (scan source)) 1 (scan source) = some body) :
    (∃ r, compileBytes unit source = .ok r) ↔ LegalScript body := by
  have poised := poised_script unit (scan_spec source).1 proper
  have closing : ∀ s : Compiler, s.emitFalseReturn.diagnostics = s.diagnostics := fun _ => rfl
  have judged := poised.declarations (View.settled_script unit (scan source)) nofun read
  rw [compileBytes, script, finish_isOk, ← View.acceptsBody_script unit (scan source), closing]
  exact judged

/-- An accepted source is a sentence of the grammar, and its tree is legal. -/
theorem sentence_of_accepted {unit : Nat} {source : List UInt8} {r : Routine}
    (accepted : compileBytes unit source = .ok r) :
    ∃ body, Grammar.Sentence (scan source) body ∧ NearestAll body ∧ LegalScript body := by
  obtain ⟨f, tree, -⟩ := script_implements accepted
  obtain ⟨body, read, -⟩ := Option.map_eq_some_iff.mp tree
  obtain ⟨sentence, nearest⟩ :=
    (Grammar.declarations_eq_some_iff (scan_spec source).1 (fuelFor_enough source)).mp read
  exact ⟨body, sentence, nearest, (compiles_of_read unit sentence.proper read).mp ⟨r, accepted⟩⟩

theorem accepted_of_sentence (unit : Nat) {source : List UInt8} {body : List Declaration}
    (sentence : Grammar.Sentence (scan source) body) (nearest : NearestAll body)
    (legal : LegalScript body) : ∃ r, compileBytes unit source = .ok r := by
  have read :=
    (Grammar.declarations_eq_some_iff (scan_spec source).1 (fuelFor_enough source)).mpr
      ⟨sentence, nearest⟩
  exact (compiles_of_read unit sentence.proper read).mpr legal

/-- The compiler accepts a source if and only if all of its bytes belong to tokens, its numbers can be
read, the tokens have the form of a sentence of the grammar, and the tree in which every `else` belongs
to the nearest `if` is legal. -/
theorem compiles_iff (unit : Nat) (source : List UInt8) :
    (∃ r, compileBytes unit source = .ok r) ↔
      (∀ t ∈ scan source, t.kind ≠ .error) ∧
        (∀ t ∈ scan source, t.kind = .number → ∃ d, Decimal.parse t.lexeme = .ok d) ∧
          ∃ body, Grammar.Formed (scan source) body ∧ NearestAll body ∧ LegalScript body := by
  constructor
  · rintro ⟨r, accepted⟩
    obtain ⟨body, sentence, nearest, legal⟩ := sentence_of_accepted accepted
    have reads : ∀ t ∈ scan source, t.Reads := fun t member => (sentence.sound t member).2
    exact ⟨sentence.proper, reads, body, (Grammar.formed_iff reads).mpr sentence, nearest, legal⟩
  · rintro ⟨-, reads, body, formed, nearest, legal⟩
    exact accepted_of_sentence unit ((Grammar.formed_iff reads).mp formed) nearest legal

/-- A number with two points has the form of a legal script, and is refused. -/
theorem unread_number_refused :
    let source := bytesOf ".5.5;"
    (¬∃ r, compileBytes 0 source = .ok r) ∧ (∀ t ∈ scan source, t.kind ≠ .error) ∧
      ∃ body, Grammar.Formed (scan source) body ∧ NearestAll body ∧ LegalScript body := by
  intro source
  have refused : compileBytes 0 (bytesOf ".5.5;") = .error [⟨1, .atToken ".5.5", .invalidNumber⟩] := by
    rfl
  have formal : (scan (bytesOf ".5.5;")).map Token.formal =
      [⟨.number, "0", 1, 0, 4⟩, ⟨.semicolon, ";", 1, 4, 5⟩, ⟨.eof, "", 1, 5, 5⟩] := by decide
  have zero : Decimal.parse "0" = .ok Decimal.zero := by decide
  refine ⟨?_, by decide, [.statement (.expression (.number .zero))], ?_, ⟨trivial, trivial⟩, ?_⟩
  · rintro ⟨r, accepted⟩
    rw [refused] at accepted
    cases accepted
  · rw [Grammar.Formed, formal]
    have value : Grammar.Whole [⟨.number, "0", 1, 0, 4⟩, ⟨.semicolon, ";", 1, 4, 5⟩, ⟨.eof, "", 1, 5, 5⟩]
        (.number .zero) [⟨.semicolon, ";", 1, 4, 5⟩, ⟨.eof, "", 1, 5, 5⟩] :=
      .loosen (by decide) (by decide) (by decide) (.number rfl zero)
    exact ⟨1, _, .cons (.statement (.expression ⟨value, rfl⟩)) .nil, rfl⟩
  · have plain : ∀ d ∈ (scriptOf [.statement (.expression (.number .zero))]).code #[] 0 true,
        d.op.operand ≠ .jump ∧ d.op.operand ≠ .loop := by decide
    exact ⟨⟨trivial, trivial⟩, by decide, fun d member => short_of_operand (plain d member)⟩

end Reckoner.Compiler
