import Reckoner.Proofs.Script.Nearest
import Reckoner.Proofs.Script.Plain
import Reckoner.Proofs.Token.Spacing

/-!
The same thing said in other words. Where some assignments and some heads of loops are replaced by others
with the same meaning, what can be derived can still be derived, and the trees agree once they are plain.
-/

namespace Reckoner.Script

namespace Grammar

open Compiler (Precedence isAssignment beginsExpression)
open Reader (kindAt)

/-! What may follow a phrase -/

def Part.Follow : Part → Kind → Prop
  | .expression level, kind => Stops level kind ∧ isAssignment kind = false
  | .arguments, kind => kind = .rightParen

theorem Separates.follow {kind : Kind} (separates : Separates kind) :
    (Part.expression Precedence.assignment).Follow kind :=
  ⟨.of_lt separates.loose, separates.plain⟩

theorem separates_rightParen : Separates .rightParen := ⟨by decide, rfl, rfl⟩

theorem separates_comma : Separates .comma := ⟨by decide, rfl, rfl⟩

theorem Whole.unique {ts rest other : List Token} {e f : Expression} (first : Whole ts e rest)
    (second : Whole ts f other) (closed : (Part.expression Precedence.assignment).Follow (kindAt rest))
    (closedToo : (Part.expression Precedence.assignment).Follow (kindAt other)) :
    e = f ∧ rest = other := by
  have one := expression_of_read first.read_of (closed.1.lt (.inr (.inr rfl))) closed.2 (Nat.le_refl _)
  have two := expression_of_read second.read_of (closedToo.1.lt (.inr (.inr rfl))) closedToo.2
    (Nat.le_refl _)
  rw [one] at two
  exact Prod.mk.inj (Option.some.inj two)

theorem Ended.unique {kind : Kind} {ts rest other : List Token} {e f : Expression}
    (first : Ended kind ts e rest) (second : Ended kind ts f other) (separates : Separates kind) :
    e = f ∧ rest = other := by
  have one := first.read separates (Nat.le_refl _)
  rw [second.read separates (Nat.le_refl _)] at one
  exact (Prod.mk.inj (Option.some.inj one)).imp Eq.symm Eq.symm

/-! Other words -/

inductive LoopHead : List Token → Expression → List Token → Prop where
  | while {t : Token} {ts rest : List Token} {c : Expression} (keyword : t.kind = .while)
    (test : Ended .colon ts c rest) : LoopHead (t :: ts) c rest
  | for {t u v : Token} {ts rest : List Token} {c : Expression} (keyword : t.kind = .for)
    (missing : u.kind = .semicolon) (test : Ended .semicolon ts c (v :: rest))
    (colon : v.kind = .colon) : LoopHead (t :: u :: ts) c rest

/-- The second tokens say what the first ones say: token by token, up to where each of them come to their
end, but for some assignments and some heads of loops that are said in other words. What follows `var` is
no assignment, although it may look like one. -/
inductive Rephrases (old new : List Token) : (behind : Kind) → List Token → List Token → Prop where
  | ends {behind : Kind} : Rephrases old new behind old new
  | token {behind : Kind} {t u : Token} {ts us : List Token} (alike : u.spelling = t.spelling)
    (others : Rephrases old new t.kind ts us) : Rephrases old new behind (t :: ts) (u :: us)
  | assignment {behind last : Kind} {t u : Token} {ts us rest more : List Token} {e f : Expression}
    (name : t.kind = .identifier) (assigns : isAssignment u.kind = true)
    (apart : behind = .var → u.kind ≠ .equal) (first : Whole (t :: u :: ts) e rest)
    (closed : (Part.expression Precedence.assignment).Follow (kindAt rest))
    (second : Whole us f more) (same : f.plain = e.plain)
    (others : Rephrases old new last rest more) : Rephrases old new behind (t :: u :: ts) us
  | loop {behind : Kind} {ts us rest more : List Token} {c d : Expression} (first : LoopHead ts c rest)
    (second : LoopHead us d more) (same : d.plain = c.plain)
    (others : Rephrases old new .colon rest more) : Rephrases old new behind ts us

def opensRephrased : Kind → Bool
  | .identifier | .while | .for => true
  | _ => false

theorem ordinary_of_operator {kind : Kind} {op : Operator}
    (operator : Operator.ofKind? kind = some op) : opensRephrased kind = false := by
  cases kind <;> first
    | rfl
    | exact absurd operator nofun

theorem LoopHead.opens {ts rest : List Token} {c : Expression} (head : LoopHead ts c rest) :
    kindAt ts = .while ∨ kindAt ts = .for := by
  cases head with
  | «while» keyword => exact .inl keyword
  | «for» keyword => exact .inr keyword

namespace Rephrases

variable {old new : List Token} {behind : Kind} {t u : Token} {ts us : List Token}

theorem head {kind : Kind} (rephrases : Rephrases old new behind (t :: ts) us)
    (below : old.length ≤ ts.length) (here : t.kind = kind) (ordinary : opensRephrased kind = false) :
    ∃ v vs, us = v :: vs ∧ v.kind = kind ∧ v.lexeme = t.lexeme ∧ Rephrases old new kind ts vs := by
  subst here
  cases rephrases with
  | ends =>
      rw [List.length_cons] at below
      omega
  | token alike others => exact ⟨_, _, rfl, congrArg Prod.fst alike, congrArg Prod.snd alike, others⟩
  | assignment name => exact absurd ordinary (by rw [name]; decide)
  | loop first =>
      rcases first.opens with keyword | keyword
      · exact absurd ordinary (by rw [kindAt] at keyword; rw [keyword]; decide)
      · exact absurd ordinary (by rw [kindAt] at keyword; rw [keyword]; decide)

theorem name (rephrases : Rephrases old new behind (t :: ts) us) (below : old.length ≤ ts.length)
    (here : t.kind = .identifier) (plain : isAssignment (kindAt ts) = false) :
    ∃ v vs, us = v :: vs ∧ v.kind = .identifier ∧ v.lexeme = t.lexeme ∧
      Rephrases old new .identifier ts vs := by
  cases rephrases with
  | ends =>
      rw [List.length_cons] at below
      omega
  | token alike others =>
      rw [here] at others
      exact ⟨_, _, rfl, (congrArg Prod.fst alike).trans here, congrArg Prod.snd alike, others⟩
  | assignment _ assigns => exact absurd (assigns.symm.trans plain) (by decide)
  | loop first =>
      rcases first.opens with keyword | keyword
      · exact absurd (here.symm.trans keyword) (by decide)
      · exact absurd (here.symm.trans keyword) (by decide)

inductive Assigned (old new : List Token) (behind : Kind) (t u : Token) (ts : List Token) :
    List Token → Prop where
  | kept {v w : Token} {us : List Token} (name : v.kind = .identifier) (lexeme : v.lexeme = t.lexeme)
    (kind : w.kind = u.kind) (others : Rephrases old new u.kind ts us) :
    Assigned old new behind t u ts (v :: w :: us)
  | changed {last : Kind} {us rest more : List Token} {e f : Expression}
    (apart : behind = .var → u.kind ≠ .equal) (first : Whole (t :: u :: ts) e rest)
    (closed : (Part.expression Precedence.assignment).Follow (kindAt rest))
    (second : Whole us f more) (same : f.plain = e.plain) (others : Rephrases old new last rest more) :
    Assigned old new behind t u ts us

theorem assigned (rephrases : Rephrases old new behind (t :: u :: ts) us)
    (below : old.length ≤ ts.length) (here : t.kind = .identifier)
    (assigns : isAssignment u.kind = true) : Assigned old new behind t u ts us := by
  cases rephrases with
  | ends =>
      simp only [List.length_cons] at below
      omega
  | token alike others =>
      have ordinary : opensRephrased u.kind = false := by
        generalize u.kind = kind at assigns
        cases kind <;> first
          | rfl
          | exact absurd assigns (by decide)
      obtain ⟨w, vs, rfl, kind, -, others⟩ := others.head below rfl ordinary
      exact .kept ((congrArg Prod.fst alike).trans here) (congrArg Prod.snd alike) kind others
  | assignment _ _ apart first closed second same others =>
      exact .changed apart first closed second same others
  | loop first =>
      rcases first.opens with keyword | keyword
      · exact absurd (here.symm.trans keyword) (by decide)
      · exact absurd (here.symm.trans keyword) (by decide)

end Rephrases

/-! Phrases in other words -/

def Part.plain : (part : Part) → part.Tree → part.Tree
  | .expression _, e => e.plain
  | .arguments, args => plainOfAll args

/-- What is said first in the other words can be derived and has the same meaning, and what is left is
said in other words, too. -/
inductive Recast (old new : List Token) {α β : Type} (derives : List Token → α → List Token → Prop)
    (plain : α → β) (us : List Token) (tree : α) (rest : List Token) : Prop where
  | intro {other : α} {more : List Token} {behind : Kind} (derived : derives us other more)
    (same : plain other = plain tree) (others : Rephrases old new behind rest more) :
    Recast old new derives plain us tree rest

theorem isAssignment_of_compound {kind : Kind} {op : Operator}
    (compound : Operator.ofAssignment? kind = some op) : isAssignment kind = true := by
  cases kind <;> first
    | rfl
    | exact absurd compound nofun

/-- A phrase in other words is a phrase. The induction is on the phrase; what is said in other words is
met where the phrase assigns to a name, and nowhere else can it stand. -/
theorem Phrase.recast {old new : List Token} {part : Part} {ts rest : List Token} {tree : part.Tree}
    (phrase : Phrase part ts tree rest) {us : List Token} {behind : Kind}
    (rephrases : Rephrases old new behind ts us) (follow : part.Follow (kindAt rest))
    (below : old.length ≤ rest.length) : Recast old new (Phrase part) part.plain us tree rest := by
  induction phrase generalizing us behind with
  | tighter positive loose inner ih =>
      obtain ⟨phrase, same, others⟩ := ih rephrases ⟨follow.1.tighter, follow.2⟩ below
      exact .intro (.tighter positive loose phrase) same others
  | assign name equal value ih =>
      have shorter := value.shorter
      cases rephrases.assigned (by omega) name (by rw [equal]; rfl) with
      | kept other lexeme kind others =>
          obtain ⟨phrase, same, others⟩ := ih others follow below
          exact .intro (.assign other (kind.trans equal) phrase)
            (congrArg₂ Expression.assign lexeme same) others
      | changed _ first closed second same others =>
          obtain ⟨rfl, rfl⟩ := first.unique (.assign name equal value) closed follow
          exact .intro second same others
  | @update _ _ _ _ op _ name compound value ih =>
      have shorter := value.shorter
      cases rephrases.assigned (by omega) name (isAssignment_of_compound compound) with
      | kept other lexeme kind others =>
          obtain ⟨phrase, same, others⟩ := ih others follow below
          refine .intro (.update other (by rw [kind]; exact compound) phrase) ?_ others
          rw [← lexeme]
          exact congrArg (fun e => Expression.assign _ (.binary op (.read _) e)) same
      | changed _ first closed second same others =>
          -- Only one phrase stands here, so it is the one that was said in other words.
          obtain ⟨rfl, rfl⟩ := first.unique (.update name compound value) closed follow
          exact .intro second same others
  | or left connective right ihLeft ihRight =>
      have shorter := right.shorter
      obtain ⟨phrase, same, others⟩ := ihLeft rephrases
        (by rw [kindAt, connective]; exact ⟨.of_lt (by decide), rfl⟩) (Nat.le_succ_of_le (by omega))
      obtain ⟨v, vs, rfl, kind, -, others⟩ := others.head (by omega) connective rfl
      obtain ⟨second, sameToo, others⟩ := ihRight others follow below
      exact .intro (.or phrase kind second) (congrArg₂ Expression.or same sameToo) others
  | and left connective right ihLeft ihRight =>
      have shorter := right.shorter
      obtain ⟨phrase, same, others⟩ := ihLeft rephrases
        (by rw [kindAt, connective]; exact ⟨.of_lt (by decide), rfl⟩) (Nat.le_succ_of_le (by omega))
      obtain ⟨v, vs, rfl, kind, -, others⟩ := others.head (by omega) connective rfl
      obtain ⟨second, sameToo, others⟩ := ihRight others follow below
      exact .intro (.and phrase kind second) (congrArg₂ Expression.and same sameToo) others
  | @binary _ _ _ _ op _ _ left operator notPower right ihLeft ihRight =>
      have shorter := right.shorter
      have between := between_of_operator operator
      have stops : Stops op.level _ :=
        ⟨Nat.le_of_eq between.level, fun grouped => absurd grouped (level_left notPower).1⟩
      obtain ⟨phrase, same, others⟩ := ihLeft rephrases ⟨stops, between.plain⟩
        (Nat.le_succ_of_le (by omega))
      obtain ⟨v, vs, rfl, kind, -, others⟩ := others.head (by omega) rfl (ordinary_of_operator operator)
      obtain ⟨second, sameToo, others⟩ := ihRight others ⟨follow.1.tighter, follow.2⟩ below
      exact .intro (.binary phrase (by rw [kind]; exact operator) notPower second)
        (congrArg₂ (Expression.binary op) same sameToo) others
  | power left operator right ihLeft ihRight =>
      have shorter := right.shorter
      obtain ⟨phrase, same, others⟩ := ihLeft rephrases
        (by rw [kindAt, operator]; exact ⟨.of_lt (by decide), rfl⟩) (Nat.le_succ_of_le (by omega))
      obtain ⟨v, vs, rfl, kind, -, others⟩ := others.head (by omega) operator rfl
      obtain ⟨second, sameToo, others⟩ := ihRight others follow below
      exact .intro (.power phrase kind second) (congrArg₂ (Expression.binary .power) same sameToo) others
  | negate sign operand ih =>
      have shorter := operand.shorter
      obtain ⟨v, vs, rfl, kind, -, others⟩ := rephrases.head (by omega) sign rfl
      obtain ⟨phrase, same, others⟩ := ih others follow below
      exact .intro (.negate kind phrase) (congrArg Expression.negate same) others
  | not sign operand ih =>
      have shorter := operand.shorter
      obtain ⟨v, vs, rfl, kind, -, others⟩ := rephrases.head (by omega) sign rfl
      obtain ⟨phrase, same, others⟩ := ih others follow below
      exact .intro (.not kind phrase) (congrArg Expression.not same) others
  | call callee opening given closing ihCallee ihGiven =>
      have shorter := given.shorter
      rw [List.length_cons] at shorter
      obtain ⟨phrase, same, others⟩ := ihCallee rephrases
        (by rw [kindAt, opening]; exact ⟨stops_call _, rfl⟩) (Nat.le_succ_of_le (by omega))
      obtain ⟨v, vs, rfl, kind, -, others⟩ := others.head (by omega) opening rfl
      obtain ⟨listed, sameToo, others⟩ := ihGiven others closing (Nat.le_succ_of_le below)
      obtain ⟨w, ws, rfl, last, -, others⟩ := others.head below closing rfl
      exact .intro (.call phrase kind listed last) (congrArg₂ Expression.call same sameToo) others
  | callNone callee opening closing ih =>
      obtain ⟨phrase, same, others⟩ := ih rephrases
        (by rw [kindAt, opening]; exact ⟨stops_call _, rfl⟩)
        (Nat.le_succ_of_le (Nat.le_succ_of_le below))
      obtain ⟨v, vs, rfl, kind, -, others⟩ := others.head (Nat.le_succ_of_le below) opening rfl
      obtain ⟨w, ws, rfl, last, -, others⟩ := others.head below closing rfl
      exact .intro (.callNone phrase kind last) (congrArg (Expression.call · []) same) others
  | number literal readable =>
      obtain ⟨v, vs, rfl, kind, lexeme, others⟩ := rephrases.head below literal rfl
      exact .intro (.number kind (by rw [lexeme]; exact readable)) rfl others
  | trueLiteral literal =>
      obtain ⟨v, vs, rfl, kind, -, others⟩ := rephrases.head below literal rfl
      exact .intro (.trueLiteral kind) rfl others
  | falseLiteral literal =>
      obtain ⟨v, vs, rfl, kind, -, others⟩ := rephrases.head below literal rfl
      exact .intro (.falseLiteral kind) rfl others
  | read name =>
      obtain ⟨v, vs, rfl, kind, lexeme, others⟩ := rephrases.name below name follow.2
      exact .intro (.read kind) (congrArg Expression.read lexeme) others
  | parentheses opening inner closing ih =>
      have shorter := inner.shorter
      rw [List.length_cons] at shorter
      obtain ⟨v, vs, rfl, kind, -, others⟩ := rephrases.head (by omega) opening rfl
      obtain ⟨phrase, same, others⟩ := ih others
        (by rw [kindAt, closing]; exact separates_rightParen.follow) (Nat.le_succ_of_le below)
      obtain ⟨w, ws, rfl, last, -, others⟩ := others.head below closing rfl
      exact .intro (.parentheses kind phrase last) same others
  | argument only ih =>
      obtain ⟨phrase, same, others⟩ := ih rephrases (by rw [follow]; exact separates_rightParen.follow)
        below
      exact .intro (.argument phrase) (congrArg (fun e => [e]) same) others
  | arguments first comma others ihFirst ihOthers =>
      have shorter := others.shorter
      obtain ⟨phrase, same, behindFirst⟩ := ihFirst rephrases
        (by rw [kindAt, comma]; exact separates_comma.follow) (Nat.le_succ_of_le (by omega))
      obtain ⟨v, vs, rfl, kind, -, behindComma⟩ := behindFirst.head (by omega) comma rfl
      obtain ⟨listed, sameToo, behindAll⟩ := ihOthers behindComma follow below
      exact .intro (.arguments phrase kind listed) (congrArg₂ List.cons same sameToo) behindAll

/-! Units of the grammar in other words -/

section Clauses

variable {old new ts us rest : List Token} {behind kind : Kind}

theorem Ended.recast {e : Expression} (ended : Ended kind ts e rest) (separates : Separates kind)
    (ordinary : opensRephrased kind = false) (rephrases : Rephrases old new behind ts us)
    (below : old.length ≤ rest.length) :
    Recast old new (Ended kind) Expression.plain us e rest := by
  obtain ⟨value, closing⟩ := ended
  obtain ⟨phrase, same, others⟩ := value.recast rephrases
    (by rw [kindAt, closing]; exact separates.follow) (Nat.le_succ_of_le below)
  obtain ⟨v, vs, rfl, last, -, others⟩ := others.head below closing ordinary
  exact .intro (.intro phrase last) same others

theorem Clause.recast {value : Option Expression} (clause : Clause kind ts value rest)
    (separates : Separates kind) (ordinary : opensRephrased kind = false)
    (rephrases : Rephrases old new behind ts us) (below : old.length ≤ rest.length) :
    Recast old new (Clause kind) (Option.map Expression.plain) us value rest := by
  cases clause with
  | missing closing =>
      obtain ⟨v, vs, rfl, last, -, others⟩ := rephrases.head below closing ordinary
      exact .intro (.missing last) rfl others
  | present value =>
      obtain ⟨ended, same, others⟩ := value.recast separates ordinary rephrases below
      exact .intro (.present ended) (congrArg some same) others

theorem Variable.recast {name : String} {value : Option Expression}
    (declared : Variable ts name value rest) (rephrases : Rephrases old new .var ts us)
    (below : old.length ≤ rest.length) :
    Recast old new (Variable · name) (Option.map Expression.plain) us value rest := by
  cases declared with
  | plain kind closing =>
      obtain ⟨v, vs, rfl, named, lexeme, others⟩ := rephrases.name (Nat.le_succ_of_le below) kind
        (by rw [kindAt, closing]; rfl)
      obtain ⟨w, ws, rfl, last, -, others⟩ := others.head below closing rfl
      rw [← lexeme]
      exact .intro (.plain named last) rfl others
  | initialized kind equal value =>
      have shorter := value.shorter
      cases rephrases.assigned (by omega) kind (by rw [equal]; rfl) with
      | kept named lexeme last others =>
          obtain ⟨ended, same, others⟩ := value.recast separates_semicolon rfl others below
          rw [← lexeme]
          exact .intro (.initialized named (last.trans equal) ended) (congrArg some same) others
      | changed apart => exact absurd equal (apart rfl)

theorem Opening.recast {first : Initializer} (opening : Opening ts first rest)
    (rephrases : Rephrases old new behind ts us) (below : old.length ≤ rest.length) :
    Recast old new Opening Initializer.plain us first rest := by
  cases opening with
  | missing closing =>
      obtain ⟨v, vs, rfl, last, -, others⟩ := rephrases.head below closing rfl
      exact .intro (.missing last) rfl others
  | var keyword declared =>
      have shorter := declared.shorter
      obtain ⟨v, vs, rfl, kind, -, others⟩ := rephrases.head (by omega) keyword rfl
      obtain ⟨found, same, others⟩ := declared.recast others below
      exact .intro (.var kind found) (congrArg (Initializer.var _) same) others
  | expression value =>
      obtain ⟨ended, same, others⟩ := value.recast separates_semicolon rfl rephrases below
      exact .intro (.expression ended) (congrArg Initializer.expression same) others

theorem Names.recast {names : List String} (listed : Names ts names rest)
    (rephrases : Rephrases old new behind ts us) (closing : kindAt rest = .rightParen)
    (below : old.length ≤ rest.length) : Recast old new Names id us names rest := by
  induction listed generalizing us behind with
  | one kind =>
      obtain ⟨v, vs, rfl, named, lexeme, others⟩ := rephrases.name below kind (by rw [closing]; rfl)
      exact .intro (.one named) (congrArg (fun x => [x]) lexeme) others
  | more kind comma listed ih =>
      have shorter := listed.shorter
      obtain ⟨v, vs, rfl, named, lexeme, others⟩ := rephrases.name (Nat.le_succ_of_le (by omega)) kind
        (by rw [kindAt, comma]; rfl)
      obtain ⟨w, ws, rfl, separator, -, others⟩ := others.head (by omega) comma rfl
      obtain ⟨found, same, others⟩ := ih others closing below
      exact .intro (.more named separator found) (congrArg₂ List.cons lexeme same) others

theorem Parameters.recast {names : List String} (listed : Parameters ts names rest)
    (rephrases : Rephrases old new behind ts us) (below : old.length ≤ rest.length) :
    Recast old new Parameters id us names rest := by
  cases listed with
  | empty opening closing =>
      obtain ⟨v, vs, rfl, first, -, others⟩ := rephrases.head (Nat.le_succ_of_le below) opening rfl
      obtain ⟨w, ws, rfl, last, -, others⟩ := others.head below closing rfl
      exact .intro (.empty first last) rfl others
  | full opening listed closing =>
      have shorter := listed.shorter
      rw [List.length_cons] at shorter
      obtain ⟨v, vs, rfl, first, -, others⟩ := rephrases.head (by omega) opening rfl
      obtain ⟨found, same, others⟩ := listed.recast others closing (Nat.le_succ_of_le below)
      obtain ⟨w, ws, rfl, last, -, others⟩ := others.head below closing rfl
      exact .intro (.full first found last) same others

theorem Parameters.begins {names : List String} (listed : Parameters ts names rest) :
    kindAt ts = .leftParen := by
  cases listed with
  | empty opening | full opening => exact opening

end Clauses

/-! Loops in other words -/

theorem LoopHead.derives {ts us rest : List Token} {c : Expression} (head : LoopHead ts c us) {n m : Nat}
    {s : Statement} (body : Derives (.statement n m) us s rest) :
    ∃ loop, Derives (.statement n m) ts loop rest ∧
      loop.plain = .for .none (some c.plain) none s.plain := by
  cases head with
  | «while» keyword test => exact ⟨_, .while keyword test body, rfl⟩
  | «for» keyword missing test colon =>
      exact ⟨_, .for keyword (.missing missing) (.present test) (.missing colon) body, rfl⟩

theorem LoopHead.clauses {t : Token} {ts us vs ws rest : List Token} {c : Expression}
    {first : Initializer} {condition step : Option Expression} (head : LoopHead (t :: ts) c rest)
    (keyword : t.kind = .for) (opening : Opening ts first us) (tests : Clause .semicolon us condition vs)
    (steps : Clause .colon vs step ws) :
    first = .none ∧ condition = some c ∧ step = none ∧ ws = rest := by
  cases head with
  | «while» other => exact absurd (keyword.symm.trans other) (by decide)
  | «for» _ missing test colon =>
      cases opening with
      | var isVar => exact absurd (missing.symm.trans isVar) (by decide)
      | expression value =>
          have begins := value.begins
          rw [kindAt, missing] at begins
          exact absurd begins (by decide)
      | missing =>
          cases tests with
          | missing closing =>
              have begins := test.begins
              rw [kindAt, closing] at begins
              exact absurd begins (by decide)
          | present value =>
              obtain ⟨rfl, rfl⟩ := value.unique test separates_semicolon
              cases steps with
              | missing => exact ⟨rfl, rfl, rfl, rfl⟩
              | present value =>
                  have begins := value.begins
                  rw [kindAt, colon] at begins
                  exact absurd begins (by decide)

inductive Looped (old new : List Token) (t : Token) (ts : List Token) : List Token → Prop where
  | kept {v : Token} {us : List Token} (kind : v.kind = t.kind) (others : Rephrases old new t.kind ts us) :
    Looped old new t ts (v :: us)
  | changed {us rest more : List Token} {c d : Expression} (first : LoopHead (t :: ts) c rest)
    (second : LoopHead us d more) (same : d.plain = c.plain)
    (others : Rephrases old new .colon rest more) : Looped old new t ts us

theorem Rephrases.looped {old new : List Token} {behind : Kind} {t : Token} {ts us : List Token}
    (rephrases : Rephrases old new behind (t :: ts) us) (below : old.length ≤ ts.length)
    (other : t.kind ≠ .identifier) : Looped old new t ts us := by
  cases rephrases with
  | ends =>
      rw [List.length_cons] at below
      omega
  | token alike others => exact .kept (congrArg Prod.fst alike) others
  | assignment name => exact absurd name other
  | loop first second same others => exact .changed first second same others

/-! Statements in other words -/

def Category.plain : (category : Category) → category.Tree → category.Tree
  | .statement _ _, s => s.plain
  | .declaration _ _, d => d.plain
  | .declarations _ _, body => plainOfBody body
  | .function _ _, f => f.plain

theorem Derives.recast {old new : List Token} {category : Category} {ts rest : List Token}
    {tree : category.Tree} (derives : Derives category ts tree rest) {us : List Token} {behind : Kind}
    (rephrases : Rephrases old new behind ts us) (below : old.length ≤ rest.length) :
    Recast old new (Derives category) category.plain us tree rest := by
  induction derives generalizing us behind with
  | print keyword value =>
      have shorter := value.shorter
      obtain ⟨v, vs, rfl, kind, -, others⟩ := rephrases.head (by omega) keyword rfl
      obtain ⟨ended, same, others⟩ := value.recast separates_semicolon rfl others below
      exact .intro (.print kind ended) (congrArg Statement.print same) others
  | expression value =>
      obtain ⟨ended, same, others⟩ := value.recast separates_semicolon rfl rephrases below
      exact .intro (.expression ended) (congrArg Statement.expression same) others
  | ifOnly keyword condition consequent ih =>
      have first := condition.shorter
      have second := consequent.shorter
      simp only [Shorter] at second
      obtain ⟨v, vs, rfl, kind, -, others⟩ := rephrases.head (by omega) keyword rfl
      obtain ⟨test, same, others⟩ := condition.recast separates_colon rfl others (by omega)
      obtain ⟨body, sameToo, others⟩ := ih others below
      have whole := congrFun (congrArg₂ Statement.ifElse same sameToo) .empty
      exact .intro (.ifOnly kind test body) whole others
  | ifElse keyword condition consequent otherwise colon alternative ihYes ihNo =>
      have first := condition.shorter
      have second := consequent.shorter
      have third := alternative.shorter
      simp only [Shorter, List.length_cons] at second third
      obtain ⟨v, vs, rfl, kind, -, others⟩ := rephrases.head (by omega) keyword rfl
      obtain ⟨test, same, others⟩ := condition.recast separates_colon rfl others (by omega)
      obtain ⟨yes, sameYes, others⟩ := ihYes others (by simp only [List.length_cons]; omega)
      obtain ⟨w, ws, rfl, here, -, others⟩ := others.head (by simp only [List.length_cons]; omega)
        otherwise rfl
      obtain ⟨x, xs, rfl, last, -, others⟩ := others.head (by omega) colon rfl
      obtain ⟨no, sameNo, others⟩ := ihNo others below
      have whole := congr (congrArg₂ Statement.ifElse same sameYes) sameNo
      exact .intro (.ifElse kind test yes here last no) whole others
  | «while» keyword condition body ih =>
      have first := condition.shorter
      have second := body.shorter
      simp only [Shorter] at second
      cases rephrases.looped (by omega) (by rw [keyword]; decide) with
      | kept kind others =>
          obtain ⟨test, same, others⟩ := condition.recast separates_colon rfl others (by omega)
          obtain ⟨inner, sameToo, others⟩ := ih others below
          exact .intro (.while (kind.trans keyword) test inner)
            (congrArg₂ (fun c s => Statement.for .none (some c) none s) same sameToo) others
      | changed head other same others =>
          cases head with
          | «for» isFor => exact absurd (keyword.symm.trans isFor) (by decide)
          | «while» _ test =>
              obtain ⟨rfl, rfl⟩ := condition.unique test separates_colon
              obtain ⟨inner, sameToo, others⟩ := ih others below
              obtain ⟨loop, derived, plain⟩ := other.derives inner
              refine .intro derived (plain.trans ?_) others
              exact congrArg₂ (fun c s => Statement.for .none (some c) none s) same sameToo
  | «for» keyword opening tests steps body ih =>
      have first := opening.shorter
      have second := tests.shorter
      have third := steps.shorter
      have fourth := body.shorter
      simp only [Shorter] at fourth
      cases rephrases.looped (by omega) (by rw [keyword]; decide) with
      | kept kind others =>
          obtain ⟨start, sameStart, others⟩ := opening.recast others (by omega)
          obtain ⟨test, sameTest, others⟩ := tests.recast separates_semicolon rfl others (by omega)
          obtain ⟨step, sameStep, others⟩ := steps.recast separates_colon rfl others (by omega)
          obtain ⟨inner, sameBody, others⟩ := ih others below
          have whole := congr (congr (congrArg₂ Statement.for sameStart sameTest) sameStep) sameBody
          exact .intro (.for (kind.trans keyword) start test step inner) whole others
      | changed head other same others =>
          obtain ⟨rfl, rfl, rfl, rfl⟩ := head.clauses keyword opening tests steps
          obtain ⟨inner, sameToo, others⟩ := ih others below
          obtain ⟨loop, derived, plain⟩ := other.derives inner
          refine .intro derived (plain.trans ?_) others
          exact congrArg₂ (fun c s => Statement.for .none (some c) none s) same sameToo
  | «break» keyword closing =>
      obtain ⟨v, vs, rfl, kind, -, others⟩ := rephrases.head (Nat.le_succ_of_le below) keyword rfl
      obtain ⟨w, ws, rfl, last, -, others⟩ := others.head below closing rfl
      exact .intro (.break kind last) rfl others
  | «continue» keyword closing =>
      obtain ⟨v, vs, rfl, kind, -, others⟩ := rephrases.head (Nat.le_succ_of_le below) keyword rfl
      obtain ⟨w, ws, rfl, last, -, others⟩ := others.head below closing rfl
      exact .intro (.continue kind last) rfl others
  | «return» keyword result =>
      have shorter := result.shorter
      obtain ⟨v, vs, rfl, kind, -, others⟩ := rephrases.head (by omega) keyword rfl
      obtain ⟨clause, same, others⟩ := result.recast separates_semicolon rfl others below
      exact .intro (.return kind clause) (congrArg Statement.return same) others
  | block opening inner closing ih =>
      have shorter := inner.shorter
      simp only [Shorter, List.length_cons] at shorter
      obtain ⟨v, vs, rfl, first, -, others⟩ := rephrases.head (by omega) opening rfl
      obtain ⟨body, same, others⟩ := ih others (Nat.le_succ_of_le below)
      obtain ⟨w, ws, rfl, last, -, others⟩ := others.head below closing rfl
      exact .intro (.block first body last) (congrArg Statement.block same) others
  | statement inner ih =>
      obtain ⟨derived, same, others⟩ := ih rephrases below
      exact .intro (.statement derived) (congrArg Declaration.statement same) others
  | var keyword declared =>
      have shorter := declared.shorter
      obtain ⟨v, vs, rfl, kind, -, others⟩ := rephrases.head (by omega) keyword rfl
      obtain ⟨found, same, others⟩ := declared.recast others below
      exact .intro (.var kind found) (congrArg (Declaration.var _) same) others
  | fn keyword declared ih =>
      have shorter := declared.shorter
      simp only [Shorter] at shorter
      obtain ⟨v, vs, rfl, kind, -, others⟩ := rephrases.head (by omega) keyword rfl
      obtain ⟨found, same, others⟩ := ih others below
      exact .intro (.fn kind found) (congrArg Declaration.function same) others
  | @short n _ _ _ _ _ _ _ name parameters equal value =>
      have first := parameters.shorter
      have second := value.shorter
      rw [List.length_cons] at first
      obtain ⟨v, vs, rfl, named, lexeme, others⟩ := rephrases.name (by omega) name
        (by rw [parameters.begins]; rfl)
      obtain ⟨listed, rfl, others⟩ := parameters.recast others (by simp only [List.length_cons]; omega)
      obtain ⟨w, ws, rfl, assigned, -, others⟩ := others.head (by omega) equal rfl
      obtain ⟨ended, same, others⟩ := value.recast separates_semicolon rfl others below
      refine .intro (.short named listed assigned ended) ?_ others
      rw [← lexeme]
      exact congrArg (fun e => Function.mk n _ _ [] (some e)) same
  | @long n _ _ _ _ _ _ _ _ _ name parameters opening inner closing ih =>
      have first := parameters.shorter
      have second := inner.shorter
      simp only [Shorter, List.length_cons] at first second
      obtain ⟨v, vs, rfl, named, lexeme, others⟩ := rephrases.name (by omega) name
        (by rw [parameters.begins]; rfl)
      obtain ⟨listed, rfl, others⟩ := parameters.recast others (by simp only [List.length_cons]; omega)
      obtain ⟨w, ws, rfl, opened, -, others⟩ := others.head (by omega) opening rfl
      obtain ⟨body, same, others⟩ := ih others (Nat.le_succ_of_le below)
      obtain ⟨x, xs, rfl, last, -, others⟩ := others.head below closing rfl
      refine .intro (.long named listed opened body last) ?_ others
      rw [← lexeme]
      exact congrArg (fun body => Function.mk n _ _ body none) same
  | nil => exact .intro .nil rfl rephrases
  | cons first others ihFirst ihOthers =>
      have shorter := others.shorter
      simp only [Shorter] at shorter
      obtain ⟨declared, same, behindFirst⟩ := ihFirst rephrases (Nat.le_trans below shorter)
      obtain ⟨body, sameToo, behindAll⟩ := ihOthers behindFirst below
      exact .intro (.cons declared body) (congrArg₂ List.cons same sameToo) behindAll

/-! Whole sources in other words -/

theorem Rephrases.nil {old new us : List Token} {behind : Kind}
    (rephrases : Rephrases old new behind [] us) : old = [] ∧ us = new := by
  cases rephrases with
  | ends => exact ⟨rfl, rfl⟩
  | loop head => cases head

theorem Sentence.recast {ts us : List Token} {body : List Declaration} (sentence : Sentence ts body)
    {behind : Kind} (rephrases : Rephrases [] [] behind ts us) :
    ∃ other, Sentence us other ∧ plainOfBody other = plainOfBody body := by
  obtain ⟨next, t, derives, ended⟩ := sentence
  obtain ⟨derived, same, others⟩ := derives.recast rephrases (Nat.zero_le _)
  obtain ⟨v, vs, rfl, kind, -, others⟩ := others.head (Nat.le_refl _) ended rfl
  obtain ⟨-, rfl⟩ := others.nil
  exact ⟨_, ⟨next, v, derived, kind⟩, same⟩

def lastKind (behind : Kind) : List Token → Kind
  | [] => behind
  | t :: ts => lastKind t.kind ts

theorem Rephrases.behind {old new rest more : List Token} {ts us : List Token} {behind : Kind}
    (alike : us.map Token.spelling = ts.map Token.spelling)
    (others : Rephrases old new (lastKind behind ts) rest more) :
    Rephrases old new behind (ts ++ rest) (us ++ more) := by
  induction ts generalizing us behind with
  | nil =>
      obtain rfl := List.map_eq_nil_iff.mp alike
      exact others
  | cons t ts ih =>
      obtain ⟨u, us, rfl, same, alike⟩ := List.map_eq_cons_iff.mp alike
      exact .token same (ih alike others)

theorem Rephrases.of_alike {behind : Kind} {ts us : List Token}
    (alike : us.map Token.spelling = ts.map Token.spelling) : Rephrases [] [] behind ts us := by
  have same : Rephrases [] [] behind (ts ++ []) (us ++ []) := .behind alike .ends
  rwa [List.append_nil, List.append_nil] at same

theorem Rephrases.refl (behind : Kind) (ts : List Token) : Rephrases [] [] behind ts ts := .of_alike rfl

theorem Whole.before {ts us : List Token} {e : Expression} (value : Whole ts e [])
    (alike : us.map Token.spelling = ts.map Token.spelling) (more : List Token) :
    ∃ f, Whole (us ++ more) f more ∧ f.plain = e.plain := by
  have rephrases : Rephrases [] more .eof (ts ++ []) (us ++ more) := .behind alike .ends
  rw [List.append_nil] at rephrases
  obtain ⟨phrase, same, others⟩ := value.recast rephrases ⟨.of_lt (by decide), rfl⟩ (Nat.le_refl _)
  obtain ⟨-, rfl⟩ := others.nil
  exact ⟨_, phrase, same⟩

theorem Rephrases.last {new us : List Token} {behind : Kind} {t : Token}
    (rephrases : Rephrases [t] new behind [t] us) (last : t.kind = .eof) : us = new := by
  cases rephrases with
  | ends => rfl
  | token _ others => exact absurd others.nil.1 (List.cons_ne_nil _ _)
  | loop head =>
      rcases head.opens with keyword | keyword
      · exact absurd (last.symm.trans keyword) (by decide)
      · exact absurd (last.symm.trans keyword) (by decide)

theorem SingleExpression.before {ts us new : List Token} {e : Expression} (single : SingleExpression ts e)
    (alike : us.map Token.spelling = (ts.map Token.spelling).dropLast) :
    ∃ f, Whole (us ++ new) f new ∧ f.plain = e.plain := by
  obtain ⟨t, value, last⟩ := single
  obtain ⟨used, rfl, -⟩ := value.quiet.passes
  rw [List.map_append, List.map_singleton, List.dropLast_concat] at alike
  have rephrases : Rephrases [t] new .eof (used ++ [t]) (us ++ new) := .behind alike .ends
  obtain ⟨phrase, same, others⟩ := value.recast rephrases
    (by rw [kindAt, last]; exact ⟨.of_lt (by decide), rfl⟩) (Nat.le_refl _)
  obtain rfl := others.last last
  exact ⟨_, phrase, same⟩

end Grammar

end Reckoner.Script
