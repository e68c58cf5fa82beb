import Reckoner.Proofs.Compiler.Stream
import Reckoner.Proofs.Script.Sentences

/-!
One tree for every sentence. An `else` that belongs to a distant `if` can be moved to the nearest one
without a change to the tokens, and after that there is no choice left.
-/

namespace Reckoner.Script

open Grammar
open Compiler (Closed)
open Reader (kindAt)

def Statement.attach : Statement → (alternative : Statement) → Statement
  | .ifElse c s t, alternative =>
    if t.isEmpty then
      if s.dangles then .ifElse c (s.attach alternative) t else .ifElse c s alternative
    else .ifElse c s (t.attach alternative)
  | .while c s, alternative => .while c (s.attach alternative)
  | .for first c step s, alternative => .for first c step (s.attach alternative)
  | s, _ => s

mutual

def Statement.settle : Statement → Statement
  | .ifElse c s t =>
    if t.isEmpty then .ifElse c s.settle t
    else if s.settle.dangles then .ifElse c (s.settle.attach t.settle) .empty
    else .ifElse c s.settle t.settle
  | .while c s => .while c s.settle
  | .for first c step s => .for first c step s.settle
  | .block body => .block (settleAll body)
  | s => s

def Declaration.settle : Declaration → Declaration
  | .function f => .function f.settle
  | .statement s => .statement s.settle
  | .var name value => .var name value

def Function.settle : Function → Function
  | ⟨index, name, parameters, body, result⟩ => ⟨index, name, parameters, settleAll body, result⟩

def settleAll : List Declaration → List Declaration
  | [] => []
  | d :: rest => d.settle :: settleAll rest

end

theorem isEmpty_eq {s : Statement} (empty : s.isEmpty = true) : s = .empty := by
  cases s with
  | empty => rfl
  | _ => exact absurd empty Bool.false_ne_true

@[simp] theorem isEmpty_attach (s t : Statement) : (s.attach t).isEmpty = s.isEmpty := by
  cases s with
  | ifElse c s t =>
      rw [Statement.attach]
      split
      · split <;> rfl
      · rfl
  | _ => rfl

theorem nearest_attach {s t : Statement} (nearest : s.Nearest) (other : t.Nearest) :
    (s.attach t).Nearest := by
  match s with
  | .ifElse c first second =>
      obtain ⟨nearestFirst, nearestSecond, closed⟩ := nearest
      rw [Statement.attach]
      split
      · rename_i empty
        split
        · refine ⟨nearest_attach nearestFirst other, nearestSecond, fun present => ?_⟩
          rw [empty] at present
          exact absurd present (by decide)
        · rename_i complete
          exact ⟨nearestFirst, other, fun _ => by simpa using complete⟩
      · refine ⟨nearestFirst, nearest_attach nearestSecond other, fun present => ?_⟩
        rw [isEmpty_attach] at present
        exact closed present
  | .while c s => exact nearest_attach (s := s) nearest other
  | .for first c step s => exact nearest_attach (s := s) nearest other
  | .empty | .print _ | .expression _ | .break | .continue | .return _ => exact nearest
  | .block body => exact nearest

mutual

theorem Statement.nearest_settle (s : Statement) : s.settle.Nearest := by
  cases s with
  | ifElse c s t =>
      rw [Statement.settle]
      split
      · rename_i empty
        obtain rfl := isEmpty_eq empty
        exact ⟨s.nearest_settle, trivial, nofun⟩
      · split
        · exact ⟨nearest_attach s.nearest_settle t.nearest_settle, trivial, nofun⟩
        · rename_i complete
          exact ⟨s.nearest_settle, t.nearest_settle, fun _ => by simpa using complete⟩
  | «while» c s => exact s.nearest_settle
  | «for» first c step s => exact s.nearest_settle
  | block body => exact nearest_settleAll body
  | _ => trivial

theorem Declaration.nearest_settle (d : Declaration) : d.settle.Nearest := by
  cases d with
  | function f => exact f.nearest_settle
  | statement s => exact s.nearest_settle
  | var => trivial

theorem Function.nearest_settle (f : Function) : f.settle.Nearest := by
  obtain ⟨index, name, parameters, body, result⟩ := f
  exact nearest_settleAll body

theorem nearest_settleAll (body : List Declaration) : NearestAll (settleAll body) := by
  cases body with
  | nil => trivial
  | cons d rest => exact ⟨d.nearest_settle, nearest_settleAll rest⟩

end

namespace Grammar

/-- How a statement can go on that could still take an `else`. -/
def Attaches : (category : Category) → List Token → category.Tree → List Token → Prop
  | .statement n m, ts, s, rest => s.dangles = true → ∀ u v us k t last, rest = u :: v :: us →
    u.kind = .else → v.kind = .colon → Derives (.statement m k) us t last →
    Derives (.statement n k) ts (s.attach t) last
  | _, _, _, _ => True

theorem Derives.attaches {category : Category} {ts rest : List Token} {tree : category.Tree}
    (derives : Derives category ts tree rest) : Attaches category ts tree rest := by
  induction derives with
  | ifOnly kind condition consequent ih =>
      intro _ u v us k t last behind otherwise colon alternative
      rw [Statement.attach, if_pos (show Statement.empty.isEmpty = true from rfl)]
      split
      · rename_i dangles
        exact .ifOnly kind condition (ih dangles u v us k t last behind otherwise colon alternative)
      · rw [behind] at consequent
        exact .ifElse kind condition consequent otherwise colon alternative
  | ifElse kind condition consequent first second inner _ ih =>
      intro dangles u v us k t last behind otherwise colon alternative
      rw [Statement.dangles, inner.present, Bool.false_or] at dangles
      rw [Statement.attach, inner.present, if_neg Bool.false_ne_true]
      exact .ifElse kind condition consequent first second
        (ih dangles u v us k t last behind otherwise colon alternative)
  | «while» kind condition _ ih =>
      intro dangles u v us k t last behind otherwise colon alternative
      exact .while kind condition (ih dangles u v us k t last behind otherwise colon alternative)
  | «for» kind opening tests steps _ ih =>
      intro dangles u v us k t last behind otherwise colon alternative
      exact .for kind opening tests steps (ih dangles u v us k t last behind otherwise colon alternative)
  | print | expression | «break» | «continue» | «return» | block =>
      intro dangles
      cases dangles
  | statement | var | fn | short | long | nil | cons => trivial

def settled : (category : Category) → category.Tree → category.Tree
  | .statement _ _, s => s.settle
  | .declaration _ _, d => d.settle
  | .declarations _ _, body => settleAll body
  | .function _ _, f => f.settle

theorem Derives.settle {category : Category} {ts rest : List Token} {tree : category.Tree}
    (derives : Derives category ts tree rest) : Derives category ts (settled category tree) rest := by
  induction derives with
  | print kind value => exact .print kind value
  | expression value => exact .expression value
  | ifOnly kind condition _ ih => exact .ifOnly kind condition ih
  | ifElse kind condition _ otherwise colon inner first second =>
      rw [settled, Statement.settle, inner.present, if_neg Bool.false_ne_true]
      split
      · rename_i dangles
        exact .ifOnly kind condition
          (first.attaches dangles _ _ _ _ _ _ rfl otherwise colon second)
      · exact .ifElse kind condition first otherwise colon second
  | «while» kind condition _ ih => exact .while kind condition ih
  | «for» kind opening tests steps _ ih => exact .for kind opening tests steps ih
  | «break» kind closing => exact .break kind closing
  | «continue» kind closing => exact .continue kind closing
  | «return» kind result => exact .return kind result
  | block kind _ closing ih => exact .block kind ih closing
  | statement _ ih => exact .statement ih
  | var kind declared => exact .var kind declared
  | fn kind _ ih => exact .fn kind ih
  | short name parameters equal value => exact .short name parameters equal value
  | long name parameters opening _ closing ih => exact .long name parameters opening ih closing
  | nil => exact .nil
  | cons _ _ first others => exact .cons first others

/-! The tokens passed -/

/-- A token of the language, other than the end. -/
def Proper (t : Token) : Prop := t.kind ≠ .eof ∧ t.kind ≠ .error ∧ t.Reads

def Quiet (t : Token) : Prop := Proper t ∧ t.kind ≠ .fn ∧ t.kind ≠ .var

/-- From one place to a later one there are only tokens of one sort. -/
def Spans (sort : Token → Prop) (ts rest : List Token) : Prop :=
  ∃ used, ts = used ++ rest ∧ ∀ t ∈ used, sort t

abbrev Passes (ts rest : List Token) : Prop := Spans Proper ts rest

namespace Spans

variable {sort wider : Token → Prop} {t : Token} {ts us rest : List Token}

theorem refl (sort : Token → Prop) (ts : List Token) : Spans sort ts ts := ⟨[], rfl, nofun⟩

theorem trans (first : Spans sort ts us) (second : Spans sort us rest) : Spans sort ts rest := by
  obtain ⟨a, rfl, sortA⟩ := first
  obtain ⟨b, rfl, sortB⟩ := second
  refine ⟨a ++ b, (List.append_assoc ..).symm, fun t member => ?_⟩
  rcases List.mem_append.mp member with old | new
  · exact sortA t old
  · exact sortB t new

theorem one (here : sort t) (rest : List Token) : Spans sort (t :: rest) rest :=
  ⟨[t], rfl, fun u member => by rwa [List.mem_singleton.mp member]⟩

theorem cons (here : sort t) (later : Spans sort ts rest) : Spans sort (t :: ts) rest :=
  (one here ts).trans later

theorem next (first : Spans sort ts (t :: us)) (here : sort t) : Spans sort ts us :=
  first.trans (one here us)

theorem mono (more : ∀ t, sort t → wider t) (spans : Spans sort ts rest) : Spans wider ts rest := by
  obtain ⟨used, rfl, all⟩ := spans
  exact ⟨used, rfl, fun t member => more t (all t member)⟩

theorem passes (quiet : Spans Quiet ts rest) : Passes ts rest := quiet.mono fun _ here => here.1

theorem closed (passes : Passes ts rest) (closed : Closed ts) : Closed rest := by
  obtain ⟨used, rfl, proper⟩ := passes
  induction used with
  | nil => exact closed
  | cons t used ih =>
      exact ih (fun u member => proper u (List.mem_cons_of_mem t member))
        (Closed.tail closed (proper t List.mem_cons_self).1)

end Spans

theorem Proper.of_kind {t : Token} {kind : Kind} (here : t.kind = kind)
    (proper : kind ≠ .eof ∧ kind ≠ .error ∧ kind ≠ .number) : Proper t := by
  rw [Proper, Token.Reads, here]
  exact ⟨proper.1, proper.2.1, fun number => absurd number proper.2.2⟩

theorem Quiet.of_kind {t : Token} {kind : Kind} (here : t.kind = kind)
    (quiet : (kind ≠ .eof ∧ kind ≠ .error ∧ kind ≠ .number) ∧ kind ≠ .fn ∧ kind ≠ .var) :
    Quiet t := by
  refine ⟨.of_kind here quiet.1, ?_⟩
  rw [here]
  exact quiet.2

theorem Quiet.of_number {t : Token} {d : Decimal} (number : t.kind = .number)
    (readable : Decimal.parse t.lexeme = .ok d) : Quiet t := by
  rw [Quiet, Proper, Token.Reads, number]
  exact ⟨⟨by decide, by decide, fun _ => ⟨d, readable⟩⟩, by decide, by decide⟩

theorem Quiet.of_compound {t : Token} {op : Operator}
    (compound : Operator.ofAssignment? t.kind = some op) : Quiet t := by
  refine ⟨⟨?_, ?_, ?_⟩, ?_, ?_⟩ <;> (intro other; rw [other] at compound; exact absurd compound nofun)

theorem Quiet.of_operator {t : Token} {op : Operator}
    (operator : Operator.ofKind? t.kind = some op) : Quiet t := by
  refine ⟨⟨?_, ?_, ?_⟩, ?_, ?_⟩ <;> (intro other; rw [other] at operator; exact absurd operator nofun)

theorem Phrase.quiet {part : Part} {ts rest : List Token} {tree : part.Tree}
    (phrase : Phrase part ts tree rest) : Spans Quiet ts rest := by
  induction phrase with
  | tighter _ _ _ ih | argument _ ih => exact ih
  | assign name equal _ ih =>
      exact .cons (.of_kind name (by decide)) (.cons (.of_kind equal (by decide)) ih)
  | update name compound _ ih =>
      exact .cons (.of_kind name (by decide)) (.cons (.of_compound compound) ih)
  | or _ kind _ left right | and _ kind _ left right | power _ kind _ left right
  | arguments _ kind _ left right => exact (left.next (.of_kind kind (by decide))).trans right
  | binary _ operator _ _ left right => exact (left.next (.of_operator operator)).trans right
  | negate kind _ ih | not kind _ ih => exact .cons (.of_kind kind (by decide)) ih
  | call _ opening _ closing left right =>
      exact ((left.next (.of_kind opening (by decide))).trans right).next
        (.of_kind closing (by decide))
  | callNone _ opening closing ih =>
      exact (ih.next (.of_kind opening (by decide))).next (.of_kind closing (by decide))
  | number kind readable => exact .one (.of_number kind readable) _
  | trueLiteral kind | falseLiteral kind | read kind => exact .one (.of_kind kind (by decide)) _
  | parentheses opening _ closing ih =>
      exact (Spans.cons (.of_kind opening (by decide)) ih).next (.of_kind closing (by decide))

section

variable {kind : Kind} {ts rest : List Token}
  (silent : (kind ≠ .eof ∧ kind ≠ .error ∧ kind ≠ .number) ∧ kind ≠ .fn ∧ kind ≠ .var)

include silent

theorem Ended.quiet {e : Expression} (ended : Ended kind ts e rest) : Spans Quiet ts rest := by
  obtain ⟨value, closing⟩ := ended
  exact value.quiet.next (.of_kind closing silent)

theorem Clause.quiet {value : Option Expression} (clause : Clause kind ts value rest) :
    Spans Quiet ts rest := by
  cases clause with
  | missing closing => exact .one (.of_kind closing silent) _
  | present value => exact value.quiet silent

end

theorem Variable.quiet {ts rest : List Token} {name : String} {value : Option Expression}
    (declared : Variable ts name value rest) : Spans Quiet ts rest := by
  cases declared with
  | plain kind closing =>
      exact .cons (.of_kind kind (by decide)) (.one (.of_kind closing (by decide)) _)
  | initialized kind equal value =>
      exact .cons (.of_kind kind (by decide))
        (.cons (.of_kind equal (by decide)) (value.quiet (by decide)))

theorem Opening.passes {ts rest : List Token} {first : Initializer}
    (opening : Opening ts first rest) : Passes ts rest := by
  cases opening with
  | missing closing => exact .one (.of_kind closing (by decide)) _
  | var keyword declared => exact .cons (.of_kind keyword (by decide)) declared.quiet.passes
  | expression value => exact (value.quiet (by decide)).passes

theorem Names.quiet {ts rest : List Token} {names : List String} (listed : Names ts names rest) :
    Spans Quiet ts rest := by
  induction listed with
  | one kind => exact .one (.of_kind kind (by decide)) _
  | more kind comma _ ih =>
      exact .cons (.of_kind kind (by decide)) (.cons (.of_kind comma (by decide)) ih)

theorem Parameters.quiet {ts rest : List Token} {names : List String}
    (listed : Parameters ts names rest) : Spans Quiet ts rest := by
  cases listed with
  | empty opening closing =>
      exact .cons (.of_kind opening (by decide)) (.one (.of_kind closing (by decide)) _)
  | full opening listed closing =>
      exact (Spans.cons (.of_kind opening (by decide)) listed.quiet).next
        (.of_kind closing (by decide))

theorem Derives.passes {category : Category} {ts rest : List Token} {tree : category.Tree}
    (derives : Derives category ts tree rest) : Passes ts rest := by
  induction derives with
  | print kind value => exact .cons (.of_kind kind (by decide)) (value.quiet (by decide)).passes
  | expression value => exact (value.quiet (by decide)).passes
  | ifOnly kind condition _ ih | «while» kind condition _ ih =>
      exact .cons (.of_kind kind (by decide)) ((condition.quiet (by decide)).passes.trans ih)
  | ifElse kind condition _ otherwise colon _ first second =>
      have test := (condition.quiet (by decide)).passes.trans first
      exact .cons (.of_kind kind (by decide))
        (((test.next (.of_kind otherwise (by decide))).next (.of_kind colon (by decide))).trans second)
  | «for» kind opening tests steps _ ih =>
      have clauses := (opening.passes.trans (tests.quiet (by decide)).passes).trans
        (steps.quiet (by decide)).passes
      exact .cons (.of_kind kind (by decide)) (clauses.trans ih)
  | «break» kind closing | «continue» kind closing =>
      exact .cons (.of_kind kind (by decide)) (.one (.of_kind closing (by decide)) _)
  | «return» kind result => exact .cons (.of_kind kind (by decide)) (result.quiet (by decide)).passes
  | block kind _ closing ih =>
      exact (Spans.cons (.of_kind kind (by decide)) ih).next (.of_kind closing (by decide))
  | statement _ ih => exact ih
  | var kind declared => exact .cons (.of_kind kind (by decide)) declared.quiet.passes
  | fn kind _ ih => exact .cons (.of_kind kind (by decide)) ih
  | short name parameters equal value =>
      exact .cons (.of_kind name (by decide))
        ((parameters.quiet.passes.next (.of_kind equal (by decide))).trans
          (value.quiet (by decide)).passes)
  | long name parameters opening _ closing ih =>
      exact .cons (.of_kind name (by decide))
        (((parameters.quiet.passes.next (.of_kind opening (by decide))).trans ih).next
          (.of_kind closing (by decide)))
  | nil => exact .refl _ _
  | cons _ _ first others => exact first.trans others

theorem Spans.ended {ts rest : List Token} (passes : Passes ts rest) (closed : Closed ts)
    (ended : kindAt rest = .eof) : ∃ t, rest = [t] ∧ t.kind = .eof := by
  have remains := passes.closed closed
  cases rest with
  | nil => exact remains.elim
  | cons t us => exact ⟨t, by rw [Closed.eq_nil remains ended], ended⟩

/-! Whole sources -/

theorem declarations_of_read {fuel n : Nat} {ts : List Token} {body : List Declaration}
    (read : Reader.declarations fuel n ts = some body) :
    ∃ m rest, Derives (.declarations n m) ts body rest ∧ kindAt rest = .eof ∧ NearestAll body := by
  induction fuel generalizing n ts body with
  | zero => exact absurd read (by simp [Reader.declarations])
  | succ fuel ih =>
      rw [Reader.declarations] at read
      split at read
      · rename_i ended
        cases read
        exact ⟨n, ts, .nil, eq_of_beq ended, trivial⟩
      · simp only [Option.bind_eq_bind] at read
        obtain ⟨⟨d, k, us⟩, first, read⟩ := Option.bind_eq_some_iff.mp read
        obtain ⟨others, found, read⟩ := Option.bind_eq_some_iff.mp read
        cases read
        obtain ⟨derives, nearest⟩ := (unitsRead fuel).declaration first
        obtain ⟨m, rest, inner, ended, all⟩ := ih found
        exact ⟨m, rest, .cons derives inner, ended, nearest, all⟩

section

variable {ts : List Token} {fuel : Nat} (closed : Closed ts) (enough : 16 * ts.length + 10 ≤ fuel)

include closed enough

/-- A source is read as the one tree of a sentence in which every `else` belongs to the nearest
`if`. -/
theorem declarations_eq_some_iff {body : List Declaration} :
    Reader.declarations fuel 1 ts = some body ↔ Sentence ts body ∧ NearestAll body := by
  constructor
  · intro read
    obtain ⟨m, rest, derives, ended, nearest⟩ := declarations_of_read read
    obtain ⟨t, rfl, last⟩ := derives.passes.ended closed ended
    exact ⟨⟨m, t, derives, last⟩, nearest⟩
  · rintro ⟨⟨m, t, derives, last⟩, nearest⟩
    exact (derives.found nearest).2 last fuel enough

theorem singleExpression_eq_some_iff {e : Expression} :
    Reader.singleExpression fuel ts = some e ↔ SingleExpression ts e := by
  constructor
  · intro read
    simp only [Reader.singleExpression, Option.bind_eq_bind] at read
    obtain ⟨⟨value, rest⟩, found, read⟩ := Option.bind_eq_some_iff.mp read
    dsimp only at read
    split at read
    · rename_i ended
      cases read
      obtain ⟨whole, -⟩ := (phrasesRead fuel).expression found
      obtain ⟨t, rfl, last⟩ := whole.quiet.passes.ended closed (eq_of_beq ended)
      exact ⟨t, whole, last⟩
    · exact absurd read nofun
  · rintro ⟨t, whole, last⟩
    have found := expression_of_read whole.read_of (by rw [kindAt, last]; decide)
      (by rw [kindAt, last]; rfl) (show 16 * _ + 6 ≤ fuel by omega)
    simp only [Reader.singleExpression, found, Option.bind_eq_bind, Option.bind_some, kindAt, last]
    rfl

end

theorem Sentence.nearest {ts : List Token} {body : List Declaration} (sentence : Sentence ts body) :
    ∃ body, Sentence ts body ∧ NearestAll body := by
  obtain ⟨m, t, derives, last⟩ := sentence
  exact ⟨settleAll body, ⟨m, t, derives.settle, last⟩, nearest_settleAll body⟩

theorem Spans.sound {t : Token} {ts : List Token} (passes : Passes ts [t]) (last : t.kind = .eof) :
    ∀ u ∈ ts, u.kind ≠ .error ∧ u.Reads := by
  obtain ⟨used, rfl, proper⟩ := passes
  intro u member
  rcases List.mem_append.mp member with old | new
  · exact (proper u old).2
  · rw [List.mem_singleton.mp new, Token.Reads, last]
    exact ⟨by decide, fun number => absurd number (by decide)⟩

theorem Sentence.sound {ts : List Token} {body : List Declaration} (sentence : Sentence ts body) :
    ∀ t ∈ ts, t.kind ≠ .error ∧ t.Reads := by
  obtain ⟨m, t, derives, last⟩ := sentence
  exact derives.passes.sound last

theorem Sentence.proper {ts : List Token} {body : List Declaration} (sentence : Sentence ts body) :
    ∀ t ∈ ts, t.kind ≠ .error := fun t member => (sentence.sound t member).1

theorem SingleExpression.proper {ts : List Token} {e : Expression} (single : SingleExpression ts e) :
    ∀ t ∈ ts, t.kind ≠ .error := by
  obtain ⟨t, value, last⟩ := single
  exact fun u member => (value.quiet.passes.sound last u member).1

theorem formed_iff {ts : List Token} {body : List Declaration} (reads : ∀ t ∈ ts, t.Reads) :
    Formed ts body ↔ Sentence ts body := by
  have same : ts.map Token.formal = ts := by
    rw [List.map_congr_left fun t member => (reads t member).formal_eq, List.map_id']
  rw [Formed, same]

end Grammar

end Reckoner.Script
