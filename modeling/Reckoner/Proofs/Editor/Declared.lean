import Reckoner.Editor.Basic
import Reckoner.Proofs.Compiler.Forms
import Reckoner.Proofs.Machine.Meaning
import Reckoner.Proofs.Script.Accesses

/-!
The names a document declares, found without a parser. In a sentence of the grammar a name stands behind
`fn` or `var` exactly where a function or a variable is declared, so the words an editor finds there
are the names of the declarations, in the order of the source.
-/

namespace Reckoner

namespace Script

open Editor (namesAfter)

mutual

/-- The names of the variables and functions declared in a statement, in the order of the source.
Parameters are not among them. -/
def Statement.declared : Statement → List String
  | .ifElse _ s t => s.declared ++ t.declared
  | .while _ s => s.declared
  | .for first _ _ s => first.names ++ s.declared
  | .block body => declaredIn body
  | _ => []

def Declaration.declared : Declaration → List String
  | .var name _ => [name]
  | .function f => f.declared
  | .statement s => s.declared

def Function.declared : Function → List String
  | ⟨_, name, _, body, _⟩ => name :: declaredIn body

def declaredIn : List Declaration → List String
  | [] => []
  | d :: rest => d.declared ++ declaredIn rest

end

theorem mem_declaredIn {name : String} {body : List Declaration} (member : name ∈ namesOf false body) :
    name ∈ declaredIn body := by
  induction body with
  | nil => exact absurd member List.not_mem_nil
  | cons d rest ih =>
      rw [declaredIn]
      rcases List.mem_append.mp member with later | here
      · exact List.mem_append_right _ (ih later)
      · refine List.mem_append_left _ ?_
        cases d with
        | var other value => exact here
        | function f =>
            obtain ⟨index, other, parameters, inside, result⟩ := f
            obtain rfl := List.mem_singleton.mp here
            exact List.mem_cons_self
        | statement s => exact absurd here List.not_mem_nil

namespace Grammar

def Idle (kind : Kind) : Prop := kind ≠ .fn ∧ kind ≠ .var

/-- A reading of the tokens finds these names between two places, and is idle at both. -/
def Shows (names : List String) (ts rest : List Token) : Prop :=
  ∀ previous, Idle previous →
    ∃ last, Idle last ∧ namesAfter previous ts = names ++ namesAfter last rest

namespace Shows

variable {a b names : List String} {t keyword : Token} {ts us rest : List Token}

theorem refl (ts : List Token) : Shows [] ts ts := fun previous idle => ⟨previous, idle, rfl⟩

theorem trans (first : Shows a ts us) (second : Shows b us rest) : Shows (a ++ b) ts rest := by
  intro previous idle
  obtain ⟨middle, still, found⟩ := first previous idle
  obtain ⟨last, after, others⟩ := second middle still
  refine ⟨last, after, ?_⟩
  rw [found, others, List.append_assoc]

theorem one (quiet : Quiet t) (rest : List Token) : Shows [] (t :: rest) rest := by
  intro previous idle
  refine ⟨t.kind, quiet.2, ?_⟩
  simp [namesAfter, idle.1, idle.2]

theorem of_spans (spans : Spans Quiet ts rest) : Shows [] ts rest := by
  obtain ⟨used, rfl, quiet⟩ := spans
  induction used with
  | nil => exact .refl rest
  | cons t used ih =>
      exact (one (quiet t List.mem_cons_self) _).trans
        (ih fun u member => quiet u (List.mem_cons_of_mem t member))

theorem cons (quiet : Quiet t) (later : Shows names ts rest) : Shows names (t :: ts) rest :=
  (one quiet ts).trans later

theorem next (first : Shows names ts (t :: rest)) (quiet : Quiet t) : Shows names ts rest := by
  have whole := first.trans (one quiet rest)
  rwa [List.append_nil] at whole

theorem behind (spans : Spans Quiet ts us) (later : Shows names us rest) : Shows names ts rest :=
  (of_spans spans).trans later

theorem name (word : keyword.kind = .fn ∨ keyword.kind = .var) (here : t.kind = .identifier)
    (later : Shows names ts rest) : Shows (t.lexeme :: names) (keyword :: t :: ts) rest := by
  intro previous _
  have quiet : Idle t.kind := by
    rw [here]
    constructor <;> decide
  obtain ⟨last, after, found⟩ := later t.kind quiet
  have passed : keyword.kind ≠ .identifier := by
    rcases word with fn | var
    · rw [fn]
      decide
    · rw [var]
      decide
  refine ⟨last, after, ?_⟩
  simp [namesAfter, passed, here, word, ← found]

end Shows

theorem Variable.shows {keyword : Token} {ts rest : List Token} {name : String}
    {value : Option Expression} (word : keyword.kind = .var) (declared : Variable ts name value rest) :
    Shows [name] (keyword :: ts) rest := by
  cases declared with
  | plain here closing =>
      exact .name (.inr word) here (.of_spans (.one (.of_kind closing (by decide)) _))
  | initialized here equal value =>
      have others := Spans.cons (.of_kind equal (by decide)) (value.quiet (by decide))
      exact .name (.inr word) here (.of_spans others)

theorem Opening.shows {ts rest : List Token} {first : Initializer} (opening : Opening ts first rest) :
    Shows first.names ts rest := by
  cases opening with
  | missing closing => exact .one (.of_kind closing (by decide)) _
  | var keyword declared => exact declared.shows keyword
  | expression value => exact .of_spans (value.quiet (by decide))

def ShownAs : (category : Category) → List Token → category.Tree → List Token → Prop
  | .statement _ _, ts, s, rest => Shows s.declared ts rest
  | .declaration _ _, ts, d, rest => Shows d.declared ts rest
  | .declarations _ _, ts, body, rest => Shows (declaredIn body) ts rest
  | .function _ _, ts, f, rest =>
    ∀ keyword : Token, keyword.kind = .fn → Shows f.declared (keyword :: ts) rest

theorem Derives.shows {category : Category} {ts rest : List Token} {tree : category.Tree}
    (derives : Derives category ts tree rest) : ShownAs category ts tree rest := by
  induction derives with
  | print kind value => exact .of_spans (.cons (.of_kind kind (by decide)) (value.quiet (by decide)))
  | expression value => exact .of_spans (value.quiet (by decide))
  | ifOnly kind condition _ ih =>
      have test := Spans.cons (.of_kind kind (by decide)) (condition.quiet (by decide))
      have whole := Shows.behind test ih
      rwa [← List.append_nil (Statement.declared _)] at whole
  | ifElse kind condition _ otherwise colon _ first second =>
      have test := Spans.cons (.of_kind kind (by decide)) (condition.quiet (by decide))
      have consequent := ((Shows.behind test first).next (.of_kind otherwise (by decide))).next
        (.of_kind colon (by decide))
      exact consequent.trans second
  | «while» kind condition _ ih =>
      exact .behind (.cons (.of_kind kind (by decide)) (condition.quiet (by decide))) ih
  | «for» kind opening tests steps _ ih =>
      have clauses := (tests.quiet (by decide)).trans (steps.quiet (by decide))
      exact (opening.shows.cons (.of_kind kind (by decide))).trans (.behind clauses ih)
  | «break» kind closing | «continue» kind closing =>
      exact .of_spans (.cons (.of_kind kind (by decide)) (.one (.of_kind closing (by decide)) _))
  | «return» kind result =>
      exact .of_spans (.cons (.of_kind kind (by decide)) (result.quiet (by decide)))
  | block kind _ closing ih =>
      exact (Shows.cons (.of_kind kind (by decide)) ih).next (.of_kind closing (by decide))
  | statement _ ih => exact ih
  | var kind declared => exact declared.shows kind
  | fn kind _ ih => exact ih _ kind
  | short name parameters equal value =>
      intro keyword word
      have others := (parameters.quiet.next (.of_kind equal (by decide))).trans (value.quiet (by decide))
      exact .name (.inl word) name (.of_spans others)
  | long name parameters opening _ closing ih =>
      intro keyword word
      have body := Shows.behind (parameters.quiet.next (.of_kind opening (by decide))) ih
      exact .name (.inl word) name (body.next (.of_kind closing (by decide)))
  | nil => exact .refl _
  | cons _ _ first others => exact Shows.trans first others

theorem Sentence.namesAfter_eq {ts : List Token} {body : List Declaration} (sentence : Sentence ts body) :
    namesAfter .eof ts = declaredIn body := by
  obtain ⟨m, t, derives, ended⟩ := sentence
  obtain ⟨last, idle, found⟩ := derives.shows .eof ⟨nofun, nofun⟩
  rw [found]
  simp [namesAfter, ended]

end Grammar

theorem Implements.inside {unit : Nat} {isGlobal : Bool} {r q : Routine} {f : Function}
    (implements : Implements unit isGlobal r f) (nested : r.Nested q) :
    q = r ∨ ∃ g, Implements unit false q g := by
  cases nested with
  | self => exact .inl rfl
  | constant outer member =>
      obtain ⟨inner, g, -, image⟩ := implements.of_nested outer
      obtain ⟨h, -, known⟩ := image.nested member
      exact .inr ⟨h, known⟩

theorem Implements.defines {unit : Nat} {isGlobal : Bool} {r : Routine} {f : Function}
    (implements : Implements unit isGlobal r f) {i : Instruction} (member : i ∈ r.instructions.1)
    (defines : Operation.ofByte? i.byte = some .defineGlobal) :
    isGlobal = true ∧ ∃ index name, i.operand = some index ∧ r.constants[index]? = some (.text name) ∧
      name ∈ namesOf false f.body := by
  obtain ⟨marked, carries⟩ := implements.carries
  obtain ⟨d, inside, op, operand⟩ := carries.directive_of_mem member defines
  have stored := (carries.fits d inside).stored (by rw [op]; rfl)
  cases isGlobal with
  | false =>
      have tame := f.code_tame r.constants [] unit false nofun
      obtain ⟨name, absent, -⟩ := (tame d inside).2 op
      exact absurd absent List.not_mem_nil
  | true =>
      have tame := f.code_tame r.constants (namesOf false f.body) unit true
        fun _ name given => given
      obtain ⟨name, declared, found⟩ := (tame d inside).2 op
      refine ⟨rfl, d.operand, name, operand (by decide), ?_, declared⟩
      rw [found] at stored ⊢
      exact Pool.find_text stored

end Script

namespace Editor

/-- The label is among the completions at a position. -/
def Offers (e : Editor) (uri : String) (p : Position) (label : String) : Prop :=
  ∃ items, e.complete? uri p = some items ∧ ∃ item ∈ items, item.label = label

def addLabel (found : List Item) (i : Item) : List Item :=
  if found.any fun other => other.label == i.label then found else i :: found

theorem addLabel_keeps {label : String} {found : List Item} {i : Item}
    (known : (∃ kept ∈ found, kept.label = label) ∨ i.label = label) :
    ∃ kept ∈ addLabel found i, kept.label = label := by
  rw [addLabel]
  by_cases present : (found.any fun other => other.label == i.label) = true
  · rw [if_pos present]
    rcases known with kept | rfl
    · exact kept
    · obtain ⟨other, inside, same⟩ := List.any_eq_true.mp present
      exact ⟨other, inside, eq_of_beq same⟩
  · rw [if_neg present]
    rcases known with ⟨kept, inside, same⟩ | here
    · exact ⟨kept, List.mem_cons_of_mem i inside, same⟩
    · exact ⟨i, List.mem_cons_self, here⟩

theorem foldl_addLabel_keeps {label : String} {items : List Item} (found : List Item)
    (known : (∃ kept ∈ found, kept.label = label) ∨ ∃ i ∈ items, i.label = label) :
    ∃ kept ∈ items.foldl addLabel found, kept.label = label := by
  induction items generalizing found with
  | nil => simpa using known
  | cons i rest ih =>
      apply ih (addLabel found i)
      rcases known with kept | ⟨other, member, same⟩
      · exact .inl (addLabel_keeps (.inl kept))
      · rcases List.mem_cons.mp member with rfl | later
        · exact .inl (addLabel_keeps (.inr same))
        · exact .inr ⟨other, later, same⟩

theorem completions_keeps {start : List UInt8} {globals declared : List String} {i : Item}
    (candidate : i ∈ candidates globals declared) (begins : start <+: bytesOf i.label) :
    ∃ kept ∈ completions start globals declared, kept.label = i.label := by
  have matching : i ∈ (candidates globals declared).filter fun i => start.isPrefixOf (bytesOf i.label) :=
    List.mem_filter.mpr ⟨candidate, List.isPrefixOf_iff_prefix.mpr begins⟩
  obtain ⟨kept, inside, same⟩ := foldl_addLabel_keeps [] (.inr ⟨i, matching, rfl⟩)
  exact ⟨kept, List.mem_reverse.mpr inside, same⟩

theorem offers_declared {e : Editor} {uri text name : String} {p : Position}
    (known : e.document? uri = some text) (declared : name ∈ declaredNames text)
    (begins : wordStart text p <+: bytesOf name) : e.Offers uri p name := by
  have candidate : (⟨name, .name, "declared"⟩ : Item) ∈
      candidates e.machine.globalNames (declaredNames text) :=
    List.mem_append_right _ (List.mem_map_of_mem declared)
  refine ⟨_, ?_, completions_keeps candidate begins⟩
  rw [complete?, known]
  rfl

end Editor

/-- The names found in an accepted source are those that its tree declares, in order. Globals are
defined only by the script itself, and under such names, which an editor offers. -/
theorem declarations_found {unit : Nat} {source : List UInt8} {r : Routine}
    (accepted : compileBytes unit source = .ok r) :
    ∃ body, Script.Grammar.Sentence (scan source) body ∧ Script.NearestAll body ∧
      Editor.namesAfter .eof (scan source) = Script.declaredIn body ∧
      (∀ text, bytesOf text = source → Editor.declaredNames text = Script.declaredIn body) ∧
      ∀ q, r.Nested q → q.instructions.2 = none ∧
        ∀ i ∈ q.instructions.1, Operation.ofByte? i.byte = some .defineGlobal →
          q = r ∧ ∃ index name, i.operand = some index ∧ q.constants[index]? = some (.text name) ∧
            name ∈ Script.declaredIn body ∧
            ∀ (e : Editor) uri text p, e.document? uri = some text → bytesOf text = source →
              Editor.wordStart text p <+: bytesOf name → e.Offers uri p name := by
  obtain ⟨body, sentence, nearest, -, implements, -⟩ := script_accepted accepted
  have found := sentence.namesAfter_eq
  refine ⟨body, sentence, nearest, found, ?_, ?_⟩
  · rintro text rfl
    exact found
  intro q nested
  constructor
  · obtain ⟨inner, g, -, image⟩ := implements.of_nested nested
    obtain ⟨marked, carries⟩ := image.carries
    rw [carries.instructions]
  intro i member defines
  rcases implements.inside nested with rfl | ⟨g, image⟩
  · obtain ⟨-, index, name, operand, stored, outer⟩ := implements.defines member defines
    have declared : name ∈ Script.declaredIn body := Script.mem_declaredIn outer
    refine ⟨rfl, index, name, operand, stored, declared, ?_⟩
    rintro e uri text p known rfl begins
    rw [← found] at declared
    exact Editor.offers_declared known declared begins
  · exact absurd (image.defines member defines).1 Bool.false_ne_true

/-- A variable in a function in a function, and one in the clause of a loop, next to two globals. -/
theorem declarations_found_nested :
    let source := bytesOf ("fn f(a) { fn g(b) { var c; return b; } return g(a); }"
      ++ " for var i = 0; i < 2; : i = i + 1; var d = f(1);")
    ∃ r body, compileBytes 0 source = .ok r ∧ Script.Grammar.Sentence (scan source) body ∧
      Script.declaredIn body = ["f", "g", "c", "i", "d"] ∧
      ∀ q, r.Nested q → ∀ i ∈ q.instructions.1,
        Operation.ofByte? i.byte = some .defineGlobal → q = r := by
  intro source
  obtain ⟨r, compiled⟩ := exists_ok (show (compileBytes 0 source).toOption.isSome = true by
    decide +kernel)
  obtain ⟨body, sentence, -, found, -, globals⟩ := declarations_found compiled
  refine ⟨r, body, compiled, sentence, ?_, ?_⟩
  · rw [← found]
    decide +kernel
  · exact fun q nested i member defines => ((globals q nested).2 i member defines).1

end Reckoner
