import Reckoner.Proofs.Code.Validity
import Reckoner.Proofs.Compiler.Traversal
import Reckoner.Proofs.Token.Numbers

/-!
Number literals. The number constants of compiled code are what the number tokens of the source read
as, and an invalid number is reported only where a number token does not read, which takes a second
point.
-/

namespace Reckoner

def Routine.Numbers (r : Routine) (d : Decimal) : Prop := ∃ q, r.Nested q ∧ .number d ∈ q.constants

def Constant.Numbers (c : Constant) (d : Decimal) : Prop :=
  c = .number d ∨ ∃ r, c = .routine r ∧ r.Numbers d

theorem Routine.Nested.head {r q : Routine} (nested : r.Nested q) :
    q = r ∨ ∃ inner, .routine inner ∈ r.constants ∧ inner.Nested q := by
  induction nested with
  | self => exact .inl rfl
  | constant nested member ih =>
      rcases ih with rfl | ⟨inner, first, deeper⟩
      · exact .inr ⟨_, member, .self⟩
      · exact .inr ⟨inner, first, .constant deeper member⟩

theorem Routine.numbers_iff {r : Routine} {d : Decimal} :
    r.Numbers d ↔ ∃ c ∈ r.constants, c.Numbers d := by
  constructor
  · rintro ⟨q, nested, member⟩
    rcases nested.head with rfl | ⟨inner, first, deeper⟩
    · exact ⟨_, member, .inl rfl⟩
    · exact ⟨_, first, .inr ⟨inner, rfl, q, deeper, member⟩⟩
  · rintro ⟨c, member, rfl | ⟨inner, rfl, q, deeper, number⟩⟩
    · exact ⟨r, .self, member⟩
    · exact ⟨q, (Nested.constant .self member).trans deeper, number⟩

theorem Routine.numbers_congr {r q : Routine} (same : r.constants = q.constants) {d : Decimal} :
    r.Numbers d ↔ q.Numbers d := by
  rw [numbers_iff, numbers_iff, same]

theorem Routine.numbers_addConstant {r : Routine} {c : Constant} {d : Decimal}
    (found : (r.addConstant c).1.Numbers d) : r.Numbers d ∨ c.Numbers d := by
  rw [addConstant] at found
  split at found
  · exact .inl found
  · obtain ⟨e, member, numbers⟩ := numbers_iff.mp found
    rcases Array.mem_push.mp member with old | rfl
    · exact .inl (numbers_iff.mpr ⟨e, old, numbers⟩)
    · exact .inr numbers

def WrittenAs (source : List Token) (d : Decimal) : Prop :=
  ∃ t ∈ source, t.kind = .number ∧ Decimal.parse t.lexeme = .ok d

/-- The diagnostic stands at a number token that does not read as a number. -/
def StandsAtUnread (source : List Token) (d : Diagnostic) : Prop :=
  ∃ t ∈ source, t.kind = .number ∧ (∃ e, Decimal.parse t.lexeme = .error e) ∧ d.line = t.line ∧
    d.place = .atToken t.lexeme

namespace Compiler

/-- What the compiler knows of numbers comes from number tokens of the source. -/
structure Tracked (source : List Token) (s : Compiler) : Prop where
  tokens : ∀ t ∈ s.tokens, t ∈ source
  previous : s.previous.kind = .number → s.previous ∈ source
  current : s.current.kind = .number → s.current ∈ source
  reported : ∀ d ∈ s.diagnostics, d.complaint = .invalidNumber → StandsAtUnread source d
  draft : ∀ d, s.draft.routine.Numbers d → WrittenAs source d
  enclosing : ∀ outer ∈ s.enclosing, ∀ d, outer.routine.Numbers d → WrittenAs source d

namespace Tracked

variable {source : List Token} {s : Compiler}

theorem report (tracked : Tracked source s) {t : Token} {c : Complaint}
    (known : c = .invalidNumber → t.kind = .number ∧ t ∈ source ∧ ∃ e, Decimal.parse t.lexeme = .error e) :
    Tracked source (s.report t c) := by
  rw [Compiler.report]
  split
  · exact tracked
  · refine { tracked with reported := fun d member invalid => ?_ }
    rcases Array.mem_push.mp member with old | rfl
    · exact tracked.reported d old invalid
    · obtain ⟨number, known, unread⟩ := known invalid
      refine ⟨t, known, number, unread, rfl, ?_⟩
      rw [Place.ofToken, number]

theorem fetch {ts : List Token} (tracked : Tracked source s) (rest : ∀ t ∈ ts, t ∈ source) :
    Tracked source (Compiler.fetch ts s) := by
  induction ts generalizing s with
  | nil => exact { tracked with tokens := nofun }
  | cons t ts ih =>
      have others : ∀ u ∈ ts, u ∈ source := fun u member => rest u (List.mem_cons_of_mem t member)
      rw [Compiler.fetch]
      split
      · exact ih (tracked.report fun same => absurd same (by decide)) others
      · exact { tracked with tokens := others, current := fun _ => rest t List.mem_cons_self }

theorem advance (tracked : Tracked source s) : Tracked source s.advance :=
  Tracked.fetch { tracked with previous := tracked.current } tracked.tokens

theorem pooled (tracked : Tracked source s) {c : Constant}
    (written : ∀ d, c.Numbers d → WrittenAs source d) : Tracked source (s.pooled c) where
  tokens := tracked.tokens
  previous := tracked.previous
  current := tracked.current
  reported := tracked.reported
  draft := fun d found => (Routine.numbers_addConstant found).elim (tracked.draft d) (written d)
  enclosing := tracked.enclosing

theorem stable (source : List Token) : Stable fun s t => Tracked source s → Tracked source t where
  refl _ := id
  trans first second := second ∘ first
  advance _ := advance
  fault _ _ other tracked := tracked.report fun invalid => absurd invalid other
  faultAhead _ _ other tracked := tracked.report fun invalid => absurd invalid other
  listen _ tracked := { tracked with }
  redraft _ _ same tracked :=
    { tracked with draft := fun d found => tracked.draft d ((Routine.numbers_congr same).mp found) }
  name _ _ tracked := tracked.pooled fun d numbers => by
    rcases numbers with number | ⟨r, routine, -⟩
    · cases number
    · cases routine
  number s d number read tracked := tracked.pooled fun e numbers => by
    rcases numbers with same | ⟨r, routine, -⟩
    · exact ⟨s.previous, tracked.previous number, number, by rw [read, Constant.number.inj same]⟩
    · cases routine
  unread s e number failed tracked :=
    tracked.report fun _ => ⟨number, tracked.previous number, e, failed⟩
  opened s name tracked := {
    tokens := tracked.tokens
    previous := tracked.previous
    current := tracked.current
    reported := tracked.reported
    draft := by
      intro d found
      obtain ⟨c, member, -⟩ := Routine.numbers_iff.mp found
      exact absurd member (Array.not_mem_empty c)
    enclosing := by
      intro outer member
      rcases List.mem_cons.mp member with rfl | older
      · exact tracked.draft
      · exact tracked.enclosing outer older }
  closed s outer rest enclosing tracked := by
    have around : ∀ draft ∈ outer :: rest, ∀ d, draft.routine.Numbers d → WrittenAs source d := by
      rw [← enclosing]
      exact tracked.enclosing
    have left : Tracked source { s with draft := outer, enclosing := rest } := {
      tokens := tracked.tokens
      previous := tracked.previous
      current := tracked.current
      reported := tracked.reported
      draft := around outer List.mem_cons_self
      enclosing := fun draft member => around draft (List.mem_cons_of_mem outer member) }
    refine left.pooled ?_
    rintro d (number | ⟨r, routine, numbers⟩)
    · cases number
    · exact tracked.draft d (by rwa [Constant.routine.inj routine])

theorem start (unit : Nat) (source : List Token) : Tracked source (Compiler.start unit source) where
  tokens _ member := member
  previous := nofun
  current := nofun
  reported _ member := absurd member (Array.not_mem_empty _)
  draft := by
    intro d found
    obtain ⟨c, member, -⟩ := Routine.numbers_iff.mp found
    exact absurd member (Array.not_mem_empty c)
  enclosing := nofun

theorem finish (tracked : Tracked source s) :
    (∀ r, s.finish = .ok r → ∀ d, r.Numbers d → WrittenAs source d) ∧
      ∀ ds, s.finish = .error ds → ∀ d ∈ ds, d.complaint = .invalidNumber → StandsAtUnread source d := by
  rw [Compiler.finish]
  split
  · constructor
    · intro r finished
      rw [← Except.ok.inj finished]
      exact tracked.draft
    · intro ds finished
      cases finished
  · constructor
    · intro r finished
      cases finished
    · intro ds finished d member
      rw [← Except.error.inj finished] at member
      exact tracked.reported d (Array.mem_toList_iff.mp member)

end Tracked

end Compiler

theorem tracked_compilation {unit : Nat} {source : List UInt8}
    {outcome : Except (List Diagnostic) Routine}
    (compiled : compileBytes unit source = outcome ∨ compileExpressionBytes unit source = outcome) :
    (∀ r, outcome = .ok r → ∀ d, r.Numbers d → WrittenAs (scan source) d) ∧
      ∀ ds, outcome = .error ds → ∀ d ∈ ds, d.complaint = .invalidNumber →
        StandsAtUnread (scan source) d := by
  have begun := Compiler.Tracked.start unit (scan source)
  have stable := Compiler.Tracked.stable (scan source)
  rcases compiled with rfl | rfl
  · exact (stable.script unit (scan source) begun).finish
  · exact (stable.singleExpression unit (scan source) begun).finish

theorem regular_of_accepted {unit : Nat} {source : List UInt8} {r : Routine}
    (accepted : compileBytes unit source = .ok r ∨ compileExpressionBytes unit source = .ok r)
    {d : Decimal} (constant : r.Numbers d) : d.Regular := by
  obtain ⟨t, member, number, read⟩ := (tracked_compilation accepted).1 r rfl d constant
  have plain : ∀ c ∈ t.lexeme.toList, isPlain c = true := by
    rcases scan_spelled source t member number with numeral | points
    · exact numeral.plain
    · exact points.plain
  rw [← String.ofList_toList (s := t.lexeme)] at read
  exact Decimal.regular_of_parse plain read

theorem parse_of_numeral {text : String} (numeral : Numeral text.toList)
    (short : (bytesOf text).length ≤ 100000) : ∃ d, Decimal.parse text = .ok d := by
  have read := Decimal.parse_numeral numeral (Nat.le_trans (length_le_bytes text) short)
  rwa [String.ofList_toList] at read

theorem parse_of_twoPoints {text : String} (points : TwoPoints text.toList) :
    ∃ e, Decimal.parse text = .error e := by
  have failed := Decimal.parse_twoPoints points
  rwa [String.ofList_toList] at failed

/-- A number token is a numeral, which reads as a number unless it is very long, or has two points and
does not read. An invalid number is reported where there are two points, or too many digits. -/
theorem number_tokens_read (source : List UInt8) :
    (∀ t ∈ scan source, t.kind = .number →
      (Numeral t.lexeme.toList ∧
        ((bytesOf t.lexeme).length ≤ 100000 → ∃ d, Decimal.parse t.lexeme = .ok d)) ∨
      (TwoPoints t.lexeme.toList ∧ ∃ e, Decimal.parse t.lexeme = .error e)) ∧
    ∀ unit ds, (compileBytes unit source = .error ds ∨ compileExpressionBytes unit source = .error ds) →
      ∀ d ∈ ds, d.complaint = .invalidNumber → ∃ t ∈ scan source, t.kind = .number ∧
        d.line = t.line ∧ d.place = .atToken t.lexeme ∧
        (TwoPoints t.lexeme.toList ∨ 100000 < (bytesOf t.lexeme).length) := by
  constructor
  · intro t member number
    rcases scan_spelled source t member number with numeral | points
    · exact .inl ⟨numeral, parse_of_numeral numeral⟩
    · exact .inr ⟨points, parse_of_twoPoints points⟩
  · intro unit ds rejected d member invalid
    obtain ⟨t, known, number, ⟨e, unread⟩, line, place⟩ :=
      (tracked_compilation rejected).2 ds rfl d member invalid
    refine ⟨t, known, number, line, place, ?_⟩
    rcases scan_spelled source t known number with numeral | points
    · right
      by_contra short
      obtain ⟨n, read⟩ := parse_of_numeral numeral (Nat.le_of_not_lt short)
      rw [unread] at read
      cases read
    · exact .inl points

theorem number_tokens_read_fraction :
    (∃ t ∈ scan (bytesOf "2.50"), t.kind = .number ∧ ∃ d, Decimal.parse t.lexeme = .ok d) ∧
    ∃ ds, compileBytes 0 (bytesOf ".5.5;") = .error ds ∧ ∃ d ∈ ds, d.complaint = .invalidNumber ∧
      ∃ t ∈ scan (bytesOf ".5.5;"), d.place = .atToken t.lexeme := by
  constructor
  · have member : (⟨.number, "2.50", 1, 0, 4⟩ : Token) ∈ scan (bytesOf "2.50") := by decide
    refine ⟨_, member, rfl, ?_⟩
    rcases (number_tokens_read (bytesOf "2.50")).1 _ member rfl with ⟨-, reads⟩ | ⟨-, e, failed⟩
    · exact reads (by decide)
    · have read : Decimal.parse "2.50" = .ok { coefficient := 250, exponent := -2 } := by decide
      rw [read] at failed
      cases failed
  · have rejected : compileBytes 0 (bytesOf ".5.5;") = .error [⟨1, .atToken ".5.5", .invalidNumber⟩] := by
      rfl
    refine ⟨_, rejected, _, List.mem_singleton_self _, rfl, ?_⟩
    obtain ⟨t, known, -, -, place, -⟩ := (number_tokens_read (bytesOf ".5.5;")).2 0 _ (.inl rejected) _
      (List.mem_singleton_self _) rfl
    exact ⟨t, known, place⟩

/-- After a leading point a number goes on past a second one, which ends a number that starts with a
digit. -/
theorem second_point_scanned :
    (∃ t ∈ scan (bytesOf ".5.5"), t.kind = .number ∧ t.lexeme = ".5.5" ∧ ¬Numeral t.lexeme.toList ∧
      (bytesOf t.lexeme).length ≤ 100000 ∧ ∃ e, Decimal.parse t.lexeme = .error e) ∧
    (∃ ds, compile 0 ".5.5;" = .error ds ∧ ∃ d ∈ ds, d.complaint = .invalidNumber) ∧
    (scan (bytesOf "5.5.5")).map Token.lexeme = ["5.5", ".5", ""] := by
  have five : Digits ['5'] := .single rfl
  have points : TwoPoints ".5.5".toList := .intro five five
  obtain ⟨e, failed⟩ := parse_of_twoPoints points
  have short : (bytesOf ".5.5").length ≤ 100000 := by decide
  refine ⟨⟨⟨.number, ".5.5", 1, 0, 4⟩, by decide, rfl, rfl, fun numeral => ?_, short, e, failed⟩, ?_,
    by decide⟩
  · obtain ⟨d, read⟩ := parse_of_numeral numeral short
    rw [failed] at read
    cases read
  · exact ⟨[⟨1, .atToken ".5.5", .invalidNumber⟩], rfl, _, List.mem_singleton_self _, rfl⟩

end Reckoner
