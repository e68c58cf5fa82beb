import Reckoner.Proofs.Token.Scan

/-!
The scanner tiles its source. Its tokens stand on spans that follow each other, what lies between them
is filler, and no byte is taken twice or lost.
-/

namespace Reckoner

/-- What stands between tokens: blanks, line ends and comments. A comment runs up to the next line end;
only behind the last token can it run to the end of the source instead. -/
inductive Filler : (last : Bool) → List UInt8 → Prop where
  | none {last : Bool} : Filler last []
  | blank {last : Bool} {b : UInt8} {rest : List UInt8}
    (blank : Byte.isBlank b = true ∨ b = Byte.newline) (others : Filler last rest) :
    Filler last (b :: rest)
  | comment {last : Bool} {text rest : List UInt8} (inLine : Byte.newline ∉ text)
    (others : Filler last (Byte.newline :: rest)) :
    Filler last (Byte.slash :: Byte.slash :: text ++ Byte.newline :: rest)
  | unclosed {text : List UInt8} (inLine : Byte.newline ∉ text) :
    Filler true (Byte.slash :: Byte.slash :: text)

def Commented (last : Bool) (bytes : List UInt8) : Prop :=
  ∃ text rest, bytes = text ++ rest ∧ Byte.newline ∉ text ∧
    ((rest = [] ∧ last = true) ∨ ∃ more, rest = Byte.newline :: more ∧ Filler last rest)

theorem Commented.cons {last : Bool} {b : UInt8} {bytes : List UInt8} (inLine : b ≠ Byte.newline)
    (commented : Commented last bytes) : Commented last (b :: bytes) := by
  obtain ⟨text, rest, rfl, others, behind⟩ := commented
  refine ⟨b :: text, rest, rfl, ?_, behind⟩
  simp only [List.mem_cons, not_or]
  exact ⟨inLine.symm, others⟩

theorem Commented.newline {last : Bool} {bytes : List UInt8} (filler : Filler last bytes) :
    Commented last (Byte.newline :: bytes) :=
  ⟨[], _, rfl, List.not_mem_nil, .inr ⟨bytes, rfl, .blank (.inr rfl) filler⟩⟩

theorem Commented.last_of_nil {last : Bool} (commented : Commented last []) : last = true := by
  obtain ⟨text, rest, whole, -, ⟨-, ended⟩ | ⟨more, rfl, -⟩⟩ := commented
  · exact ended
  · simp at whole

theorem Commented.filler {last : Bool} {bytes : List UInt8} (commented : Commented last bytes)
    (slash : bytes.head? = some Byte.slash) : Filler last (Byte.slash :: bytes) := by
  obtain ⟨text, rest, rfl, inLine, behind⟩ := commented
  cases text with
  | nil =>
      rcases behind with ⟨rfl, -⟩ | ⟨more, rfl, -⟩
      · exact absurd slash (by simp)
      · rw [List.nil_append, List.head?_cons] at slash
        exact absurd (Option.some.inj slash) (by decide)
  | cons b text =>
      obtain rfl : b = Byte.slash := by simpa using slash
      have inText : Byte.newline ∉ text := fun member => inLine (List.mem_cons_of_mem _ member)
      rcases behind with ⟨rfl, rfl⟩ | ⟨more, rfl, filler⟩
      · rw [List.append_nil]
        exact .unclosed inText
      · exact .comment inText filler

def Skippable : (comment last : Bool) → List UInt8 → Prop
  | true, last, bytes => Commented last bytes
  | false, last, bytes => Filler last bytes

namespace Cursor

structure Passed (gap bytes : List UInt8) (offset line : Nat) (c : Cursor) : Prop where
  whole : bytes = gap ++ c.rest
  offset : c.offset = offset + gap.length
  line : c.line = line + gap.count Byte.newline

theorem Passed.inLine {b : UInt8} {gap bytes : List UInt8} {offset line : Nat} {c : Cursor}
    (passed : Passed gap bytes (offset + 1) line c) (inLine : b ≠ Byte.newline) :
    Passed (b :: gap) (b :: bytes) offset line c where
  whole := by rw [passed.whole, List.cons_append]
  offset := by rw [passed.offset, List.length_cons]; omega
  line := by rw [passed.line, List.count_cons_of_ne inLine]

theorem Passed.newline {gap bytes : List UInt8} {offset line : Nat} {c : Cursor}
    (passed : Passed gap bytes (offset + 1) (line + 1) c) :
    Passed (Byte.newline :: gap) (Byte.newline :: bytes) offset line c where
  whole := by rw [passed.whole, List.cons_append]
  offset := by rw [passed.offset, List.length_cons]; omega
  line := by rw [passed.line, List.count_cons_self]; omega

theorem skip_passed (comment : Bool) (bytes : List UInt8) (offset line : Nat) :
    ∃ gap, Passed gap bytes offset line (skip comment bytes offset line) ∧
      Skippable comment (skip comment bytes offset line).rest.isEmpty gap := by
  fun_induction skip comment bytes offset line with
  | case1 comment offset line =>
      refine ⟨[], ⟨rfl, rfl, rfl⟩, ?_⟩
      cases comment with
      | false => exact .none
      | true => exact ⟨[], [], rfl, List.not_mem_nil, .inl ⟨rfl, rfl⟩⟩
  | case2 b rest offset line ends ih =>
      obtain ⟨gap, passed, filler⟩ := ih
      obtain rfl := eq_of_beq ends
      exact ⟨_, passed.newline, .newline filler⟩
  | case3 b rest offset line other ih =>
      obtain ⟨gap, passed, commented⟩ := ih
      have inLine : b ≠ Byte.newline := by simpa using other
      exact ⟨_, passed.inLine inLine, commented.cons inLine⟩
  | case4 b rest offset line ends ih =>
      obtain ⟨gap, passed, filler⟩ := ih
      obtain rfl := eq_of_beq ends
      exact ⟨_, passed.newline, .blank (.inr rfl) filler⟩
  | case5 b rest offset line other blank ih =>
      obtain ⟨gap, passed, filler⟩ := ih
      have inLine : b ≠ Byte.newline := by simpa using other
      exact ⟨_, passed.inLine inLine, .blank (.inl blank) filler⟩
  | case6 b rest offset line other visible slashes ih =>
      obtain ⟨gap, passed, commented⟩ := ih
      simp only [Bool.and_eq_true, beq_iff_eq] at slashes
      obtain ⟨rfl, behind⟩ := slashes
      refine ⟨_, passed.inLine (by decide), Commented.filler commented ?_⟩
      cases gap with
      | nil =>
          have ended := commented.last_of_nil
          rw [passed.whole, List.isEmpty_iff.mp ended] at behind
          exact absurd behind (by simp)
      | cons first gap =>
          rw [passed.whole] at behind
          exact behind
  | case7 b rest offset line other visible single => exact ⟨[], ⟨rfl, rfl, rfl⟩, .none⟩

theorem skip_stops {comment : Bool} {bytes rest : List UInt8} {offset line : Nat} {b : UInt8}
    (behind : (skip comment bytes offset line).rest = b :: rest) : b ≠ Byte.newline := by
  fun_induction skip comment bytes offset line with
  | case1 => cases behind
  | case2 _ _ _ _ _ ih => exact ih behind
  | case3 _ _ _ _ _ ih => exact ih behind
  | case4 _ _ _ _ _ ih => exact ih behind
  | case5 _ _ _ _ _ _ ih => exact ih behind
  | case6 _ _ _ _ _ _ _ ih => exact ih behind
  | case7 first _ _ _ other =>
      obtain ⟨rfl, -⟩ := List.cons.inj behind
      simpa using other

end Cursor

/-! Tilings -/

def between (source : List UInt8) (start stop : Nat) : List UInt8 := (source.take stop).drop start

/-- A token covers its span of a source: its text is what stands there, and it is on the line it says.
An error covers a single byte. -/
structure Token.Covers (source : List UInt8) (t : Token) : Prop where
  ordered : t.start ≤ t.stop
  inside : t.stop ≤ source.length
  line : t.line = 1 + (source.take t.start).count Byte.newline
  lexeme : t.kind ≠ .error → bytesOf t.lexeme = between source t.start t.stop
  single : t.kind = .error → t.stop = t.start + 1

/-- Tokens tile a source from an offset on. They do not overlap, there is nothing but filler between
them, and the last one stands at the end of the source and covers nothing. -/
inductive Tiles (source : List UInt8) : (offset : Nat) → List Token → Prop where
  | last {offset : Nat} {t : Token} (ends : t.kind = .eof) (empty : t.lexeme = "")
    (whole : t.start = source.length) (covers : t.Covers source) (after : offset ≤ t.start)
    (filler : Filler true (between source offset t.start)) : Tiles source offset [t]
  | next {offset : Nat} {t : Token} {rest : List Token} (more : t.kind ≠ .eof)
    (takes : t.start < t.stop) (covers : t.Covers source) (after : offset ≤ t.start)
    (filler : Filler false (between source offset t.start)) (others : Tiles source t.stop rest) :
    Tiles source offset (t :: rest)

namespace Cursor

/-- The cursor stands in a source, all of which before it has been read. -/
structure Stands (source : List UInt8) (c : Cursor) : Prop where
  rest : c.rest = source.drop c.offset
  inside : c.offset ≤ source.length
  line : c.line = 1 + (source.take c.offset).count Byte.newline

theorem Stands.start (source : List UInt8) : (ofBytes source).Stands source :=
  ⟨rfl, Nat.zero_le _, rfl⟩

section

variable {source : List UInt8} {c d : Cursor} {span : List UInt8} (stands : c.Stands source)
  (whole : c.rest = span ++ d.rest) (place : d.offset = c.offset + span.length)

include stands whole place

theorem Stands.forward (lines : d.line = c.line + span.count Byte.newline) :
    d.Stands source ∧ between source c.offset d.offset = span := by
  obtain ⟨rest, inside, line⟩ := stands
  have split : source = source.take c.offset ++ (span ++ d.rest) := by
    rw [← whole, rest, List.take_append_drop]
  have size : (source.take c.offset).length = c.offset := List.length_take_of_le inside
  generalize source.take c.offset = before at split size line
  have here : d.offset = (before ++ span).length := by rw [place, List.length_append, size]
  have upTo : source.take d.offset = before ++ span := by
    rw [split, ← List.append_assoc, here, List.take_left]
  refine ⟨⟨?_, ?_, ?_⟩, ?_⟩
  · rw [split, ← List.append_assoc, here, List.drop_left]
  · have total : source.length = (before ++ span).length + d.rest.length := by
      rw [split, ← List.append_assoc, List.length_append]
    omega
  · rw [lines, line, upTo, List.count_append, Nat.add_assoc]
  · rw [between, upTo, ← size, List.drop_left]

end

structure Ends (source : List UInt8) (c : Cursor) : Prop where
  kind : c.next.1.kind = .eof
  lexeme : c.next.1.lexeme = ""
  whole : c.next.1.start = source.length
  covers : c.next.1.Covers source
  after : c.offset ≤ c.next.1.start
  filler : Filler true (between source c.offset c.next.1.start)
  again : c.next.2.next = (c.next.1, c.next.2)

structure Advances (source : List UInt8) (c : Cursor) : Prop where
  kind : c.next.1.kind ≠ .eof
  takes : c.next.1.start < c.next.1.stop
  covers : c.next.1.Covers source
  after : c.offset ≤ c.next.1.start
  filler : Filler false (between source c.offset c.next.1.start)
  stands : c.next.2.Stands source
  place : c.next.2.offset = c.next.1.stop

def skipped (c : Cursor) : Cursor := skip false c.rest c.offset c.line

section

variable {c : Cursor}

theorem next_last (behind : c.skipped.rest = []) :
    c.next = (⟨.eof, "", c.skipped.line, c.skipped.offset, c.skipped.offset⟩, c.skipped) := by
  rw [skipped] at behind ⊢
  simp only [next, behind]

theorem next_token {b : UInt8} {rest : List UInt8} {kind : Kind} {length : Nat}
    (behind : c.skipped.rest = b :: rest) (known : classify b rest = (kind, length)) :
    c.next = (⟨kind, lexemeOf kind ((b :: rest).take length), c.skipped.line, c.skipped.offset,
      c.skipped.offset + length⟩,
      ⟨(b :: rest).drop length, c.skipped.offset + length, c.skipped.line⟩) := by
  rw [skipped] at behind ⊢
  simp only [next, behind, known]

theorem skipped_skipped (behind : c.skipped.rest = []) : c.skipped.skipped = c.skipped := by
  rw [skipped, behind, skip, ← behind]

end

section

variable {source : List UInt8} {c : Cursor} (stands : c.Stands source)

include stands

theorem Stands.skipped : c.skipped.Stands source ∧ c.offset ≤ c.skipped.offset ∧
    Filler c.skipped.rest.isEmpty (between source c.offset c.skipped.offset) := by
  obtain ⟨gap, passed, filler⟩ := skip_passed false c.rest c.offset c.line
  obtain ⟨reached, skips⟩ := stands.forward passed.whole passed.offset passed.line
  have place : c.skipped.offset = c.offset + gap.length := passed.offset
  refine ⟨reached, by omega, ?_⟩
  rw [Cursor.skipped, skips]
  exact filler

theorem Stands.ends (behind : c.skipped.rest = []) : c.Ends source := by
  obtain ⟨reached, later, filler⟩ := stands.skipped
  have read := next_last behind
  have final : source.length ≤ c.skipped.offset := by
    rw [reached.rest, List.drop_eq_nil_iff] at behind
    exact behind
  constructor
  case covers =>
    rw [read]
    refine ⟨Nat.le_refl _, reached.inside, reached.line, fun _ => by simp [between, bytesOf], ?_⟩
    intro fixed
    cases fixed
  case again =>
    rw [read, next_last (by rw [skipped_skipped behind, behind]), skipped_skipped behind]
  case filler =>
    rw [behind] at filler
    rw [read]
    exact filler
  case whole =>
    rw [read]
    exact Nat.le_antisymm reached.inside final
  all_goals rw [read]
  exact later

theorem Stands.advances {b : UInt8} {rest : List UInt8} (behind : c.skipped.rest = b :: rest) :
    c.Advances source := by
  obtain ⟨reached, later, filler⟩ := stands.skipped
  obtain ⟨kind, length, known⟩ : ∃ kind length, classify b rest = (kind, length) := ⟨_, _, rfl⟩
  have unended := (classify_spec b rest).1
  have takes := classify_takes b rest
  rw [known] at takes unended
  obtain ⟨positive, bound, single, visible⟩ := takes
  have read := next_token behind known
  generalize spanEq : (b :: rest).take length = span at read
  have size : span.length = length := by
    rw [← spanEq]
    exact List.length_take_of_le bound
  have noLine : span.count Byte.newline = 0 := by
    rw [← spanEq, List.count_eq_zero]
    by_cases failed : kind = .error
    · rw [show length = 1 from single failed]
      simpa using (skip_stops behind).symm
    · exact Byte.newline_not_mem (visible failed)
  have whole : c.skipped.rest = span ++ c.next.2.rest := by
    rw [behind, read, ← spanEq, List.take_append_drop]
  have place : c.next.2.offset = c.skipped.offset + span.length := by rw [read, size]
  have lines : c.next.2.line = c.skipped.line + span.count Byte.newline := by
    rw [noLine, read]
    rfl
  obtain ⟨there, spans⟩ := reached.forward whole place lines
  constructor
  case stands => exact there
  case place => rw [read]
  case filler =>
    rw [behind] at filler
    rw [read]
    exact filler
  case after =>
    rw [read]
    exact later
  case takes =>
    rw [read]
    dsimp only at positive ⊢
    omega
  case kind =>
    rw [read]
    exact unended
  case covers =>
    have inside := there.inside
    rw [read] at spans inside ⊢
    refine ⟨Nat.le_add_right .., inside, reached.line, fun known => ?_, fun failed => ?_⟩
    · rw [lexemeOf, if_neg known, spans, ← spanEq]
      exact Byte.bytesOf_toText (visible known)
    · rw [show length = 1 from single failed]

theorem Stands.next : c.Ends source ∨ c.Advances source := by
  cases behind : c.skipped.rest with
  | nil => exact .inl (stands.ends behind)
  | cons b rest => exact .inr (stands.advances behind)

end

theorem take_again {c d : Cursor} (again : d.next = (c.next.1, d)) (n : Nat) :
    d.take n = List.replicate n c.next.1 := by
  induction n with
  | zero => rfl
  | succ n ih =>
      rw [take, again, List.replicate_succ]
      exact congrArg (c.next.1 :: ·) ih

theorem Stands.collect {source : List UInt8} {fuel : Nat} {c : Cursor} (stands : c.Stands source)
    (found : Array Token) (enough : c.rest.length < fuel) :
    ∃ ts last, (c.collect fuel found).1.toList = found.toList ++ ts ∧ Tiles source c.offset ts ∧
      ts.length ≤ c.rest.length + 1 ∧ ts.getLast? = some last ∧ last.kind = .eof ∧
      last.lexeme = "" ∧ ∀ n, c.take (ts.length + n) = ts ++ List.replicate n last := by
  induction fuel generalizing c found with
  | zero => omega
  | succ fuel ih =>
      rw [Cursor.collect]
      dsimp only
      rcases stands.next with ends | advances
      · rw [if_pos ends.kind]
        refine ⟨[c.next.1], c.next.1, by simp, ?_, by simp, rfl, ends.kind, ends.lexeme, fun n => ?_⟩
        · exact .last ends.kind ends.lexeme ends.whole ends.covers ends.after ends.filler
        · rw [List.length_singleton, Nat.add_comm, take]
          exact congrArg (c.next.1 :: ·) (take_again ends.again n)
      · rw [if_neg advances.kind]
        have fewer := (next_spec c).2.2 advances.kind
        obtain ⟨ts, last, collected, tiles, short, final, ended, empty, reads⟩ :=
          ih advances.stands (found.push c.next.1) (by omega)
        refine ⟨c.next.1 :: ts, last, by rw [collected]; simp, ?_, ?_, ?_, ended, empty, fun n => ?_⟩
        · rw [advances.place] at tiles
          exact .next advances.kind advances.takes advances.covers advances.after advances.filler tiles
        · rw [List.length_cons]
          omega
        · rw [List.getLast?_cons, final]
          rfl
        · rw [List.length_cons, Nat.add_right_comm, take]
          exact congrArg (c.next.1 :: ·) (reads n)

end Cursor

/-- The scanner tiles its source: the tokens cover spans that follow each other, with nothing but filler
between them, and each is on the line that it says. There is at most one token for each byte and one at
the end, and the latter is all that is read from then on. -/
theorem scan_tiles (source : List UInt8) :
    Tiles source 0 (scan source) ∧ (scan source).length ≤ source.length + 1 ∧
      ∃ last, (scan source).getLast? = some last ∧ last.kind = .eof ∧ last.lexeme = "" ∧
        ∀ n, (Cursor.ofBytes source).take ((scan source).length + n) =
          scan source ++ List.replicate n last := by
  obtain ⟨ts, last, collected, tiles, short, final, ended, empty, reads⟩ :=
    (Cursor.Stands.start source).collect #[] (Nat.lt_succ_self source.length)
  have same : scan source = ts := collected
  rw [same]
  exact ⟨tiles, short, last, final, ended, empty, reads⟩

end Reckoner
