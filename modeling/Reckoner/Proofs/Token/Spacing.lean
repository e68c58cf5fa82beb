import Reckoner.Proofs.Token.Tiling

/-!
Space between tokens. What the scanner reads depends on the bytes in front of it alone, and a token that
ends where a space begins is read as if nothing else followed. So space can be put wherever a token begins
or ends, and the tokens keep their spellings.
-/

namespace Reckoner

def Token.spelling (t : Token) : Kind × String := (t.kind, t.lexeme)

namespace Byte

def isSpace (b : UInt8) : Bool := isBlank b || b == newline

variable {b : UInt8} (space : isSpace b = true)

include space

theorem space_cases : isBlank b = true ∨ b = newline := by
  rwa [isSpace, Bool.or_eq_true, beq_iff_eq] at space

theorem invisible_of_isSpace : isVisible b = false := by
  rcases space_cases space with blank | rfl
  · rw [isBlank, Bool.or_eq_true, Bool.or_eq_true, beq_iff_eq, beq_iff_eq, beq_iff_eq] at blank
    rcases blank with (rfl | rfl) | rfl
    · rfl
    · rfl
    · rfl
  · rfl

theorem not_of_isSpace {p : UInt8 → Bool} (visible : ∀ x, p x = true → isVisible x = true) :
    p b = false := by
  cases found : p b with
  | false => rfl
  | true => exact absurd ((visible b found).symm.trans (invisible_of_isSpace space)) nofun

theorem ne_of_isSpace {x : UInt8} (visible : isVisible x = true) : b ≠ x := by
  rintro rfl
  exact absurd (visible.symm.trans (invisible_of_isSpace space)) nofun

end Byte

/-- Blanks and line ends, at least one, and perhaps a comment up to the end of its line. -/
inductive Spacing : List UInt8 → Prop where
  | intro {space comment : List UInt8} (some : space ≠ [])
    (all : ∀ b ∈ space, Byte.isSpace b = true)
    (behind : comment = [] ∨ ∃ text, Byte.newline ∉ text ∧
      comment = Byte.slash :: Byte.slash :: text ++ [Byte.newline]) : Spacing (space ++ comment)

namespace Cursor

/-! ## Skipping -/

theorem skip_rest (comment : Bool) (bytes : List UInt8) (o l o' l' : Nat) :
    (skip comment bytes o l).rest = (skip comment bytes o' l').rest := by
  fun_induction skip comment bytes o l generalizing o' l' with
  | case1 => rw [skip]
  | case2 _ _ _ _ ends ih => rw [skip, if_pos ends]; exact ih _ _
  | case3 _ _ _ _ other ih => rw [skip, if_neg other]; exact ih _ _
  | case4 _ _ _ _ ends ih => rw [skip, if_pos ends]; exact ih _ _
  | case5 _ _ _ _ other blank ih => rw [skip, if_neg other, if_pos blank]; exact ih _ _
  | case6 _ _ _ _ other visible slashes ih =>
      rw [skip, if_neg other, if_neg visible, if_pos slashes]
      exact ih _ _
  | case7 _ _ _ _ other visible single =>
      rw [skip, if_neg other, if_neg visible, if_neg single]

/-- What is left of some bytes once they have been skipped, inside a comment or outside of one. -/
def left (comment : Bool) (bytes : List UInt8) : List UInt8 := (skip comment bytes 0 0).rest

theorem skip_left (comment : Bool) (bytes : List UInt8) (o l : Nat) :
    (skip comment bytes o l).rest = left comment bytes := skip_rest comment bytes o l 0 0

theorem left_nil (comment : Bool) : left comment [] = [] := by rw [left, skip]

theorem left_newline (comment : Bool) (rest : List UInt8) :
    left comment (Byte.newline :: rest) = left false rest := by
  cases comment with
  | false => rw [left, skip, if_pos (beq_self_eq_true _), skip_left]
  | true => rw [left, skip, if_pos (beq_self_eq_true _), skip_left]

theorem left_blank {b : UInt8} (blank : Byte.isBlank b = true ∨ b = Byte.newline)
    (rest : List UInt8) : left false (b :: rest) = left false rest := by
  rcases blank with blank | rfl
  · by_cases ends : (b == Byte.newline) = true
    · rw [left, skip, if_pos ends, skip_left]
    · rw [left, skip, if_neg ends, if_pos blank, skip_left]
  · exact left_newline false rest

theorem left_text {text : List UInt8} (inLine : Byte.newline ∉ text) (rest : List UInt8) :
    left true (text ++ rest) = left true rest := by
  induction text with
  | nil => rfl
  | cons b text ih =>
      rw [List.mem_cons, not_or] at inLine
      have other : ¬(b == Byte.newline) = true := by simpa using Ne.symm inLine.1
      rw [List.cons_append, left, skip, if_neg other, skip_left, ih inLine.2]

theorem left_slashes (rest : List UInt8) :
    left false (Byte.slash :: Byte.slash :: rest) = left true rest := by
  have inLine : Byte.newline ∉ [Byte.slash] := by decide
  have second := left_text inLine rest
  rw [left, skip, if_neg (by decide), if_neg (by decide), if_pos (by simp), skip_left]
  exact second

theorem left_filler {last : Bool} {filler : List UInt8} (fills : Filler last filler)
    (rest : List UInt8) :
    ∃ comment, left false (filler ++ rest) = left comment rest ∧ (comment = true → last = true) := by
  induction fills with
  | none => exact ⟨false, rfl, nofun⟩
  | blank blank others ih =>
      rw [List.cons_append, left_blank blank]
      exact ih
  | comment inLine others ih =>
      rw [List.append_assoc, List.cons_append, List.cons_append, left_slashes, left_text inLine,
        List.cons_append, left_newline]
      rwa [List.cons_append, left_newline] at ih
  | unclosed inLine =>
      refine ⟨true, ?_, fun _ => rfl⟩
      rw [List.cons_append, List.cons_append, left_slashes, left_text inLine]

theorem left_space {space : List UInt8} (all : ∀ b ∈ space, Byte.isSpace b = true)
    (rest : List UInt8) : left false (space ++ rest) = left false rest := by
  induction space with
  | nil => rfl
  | cons b space ih =>
      obtain ⟨first, others⟩ := List.forall_mem_cons.mp all
      rw [List.cons_append, left_blank (Byte.space_cases first), ih others]

theorem left_space_inside {space : List UInt8} (all : ∀ b ∈ space, Byte.isSpace b = true)
    (rest : List UInt8) : ∃ comment, left true (space ++ rest) = left comment rest := by
  induction space with
  | nil => exact ⟨true, rfl⟩
  | cons b space ih =>
      obtain ⟨first, others⟩ := List.forall_mem_cons.mp all
      by_cases ends : b = Byte.newline
      · rw [List.cons_append, ends, left_newline]
        exact ⟨false, left_space others rest⟩
      · have inLine : Byte.newline ∉ [b] := by simpa using Ne.symm ends
        obtain ⟨comment, same⟩ := ih others
        exact ⟨comment, (left_text inLine _).trans same⟩

end Cursor

namespace Spacing

variable {bytes : List UInt8} (spacing : Spacing bytes)

include spacing

theorem left (rest : List UInt8) : Cursor.left false (bytes ++ rest) = Cursor.left false rest := by
  obtain ⟨-, all, rfl | ⟨text, inLine, rfl⟩⟩ := spacing
  · rw [List.append_nil, Cursor.left_space all]
  · rw [List.append_assoc, Cursor.left_space all, List.append_assoc, List.cons_append,
      List.cons_append, Cursor.left_slashes, Cursor.left_text inLine]
    exact Cursor.left_newline true rest

theorem left_eq_nil (comment : Bool) : Cursor.left comment bytes = [] := by
  have outside : Cursor.left false bytes = [] := by
    rw [← List.append_nil bytes, spacing.left, Cursor.left_nil]
  cases comment with
  | false => exact outside
  | true =>
      obtain @⟨space, comment, -, all, behind⟩ := spacing
      obtain ⟨mode, same⟩ := Cursor.left_space_inside all comment
      rw [Cursor.left_space all] at outside
      rw [same]
      cases mode with
      | false => exact outside
      | true =>
          rcases behind with rfl | ⟨text, inLine, rfl⟩
          · exact Cursor.left_nil true
          · have slashes : Byte.newline ∉ [Byte.slash, Byte.slash] := by decide
            have inside : Byte.newline ∉ Byte.slash :: Byte.slash :: text := by
              intro member
              rcases List.mem_append.mp (show Byte.newline ∈ [Byte.slash, Byte.slash] ++ text from member)
                with member | member
              · exact slashes member
              · exact inLine member
            rw [Cursor.left_text inside, Cursor.left_newline, Cursor.left_nil]

theorem begins : ∃ b rest, bytes = b :: rest ∧ Byte.isSpace b = true := by
  obtain @⟨space, comment, some, all, -⟩ := spacing
  cases space with
  | nil => exact absurd rfl some
  | cons b space => exact ⟨b, space ++ comment, rfl, all b List.mem_cons_self⟩

end Spacing

namespace Cursor

/-! ## Tokens in front of a space -/

theorem takeWhile_of_short {p : UInt8 → Bool} {front rest : List UInt8}
    (short : ((front ++ rest).takeWhile p).length ≤ front.length) :
    (front ++ rest).takeWhile p = front.takeWhile p := by
  rw [List.takeWhile_append] at short ⊢
  split
  · rename_i whole
    rw [if_pos whole, List.length_append] at short
    have none : (rest.takeWhile p).length = 0 := by omega
    rw [List.eq_nil_of_length_eq_zero none, List.append_nil]
    exact (List.takeWhile_prefix p).eq_of_length whole |>.symm
  · rfl

theorem takeWhile_of_space {p : UInt8 → Bool} {b : UInt8} (stops : p b = false)
    (front rest : List UInt8) : (front ++ b :: rest).takeWhile p = front.takeWhile p := by
  rw [List.takeWhile_append, List.takeWhile_cons_of_neg (by simp [stops]), List.append_nil]
  split
  · rename_i whole
    exact (List.takeWhile_prefix p).eq_of_length whole |>.symm
  · rfl

def fractionLength : List UInt8 → Nat
  | [] => 0
  | p :: fraction =>
    let more := (fraction.takeWhile Byte.isDigit).length
    if p == Byte.point && 0 < more then 1 + more else 0

theorem numberTail_eq (bytes : List UInt8) : numberTail bytes =
    (bytes.takeWhile Byte.isDigit).length + fractionLength (bytes.dropWhile Byte.isDigit) := by
  rw [numberTail, drop_takeWhile]
  cases bytes.dropWhile Byte.isDigit with
  | nil => rfl
  | cons p fraction =>
      simp only [fractionLength]
      split
      · exact Nat.add_assoc ..
      · rfl

theorem digits_le_numberTail (bytes : List UInt8) :
    (bytes.takeWhile Byte.isDigit).length ≤ numberTail bytes := by
  rw [numberTail_eq]
  exact Nat.le_add_right _ _

theorem numberTail_append {front rest : List UInt8}
    (short : (front ++ rest).takeWhile Byte.isDigit = front.takeWhile Byte.isDigit) :
    numberTail (front ++ rest) = (front.takeWhile Byte.isDigit).length +
      fractionLength (front.dropWhile Byte.isDigit ++ rest) := by
  have bound : (front.takeWhile Byte.isDigit).length ≤ front.length :=
    (List.takeWhile_prefix _).length_le
  rw [numberTail_eq, short, ← drop_takeWhile, short, List.drop_append_of_le_length bound,
    drop_takeWhile]

theorem classify_point (bytes : List UInt8) : classify Byte.point bytes =
    if bytes.head?.any Byte.isDigit then (.number, 1 + numberTail bytes) else (.dot, 1) := rfl

theorem classify_asterisk (bytes : List UInt8) : classify Byte.asterisk bytes =
    if bytes.head? = some Byte.asterisk then
      ((withEquals .starStar .starStarEqual (bytes.drop 1)).1,
        (withEquals .starStar .starStarEqual (bytes.drop 1)).2 + 1)
    else withEquals .star .starEqual bytes := by
  cases bytes with
  | nil => rfl
  | cons b more =>
      by_cases again : b = Byte.asterisk
      · subst again
        rfl
      · rw [if_neg (by simpa using again)]
        simp only [classify, Byte.asterisk]
        rw [if_neg (by decide), if_neg (by decide)]
        split
        · rename_i same
          exact absurd (List.cons.inj same).1 again
        · rfl

section

variable {space : UInt8} (isSpace : Byte.isSpace space = true) {front rest : List UInt8}
  (other : List UInt8)

include isSpace

theorem fractionLength_of_fits {p : UInt8}
    (fits : fractionLength (p :: (front ++ rest)) ≤ front.length + 1) :
    fractionLength (p :: (front ++ space :: other)) = fractionLength (p :: (front ++ rest)) := by
  have stops : Byte.isDigit space = false :=
    Byte.not_of_isSpace isSpace fun _ => Byte.isVisible_of_isDigit
  simp only [fractionLength] at fits ⊢
  cases point : p == Byte.point with
  | false => rfl
  | true =>
      simp only [point, Bool.true_and, decide_eq_true_eq] at fits
      have short : ((front ++ rest).takeWhile Byte.isDigit).length ≤ front.length := by
        split at fits
        · omega
        · omega
      rw [takeWhile_of_short short, takeWhile_of_space stops]

theorem numberTail_of_fits (fits : numberTail (front ++ rest) ≤ front.length) :
    numberTail (front ++ space :: other) = numberTail (front ++ rest) := by
  have stops : Byte.isDigit space = false :=
    Byte.not_of_isSpace isSpace fun _ => Byte.isVisible_of_isDigit
  have noPoint : space ≠ Byte.point := Byte.ne_of_isSpace isSpace (by decide)
  have short := Nat.le_trans (digits_le_numberTail (front ++ rest)) fits
  have whole : front.length =
      (front.takeWhile Byte.isDigit).length + (front.dropWhile Byte.isDigit).length := by
    rw [← List.length_append, List.takeWhile_append_dropWhile]
  rw [numberTail_append (takeWhile_of_short short)] at fits ⊢
  rw [numberTail_append (takeWhile_of_space stops front other)]
  congr 1
  cases behind : front.dropWhile Byte.isDigit with
  | nil =>
      rw [behind] at fits whole
      have none : fractionLength rest = 0 := by
        simp only [List.nil_append, List.length_nil] at fits whole
        omega
      rw [List.nil_append, List.nil_append, none, fractionLength]
      exact if_neg (by simp [noPoint])
  | cons p tail =>
      rw [behind] at fits whole
      rw [List.length_cons] at whole
      rw [List.cons_append] at fits ⊢
      exact fractionLength_of_fits isSpace other (by omega)

theorem withEquals_of_fits {plain assigned : Kind}
    (fits : (withEquals plain assigned (front ++ rest)).2 ≤ front.length + 1) :
    withEquals plain assigned (front ++ space :: other) =
      withEquals plain assigned (front ++ rest) := by
  cases front with
  | nil =>
      have noEquals : space ≠ Byte.equals := Byte.ne_of_isSpace isSpace (by decide)
      have first : withEquals plain assigned (space :: other) = (plain, 1) :=
        if_neg (by simp [noEquals])
      rw [List.nil_append, List.nil_append, first]
      rw [List.nil_append, withEquals] at fits
      rw [withEquals]
      split at fits
      · exact absurd fits (by simp)
      · rename_i unequal
        rw [if_neg unequal]
  | cons b front => rfl

theorem classify_point_of_fits
    (fits : (classify Byte.point (front ++ rest)).2 ≤ front.length + 1) :
    classify Byte.point (front ++ space :: other) = classify Byte.point (front ++ rest) := by
  have noDigit : Byte.isDigit space = false :=
    Byte.not_of_isSpace isSpace fun _ => Byte.isVisible_of_isDigit
  rw [classify_point] at fits
  rw [classify_point, classify_point]
  cases digit : (front ++ rest).head?.any Byte.isDigit with
  | false =>
      have sameHead : (front ++ space :: other).head?.any Byte.isDigit = false := by
        cases front with
        | nil => exact noDigit
        | cons p front => exact digit
      rw [sameHead]
      rfl
  | true =>
      rw [if_pos digit] at fits
      have short : numberTail (front ++ rest) ≤ front.length := by
        simp only at fits
        omega
      have sameHead : (front ++ space :: other).head?.any Byte.isDigit = true := by
        cases front with
        | nil =>
            have some := digits_le_numberTail rest
            cases rest with
            | nil => cases digit
            | cons x rest =>
                rw [List.takeWhile_cons_of_pos (show Byte.isDigit x = true from digit)] at some
                exact absurd (Nat.le_trans some short) (Nat.not_succ_le_zero _)
        | cons p front => exact digit
      rw [sameHead, numberTail_of_fits isSpace other short]

theorem classify_asterisk_of_fits
    (fits : (classify Byte.asterisk (front ++ rest)).2 ≤ front.length + 1) :
    classify Byte.asterisk (front ++ space :: other) = classify Byte.asterisk (front ++ rest) := by
  have noAsterisk : space ≠ Byte.asterisk := Byte.ne_of_isSpace isSpace (by decide)
  rw [classify_asterisk] at fits
  rw [classify_asterisk, classify_asterisk]
  cases front with
  | nil =>
      rw [List.nil_append] at fits ⊢
      rw [List.nil_append, List.head?_cons, if_neg (by simpa using noAsterisk)]
      by_cases again : rest.head? = some Byte.asterisk
      · rw [if_pos again] at fits
        obtain ⟨kind, more, made, -⟩ := withEquals_mark (show Kind.starStar ∈ Kind.marks by decide)
          (show Kind.starStarEqual ∈ Kind.marks by decide) (rest.drop 1)
        simp only [made, List.length_nil] at fits
        omega
      · rw [if_neg again] at fits ⊢
        have short : (withEquals .star .starEqual ([] ++ rest)).2 ≤ ([] : List UInt8).length + 1 := fits
        exact withEquals_of_fits isSpace other short
  | cons p front =>
      simp only [List.cons_append, List.head?_cons, List.drop_succ_cons, List.drop_zero] at fits ⊢
      by_cases again : some p = some Byte.asterisk
      · rw [if_pos again] at fits
        have short : (withEquals .starStar .starStarEqual (front ++ rest)).2 ≤ front.length + 1 := by
          simp only [List.length_cons] at fits
          omega
        rw [if_pos again, if_pos again, withEquals_of_fits isSpace other short]
      · rw [if_neg again] at fits
        rw [if_neg again, if_neg again]
        have short : (withEquals .star .starEqual (p :: front ++ rest)).2 ≤ (p :: front).length + 1 :=
          fits
        exact withEquals_of_fits isSpace other short

theorem classify_of_fits {b : UInt8} (fits : (classify b (front ++ rest)).2 ≤ front.length + 1) :
    classify b (front ++ space :: other) = classify b (front ++ rest) := by
  have noWord : Byte.isWord space = false :=
    Byte.not_of_isSpace isSpace fun _ => Byte.isVisible_of_isWord
  by_cases point : b = Byte.point
  · subst point
    exact classify_point_of_fits isSpace other fits
  by_cases asterisk : b = Byte.asterisk
  · subst asterisk
    exact classify_asterisk_of_fits isSpace other fits
  unfold classify at fits ⊢
  split
  · rename_i digit
    rw [if_pos digit] at fits
    have short : numberTail (front ++ rest) ≤ front.length := by
      simp only at fits
      omega
    rw [numberTail_of_fits isSpace other short]
  · rename_i noDigit
    rw [if_neg noDigit] at fits
    split
    · rename_i letter
      rw [if_pos letter] at fits
      have short : ((front ++ rest).takeWhile Byte.isWord).length ≤ front.length := by
        simp only at fits
        omega
      rw [takeWhile_of_short short, takeWhile_of_space noWord]
      have inside : 1 + (front.takeWhile Byte.isWord).length ≤ (b :: front).length := by
        have bound := (List.takeWhile_prefix (l := front) Byte.isWord).length_le
        rw [List.length_cons]
        omega
      have here := wordKind_append inside (space :: other)
      have there := wordKind_append inside rest
      exact Prod.ext (here.trans there.symm) rfl
    · rename_i noLetter
      rw [if_neg noLetter] at fits
      split <;> try rfl
      all_goals try exact withEquals_of_fits isSpace other fits
      · exact absurd rfl point
      · exact absurd rfl asterisk

end

/-! ## Readings -/

theorem length_left (comment : Bool) (bytes : List UInt8) :
    (left comment bytes).length ≤ bytes.length := (skip_spec comment bytes 0 0).1

theorem left_self_iff (b : UInt8) (rest : List UInt8) : left false (b :: rest) = b :: rest ↔
    Byte.isSpace b = false ∧ ¬(b = Byte.slash ∧ rest.head? = some Byte.slash) := by
  have moved : ∀ comment, left comment rest ≠ b :: rest := by
    intro comment same
    have shorter := length_left comment rest
    rw [same, List.length_cons] at shorter
    omega
  rw [Byte.isSpace, Bool.or_eq_false_iff, left, skip]
  split
  · rename_i ends
    rw [skip_left]
    exact iff_of_false (moved false) fun stops => absurd ends (by simp [stops.1.2])
  · rename_i other
    split
    · rename_i blank
      rw [skip_left]
      exact iff_of_false (moved false) fun stops => absurd blank (by simp [stops.1.1])
    · rename_i visible
      split
      · rename_i slashes
        rw [skip_left]
        refine iff_of_false (moved true) fun stops => stops.2 ?_
        simpa using slashes
      · rename_i single
        refine iff_of_true rfl ⟨⟨by simpa using visible, by simpa using other⟩, ?_⟩
        simpa using single

theorem left_skip (comment : Bool) (bytes : List UInt8) (offset line : Nat) :
    left false (skip comment bytes offset line).rest = (skip comment bytes offset line).rest := by
  fun_induction skip comment bytes offset line with
  | case1 => exact left_nil false
  | case2 _ _ _ _ _ ih => exact ih
  | case3 _ _ _ _ _ ih => exact ih
  | case4 _ _ _ _ _ ih => exact ih
  | case5 _ _ _ _ _ _ ih => exact ih
  | case6 _ _ _ _ _ _ _ ih => exact ih
  | case7 _ _ _ _ other visible single =>
      rw [left_self_iff, Byte.isSpace, Bool.or_eq_false_iff]
      refine ⟨⟨by simpa using visible, by simpa using other⟩, ?_⟩
      simpa using single

theorem skipped_left (c : Cursor) : c.skipped.rest = left false c.rest := skip_left ..

theorem next_of_left {c : Cursor} {b : UInt8} {rest : List UInt8}
    (behind : left false c.rest = b :: rest) :
    c.next.1.spelling =
        ((classify b rest).1, lexemeOf (classify b rest).1 ((b :: rest).take (classify b rest).2)) ∧
      c.next.2.rest = (b :: rest).drop (classify b rest).2 := by
  rw [next_token (c.skipped_left.trans behind) rfl]
  exact ⟨rfl, rfl⟩

theorem next_congr {c d : Cursor} (same : left false d.rest = left false c.rest) :
    d.next.1.spelling = c.next.1.spelling ∧ d.next.2.rest = c.next.2.rest := by
  cases behind : left false c.rest with
  | nil =>
      have here := c.skipped_left.trans behind
      have there := d.skipped_left.trans (same.trans behind)
      rw [next_last here, next_last there]
      exact ⟨rfl, there.trans here.symm⟩
  | cons b rest =>
      obtain ⟨spelled, others⟩ := next_of_left behind
      obtain ⟨spelledToo, othersToo⟩ := next_of_left (same.trans behind)
      exact ⟨spelledToo.trans spelled.symm, othersToo.trans others.symm⟩

structure Ahead (c : Cursor) (filler : List UInt8) (b : UInt8) (rest : List UInt8) : Prop where
  whole : c.rest = filler ++ b :: rest
  fills : Filler false filler
  stops : left false (b :: rest) = b :: rest
  start : c.next.1.start = c.offset + filler.length
  stop : c.next.1.stop = c.next.1.start + (classify b rest).2
  place : c.next.2.offset = c.next.1.stop

theorem exists_ahead {c : Cursor} (goes : c.next.1.kind ≠ .eof) :
    ∃ filler b rest, c.Ahead filler b rest := by
  obtain ⟨filler, passed, fills⟩ := skip_passed false c.rest c.offset c.line
  have stops := left_skip false c.rest c.offset c.line
  change Passed filler c.rest c.offset c.line c.skipped at passed
  change left false c.skipped.rest = c.skipped.rest at stops
  change Skippable false c.skipped.rest.isEmpty filler at fills
  cases behind : c.skipped.rest with
  | nil =>
      rw [next_last behind] at goes
      exact absurd rfl goes
  | cons b rest =>
      obtain ⟨kind, length, known⟩ : ∃ kind length, classify b rest = (kind, length) := ⟨_, _, rfl⟩
      have read := next_token behind known
      have whole := passed.whole
      rw [behind] at fills stops whole
      refine ⟨filler, b, rest, whole, fills, stops, ?_, ?_, ?_⟩
      · rw [read]
        exact passed.offset
      · rw [read, known]
      · rw [read]

structure AtEnd (c : Cursor) : Prop where
  fills : Filler true c.rest
  start : c.next.1.start = c.offset + c.rest.length
  stop : c.next.1.stop = c.next.1.start
  left : left false c.rest = []

theorem atEnd {c : Cursor} (ends : c.next.1.kind = .eof) : c.AtEnd := by
  obtain ⟨filler, passed, fills⟩ := skip_passed false c.rest c.offset c.line
  change Passed filler c.rest c.offset c.line c.skipped at passed
  change Skippable false c.skipped.rest.isEmpty filler at fills
  cases behind : c.skipped.rest with
  | nil =>
      have read := next_last behind
      have whole := passed.whole
      rw [behind, List.append_nil] at whole
      rw [behind] at fills
      refine ⟨whole ▸ fills, ?_, ?_, c.skipped_left.symm.trans behind⟩
      · rw [read, whole]
        exact passed.offset
      · rw [read]
  | cons b rest =>
      rw [next_token behind rfl] at ends
      exact absurd ends (classify_spec b rest).1

/-- The tokens from a cursor on. -/
inductive Reads : Cursor → List Token → Prop where
  | last {c : Cursor} (ends : c.next.1.kind = .eof) : Reads c [c.next.1]
  | more {c : Cursor} {ts : List Token} (goes : c.next.1.kind ≠ .eof)
    (others : Reads c.next.2 ts) : Reads c (c.next.1 :: ts)

theorem collect_reads {fuel : Nat} {c : Cursor} (found : Array Token)
    (enough : c.rest.length < fuel) :
    ∃ ts, (c.collect fuel found).1.toList = found.toList ++ ts ∧ c.Reads ts := by
  induction fuel generalizing c found with
  | zero => omega
  | succ fuel ih =>
      rw [collect]
      dsimp only
      split
      · rename_i ends
        exact ⟨[c.next.1], by simp, .last ends⟩
      · rename_i goes
        have fewer := (next_spec c).2.2 goes
        obtain ⟨ts, collected, reads⟩ := ih (found.push c.next.1) (c := c.next.2) (by omega)
        exact ⟨c.next.1 :: ts, by rw [collected]; simp, .more goes reads⟩

theorem kind_eq {t u : Token} (same : t.spelling = u.spelling) : t.kind = u.kind :=
  congrArg Prod.fst same

namespace Reads

variable {c d : Cursor} {ts us : List Token}

theorem congr (reads : c.Reads ts) (others : d.Reads us)
    (same : left false d.rest = left false c.rest) :
    us.map Token.spelling = ts.map Token.spelling := by
  induction reads generalizing d us with
  | last ends =>
      obtain ⟨spelled, -⟩ := next_congr same
      cases others with
      | last => simp [spelled]
      | more goes => exact absurd ((kind_eq spelled).trans ends) goes
  | more goes _ ih =>
      obtain ⟨spelled, behind⟩ := next_congr same
      cases others with
      | last ends => exact absurd ((kind_eq spelled).symm.trans ends) goes
      | more _ others =>
          rw [List.map_cons, List.map_cons, spelled, ih others (by rw [behind])]

theorem after (reads : c.Reads ts) : ∀ t ∈ ts, c.offset ≤ t.start ∧ t.start ≤ t.stop := by
  induction reads with
  | @last c ends =>
      have start := (atEnd ends).start
      have stop := (atEnd ends).stop
      intro t member
      obtain rfl := List.mem_singleton.mp member
      omega
  | @more c ts goes others ih =>
      obtain ⟨filler, b, rest, ahead⟩ := exists_ahead goes
      have start := ahead.start
      have stop := ahead.stop
      have place := ahead.place
      intro t member
      rcases List.mem_cons.mp member with rfl | later
      · omega
      · have := ih t later
        omega

end Reads

theorem left_closed {filler : List UInt8} (fills : Filler false filler) (rest : List UInt8) :
    left false (filler ++ rest) = left false rest := by
  obtain ⟨comment, same, closed⟩ := left_filler fills rest
  cases comment with
  | false => exact same
  | true => exact absurd (closed rfl) nofun

theorem Ahead.left {c : Cursor} {filler : List UInt8} {b : UInt8} {rest : List UInt8}
    (ahead : c.Ahead filler b rest) : left false c.rest = b :: rest := by
  rw [ahead.whole, left_closed ahead.fills, ahead.stops]

theorem Ahead.within {c : Cursor} {filler front bytes rest : List UInt8} {b : UInt8}
    (ahead : c.Ahead filler b bytes) (here : c.rest = front ++ rest)
    (fits : c.next.1.stop ≤ c.offset + front.length) :
    ∃ token, front = filler ++ b :: token ∧ bytes = token ++ rest := by
  have some := (classify_spec b bytes).2
  have start := ahead.start
  have stop := ahead.stop
  rcases List.append_eq_append_iff.mp (ahead.whole.symm.trans here) with
    ⟨token, rfl, whole⟩ | ⟨more, rfl, -⟩
  · cases token with
    | nil =>
        rw [List.append_nil] at fits
        omega
    | cons x token =>
        obtain ⟨rfl, behind⟩ := List.cons.inj whole
        exact ⟨token, rfl, behind⟩
  · rw [List.length_append] at start
    omega

theorem left_self_space {b space : UInt8} {token rest : List UInt8}
    (isSpace : Byte.isSpace space = true) (other : List UInt8)
    (stops : left false (b :: (token ++ rest)) = b :: (token ++ rest)) :
    left false (b :: (token ++ space :: other)) = b :: (token ++ space :: other) := by
  obtain ⟨noSpace, noComment⟩ := (left_self_iff _ _).mp stops
  refine (left_self_iff _ _).mpr ⟨noSpace, ?_⟩
  cases token with
  | nil =>
      have noSlash : space ≠ Byte.slash := Byte.ne_of_isSpace isSpace (by decide)
      exact fun slashes => noSlash (Option.some.inj slashes.2)
  | cons x token => exact noComment

theorem next_of_fits {c d : Cursor} {front rest other : List UInt8} {space : UInt8}
    (isSpace : Byte.isSpace space = true) (here : c.rest = front ++ rest)
    (there : d.rest = front ++ space :: other) (goes : c.next.1.kind ≠ .eof)
    (fits : c.next.1.stop ≤ c.offset + front.length) : d.next.1.spelling = c.next.1.spelling ∧
      ∃ others, c.next.2.rest = others ++ rest ∧ d.next.2.rest = others ++ space :: other ∧
        c.next.2.offset + others.length = c.offset + front.length := by
  obtain ⟨filler, b, bytes, ahead⟩ := exists_ahead goes
  obtain ⟨token, rfl, rfl⟩ := ahead.within here fits
  have start := ahead.start
  have stop := ahead.stop
  have place := ahead.place
  rw [List.length_append, List.length_cons] at fits
  have same : classify b (token ++ space :: other) = classify b (token ++ rest) :=
    classify_of_fits isSpace other (by omega)
  have behind : left false d.rest = b :: (token ++ space :: other) := by
    rw [there, List.append_assoc, left_closed ahead.fills]
    exact left_self_space isSpace other ahead.stops
  obtain ⟨spelled, others⟩ := next_of_left ahead.left
  obtain ⟨spelledToo, othersToo⟩ := next_of_left behind
  have inside : (classify b (token ++ rest)).2 ≤ (b :: token).length := by
    rw [List.length_cons]
    omega
  rw [same] at spelledToo othersToo
  rw [← List.cons_append, List.take_append_of_le_length inside] at spelled spelledToo
  rw [← List.cons_append, List.drop_append_of_le_length inside] at others othersToo
  refine ⟨spelledToo.trans spelled.symm, _, others, othersToo, ?_⟩
  simp only [List.length_drop, List.length_append, List.length_cons] at inside ⊢
  omega

namespace Reads

variable {c d : Cursor} {ts us : List Token} {front rest : List UInt8}

theorem left_spaced_last {spacing : List UInt8} (spaces : Spacing spacing)
    (ends : c.next.1.kind = .eof) (here : c.rest = front ++ rest)
    (boundary : front = [] ∨
      (c.next.1.start = c.offset + front.length ∨ c.next.1.stop = c.offset + front.length)) :
    left false (front ++ (spacing ++ rest)) = left false c.rest := by
  rcases boundary with rfl | place
  · rw [here]
    exact spaces.left rest
  · have final := atEnd ends
    have start := final.start
    have stop := final.stop
    rw [here, List.length_append] at start
    have none : rest.length = 0 := by omega
    rw [List.eq_nil_of_length_eq_zero none, List.append_nil] at here ⊢
    obtain ⟨comment, past, -⟩ := left_filler final.fills spacing
    rw [here] at past
    rw [past, spaces.left_eq_nil, final.left]

/-- Where a token begins or ends, space can be put in. -/
theorem spaced {spacing : List UInt8} (spaces : Spacing spacing) (reads : c.Reads ts)
    (others : d.Reads us) (here : c.rest = front ++ rest)
    (there : d.rest = front ++ (spacing ++ rest))
    (boundary : front = [] ∨ ∃ t ∈ ts,
      t.start = c.offset + front.length ∨ t.stop = c.offset + front.length) :
    us.map Token.spelling = ts.map Token.spelling := by
  induction reads generalizing d us front with
  | @last c ends =>
      have last : front = [] ∨
          (c.next.1.start = c.offset + front.length ∨ c.next.1.stop = c.offset + front.length) :=
        boundary.imp_right fun ⟨t, member, place⟩ => List.mem_singleton.mp member ▸ place
      have same : left false d.rest = left false c.rest :=
        there ▸ left_spaced_last spaces ends here last
      exact (Reads.last ends).congr others same
  | @more c ts goes reads ih =>
      obtain ⟨filler, b, bytes, ahead⟩ := exists_ahead goes
      have positive := (classify_spec b bytes).2
      have start := ahead.start
      have stop := ahead.stop
      have place := ahead.place
      by_cases empty : front = []
      · subst empty
        refine (Reads.more goes reads).congr others ?_
        rw [there, here]
        exact spaces.left rest
      obtain ⟨t, member, bound⟩ := boundary.resolve_left empty
      by_cases fits : c.next.1.stop ≤ c.offset + front.length
      · obtain ⟨space, more, rfl, isSpace⟩ := spaces.begins
        obtain ⟨spelled, front', behind, behindToo, far⟩ :=
          next_of_fits isSpace here there goes fits
        cases others with
        | last ends => exact absurd ((kind_eq spelled).symm.trans ends) goes
        | more _ others =>
            rw [List.map_cons, List.map_cons, spelled, ih others behind behindToo]
            rcases List.mem_cons.mp member with rfl | later
            · left
              apply List.eq_nil_of_length_eq_zero
              omega
            · exact .inr ⟨t, later, by rwa [far]⟩
      · have startsHere : c.next.1.start = c.offset + front.length := by
          rcases List.mem_cons.mp member with rfl | later
          · omega
          · have := reads.after t later
            omega
        have closed : front = filler := by
          have whole := here.symm.trans ahead.whole
          exact (List.append_inj whole (by omega)).1
        have fills : Filler false front := closed ▸ ahead.fills
        refine (Reads.more goes reads).congr others ?_
        rw [there, here, left_closed fills, left_closed fills]
        exact spaces.left rest

theorem joined {e : Cursor} {vs : List Token} (reads : c.Reads ts) (others : d.Reads us)
    (behind : e.Reads vs) (there : d.rest = c.rest ++ Byte.newline :: e.rest) :
    us.map Token.spelling = (ts.map Token.spelling).dropLast ++ vs.map Token.spelling := by
  induction reads generalizing d us with
  | @last c ends =>
      obtain ⟨comment, past, -⟩ := left_filler (atEnd ends).fills (Byte.newline :: e.rest)
      refine behind.congr others ?_
      rw [there, past, left_newline]
  | @more c ts goes reads ih =>
      obtain ⟨filler, b, bytes, ahead⟩ := exists_ahead goes
      have bound := (classify_takes b bytes).bound
      have fits : c.next.1.stop ≤ c.offset + c.rest.length := by
        have start := ahead.start
        have stop := ahead.stop
        rw [ahead.whole, List.length_append]
        omega
      obtain ⟨spelled, front, here, thereToo, -⟩ := next_of_fits (by decide)
        (show c.rest = c.rest ++ [] from (List.append_nil _).symm) there goes fits
      rw [List.append_nil] at here
      cases others with
      | last ends => exact absurd ((kind_eq spelled).symm.trans ends) goes
      | more _ others =>
          have some : ts.map Token.spelling ≠ [] := by
            cases reads with
            | last => exact List.cons_ne_nil _ _
            | more => exact List.cons_ne_nil _ _
          rw [List.map_cons, List.map_cons, spelled, List.dropLast_cons_of_ne_nil some,
            ih others (by rw [thereToo, here]), List.cons_append]

end Reads

end Cursor

theorem scan_reads (source : List UInt8) : (Cursor.ofBytes source).Reads (scan source) := by
  obtain ⟨ts, collected, reads⟩ :=
    Cursor.collect_reads (c := .ofBytes source) #[] (Nat.lt_succ_self _)
  have same : scan source = ts := collected
  rwa [same]

theorem scan_spaced {spacing : List UInt8} (spaces : Spacing spacing) {front rest : List UInt8}
    (boundary : ∃ t ∈ scan (front ++ rest), t.start = front.length ∨ t.stop = front.length) :
    (scan (front ++ spacing ++ rest)).map Token.spelling =
      (scan (front ++ rest)).map Token.spelling := by
  refine (scan_reads (front ++ rest)).spaced spaces (scan_reads _) rfl
    (List.append_assoc ..) (.inr ?_)
  simpa [Cursor.ofBytes] using boundary

theorem scan_newline (front rest : List UInt8) :
    (scan (front ++ Byte.newline :: rest)).map Token.spelling =
      ((scan front).map Token.spelling).dropLast ++ (scan rest).map Token.spelling :=
  (scan_reads front).joined (scan_reads _) (scan_reads rest) rfl

end Reckoner
