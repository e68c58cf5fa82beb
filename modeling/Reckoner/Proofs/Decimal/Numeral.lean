import Reckoner.Proofs.Decimal.Digits
import Reckoner.Proofs.Decimal.Regular

/-!
The spelling of numbers. A numeral is digits with at most one point, and digits behind the point; it
reads as the number its digits denote, and what is spelled with two points does not read at all.
-/

namespace Reckoner

structure Digits (text : List Char) : Prop where
  nonempty : text ≠ []
  all : ∀ c ∈ text, c.isDigit = true

theorem Digits.single {c : Char} (digit : c.isDigit = true) : Digits [c] :=
  ⟨List.cons_ne_nil c [], List.forall_mem_singleton.mpr digit⟩

theorem Digits.append {a b : List Char} (first : Digits a) (others : ∀ c ∈ b, c.isDigit = true) :
    Digits (a ++ b) where
  nonempty := List.append_ne_nil_of_left_ne_nil first.nonempty b
  all := fun c member => (List.mem_append.mp member).elim (first.all c) (others c)

/-- A number written out: digits, with a point among or in front of them. -/
inductive Numeral : List Char → Prop where
  | whole {digits : List Char} (whole : Digits digits) : Numeral digits
  | pointed {digits fraction : List Char} (whole : Digits digits) (behind : Digits fraction) :
    Numeral (digits ++ '.' :: fraction)
  | bare {fraction : List Char} (behind : Digits fraction) : Numeral ('.' :: fraction)

/-- A bare fraction with another one behind it. -/
inductive TwoPoints : List Char → Prop where
  | intro {first second : List Char} (before : Digits first) (behind : Digits second) :
    TwoPoints ('.' :: first ++ '.' :: second)

def isPlain (c : Char) : Bool := c.isDigit || c == '.'

theorem isPlain_of_isDigit {c : Char} (digit : c.isDigit = true) : isPlain c = true := by
  rw [isPlain, digit, Bool.true_or]

theorem plain_append {a b : List Char} (first : ∀ c ∈ a, c.isDigit = true)
    (second : ∀ c ∈ b, isPlain c = true) : ∀ c ∈ a ++ b, isPlain c = true := fun c member =>
  (List.mem_append.mp member).elim (isPlain_of_isDigit ∘ first c) (second c)

theorem Digits.plain_behind {fraction : List Char} (digits : Digits fraction) :
    ∀ c ∈ '.' :: fraction, isPlain c = true := by
  intro c member
  rcases List.mem_cons.mp member with rfl | behind
  · rfl
  · exact isPlain_of_isDigit (digits.all c behind)

theorem Numeral.plain {text : List Char} (numeral : Numeral text) : ∀ c ∈ text, isPlain c = true := by
  cases numeral with
  | whole whole => exact fun c member => isPlain_of_isDigit (whole.all c member)
  | pointed whole behind => exact plain_append whole.all behind.plain_behind
  | bare behind => exact behind.plain_behind

theorem TwoPoints.plain {text : List Char} (points : TwoPoints text) :
    ∀ c ∈ text, isPlain c = true := by
  obtain ⟨before, behind⟩ := points
  intro c member
  rcases List.mem_append.mp member with first | second
  · exact before.plain_behind c first
  · exact behind.plain_behind c second

theorem lowerChar_plain {c : Char} (plain : isPlain c = true) : Text.lowerChar c = c := by
  rw [isPlain, Bool.or_eq_true, beq_iff_eq] at plain
  rcases plain with digit | rfl
  · obtain ⟨low, high⟩ := Char.isDigit_iff_toNat.mp digit
    have ascii : c.toNat < 0x80 := Nat.lt_of_le_of_lt high (by decide)
    rw [Text.lowerChar, if_pos ascii]
    refine dif_neg fun capital => ?_
    have : 'A'.toNat ≤ c.toNat := capital.1
    exact absurd (Nat.le_trans this high) (by decide)
  · rfl

namespace Decimal

theorem splitAt?_absent {mark : Char} {text : List Char} (absent : mark ∉ text) :
    splitAt? mark text = none := by
  have all : ∀ c ∈ text, (c != mark) = true := by
    intro c member
    rw [bne_iff_ne]
    rintro rfl
    exact absent member
  have none : text.dropWhile (· != mark) = [] := by
    rw [← List.append_nil text, List.dropWhile_append_of_pos all, List.dropWhile_nil]
  rw [splitAt?, none]

theorem splitAt?_first {mark : Char} {before : List Char} (absent : mark ∉ before)
    (after : List Char) : splitAt? mark (before ++ mark :: after) = some (before, after) := by
  have all : ∀ c ∈ before, (c != mark) = true := by
    intro c member
    rw [bne_iff_ne]
    rintro rfl
    exact absent member
  rw [splitAt?, List.dropWhile_append_of_pos all, List.takeWhile_append_of_pos all,
    List.dropWhile_cons_of_neg (by simp), List.takeWhile_cons_of_neg (by simp), List.append_nil]

theorem stripStart?_plain {s : Char} {start text : List Char} (letter : isPlain s = false)
    (plain : ∀ c ∈ text, isPlain c = true) : stripStart? (s :: start) text = none := by
  cases text with
  | nil => rfl
  | cons c rest =>
      rw [stripStart?, if_neg]
      intro same
      rw [eq_of_beq same, plain c List.mem_cons_self] at letter
      cases letter

theorem readUnsigned_plain {text : List Char} (plain : ∀ c ∈ text, isPlain c = true)
    (negative : Bool) : readUnsigned negative text = readFinite negative text := by
  have other : ∀ {word : List Char} {s : Char}, isPlain s = false → s ∈ word →
      (text == word) = false := by
    intro word s letter member
    rw [beq_eq_false_iff_ne]
    rintro rfl
    rw [plain s member] at letter
    cases letter
  rw [readUnsigned, other (s := 'i') (by decide) (by decide), other (s := 'i') (by decide) (by decide),
    Bool.false_or, if_neg Bool.false_ne_true]
  rw [show "nan".toList = 'n' :: ['a', 'n'] from rfl, show "snan".toList = 's' :: ['n', 'a', 'n'] from rfl,
    stripStart?_plain (by decide) plain, stripStart?_plain (by decide) plain]

theorem map_lowerChar {text : List Char} (plain : ∀ c ∈ text, isPlain c = true) :
    text.map Text.lowerChar = text := by
  rw [List.map_congr_left fun c member => lowerChar_plain (plain c member), List.map_id']

theorem splitSign_plain {text : List Char} (plain : ∀ c ∈ text, isPlain c = true) :
    splitSign text = (false, text) := by
  unfold splitSign
  split
  · exact absurd (plain '-' List.mem_cons_self) (by decide)
  · exact absurd (plain '+' List.mem_cons_self) (by decide)
  · rfl

theorem readSigned_plain {text : List Char} (plain : ∀ c ∈ text, isPlain c = true) (negative : Bool) :
    readSigned (signed negative text) = readFinite negative text := by
  have split : splitSign (signed negative text) = (negative, text) := by
    cases negative with
    | true => rfl
    | false => exact splitSign_plain plain
  rw [readSigned, split]
  dsimp only
  split
  · exact absurd (plain '-' List.mem_cons_self) (by decide)
  · exact absurd (plain '+' List.mem_cons_self) (by decide)
  · rw [map_lowerChar plain, readUnsigned_plain plain]

def assembled (negative : Bool) (digits : List Char) (parts : List Int) :
    Except LiteralFault Decimal := do
  let coefficient ← readCoefficient digits
  match place { negative, coefficient } parts with
  | .ok d => if withinLimit d.exponent then .ok d else .error .range
  | .error _ => .error .range

theorem readFinite_eq_assembled {text : List Char} (noExponent : 'e' ∉ text) (negative : Bool) :
    readFinite negative text =
      match splitAt? '.' text with
      | none => assembled negative text []
      | some (whole, fraction) =>
        assembled negative (whole ++ fraction) [-(fraction.length : Int)] := by
  -- Stated of every list of parts: of a given list the exponents would be computed
  have joined : ∀ read : List Char × List Int, (do
      let coefficient ← readCoefficient read.1
      match place { negative, coefficient } read.2 with
      | .ok d => if withinLimit d.exponent then .ok d else .error .range
      | .error _ => .error .range) = assembled negative read.1 read.2 := fun _ => rfl
  rw [readFinite, splitAt?_absent noExponent]
  refine (joined _).trans ?_
  cases splitAt? '.' text <;> rfl

theorem readFinite_whole {text : List Char} (digits : ∀ c ∈ text, c.isDigit = true)
    (negative : Bool) : readFinite negative text = assembled negative text [] := by
  have noPoint : '.' ∉ text := fun member => absurd (digits '.' member) (by decide)
  have noExponent : 'e' ∉ text := fun member => absurd (digits 'e' member) (by decide)
  rw [readFinite_eq_assembled noExponent, splitAt?_absent noPoint]

theorem readFinite_pointed {whole fraction : List Char} (digits : ∀ c ∈ whole, c.isDigit = true)
    (plain : ∀ c ∈ '.' :: fraction, isPlain c = true) (negative : Bool) :
    readFinite negative (whole ++ '.' :: fraction) =
      assembled negative (whole ++ fraction) [-(fraction.length : Int)] := by
  have noPoint : '.' ∉ whole := fun member => absurd (digits '.' member) (by decide)
  have noExponent : 'e' ∉ whole ++ '.' :: fraction := fun member =>
    absurd (plain_append digits plain 'e' member) (by decide)
  rw [readFinite_eq_assembled noExponent, splitAt?_first noPoint]

theorem readCoefficient_digits {text : List Char} (digits : Digits text) :
    readCoefficient text = .ok (digitsValue text : Int) := by
  have all : text.all Char.isDigit = true := List.all_eq_true.mpr digits.all
  rw [readCoefficient, splitSign_plain fun c member => isPlain_of_isDigit (digits.all c member)]
  simp only [all, List.isEmpty_eq_false_iff.mpr digits.nonempty]
  rfl

theorem readCoefficient_plain {text : List Char} (plain : ∀ c ∈ text, isPlain c = true) {n : Int}
    (read : readCoefficient text = .ok n) : Digits text ∧ n = digitsValue text := by
  rw [readCoefficient, splitSign_plain plain] at read
  dsimp only at read
  split at read
  · cases read
  · rename_i proper
    simp only [Bool.or_eq_true, Bool.not_eq_true', not_or, Bool.not_eq_true, Bool.not_eq_false] at proper
    refine ⟨⟨List.isEmpty_eq_false_iff.mp proper.1, List.all_eq_true.mp proper.2⟩, ?_⟩
    exact (Except.ok.inj read).symm

def ofDigits (negative : Bool) (whole fraction : List Char) : Decimal :=
  { negative, coefficient := digitsValue (whole ++ fraction), exponent := -(fraction.length : Int) }

theorem regular_ofDigits (negative : Bool) (whole fraction : List Char) :
    (ofDigits negative whole fraction).Regular := ⟨rfl, Int.natCast_nonneg _⟩

/-- The exponent of a decimal and that of its leading digit are within the limit. -/
structure InReach (d : Decimal) : Prop where
  exponent : withinLimit d.exponent = true
  adjusted : withinLimit d.adjusted = true

theorem assembled_eq {negative : Bool} {whole fraction : List Char} (digits : Digits (whole ++ fraction))
    (reach : (ofDigits negative whole fraction).InReach) {parts : List Int}
    (sum : parts.foldl (· + ·) 0 = -(fraction.length : Int)) (within : parts.all withinLimit = true) :
    assembled negative (whole ++ fraction) parts = .ok (ofDigits negative whole fraction) := by
  have placed : place { negative, coefficient := digitsValue (whole ++ fraction) } parts =
      .ok (ofDigits negative whole fraction) := by
    have adjusted := reach.adjusted
    rw [place, sum]
    exact if_pos (by rw [within]; exact adjusted)
  rw [assembled, readCoefficient_digits digits]
  simp only [bind, Except.bind, placed]
  exact if_pos reach.exponent

theorem regular_of_assembled {negative : Bool} {digits : List Char} {parts : List Int} {d : Decimal}
    (plain : ∀ c ∈ digits, isPlain c = true) (made : assembled negative digits parts = .ok d) :
    d.Regular := by
  rw [assembled] at made
  cases read : readCoefficient digits with
  | error fault =>
      rw [read] at made
      cases made
  | ok n =>
      obtain ⟨-, rfl⟩ := readCoefficient_plain plain read
      rw [read] at made
      simp only [bind, Except.bind, place] at made
      split at made
      · rename_i placed
        split at placed
        · split at made
          · rw [← Except.ok.inj made, ← Except.ok.inj placed]
            exact ⟨rfl, Int.natCast_nonneg _⟩
          · cases made
        · cases placed
      · cases made

def spelled (whole fraction : List Char) : List Char :=
  if fraction.isEmpty then whole else whole ++ '.' :: fraction

theorem readSigned_spelled {negative : Bool} {whole fraction : List Char} (digits : Digits whole)
    (behind : ∀ c ∈ fraction, c.isDigit = true) (reach : (ofDigits negative whole fraction).InReach) :
    readSigned (signed negative (spelled whole fraction)) = .ok (ofDigits negative whole fraction) := by
  rw [spelled]
  split
  · rename_i none
    obtain rfl := List.isEmpty_iff.mp none
    have all : Digits (whole ++ []) := digits.append behind
    rw [readSigned_plain fun c member => isPlain_of_isDigit (digits.all c member),
      readFinite_whole digits.all]
    have made : assembled negative (whole ++ []) [] = _ := assembled_eq all reach rfl rfl
    rwa [List.append_nil] at made
  · have plain : ∀ c ∈ '.' :: fraction, isPlain c = true := by
      intro c member
      rcases List.mem_cons.mp member with rfl | fractional
      · rfl
      · exact isPlain_of_isDigit (behind c fractional)
    rw [readSigned_plain (plain_append digits.all plain), readFinite_pointed digits.all plain]
    refine assembled_eq (digits.append behind) reach ?_ ?_
    · exact Int.zero_add _
    · exact Bool.and_eq_true_iff.mpr ⟨reach.exponent, rfl⟩

def leaded : List Char → List Char
  | '.' :: rest => '0' :: '.' :: rest
  | text => text

theorem parse_eq (text : List Char) :
    parse (String.ofList text) = (readSigned (leaded text)).mapError
      fun fault => { text := String.ofList (leaded text), fault } := by
  rw [parse, String.toList_ofList]
  split
  · rename_i d read
    have same : readSigned (leaded text) = .ok d := read
    rw [same]
    rfl
  · rename_i fault failed
    have same : readSigned (leaded text) = .error fault := failed
    rw [same]
    rfl

theorem leaded_eq {text : List Char} (starts : text.head? ≠ some '.') : leaded text = text := by
  unfold leaded
  split
  · exact absurd rfl starts
  · rfl

theorem head?_spelled {whole : List Char} (digits : Digits whole) (fraction : List Char) :
    (spelled whole fraction).head? = whole.head? := by
  rw [spelled]
  split
  · rfl
  · rw [List.head?_append, Option.or_of_isSome (List.isSome_head?.mpr digits.nonempty)]

theorem head?_signed_spelled (negative : Bool) {whole : List Char} (digits : Digits whole)
    (fraction : List Char) : (signed negative (spelled whole fraction)).head? ≠ some '.' := by
  cases negative with
  | true => exact nofun
  | false =>
      intro point
      have first : whole.head? = some '.' := (head?_spelled digits fraction).symm.trans point
      exact absurd (digits.all '.' (List.mem_of_head? first)) (by decide)

theorem parse_spelled {negative : Bool} {whole fraction : List Char} (digits : Digits whole)
    (behind : ∀ c ∈ fraction, c.isDigit = true) (reach : (ofDigits negative whole fraction).InReach) :
    parse (String.ofList (signed negative (spelled whole fraction))) =
      .ok (ofDigits negative whole fraction) := by
  rw [parse_eq, leaded_eq (head?_signed_spelled negative digits fraction),
    readSigned_spelled digits behind reach]
  rfl

theorem size_ofDigits_le {negative : Bool} {whole fraction : List Char}
    (digits : Digits (whole ++ fraction)) :
    (ofDigits negative whole fraction).size ≤ whole.length + fraction.length := by
  rw [← List.length_append]
  refine digitCount_le (List.length_pos_iff.mpr digits.nonempty) ?_
  show ((digitsValue (whole ++ fraction) : Int)).natAbs < _
  rw [Int.natAbs_natCast, digitsValue_eq]
  exact ofDigitChars_lt digits.all

theorem inReach_ofDigits {negative : Bool} {whole fraction : List Char}
    (digits : Digits (whole ++ fraction)) (fraction_le : fraction.length ≤ 100000)
    (whole_le : whole.length ≤ 100001) : (ofDigits negative whole fraction).InReach := by
  have upper : (ofDigits negative whole fraction).size ≤ _ := size_ofDigits_le digits
  have lower : 0 < (ofDigits negative whole fraction).size := digitCount_pos _
  refine ⟨(withinLimit_iff _).mpr ?_, (withinLimit_iff _).mpr ?_⟩
  · dsimp only [ofDigits]
    omega
  · rw [adjusted, show (ofDigits negative whole fraction).exponent = -(fraction.length : Int) from rfl]
    omega

theorem parse_numeral {text : List Char} (numeral : Numeral text) (short : text.length ≤ 100000) :
    ∃ d, parse (String.ofList text) = .ok d := by
  cases numeral with
  | whole digits =>
      have all : Digits (text ++ []) := digits.append nofun
      have reach : (ofDigits false text []).InReach :=
        inReach_ofDigits all (Nat.zero_le _) (by omega)
      have same : signed false (spelled text []) = text := rfl
      rw [← same]
      exact ⟨_, parse_spelled digits nofun reach⟩
  | @pointed whole fraction digits behind =>
      rw [List.length_append, List.length_cons] at short
      have same : whole ++ '.' :: fraction = signed false (spelled whole fraction) := by
        rw [spelled, if_neg (by simpa using behind.nonempty)]
        rfl
      rw [same]
      exact ⟨_, parse_spelled digits behind.all
        (inReach_ofDigits (digits.append behind.all) (by omega) (by omega))⟩
  | @bare fraction behind =>
      rw [List.length_cons] at short
      have zero : Digits ['0'] := .single rfl
      have same : '0' :: '.' :: fraction = signed false (spelled ['0'] fraction) := by
        rw [spelled, if_neg (by simpa using behind.nonempty)]
        rfl
      have reach : (ofDigits false ['0'] fraction).InReach :=
        inReach_ofDigits (zero.append behind.all) (by omega) (by decide)
      have read := readSigned_spelled zero behind.all reach
      refine ⟨ofDigits false ['0'] fraction, ?_⟩
      rw [parse_eq, leaded, same, read]
      rfl

theorem plain_split {text : List Char} (plain : ∀ c ∈ text, isPlain c = true) :
    (∀ c ∈ text, c.isDigit = true) ∨
      ∃ whole rest, text = whole ++ '.' :: rest ∧ (∀ c ∈ whole, c.isDigit = true) ∧
        ∀ c ∈ '.' :: rest, isPlain c = true := by
  induction text with
  | nil => exact .inl nofun
  | cons c rest ih =>
      have first := plain c List.mem_cons_self
      rw [isPlain, Bool.or_eq_true, beq_iff_eq] at first
      rcases first with digit | rfl
      · have more : ∀ {cs : List Char}, (∀ d ∈ cs, d.isDigit = true) → ∀ d ∈ c :: cs, d.isDigit = true :=
          fun others d member => (List.mem_cons.mp member).elim (fun same => same ▸ digit) (others d)
        rcases ih fun d member => plain d (List.mem_cons_of_mem c member) with
          all | ⟨whole, after, rfl, digits, others⟩
        · exact .inl (more all)
        · exact .inr ⟨c :: whole, after, rfl, more digits, others⟩
      · exact .inr ⟨[], rest, rfl, nofun, plain⟩

theorem readSigned_assembled {text : List Char} (plain : ∀ c ∈ text, isPlain c = true) :
    ∃ digits parts, (∀ c ∈ digits, isPlain c = true) ∧ readSigned text = assembled false digits parts := by
  have unsigned := readSigned_plain plain false
  rw [signed, if_neg Bool.false_ne_true] at unsigned
  rw [unsigned]
  rcases plain_split plain with all | ⟨whole, rest, rfl, digits, others⟩
  · exact ⟨text, [], plain, readFinite_whole all false⟩
  · refine ⟨whole ++ rest, _, plain_append digits fun c member => ?_,
      readFinite_pointed digits others false⟩
    exact others c (List.mem_cons_of_mem _ member)

theorem plain_leaded {text : List Char} (plain : ∀ c ∈ text, isPlain c = true) :
    ∀ c ∈ leaded text, isPlain c = true := by
  unfold leaded
  split
  · intro c member
    rcases List.mem_cons.mp member with rfl | behind
    · rfl
    · exact plain c behind
  · exact plain

theorem regular_of_parse {text : List Char} (plain : ∀ c ∈ text, isPlain c = true) {d : Decimal}
    (parsed : parse (String.ofList text) = .ok d) : d.Regular := by
  obtain ⟨digits, parts, plainDigits, read⟩ := readSigned_assembled (plain_leaded plain)
  rw [parse_eq, read] at parsed
  cases made : assembled false digits parts with
  | error fault =>
      rw [made] at parsed
      cases parsed
  | ok made' =>
      rw [made] at parsed
      cases parsed
      exact regular_of_assembled plainDigits made

theorem assembled_not_digits {negative : Bool} {text : List Char} {parts : List Int}
    (plain : ∀ c ∈ text, isPlain c = true) (point : '.' ∈ text) :
    ∃ fault, assembled negative text parts = .error fault := by
  cases read : readCoefficient text with
  | error fault =>
      refine ⟨fault, ?_⟩
      rw [assembled, read]
      rfl
  | ok n =>
      obtain ⟨digits, -⟩ := readCoefficient_plain plain read
      exact absurd (digits.all '.' point) (by decide)

theorem parse_twoPoints {text : List Char} (points : TwoPoints text) :
    ∃ e, parse (String.ofList text) = .error e := by
  have plain := points.plain
  obtain ⟨before, behind⟩ := points
  rename_i first second
  have rest : ∀ c ∈ '.' :: (first ++ '.' :: second), isPlain c = true := plain
  have zero : ∀ c ∈ ['0'], c.isDigit = true := (Digits.single rfl).all
  have whole := plain_append zero fun c member => rest c (List.mem_cons_of_mem _ member)
  have failed : ∃ fault, assembled false (['0'] ++ (first ++ '.' :: second))
      [-((first ++ '.' :: second).length : Int)] = .error fault :=
    assembled_not_digits whole (by simp)
  obtain ⟨fault, failed⟩ := failed
  have unsigned := readSigned_plain (plain_append zero rest) false
  rw [readFinite_pointed zero rest, failed] at unsigned
  rw [parse_eq]
  refine ⟨_, congrArg (Except.mapError _) unsigned⟩

end Decimal

end Reckoner
