import Reckoner.Proofs.Compiler.LoopVerdict
import Reckoner.Proofs.Script.Nearest

/-!
Judging nested routines: their parameters, and what becomes of a finished draft.
-/

namespace Reckoner.Script.Grammar

def Counts : Category → Prop
  | .statement n m | .declaration n m | .declarations n m | .function n m => n ≤ m

theorem Derives.counts {category : Category} {ts rest : List Token} {tree : category.Tree}
    (derives : Derives category ts tree rest) : Counts category := by
  induction derives with
  | ifElse _ _ _ _ _ _ first second => exact Nat.le_trans first second
  | cons _ _ first second => exact Nat.le_trans first second
  | short => exact Nat.le_succ _
  | long _ _ _ _ _ ih => exact Nat.le_trans (Nat.le_succ _) ih
  | _ => first
    | exact Nat.le_refl _
    | assumption

end Reckoner.Script.Grammar

namespace Reckoner.Compiler

open Script

namespace View

def listed (tokens : List Token) (created : Nat) (enclosing : List Draft) (unit : Nat)
    (names : List String) : View where
  tokens := tokens
  locals := (names.reverse.map fun name => ⟨name, some 1⟩) ++ [⟨"", some 0⟩]
  depth := 1
  loops := []
  created := created + 1
  enclosing := enclosing
  identity := { unit, index := created }
  arity := names.length
  entries := []
  here := 0

variable (ts : List Token) (created : Nat) (enclosing : List Draft) (unit : Nat)
  (names : List String)

theorem settled_listed : (listed ts created enclosing unit names).Settled where
  nonempty := List.append_ne_nil_of_right_ne_nil _ (List.cons_ne_nil _ _)
  bounded := by
    intro l member
    rcases List.mem_append.mp member with fresh | slotZero
    · obtain ⟨name, -, rfl⟩ := List.mem_map.mp fresh
      exact ⟨1, rfl, Nat.le_refl _⟩
    · rw [List.mem_singleton.mp slotZero]
      exact ⟨0, rfl, Nat.zero_le _⟩
  behind := nofun
  inside := nofun

theorem deep_listed : (listed ts created enclosing unit names).Deep := nofun

theorem scope_listed : (listed ts created enclosing unit names).scope = names.reverse := by
  rw [(settled_listed ..).scope_eq, listed, List.dropLast_append_of_ne_nil (List.cons_ne_nil _ _)]
  exact (List.map_append).trans (congrArg (· ++ []) (map_name_fresh _ _) |>.trans
    (List.append_nil _))

theorem namesHere_listed :
    (listed ts created enclosing unit names).namesHere = names.reverse := by
  rw [namesHere, listed, if_neg (Nat.succ_ne_zero 0), List.takeWhile_append_of_pos]
  · exact (List.map_append).trans (congrArg (· ++ []) (map_name_fresh _ _) |>.trans
      (List.append_nil _))
  · intro l member
    obtain ⟨name, -, rfl⟩ := List.mem_map.mp member
    rfl

theorem context_listed {enclosing : List Draft} (nested : enclosing ≠ []) :
    (listed ts created enclosing unit names).context = .body names := by
  have inFunction : enclosing.isEmpty = false := by simpa using nested
  rw [context, namesHere_listed, scope_listed]
  simp only [listed, inFunction]
  rfl

end View

/-! Parameters -/

section

variable {created unit : Nat} {enclosing : List Draft} {ts rest : List Token} {s : Compiler}
  {names : List String}

theorem Poised.addParameter (poised : Poised s (.listed ts created enclosing unit names))
    {name : String} (read : Reader.identifier ts = some (name, rest)) :
    Verdict s.addParameter (name ∉ names ∧ names.length < maxArguments)
      (.listed rest created enclosing unit (names ++ [name])) := by
  have counted : Poised s.counted
      { View.listed ts created enclosing unit names with arity := names.length + 1 } :=
    { poised with
      stream := poised.stream
      holds := poised.holds
      arity := congrArg (· + 1) poised.arity }
  have arity : s.draft.routine.arity = (names.length : Int) := poised.arity
  rw [addParameter_eq, arity]
  by_cases full : names.length < maxArguments
  · have few : ¬ ((maxArguments : Int) < (names.length : Int) + 1) := by omega
    rw [if_neg few, and_iff_left full]
    have settled := View.settled_listed ts created enclosing unit names
    obtain ⟨parsed, -⟩ := counted.parseVariable
      (settled.onward rfl rfl rfl (Nat.le_refl _)) .expectParameterName read
    refine ((parsed.step (reports_markInitialized _) fun behind =>
      behind.markInitialized rfl).congr ?_).congr_view ?_
    · have here : (View.listed ts created enclosing unit names).context.here = names.reverse :=
        View.namesHere_listed ..
      have scope : (View.listed ts created enclosing unit names).context.scope = names.reverse :=
        View.scope_listed ..
      have admits : (View.listed ts created enclosing unit names).context.Admits name ↔
          name ∉ names := by
        have inside : (View.listed ts created enclosing unit names).context.isGlobal = false := rfl
        rw [Context.Admits, forall_prop_of_true inside, here, scope, List.mem_reverse,
          List.length_reverse]
        exact and_iff_left (Nat.succ_lt_succ full)
      exact ⟨fun fits => admits.mp fits.legal, fun fresh => ⟨admits.mpr fresh,
        List.forall_mem_nil _, Nat.zero_le _⟩⟩
    · simp only [View.listed, List.reverse_append, List.length_append, List.map_append]
      rfl
  · have many : (maxArguments : Int) < (names.length : Int) + 1 := by omega
    rw [if_pos many]
    have faulted := faultAhead_diagnostics_ne counted.audible .tooManyParameters
    have grown := (reports_parseVariable (s.counted.faultAhead .tooManyParameters)
      .expectParameterName).trans (reports_markInitialized _)
    exact {
      clean_iff := iff_of_false (fun done => faulted (grown.clean done)) fun both => full both.2
      poised := fun done => absurd (grown.clean done) faulted }

theorem Poised.parameters {fuel : Nat} {more : List String}
    (poised : Poised s (.listed ts created enclosing unit names))
    (distinct : names.Nodup) (few : names.length ≤ maxArguments)
    (read : Reader.parameters fuel ts = some (more, rest)) :
    Verdict (parameters fuel s) ((names ++ more).Nodup ∧ (names ++ more).length ≤ maxArguments)
      (.listed rest created enclosing unit (names ++ more)) := by
  induction fuel generalizing s ts names more with
  | zero => exact absurd read nofun
  | succ fuel ih =>
      simp only [Reader.parameters, Option.bind_eq_bind, Option.bind_eq_some_iff,
        Prod.exists] at read
      obtain ⟨name, us, first, others⟩ := read
      rw [Compiler.parameters]
      have judged := poised.addParameter first
      generalize s.addParameter = t at judged
      have grown : Reports t
          (if t.check .comma = true then Compiler.parameters fuel t.advance else t) := by
        split
        · exact (reports_advance t).trans (reports_parameters _ _)
        · exact .refl t
      have one : (names ++ [name]).Nodup ∧ (names ++ [name]).length ≤ maxArguments ↔
          name ∉ names ∧ names.length < maxArguments := by
        have fresh : (names ++ [name]).Nodup ↔ name ∉ names := by
          rw [List.nodup_append, and_iff_right distinct, and_iff_right (by simp)]
          constructor
          · exact fun other member => other name member name List.mem_cons_self rfl
          · intro missing x member y once same
            rw [List.mem_singleton.mp once] at same
            exact missing (same ▸ member)
        rw [fresh, List.length_append, List.length_singleton]
        exact Iff.rfl
      rw [← one] at judged
      split at others
      · rename_i isComma
        obtain ⟨x, ws, rfl, kind⟩ := tokens_of_kind isComma (by decide)
        simp only [Option.bind_eq_some_iff, Prod.exists] at others
        obtain ⟨later, rest', readLater, last⟩ := others
        cases last
        have whole := judged.and_then grown fun holds behind => by
          have here : t.check .comma = true := by
            rw [behind.check_eq]
            exact isComma
          rw [if_pos here]
          exact ih (behind.advance rfl (by rw [kind]; decide)).1 holds.1 holds.2 readLater
        rw [List.append_assoc, List.singleton_append] at whole
        refine whole.congr ⟨And.right, fun all => ⟨?_, all⟩⟩
        rw [List.append_cons] at all
        refine ⟨(List.nodup_append.mp all.1).1, ?_⟩
        have length := all.2
        rw [List.length_append] at length
        omega
      · rename_i noComma
        cases others
        refine judged.step grown fun behind => ?_
        have here : ¬ t.check .comma = true := by
          rw [behind.check_eq]
          exact noComma
        rw [if_neg here]
        exact behind

theorem Poised.parameterList {fuel : Nat}
    (poised : Poised s (.listed ts created enclosing unit []))
    (read : Reader.parameterList fuel ts = some (names, rest)) :
    Verdict (parameterList fuel s) (names.Nodup ∧ names.length ≤ maxArguments)
      (.listed rest created enclosing unit names) := by
  simp only [Reader.parameterList, Option.bind_eq_bind, Option.bind_eq_some_iff] at read
  obtain ⟨us, opening, others⟩ := read
  rw [Compiler.parameterList]
  have opened := (poised.consume .expectParenAfterName (by decide : Kind.leftParen ≠ .eof) opening).1
  generalize s.consume .leftParen .expectParenAfterName = t at opened
  have closed : ∀ {u : Compiler} {ws : List Token},
      Verdict u (names.Nodup ∧ names.length ≤ maxArguments)
        (.listed ws created enclosing unit names) → Reader.expect .rightParen ws = some rest →
      Verdict (u.consume .rightParen .expectParenAfterParameters)
        (names.Nodup ∧ names.length ≤ maxArguments) (.listed rest created enclosing unit names) :=
    fun judged closing => judged.step (reports_consume _ _ _)
      fun behind => (behind.consume _ (by decide) closing).1
  split at others
  · rename_i none
    simp only [Option.bind_some, Option.bind_eq_some_iff] at others
    obtain ⟨rest', closing, last⟩ := others
    cases last
    have here : t.check .rightParen = true := by
      rw [opened.check_eq]
      exact none
    simp only [if_pos here]
    exact closed ((Verdict.of_poised opened).congr
      (iff_of_true trivial ⟨List.nodup_nil, Nat.zero_le _⟩)) closing
  · rename_i some
    simp only [Option.bind_eq_some_iff, Prod.exists] at others
    obtain ⟨names', ws, listed, rest', closing, last⟩ := others
    cases last
    have here : ¬ t.check .rightParen = true := by
      rw [opened.check_eq]
      exact some
    simp only [if_neg here]
    exact closed (Poised.parameters opened List.nodup_nil (Nat.zero_le _) listed) closing

end

/-! Drafts -/

section

variable {s t : Compiler} {v w : View}

theorem Poised.opened (poised : Poised s v) (name : String) :
    Poised (s.openRoutine name).beginScope
      (.listed v.tokens v.created (s.draft :: v.enclosing) v.identity.unit []) where
  clean := poised.clean
  audible := poised.audible
  stream := poised.stream
  closed := poised.closed
  plain := poised.plain
  locals := rfl
  room := (by decide : 1 ≤ maxLocals)
  depth := rfl
  loops := rfl
  created := congrArg (· + 1) poised.created
  enclosing := congrArg (s.draft :: ·) poised.enclosing
  identity := by
    rw [View.listed, ← poised.unit, ← poised.created]
    rfl
  unit := poised.unit
  arity := rfl
  holds := rfl
  few := Nat.zero_le _
  numbered := nofun
  here := rfl

/-- A finished routine is a constant unlike all others, since its number is new. -/
theorem Poised.closeRoutine (outer : Poised s v) (poised : Poised t w)
    (enclosing : w.enclosing = s.draft :: v.enclosing)
    (identity : w.identity = ⟨v.identity.unit, v.created⟩) (later : v.created < w.created) :
    Verdict t.closeRoutine ((keep v.entries (.function v.created)).length ≤ maxConstants)
      { v with
        tokens := w.tokens
        created := w.created
        entries := keep v.entries (.function v.created)
        here := v.here + 2 } := by
  have number : t.draft.routine.identity.index = v.created := by
    rw [poised.identity, identity]
  rw [Compiler.closeRoutine, poised.enclosing, enclosing]
  simp only []
  have back : Poised { t with draft := s.draft, enclosing := v.enclosing }
      { v with tokens := w.tokens, created := w.created } :=
    { outer with
      clean := poised.clean
      audible := poised.audible
      stream := poised.stream
      closed := poised.closed
      plain := poised.plain
      created := poised.created
      enclosing := rfl
      unit := by
        have unit := poised.unit
        rw [identity] at unit
        exact unit
      holds := outer.holds
      numbered := fun i member => Nat.lt_trans (outer.numbered i member) later }
  have stored := back.constant_of_agree (c := .routine t.draft.routine)
    (e := .function v.created) (congrArg (fun index => some (Script.Entry.function index)) number) ?_ ?_
  · exact stored.step ((Reports.refl _).emitWith .constant _) fun behind => behind.emitWith _ _
  · intro old x member known
    cases old with
    | number d => cases known; rfl
    | text name => cases known; rfl
    | bool | foreign => simp [Script.Entry.ofConstant?] at known
    | routine r =>
        cases known
        have older := outer.index_lt member
        have different : r.identity ≠ t.draft.routine.identity := by
          intro same
          rw [same, number] at older
          exact Nat.lt_irrefl _ older
        exact (beq_false_of_ne different).trans (beq_false_of_ne (Nat.ne_of_lt older)).symm
  · rintro i same
    cases same
    exact later

end

end Reckoner.Compiler
