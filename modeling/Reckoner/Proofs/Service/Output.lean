import Reckoner.Proofs.Engine.FrontEnds
import Reckoner.Proofs.Machine.Printing

/-!
Output line by line. Printed values are written one after the other into one text, which is cut into
lines again for the answer; no line is lost or merged, since every value is shown on one line that is
not empty.
-/

namespace Reckoner

namespace Text

theorem splitOn_lines {lines : List (List Char)} {last : List Char} (inLine : ∀ l ∈ lines, '\n' ∉ l)
    (ended : '\n' ∉ last) : (lines.flatMap (· ++ ['\n']) ++ last).splitOn '\n' = lines ++ [last] := by
  induction lines with
  | nil => exact List.splitOn_eq_singleton ended
  | cons l rest ih =>
      have here : ∀ c ∈ l, (c == '\n') = false := by
        intro c member
        refine beq_false_of_ne ?_
        rintro rfl
        exact inLine l List.mem_cons_self member
      have later := ih fun k member => inLine k (List.mem_cons_of_mem l member)
      rw [List.flatMap_cons, List.append_assoc, List.append_assoc, List.singleton_append, List.splitOn,
        List.splitOnP_append_cons_of_forall_mem here '\n' rfl]
      exact congrArg (l :: ·) later

theorem trimEnd_newline {text : List Char} (ended : text.getLast? ≠ some '\n') :
    trimEnd (· = '\n') (text ++ ['\n']) = text := by
  have stays : text.reverse.dropWhile (· = '\n') = text.reverse := by
    cases back : text.reverse with
    | nil => rfl
    | cons c rest =>
        have last : c ≠ '\n' := by
          rintro rfl
          rw [← List.head?_reverse, back] at ended
          exact ended rfl
        exact List.dropWhile_cons_of_neg (by simpa using last)
  rw [trimEnd, List.reverse_append, List.reverse_singleton, List.singleton_append,
    List.dropWhile_cons_of_pos (by simp), stays, List.reverse_reverse]

theorem outputLines_eq {lines : List (List Char)} (nonempty : ∀ l ∈ lines, l ≠ [])
    (inLine : ∀ l ∈ lines, '\n' ∉ l) {s : String} (text : s.toList = lines.flatMap (· ++ ['\n'])) :
    outputLines s = lines.map String.ofList := by
  rw [outputLines, text]
  rcases List.eq_nil_or_concat' lines with rfl | ⟨front, last, rfl⟩
  · rfl
  · have there : last ∈ front ++ [last] := List.mem_append_right front List.mem_cons_self
    have some : last ≠ [] := nonempty last there
    have ended : (front.flatMap (· ++ ['\n']) ++ last).getLast? ≠ Option.some '\n' := by
      rw [List.getLast?_append_of_ne_nil _ some]
      exact fun same => inLine last there (List.mem_of_getLast? same)
    have before : ∀ l ∈ front, '\n' ∉ l := fun l member => inLine l (List.mem_append_left _ member)
    rw [List.flatMap_append, List.flatMap_singleton, ← List.append_assoc, trimEnd_newline ended]
    split
    · rename_i empty
      exact absurd (List.append_eq_nil_iff.mp empty).2 some
    · rw [splitOnto_eq, splitOn_lines before (inLine last there), List.reverse_nil, List.reverse_nil,
        modifyHead_nil_append, List.nil_append]

end Text

theorem Machine.Keeps.outputLines {P : Value → Prop} {m : Machine} {vs : List Value}
    {told : Array (Channel × String)} (keeps : m.Keeps P (Value.lines vs ++ told))
    (elsewhere : ∀ entry ∈ told, entry.1 = Channel.err) (legible : ∀ v ∈ vs, v.Legible) :
    Text.outputLines (m.textOn .out) = vs.map Value.display := by
  have text : (m.textOn .out).toList =
      (vs.map fun v => v.display.toList).flatMap (· ++ ['\n']) := by
    rw [keeps.output elsewhere, List.flatMap_map]
  have nonempty : ∀ l ∈ vs.map fun v => v.display.toList, l ≠ [] := by
    intro l member
    obtain ⟨v, inside, rfl⟩ := List.mem_map.mp member
    exact mt String.toList_eq_nil_iff.mp (legible v inside).nonempty
  have inLine : ∀ l ∈ vs.map fun v => v.display.toList, '\n' ∉ l := by
    intro l member
    obtain ⟨v, inside, rfl⟩ := List.mem_map.mp member
    exact (legible v inside).inLine
  rw [Text.outputLines_eq nonempty inLine text, List.map_map]
  exact List.map_congr_left fun v _ => String.ofList_toList

namespace Service

structure Idle (m : Machine) : Prop where
  clean : m.Clean
  contains : m.Contains Value.Scripted

theorem Idle.rests {m : Machine} (idle : Idle m) : m.clearWritten.Rests := by
  have cleared : m.clearWritten.Clean := idle.clean.of_eq rfl rfl rfl
  exact cleared.rests

theorem Idle.keeps {m : Machine} (idle : Idle m) : m.clearWritten.Keeps Value.Scripted #[] :=
  ⟨⟨idle.contains.cells, idle.contains.globals, idle.contains.routines⟩, rfl⟩

theorem standard_scripted : Host.standard.Keeps Value.Scripted := Host.standard_keeps fun _ => trivial

theorem Idle.legible {m first state : Machine} (idle : Idle m) {r : Routine} (compiled : r.Compiled)
    (starts : m.clearWritten.Starts r [] first) (reaches : Machine.Reaches Host.standard first state) :
    state.Contains Value.Legible := by
  have orderly := idle.rests.orderly compiled (List.forall_mem_nil _) starts
  have ready := idle.keeps.starts compiled (List.forall_mem_nil _) starts
  have scripted := reaches.scripted Host.standard_respects standard_scripted orderly ready.toContains
  exact scripted.mono fun v => Value.Scripted.legible

theorem run_prints {fuel : Nat} {session : Session} {r : Routine} (idle : Idle session.machine)
    (compiled : r.Compiled)
    (ends : ∀ after, session.machine.clearWritten.interpret Host.standard fuel r ≠ .exhausted after) :
    ∃ answer vs, (run Host.standard fuel session r).1 = .ok answer ∧
      session.machine.clearWritten.ScriptPrints Host.standard r vs ∧
      answer.output = vs.map Value.display ∧
      (run Host.standard fuel session r).2.machine.Contains Value.Scripted := by
  have rests := idle.rests
  have keeps := idle.keeps
  have serves := Host.standard_respects.serves
  have calm := Machine.interpret_calm serves Host.standard_plain.calm rests compiled fuel
  rcases Machine.interpret_prints Host.standard_respects standard_scripted rests keeps compiled fuel with
    ⟨after, exhausted⟩ | ⟨vs, told, prints, elsewhere, kept⟩
  · exact absurd exhausted (ends after)
  · have legible : ∀ v ∈ vs, v.Legible := fun v member =>
      (prints.scripted Host.standard_respects standard_scripted rests keeps compiled v member).legible
    rw [Array.empty_append] at kept
    rw [run]
    generalize session.machine.clearWritten.interpret Host.standard fuel r = ending at calm ends kept ⊢
    cases ending with
    | done _ after =>
        dsimp only
        cases popped : after.pop with
        | error cause =>
            have output := kept.outputLines elsewhere legible
            exact ⟨_, vs, rfl, prints, output, kept.toContains⟩
        | ok pair =>
            obtain ⟨v, last⟩ := pair
            have left := kept.pop popped
            have output := left.outputLines elsewhere legible
            exact ⟨_, vs, rfl, prints, output, left.toContains⟩
    | fault f after =>
        have output := kept.outputLines elsewhere legible
        exact ⟨_, vs, rfl, prints, output, kept.toContains⟩
    | crash reason after => exact absurd rfl (calm reason after)
    | exhausted after => exact absurd rfl (ends after)

/-- The globals of the template are the standard natives and what scripts make. -/
def Template (s : Service) : Prop := ∀ name v, s.base.global? name = some v → v.Scripted

theorem Comes.idle {s : Service} (comes : s.Comes Host.standard) (template : s.Template) :
    s.Houses Idle := by
  refine comes.houses ?_ ⟨Machine.duplicate_clean comes.globals, ?_⟩
  · intro fuel session r idle compiled ends
    obtain ⟨answer, vs, -, -, -, contains⟩ := run_prints idle compiled ends
    have clean := run_clean Host.standard_honest Host.standard_plain.calm idle.clean compiled ends
    exact ⟨clean.freshUnit, contains.cells, contains.globals, contains.routines⟩
  · exact ⟨List.forall_mem_nil _, template, List.forall_mem_nil _⟩

end Service

open Service

/-- No printed line is lost or merged. In a service whose template has no natives but the standard ones
every value in a session is shown on one line that is not empty, also while a script runs. An evaluation
is refused, goes on for longer than it is given, or is answered with one line for every value that its
script prints, in order and up to the fault if there is one. -/
theorem every_print_answered {s : Service} (comes : s.Comes Host.standard) (template : s.Template)
    (fuel : Nat) (now : Int) (source id : String) :
    (∀ session ∈ s.sessions, session.machine.Contains Value.Legible) ∧
    ((∃ e, s.Refuses ⟨now, source, id⟩ e ∧
      (s.evaluate Host.standard fuel now source id).1 = .error e) ∨
    ∃ r session opened, compileEither (s.unitFor id) source = .ok r ∧
      s.sessionFor now id = some (session, opened) ∧
      (∀ first state, session.machine.clearWritten.Starts r [] first →
        Machine.Reaches Host.standard first state → state.Contains Value.Legible) ∧
      (s.RunsOut Host.standard fuel now source id ∨
        ∃ answer vs, (s.evaluate Host.standard fuel now source id).1 = .ok answer ∧
          session.machine.clearWritten.ScriptPrints Host.standard r vs ∧
          answer.output = vs.map Value.display)) := by
  have houses := comes.idle template
  have held : ∀ session ∈ s.sessions, session.machine.Contains Value.Legible := by
    intro session member
    exact (houses.sessions session member).contains.mono fun v => Value.Scripted.legible
  refine ⟨held, ?_⟩
  rcases s.serve_cases ⟨now, source, id⟩ with
    ⟨e, refuses⟩ | ⟨r, session, opened, stated, accepted, chosen⟩
  · exact .inl ⟨e, refuses, (serve_refused refuses).1⟩
  · have idle := (houses.sessionFor chosen).1
    have compiled := Routine.compiled_either accepted
    refine .inr ⟨r, session, opened, accepted, chosen, ?_, ?_⟩
    · exact fun first state starts reaches => idle.legible compiled starts reaches
    · by_cases runsOut : s.RunsOut Host.standard fuel now source id
      · exact .inl runsOut
      · have ends (after : Machine) :
            session.machine.clearWritten.interpret Host.standard fuel r ≠ .exhausted after :=
          fun exhausted => runsOut ⟨r, session, opened, after, accepted, chosen, exhausted⟩
        obtain ⟨answer, vs, ran, prints, output, -⟩ := run_prints idle compiled ends
        obtain ⟨seen, -⟩ := @serve_opened Host.standard fuel _ _ _ _ _ stated accepted chosen
        rw [ran, serve] at seen
        dsimp only at seen
        cases answered : (s.evaluate Host.standard fuel now source id).1 with
        | error e =>
            rw [answered] at seen
            cases seen
        | ok kept =>
            rw [answered] at seen
            have same : kept.output = answer.output := congrArg Observation.output (Except.ok.inj seen)
            exact .inr ⟨kept, vs, rfl, prints, same.trans output⟩

/-- Lines printed inside a call and outside, up to a fault. -/
theorem every_print_answered_fault :
    let s := Service.new (.new 0 ⟨0, 0⟩) none { issued := 0 }
    let source := "fn f(x) { print x; return f; } print f(0.5); print 2 > 1; print 1 + clock; print 3;"
    ∃ (r : Routine) (session : Session) (answer : Answer) (vs : List Value),
      (s.evaluate Host.standard 100 0 source "").1 = .ok answer ∧
      answer.result = .runtimeError ∧ answer.output = ["0.5", "<fn f '1>", "true"] ∧
      session.machine.clearWritten.ScriptPrints Host.standard r vs ∧
      answer.output = vs.map Value.display := by
  intro s source
  have comes : s.Comes Host.standard := .new (Machine.new_rests 0 ⟨0, 0⟩).globals none { issued := 0 }
  have template : s.Template := Machine.new_scripted 0 ⟨0, 0⟩
  have ends : ¬s.RunsOut Host.standard 100 0 source "" := by
    refine Service.not_runsOut ?_
    decide +kernel
  have tells : ((s.evaluate Host.standard 100 0 source "").1.toOption.any fun a =>
      a.result == .runtimeError && a.output == ["0.5", "<fn f '1>", "true"]) = true := by
    decide +kernel
  obtain ⟨-, ⟨e, -, refused⟩ | ⟨r, session, opened, -, -, -, told⟩⟩ :=
    every_print_answered comes template 100 0 source ""
  · rw [refused] at tells
    exact absurd tells Bool.false_ne_true
  · obtain ⟨answer, vs, answered, prints, output⟩ := told.resolve_left ends
    rw [answered] at tells
    obtain ⟨result, lines⟩ := Bool.and_eq_true_iff.mp tells
    exact ⟨r, session, answer, vs, answered, eq_of_beq result, eq_of_beq lines, prints, output⟩

end Reckoner
