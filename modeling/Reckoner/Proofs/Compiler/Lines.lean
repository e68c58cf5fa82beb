import Reckoner.Proofs.Compiler.Course
import Reckoner.Proofs.Token.Tiling

/-!
Diagnostics in the order of the source. No token is on an earlier line than the one before it, so a
report at a token that comes later is a report on a later line or the same. From one synchronization to
the next there is one report at most.
-/

namespace Reckoner

namespace Compiler

def reportedLines (s : Compiler) : List Nat := s.diagnostics.toList.map Diagnostic.line

/-- Reports are in order and lie no further than the token ahead. A settled compiler with no error to
recover from has reported nothing beyond the token just read. -/
structure Ordered (last : Nat) (p : Phase) (s : Compiler) : Prop where
  closed : Closed s.stream
  stream : (s.stream.map Token.line).Pairwise (· ≤ ·)
  inside : ∀ t ∈ s.stream, 1 ≤ t.line ∧ t.line ≤ last
  behind : s.previous.line ≤ s.current.line
  sorted : s.reportedLines.Pairwise (· ≤ ·)
  reported : ∀ line ∈ s.reportedLines, 1 ≤ line ∧ line ≤ s.current.line
  settled : p = .settled → s.silent = false →
    1 ≤ s.previous.line ∧ ∀ line ∈ s.reportedLines, line ≤ s.previous.line

section

variable {s : Compiler} {t : Token} {c : Complaint}

theorem report_silent : (s.report t c).silent = true := by
  rw [report]
  split
  · assumption
  · rfl

theorem reportedLines_report :
    (s.report t c).reportedLines = if s.silent then s.reportedLines else s.reportedLines ++ [t.line] := by
  rw [report]
  split
  · rfl
  · simp [reportedLines]

theorem pairwise_report (sorted : s.reportedLines.Pairwise (· ≤ ·))
    (after : s.silent = false → ∀ line ∈ s.reportedLines, line ≤ t.line) :
    (s.report t c).reportedLines.Pairwise (· ≤ ·) := by
  rw [reportedLines_report]
  split
  · exact sorted
  · rename_i audible
    refine List.pairwise_append.mpr ⟨sorted, List.pairwise_singleton .., fun line before other new => ?_⟩
    rw [List.mem_singleton.mp new]
    exact after (Bool.eq_false_iff.mpr audible) line before

theorem mem_report {line : Nat} (member : line ∈ (s.report t c).reportedLines) :
    line ∈ s.reportedLines ∨ s.silent = false ∧ line = t.line := by
  rw [reportedLines_report] at member
  split at member
  · exact .inl member
  · rename_i audible
    exact (List.mem_append.mp member).imp id fun new =>
      ⟨Bool.eq_false_iff.mpr audible, List.mem_singleton.mp new⟩

theorem fetch_audible {ts : List Token} (audible : (fetch ts s).silent = false) :
    s.silent = false ∧ (fetch ts s).diagnostics = s.diagnostics := by
  induction ts generalizing s with
  | nil => exact ⟨audible, rfl⟩
  | cons t rest ih =>
      rw [fetch] at audible ⊢
      split at audible
      · have never := (ih audible).1
        rw [report_silent] at never
        cases never
      · rename_i proper
        rw [if_neg proper]
        exact ⟨audible, rfl⟩

end

namespace Ordered

variable {last : Nat} {p : Phase} {s : Compiler}

theorem loosen (ordered : Ordered last p s) : Ordered last .ahead s := { ordered with settled same := by cases same }

theorem report (ordered : Ordered last p s) {t : Token} {c : Complaint} (ahead : t.line ≤ s.current.line)
    (after : s.silent = false → 1 ≤ t.line ∧ ∀ line ∈ s.reportedLines, line ≤ t.line) :
    Ordered last .settled (s.report t c) := by
  have same : (s.report t c).stream = s.stream ∧ (s.report t c).previous = s.previous := by
    rw [Compiler.report]
    split <;> exact ⟨rfl, rfl⟩
  have current : (s.report t c).current = s.current := (List.cons.inj same.1).1
  constructor
  case closed => rw [same.1]; exact ordered.closed
  case stream => rw [same.1]; exact ordered.stream
  case inside => rw [same.1]; exact ordered.inside
  case behind => rw [same.2, current]; exact ordered.behind
  case sorted => exact pairwise_report ordered.sorted fun audible => (after audible).2
  case reported =>
    intro line member
    rw [current]
    rcases mem_report member with old | ⟨audible, rfl⟩
    · exact ordered.reported line old
    · exact ⟨(after audible).1, ahead⟩
  case settled =>
    intro _ audible
    rw [report_silent] at audible
    cases audible

theorem fault (ordered : Ordered last .settled s) (c : Complaint) : Ordered last .settled (s.fault c) :=
  ordered.report ordered.behind (ordered.settled rfl)

theorem faultAhead (ordered : Ordered last p s) (c : Complaint) :
    Ordered last .settled (s.faultAhead c) :=
  ordered.report (Nat.le_refl _) fun _ =>
    ⟨(ordered.inside _ List.mem_cons_self).1, fun line member => (ordered.reported line member).2⟩

theorem fetch {ts : List Token} (closed : Closed ts) (stream : (ts.map Token.line).Pairwise (· ≤ ·))
    (inside : ∀ t ∈ ts, 1 ≤ t.line ∧ t.line ≤ last) (behind : ∀ t ∈ ts, s.previous.line ≤ t.line)
    (sorted : s.reportedLines.Pairwise (· ≤ ·))
    (reported : ∀ line ∈ s.reportedLines, 1 ≤ line ∧ ∀ t ∈ ts, line ≤ t.line) :
    Ordered last .ahead (Compiler.fetch ts s) := by
  induction ts generalizing s with
  | nil => exact closed.elim
  | cons t rest ih =>
      obtain ⟨later, others⟩ := List.pairwise_cons.mp stream
      rw [Compiler.fetch]
      split
      · rename_i wrong
        have more : t.kind ≠ .eof := by rw [wrong]; decide
        have previous : (s.report t .unexpectedCharacter).previous = s.previous := by
          rw [Compiler.report]
          split <;> rfl
        refine ih (closed.tail more) others (fun u member => inside u (List.mem_cons_of_mem t member)) ?_ ?_ ?_
        · intro u member
          rw [previous]
          exact behind u (List.mem_cons_of_mem t member)
        · exact pairwise_report sorted fun _ line member => (reported line member).2 t List.mem_cons_self
        · intro line member
          rcases mem_report member with old | ⟨-, rfl⟩
          · exact ⟨(reported line old).1, fun u after => (reported line old).2 u (List.mem_cons_of_mem t after)⟩
          · exact ⟨(inside t List.mem_cons_self).1, fun u after => later u.line (List.mem_map_of_mem after)⟩
      · exact {
          closed := closed
          stream := stream
          inside := inside
          behind := behind t List.mem_cons_self
          sorted := sorted
          reported := fun line member => ⟨(reported line member).1, (reported line member).2 t List.mem_cons_self⟩
          settled same := by cases same }

theorem advance (ordered : Ordered last p s) : Ordered last .settled s.advance := by
  obtain ⟨before, others⟩ := List.pairwise_cons.mp ordered.stream
  have current := ordered.inside _ List.mem_cons_self
  by_cases ended : s.current.kind = .eof
  · have none : s.tokens = [] := ordered.closed.eq_nil ended
    rw [Compiler.advance, none, Compiler.fetch]
    exact {
      closed := ended
      stream := List.pairwise_singleton ..
      inside := fun t member => ordered.inside t (List.mem_singleton.mp member ▸ List.mem_cons_self)
      behind := Nat.le_refl _
      sorted := ordered.sorted
      reported := ordered.reported
      settled := fun _ _ => ⟨current.1, fun line member => (ordered.reported line member).2⟩ }
  · have reached : Ordered last .ahead s.advance := by
      refine Ordered.fetch (ordered.closed.tail ended) others ?_ ?_ ordered.sorted ?_
      · exact fun t member => ordered.inside t (List.mem_cons_of_mem _ member)
      · exact fun t member => before t.line (List.mem_map_of_mem member)
      · intro line member
        obtain ⟨positive, bound⟩ := ordered.reported line member
        exact ⟨positive, fun t after => Nat.le_trans bound (before t.line (List.mem_map_of_mem after))⟩
    refine { reached with settled := fun _ audible => ?_ }
    have silentSince : s.advance.reportedLines = s.reportedLines :=
      congrArg (fun ds => ds.toList.map Diagnostic.line) (fetch_audible audible).2
    rw [silentSince, advance_previous]
    exact ⟨current.1, fun line member => (ordered.reported line member).2⟩

theorem skipToStatement (ordered : Ordered last .ahead s) (fuel : Nat) :
    Ordered last .ahead (Compiler.skipToStatement fuel s) := by
  induction fuel generalizing s with
  | zero => exact ordered
  | succ fuel ih =>
      rw [Compiler.skipToStatement]
      split
      · exact ordered
      · exact ih ordered.advance.loosen

theorem recover (ordered : Ordered last p s) : Ordered last .ahead s.recover := by
  rw [Compiler.recover]
  split
  · have woken : Ordered last .ahead { s with silent := false } := { ordered.loosen with settled same := by cases same }
    exact woken.skipToStatement _
  · exact ordered.loosen

theorem start (unit : Nat) {tokens : List Token} (closed : Closed tokens)
    (stream : (tokens.map Token.line).Pairwise (· ≤ ·))
    (inside : ∀ t ∈ tokens, 1 ≤ t.line ∧ t.line ≤ last) :
    Ordered last .ahead (Compiler.start unit tokens).advance :=
  Ordered.fetch closed stream inside (fun _ _ => Nat.zero_le _) .nil nofun

end Ordered

/-! The number of reports -/

section

variable (s : Compiler)

theorem credit_report (t : Token) (c : Complaint) : (s.report t c).credit = s.credit := by
  rw [report]
  split
  · rfl
  · rename_i audible
    simp [credit, audible]

theorem credit_fetch (ts : List Token) : (fetch ts s).credit = s.credit := by
  induction ts generalizing s with
  | nil => rfl
  | cons t rest ih =>
      rw [fetch]
      split
      · rw [ih, credit_report]
      · rfl

theorem credit_advance : s.advance.credit = s.credit := credit_fetch _ _

theorem credit_skipToStatement (fuel : Nat) : (skipToStatement fuel s).credit = s.credit := by
  induction fuel generalizing s with
  | zero => rfl
  | succ fuel ih =>
      rw [skipToStatement]
      split
      · rfl
      · rw [ih, credit_advance]

theorem credit_recover {s : Compiler} (silent : s.silent = true) : s.recover.credit = s.credit + 1 := by
  rw [recover, if_pos silent, credit_skipToStatement]
  simp [credit, silent]

end

/-- When the compiler synchronizes for the first time it has reported once, and each time once more. What
it has reported by then comes first among all reports, and one more may follow the last synchronization. -/
structure Paced (calls : List Compiler) (ds : List Diagnostic) : Prop where
  silent : ∀ u ∈ calls, u.silent = true
  each : ∀ i u, calls[i]? = some u → u.diagnostics.size = i + 1 ∧ u.diagnostics.toList <+: ds
  least : calls.length ≤ ds.length
  most : ds.length ≤ calls.length + 1

namespace Course

variable {p q : Phase} {s t : Compiler} {calls : List Compiler} (course : Course p s calls q t)

include course

theorem ordered {last : Nat} (ordered : Ordered last p s) : Ordered last q t := by
  induction course with
  | stay => exact ordered
  | advance _ ih => exact (ih ordered).advance
  | fault _ c ih => exact (ih ordered).fault c
  | faultAhead _ c ih => exact (ih ordered).faultAhead c
  | redraft _ _ _ _ ih => exact { ih ordered with }
  | loosen _ ih => exact (ih ordered).loosen
  | recover _ _ ih => exact (ih ordered).recover

theorem reports : ∀ u ∈ calls, Reports u t := by
  induction course with
  | stay => exact fun u member => absurd member List.not_mem_nil
  | advance _ ih => exact fun u member => (ih u member).trans (reports_advance _)
  | fault _ c ih => exact fun u member => (ih u member).trans (reports_fault _ c)
  | faultAhead _ c ih => exact fun u member => (ih u member).trans (reports_faultAhead _ c)
  | redraft _ _ _ _ ih => exact ih
  | loosen _ ih => exact ih
  | recover _ _ ih =>
      intro u member
      rcases List.mem_append.mp member with old | new
      · exact (ih u old).trans (reports_recover _)
      · rw [List.mem_singleton.mp new]
        exact reports_recover _

theorem credit : t.credit = s.credit + calls.length := by
  induction course with
  | stay => rfl
  | advance _ ih => rw [credit_advance, ih]
  | fault _ _ ih => rw [Compiler.fault, credit_report, ih]
  | faultAhead _ _ ih => rw [Compiler.faultAhead, credit_report, ih]
  | redraft _ _ _ _ ih => exact ih
  | loosen _ ih => exact ih
  | recover _ silent ih => rw [credit_recover silent, ih, List.length_append, List.length_singleton, Nat.add_assoc]

theorem synchronizes : ∀ i u, calls[i]? = some u → u.silent = true ∧ u.credit = s.credit + i := by
  induction course with
  | stay => exact fun i u found => absurd found (by simp)
  | advance _ ih => exact ih
  | fault _ _ ih => exact ih
  | faultAhead _ _ ih => exact ih
  | redraft _ _ _ _ ih => exact ih
  | loosen _ ih => exact ih
  | @recover _ _ t calls course silent ih =>
      intro i u found
      rcases Nat.lt_trichotomy i calls.length with before | rfl | behind
      · exact ih i u (by rwa [List.getElem?_append_left before] at found)
      · rw [List.getElem?_concat_length] at found
        rw [← Option.some.inj found]
        exact ⟨silent, course.credit⟩
      · rw [List.getElem?_eq_none (by rw [List.length_append, List.length_singleton]; omega)] at found
        cases found

theorem paced (single : s.credit = 1) : Paced calls t.diagnostics.toList := by
  have size : ∀ u : Compiler, u.diagnostics.size + (if u.silent then 0 else 1) = u.credit := fun _ => rfl
  have total := course.credit
  have spent := size t
  rw [← Array.length_toList] at spent
  have known := course.synchronizes
  refine ⟨fun u member => ?_, fun i u found => ⟨?_, course.reports u (List.mem_of_getElem? found)⟩, ?_, ?_⟩
  · obtain ⟨i, found⟩ := List.mem_iff_getElem?.mp member
    exact (known i u found).1
  · obtain ⟨silent, credit⟩ := known i u found
    have reported := size u
    rw [silent, if_pos rfl] at reported
    omega
  · split at spent <;> omega
  · split at spent <;> omega

end Course

end Compiler

theorem Tiles.covers {source : List UInt8} {offset : Nat} {ts : List Token} (tiles : Tiles source offset ts) :
    ∀ t ∈ ts, t.Covers source := by
  induction tiles with
  | last _ _ _ covers => exact fun t member => List.mem_singleton.mp member ▸ covers
  | next _ _ covers _ _ _ ih =>
      intro t member
      rcases List.mem_cons.mp member with rfl | later
      · exact covers
      · exact ih t later

theorem scan_lines (source : List UInt8) :
    ∀ t ∈ scan source, 1 ≤ t.line ∧ t.line ≤ 1 + source.count Byte.newline := by
  obtain ⟨ts, last, collected, tiles, -⟩ :=
    (Cursor.Stands.start source).collect #[] (Nat.lt_succ_self source.length)
  have same : scan source = ts := collected
  intro t member
  rw [(tiles.covers t (same ▸ member)).line]
  have counted := (List.take_sublist t.start source).count_le Byte.newline
  omega

namespace Compiler

def atEnd (unit : Nat) (tokens : List Token) : Compiler :=
  (declarations (fuelFor tokens) (start unit tokens).advance).emitFalseReturn

theorem ordered_atEnd (unit : Nat) (source : List UInt8) :
    Ordered (1 + source.count Byte.newline) .settled (atEnd unit (scan source)) := by
  obtain ⟨closed, lines⟩ := scan_spec source
  obtain ⟨calls, course⟩ := Goes.script unit closed
  exact course.ordered (.start unit closed (List.pairwise_cons.mp lines).2 (scan_lines source))

theorem finish_error {s : Compiler} {ds : List Diagnostic} (rejected : s.finish = .error ds) :
    s.diagnostics.toList = ds := by
  rw [finish] at rejected
  split at rejected
  · cases rejected
  · exact Except.error.inj rejected

section

variable {unit : Nat} {source : List UInt8} {ds : List Diagnostic}
  (rejected : compileBytes unit source = .error ds)

include rejected

theorem rejected_atEnd : (atEnd unit (scan source)).diagnostics.toList = ds := finish_error rejected

theorem rejected_lines : (ds.map Diagnostic.line).Pairwise (· ≤ ·) ∧
    ∀ d ∈ ds, 1 ≤ d.line ∧ d.line ≤ 1 + source.count Byte.newline := by
  have ordered := ordered_atEnd unit source
  have reported : (atEnd unit (scan source)).reportedLines = ds.map Diagnostic.line := by
    rw [reportedLines, rejected_atEnd rejected]
  have sorted := ordered.sorted
  have bounds := ordered.reported
  rw [reported] at sorted bounds
  refine ⟨sorted, fun d member => ?_⟩
  obtain ⟨positive, ahead⟩ := bounds d.line (List.mem_map_of_mem member)
  exact ⟨positive, Nat.le_trans ahead (ordered.inside _ List.mem_cons_self).2⟩

end

end Compiler

end Reckoner
