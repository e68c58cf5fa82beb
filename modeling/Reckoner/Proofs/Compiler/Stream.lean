import Reckoner.Proofs.Compiler.Reports
import Reckoner.Proofs.Script.Reader

/-!
The tokens in front of the compiler. As long as nothing has been reported the compiler passes one
token after the other, and the only end token is the last.
-/

namespace Reckoner.Compiler

open Script

def Closed : List Token → Prop
  | [] => False
  | [t] => t.kind = .eof
  | t :: rest => t.kind ≠ .eof ∧ Closed rest

theorem Closed.tail {t : Token} {rest : List Token} (closed : Closed (t :: rest))
    (more : t.kind ≠ .eof) : Closed rest := by
  cases rest with
  | nil => exact absurd closed more
  | cons u rest => exact closed.2

theorem Closed.eq_nil {t : Token} {rest : List Token} (closed : Closed (t :: rest))
    (ended : t.kind = .eof) : rest = [] := by
  cases rest with
  | nil => rfl
  | cons u rest => exact absurd ended closed.1

theorem Closed.cons {t : Token} {rest : List Token} (more : t.kind ≠ .eof) (closed : Closed rest) :
    Closed (t :: rest) := by
  cases rest with
  | nil => exact closed.elim
  | cons u rest => exact ⟨more, closed⟩

def stream (s : Compiler) : List Token := s.current :: s.tokens

@[simp] theorem kindAt_stream (s : Compiler) : Reader.kindAt s.stream = s.current.kind := rfl

@[simp] theorem drop_stream (s : Compiler) : s.stream.drop 1 = s.tokens := rfl

/-- Nothing has been reported, and what is ahead can be read. -/
structure Ready (s : Compiler) : Prop where
  clean : s.diagnostics = #[]
  audible : s.silent = false
  closed : Closed s.stream
  ordered : (s.previous.line :: s.stream.map Token.line).Pairwise (· ≤ ·)
  positive : ∀ t ∈ s.stream, 1 ≤ t.line

def past (s : Compiler) (t : Token) (rest : List Token) : Compiler :=
  { s with previous := s.current, current := t, tokens := rest }

theorem report_diagnostics_ne {s : Compiler} (audible : s.silent = false) (t : Token)
    (c : Complaint) : (s.report t c).diagnostics ≠ #[] := by
  simp [report, audible]

theorem fault_diagnostics_ne {s : Compiler} (audible : s.silent = false) (c : Complaint) :
    (s.fault c).diagnostics ≠ #[] :=
  report_diagnostics_ne audible _ c

theorem faultAhead_diagnostics_ne {s : Compiler} (audible : s.silent = false) (c : Complaint) :
    (s.faultAhead c).diagnostics ≠ #[] :=
  report_diagnostics_ne audible _ c

theorem fetch_cons {s : Compiler} {t : Token} {rest : List Token} (audible : s.silent = false)
    (done : (fetch (t :: rest) s).diagnostics = #[]) :
    fetch (t :: rest) s = { s with tokens := rest, current := t } := by
  rw [fetch] at done ⊢
  split at done
  · exact absurd ((reports_fetch _ rest).clean done) (report_diagnostics_ne audible t _)
  · rename_i proper
    rw [if_neg proper]

namespace Ready

variable {s : Compiler} (ready : Ready s)

include ready

theorem tokens_ne_nil (more : s.current.kind ≠ .eof) : ∃ t rest, s.tokens = t :: rest := by
  have closed := ready.closed
  rw [stream] at closed
  cases tokensEq : s.tokens with
  | nil =>
      rw [tokensEq] at closed
      exact absurd closed more
  | cons t rest => exact ⟨t, rest, rfl⟩

theorem advance_eq (more : s.current.kind ≠ .eof) (done : s.advance.diagnostics = #[]) :
    ∃ t rest, s.tokens = t :: rest ∧ s.advance = s.past t rest := by
  obtain ⟨t, rest, tokensEq⟩ := ready.tokens_ne_nil more
  refine ⟨t, rest, tokensEq, ?_⟩
  rw [advance, tokensEq] at done ⊢
  exact fetch_cons ready.audible done

theorem past {t : Token} {rest : List Token} (tokensEq : s.tokens = t :: rest)
    (more : s.current.kind ≠ .eof) : Ready (s.past t rest) where
  clean := ready.clean
  audible := ready.audible
  closed := by
    have closed := ready.closed
    rw [stream, tokensEq] at closed
    exact closed.tail more
  ordered := by
    have ordered := ready.ordered
    rw [stream, tokensEq] at ordered
    exact (List.pairwise_cons.mp ordered).2
  positive := by
    intro u member
    have positive := ready.positive u
    rw [stream, tokensEq] at positive
    exact positive (List.mem_cons_of_mem _ member)

theorem advance_end (ended : s.current.kind = .eof) :
    s.advance = { s with previous := s.current } := by
  have empty : s.tokens = [] := ready.closed.eq_nil ended
  rw [advance, empty, fetch]

theorem previous_le : s.previous.line ≤ s.current.line := by
  have ordered := ready.ordered
  rw [stream, List.map_cons] at ordered
  exact (List.pairwise_cons.mp ordered).1 _ List.mem_cons_self

theorem current_pos : 1 ≤ s.current.line := ready.positive _ List.mem_cons_self

theorem consume_eq {kind : Kind} {c : Complaint} (done : (s.consume kind c).diagnostics = #[]) :
    s.current.kind = kind ∧ s.consume kind c = s.advance := by
  unfold consume at done ⊢
  split at done
  · rename_i matched
    rw [if_pos matched]
    exact ⟨by simpa [check] using matched, rfl⟩
  · exact absurd done (faultAhead_diagnostics_ne ready.audible c)

end Ready

end Reckoner.Compiler
