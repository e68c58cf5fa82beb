import Mathlib.Data.List.Basic
import Mathlib.Data.List.Fold
import Mathlib.Data.List.MinMax
import Mathlib.Data.List.Pairwise
import Reckoner.Journal.Basic

/-!
The journal as a log. What it lists and finds are the entries that were recorded with success and
that no later clearing took, whatever was recorded and cleared in between.
-/

namespace Reckoner

/-- The entry as it is read back: a list without lines is absent then. -/
def Entry.readBack (e : Entry) : Entry where
  id := e.id
  session := e.session
  source := e.source
  status := e.status
  result := e.result
  transcript :=
    { output := if e.transcript.output = some [] then none else e.transcript.output
      diagnostics := if e.transcript.diagnostics = some [] then none else e.transcript.diagnostics
      instructions := e.transcript.instructions
      duration := e.transcript.duration }
  created := e.created

theorem filter_nonempty (lines : Option (List String)) :
    (lines.filter fun found => !found.isEmpty) = if lines = some [] then none else lines := by
  rcases lines with _ | _ | _ <;> rfl

theorem Entry.stored_eq (e : Entry) : e.stored = e.readBack := by
  rw [stored, Transcript.stored, filter_nonempty, filter_nonempty]
  rfl

/-- Whether the entry is one of the session; all entries are of the session without a name. -/
def Entry.belongs (session : String) (e : Entry) : Bool := session = "" ∨ e.session = session

theorem Journal.selects_eq (session : String) : Journal.selects session = Entry.belongs session := by
  funext e
  rw [Journal.selects, Entry.belongs, Bool.eq_iff_iff]
  simp

/-- The entry as it is kept: it takes the next identifier and the time where it has none. -/
def Entry.completed (now : Int) (ids : Identifiers) (e : Entry) : Entry :=
  { e with
    id := if e.id = "" then ids.next.1 else e.id
    created := if e.created = Entry.untimed then now else e.created }

/-- The identifiers that are left when an entry has taken one if it needs one. -/
def Identifiers.after (ids : Identifiers) (e : Entry) : Identifiers :=
  if e.id = "" then ids.next.2 else ids

inductive JournalCall where
  | record (now : Int) (e : Entry)
  | clear (session : String)

/-- What came of a call. A kept entry is told as it was given out, with its identifier and time. -/
inductive JournalEvent where
  | kept (e : Entry)
  | cleared (session : String) (count : Nat)
  | refused (fault : JournalError)
  deriving Repr, DecidableEq

namespace JournalEvent

def takes (e : Entry) : JournalEvent → Bool
  | .cleared session _ => e.belongs session
  | _ => false

/-- The entries that were kept and that nothing took later, in the order in which they came. -/
def survivors : List JournalEvent → List Entry
  | [] => []
  | .kept e :: later => if later.any (takes e) then survivors later else e :: survivors later
  | _ :: later => survivors later

variable (events : List JournalEvent)

theorem survivors_kept (e : Entry) : survivors (events ++ [.kept e]) = survivors events ++ [e] := by
  induction events with
  | nil => rfl
  | cons event rest ih =>
      cases event with
      | kept old =>
          rw [List.cons_append, survivors, survivors, ih, List.any_append]
          by_cases taken : rest.any (takes old) = true
          · rw [if_pos taken, if_pos (by rw [taken]; rfl)]
          · rw [if_neg taken, if_neg (by rw [Bool.eq_false_iff.mpr taken]; exact Bool.false_ne_true)]
            rfl
      | _ => exact ih

theorem survivors_refused (fault : JournalError) :
    survivors (events ++ [.refused fault]) = survivors events := by
  induction events with
  | nil => rfl
  | cons event rest ih =>
      cases event with
      | kept old =>
          rw [List.cons_append, survivors, survivors, ih, List.any_append]
          simp [takes]
      | _ => exact ih

theorem survivors_cleared (session : String) (count : Nat) :
    survivors (events ++ [.cleared session count]) =
      (survivors events).filter fun e => !e.belongs session := by
  induction events with
  | nil => rfl
  | cons event rest ih =>
      cases event with
      | kept old =>
          rw [List.cons_append, survivors, survivors, ih, List.any_append]
          by_cases taken : rest.any (takes old) = true
          · rw [if_pos taken, if_pos (by rw [taken]; rfl)]
          · have kept := Bool.eq_false_iff.mpr taken
            by_cases selected : old.belongs session = true <;> simp [kept, takes, selected]
      | _ => exact ih

end JournalEvent

open JournalEvent (survivors)

namespace Journal

def act (call : JournalCall) (j : Journal) (ids : Identifiers) : JournalEvent × Journal × Identifiers :=
  match call with
  | .record now e =>
    match j.save now ids e with
    | (.ok e, j, ids) => (.kept e, j, ids)
    | (.error fault, j, ids) => (.refused fault, j, ids)
  | .clear session =>
    match j.clear session with
    | .ok (count, j) => (.cleared session count, j, ids)
    | .error fault => (.refused fault, j, ids)

def actAll : List JournalCall → Journal → Identifiers → List JournalEvent × Journal × Identifiers
  | [], j, ids => ([], j, ids)
  | call :: rest, j, ids =>
    let (event, j, ids) := j.act call ids
    let (events, j, ids) := j.actAll rest ids
    (event :: events, j, ids)

theorem lt_nextNumber (j : Journal) {row : Row} (member : row ∈ j.rows) : row.number < j.nextNumber := by
  rw [nextNumber, List.foldl_eq_foldr]
  exact Nat.lt_succ_of_le (List.le_max_of_le' 0 (List.mem_map_of_mem member) (Nat.le_refl _))

/-- The journal has, in rows with ascending numbers, the entries that survived the events. -/
structure Logs (j : Journal) (events : List JournalEvent) : Prop where
  opened : j.closed = false
  entries : j.rows.reverse.map Row.entry = (survivors events).map Entry.readBack
  numbered : j.rows.Pairwise fun a b => b.number < a.number
  distinct : j.rows.Pairwise fun a b => a.entry.id ≠ b.entry.id

theorem new_logs (path : String) : (Journal.new path).Logs [] := ⟨rfl, rfl, .nil, .nil⟩

section

variable (now : Int) (ids : Identifiers) (e : Entry)

theorem identified_eq :
    (if (e.timed now).id.isEmpty then ids.next else ((e.timed now).id, ids)) =
      ((e.completed now ids).id, ids.after e) := by
  rw [Entry.timed_id, Entry.completed, Identifiers.after]
  by_cases unnamed : e.id = ""
  · rw [if_pos (String.isEmpty_iff.mpr unnamed), if_pos unnamed, if_pos unnamed]
  · rw [if_neg fun empty => unnamed (String.isEmpty_iff.mp empty), if_neg unnamed, if_neg unnamed]

theorem completed_eq : { e.timed now with id := (e.completed now ids).id } = e.completed now ids := by
  by_cases untimed : e.created = Entry.untimed
  · simp only [Entry.completed, Entry.timed, if_pos untimed]
  · simp only [Entry.completed, Entry.timed, if_neg untimed]

variable {now ids e} {j : Journal}

theorem save_of_added {after : Journal} (added : j.add (e.completed now ids) = .ok after) :
    j.save now ids e = (.ok (e.completed now ids), after, ids.after e) := by
  rw [save, record, identified_eq]
  dsimp only
  rw [completed_eq, added]

theorem save_of_refused {fault : JournalError} (refused : j.add (e.completed now ids) = .error fault) :
    j.save now ids e = (.error fault, j, ids.after e) := by
  rw [save, record, identified_eq]
  dsimp only
  rw [completed_eq, refused]

end

namespace Logs

variable {j : Journal} {events : List JournalEvent} (logs : j.Logs events)

include logs

theorem mem_iff (e : Entry) :
    e ∈ (survivors events).map Entry.readBack ↔ ∃ row ∈ j.rows, row.entry = e := by
  rw [← logs.entries, List.mem_map]
  simp only [List.mem_reverse]

theorem any_id (id : String) :
    (j.rows.any fun row => row.entry.id == id) = true ↔
      ∃ e ∈ (survivors events).map Entry.readBack, e.id = id := by
  rw [List.any_eq_true]
  constructor
  · rintro ⟨row, member, same⟩
    exact ⟨row.entry, (logs.mem_iff _).mpr ⟨row, member, rfl⟩, eq_of_beq same⟩
  · rintro ⟨e, member, same⟩
    obtain ⟨row, known, rfl⟩ := (logs.mem_iff e).mp member
    exact ⟨row, known, beq_iff_eq.mpr same⟩

theorem add_eq (e : Entry) :
    ((∃ old ∈ (survivors events).map Entry.readBack, old.id = e.id) ∧
      j.add e = .error (.duplicate e.id)) ∨
    (¬∃ old ∈ (survivors events).map Entry.readBack, old.id = e.id) ∧
      j.add e = .ok { j with rows := { number := j.nextNumber, entry := e.readBack } :: j.rows } := by
  rw [add, logs.opened, if_neg Bool.false_ne_true, e.stored_eq]
  by_cases taken : (j.rows.any fun row => row.entry.id == e.id) = true
  · exact .inl ⟨(logs.any_id e.id).mp taken, if_pos taken⟩
  · exact .inr ⟨fun old => taken ((logs.any_id e.id).mpr old), if_neg taken⟩

theorem save_eq (now : Int) (ids : Identifiers) (e : Entry) :
    let given := e.completed now ids
    ((∃ old ∈ (survivors events).map Entry.readBack, old.id = given.id) ∧
      j.save now ids e = (.error (.duplicate given.id), j, ids.after e)) ∨
    (¬∃ old ∈ (survivors events).map Entry.readBack, old.id = given.id) ∧
      j.save now ids e = (.ok given,
        { j with rows := { number := j.nextNumber, entry := given.readBack } :: j.rows },
        ids.after e) := by
  intro given
  rcases logs.add_eq given with ⟨taken, refused⟩ | ⟨fresh, added⟩
  · exact .inl ⟨taken, save_of_refused refused⟩
  · exact .inr ⟨fresh, save_of_added added⟩

theorem kept {e : Entry} (fresh : ¬∃ old ∈ (survivors events).map Entry.readBack, old.id = e.id) :
    Logs { j with rows := { number := j.nextNumber, entry := e.readBack } :: j.rows }
      (events ++ [.kept e]) where
  opened := logs.opened
  entries := by
    rw [JournalEvent.survivors_kept, List.map_append, ← logs.entries, List.reverse_cons,
      List.map_append]
    rfl
  numbered := List.pairwise_cons.mpr ⟨fun _ member => j.lt_nextNumber member, logs.numbered⟩
  distinct := by
    refine List.pairwise_cons.mpr ⟨fun row member same => fresh ?_, logs.distinct⟩
    exact ⟨row.entry, (logs.mem_iff _).mpr ⟨row, member, rfl⟩, same.symm⟩

theorem refused (fault : JournalError) : j.Logs (events ++ [.refused fault]) :=
  ⟨logs.opened, by rw [JournalEvent.survivors_refused]; exact logs.entries, logs.numbered,
    logs.distinct⟩

theorem entries_filter (p : Entry → Bool) (same : ∀ e, p e.readBack = p e) :
    (j.rows.filter fun row => p row.entry).reverse.map Row.entry =
      ((survivors events).filter p).map Entry.readBack := by
  have left : (j.rows.filter fun row => p row.entry).reverse.map Row.entry =
      (j.rows.reverse.map Row.entry).filter p := by
    rw [← List.filter_reverse, List.filter_map]
    rfl
  have right : ((survivors events).filter p).map Entry.readBack =
      ((survivors events).map Entry.readBack).filter p := by
    rw [List.filter_map]
    exact congrArg (fun q => ((survivors events).filter q).map Entry.readBack)
      (funext fun e => (same e).symm)
  rw [left, right, logs.entries]

theorem clear_eq (session : String) :
    j.clear session = .ok (((survivors events).filter (Entry.belongs session)).length,
      { j with rows := j.rows.filter fun row => !row.entry.belongs session }) := by
  have whole := congrArg List.length logs.entries
  have rest := congrArg List.length (logs.entries_filter (fun e => !e.belongs session) fun _ => rfl)
  have split := List.length_eq_length_filter_add (l := survivors events) (Entry.belongs session)
  simp only [List.length_map, List.length_reverse] at whole rest
  rw [clear, logs.opened, if_neg Bool.false_ne_true, selects_eq]
  refine congrArg (fun n => Except.ok (n, _)) ?_
  omega

theorem cleared (session : String) (count : Nat) :
    Logs { j with rows := j.rows.filter fun row => !row.entry.belongs session }
      (events ++ [.cleared session count]) where
  opened := logs.opened
  entries := by
    rw [JournalEvent.survivors_cleared]
    exact logs.entries_filter (fun e => !e.belongs session) fun _ => rfl
  numbered := logs.numbered.filter _
  distinct := logs.distinct.filter _

theorem act (call : JournalCall) (ids : Identifiers) :
    (j.act call ids).2.1.Logs (events ++ [(j.act call ids).1]) := by
  cases call with
  | record now e =>
      rw [Journal.act]
      rcases logs.save_eq now ids e with ⟨-, saved⟩ | ⟨fresh, saved⟩
      · rw [saved]
        exact logs.refused _
      · rw [saved]
        exact logs.kept fresh
  | clear session =>
      rw [Journal.act, logs.clear_eq session]
      exact logs.cleared session _

omit logs in
theorem actAll (calls : List JournalCall) {j : Journal} {events : List JournalEvent}
    (logs : j.Logs events) (ids : Identifiers) :
    (j.actAll calls ids).2.1.Logs (events ++ (j.actAll calls ids).1) := by
  induction calls generalizing j events ids with
  | nil =>
      rw [Journal.actAll, List.append_nil]
      exact logs
  | cons call rest ih =>
      have later := ih (logs.act call ids) (j.act call ids).2.2
      rw [List.append_assoc] at later
      exact later

end Logs

theorem before_trans (a b c : Row) (first : a.before b = true) (second : b.before c = true) :
    a.before c = true := by
  simp only [Row.before, Bool.or_eq_true, Bool.and_eq_true, decide_eq_true_eq, beq_iff_eq] at *
  omega

theorem before_total (a b : Row) : (a.before b || b.before a) = true := by
  simp only [Row.before, Bool.or_eq_true, Bool.and_eq_true, decide_eq_true_eq, beq_iff_eq]
  omega

theorem sublist_of_number {rows : List Row} (numbered : rows.Pairwise fun a b => b.number < a.number)
    {a b : Row} (first : a ∈ rows) (second : b ∈ rows) (less : b.number < a.number) :
    [a, b].Sublist rows := by
  induction rows with
  | nil => exact absurd first List.not_mem_nil
  | cons row rest ih =>
      obtain ⟨lower, descending⟩ := List.pairwise_cons.mp numbered
      rcases List.mem_cons.mp second with rfl | later
      · rcases List.mem_cons.mp first with rfl | behind
        · exact absurd less (Nat.lt_irrefl _)
        · exact absurd less (Nat.lt_asymm (lower a behind))
      · rcases List.mem_cons.mp first with rfl | behind
        · exact (List.singleton_sublist.mpr later).cons_cons a
        · exact (ih descending behind later).cons row

namespace Logs

variable {j : Journal} {events : List JournalEvent} (logs : j.Logs events)

include logs

theorem listing_spec (session : String) :
    let log := (survivors events).map Entry.readBack
    (j.listing session).Perm (log.filter (Entry.belongs session)) ∧
      (j.listing session).Pairwise fun a b =>
        b.created < a.created ∨ b.created = a.created ∧ [b, a].Sublist log := by
  intro log
  have entries : j.rows.reverse.map Row.entry = log := logs.entries
  have reordered := List.mergeSort_perm (j.rows.filter fun row => row.entry.belongs session) Row.before
  rw [listing, selects_eq]
  constructor
  · refine (reordered.map Row.entry).trans ?_
    rw [← entries, List.filter_map, List.filter_reverse]
    exact (List.reverse_perm _).symm.map Row.entry
  · refine List.pairwise_map.mpr ?_
    have sorted := List.pairwise_mergeSort before_trans before_total
      (j.rows.filter fun row => row.entry.belongs session)
    have numbers : (j.rows.filter fun row => row.entry.belongs session).Pairwise
        fun a b => a.number ≠ b.number :=
      (logs.numbered.filter _).imp fun less => (Nat.ne_of_lt less).symm
    have apart := (reordered.pairwise_iff fun different => different.symm).mpr numbers
    refine (sorted.and apart).imp_of_mem fun {a b} first second found => ?_
    have known : ∀ row, row ∈ (j.rows.filter fun row => row.entry.belongs session).mergeSort Row.before →
        row ∈ j.rows := fun row member => List.mem_of_mem_filter (reordered.mem_iff.mp member)
    obtain ⟨ordered, different⟩ := found
    simp only [Row.before, Bool.or_eq_true, Bool.and_eq_true, decide_eq_true_eq, beq_iff_eq] at ordered
    rcases ordered with newer | ⟨same, bound⟩
    · exact .inl newer
    · refine .inr ⟨same, ?_⟩
      have inRows := sublist_of_number logs.numbered (known a first) (known b second)
        (Nat.lt_of_le_of_ne bound different.symm)
      rw [← entries]
      exact inRows.reverse.map Row.entry

theorem get_eq (id : String) :
    let log := (survivors events).map Entry.readBack
    (∀ e, j.get id = .ok e ↔ e ∈ log ∧ e.id = id) ∧
      (j.get id = .error .notFound ↔ ∀ e ∈ log, e.id ≠ id) := by
  intro log
  rw [get, logs.opened, if_neg Bool.false_ne_true]
  cases found : j.rows.find? fun row => row.entry.id == id with
  | none =>
      have missing : ∀ e ∈ log, e.id ≠ id := by
        intro e member same
        obtain ⟨row, known, rfl⟩ := (logs.mem_iff e).mp member
        exact List.find?_eq_none.mp found row known (beq_iff_eq.mpr same)
      exact ⟨fun e => iff_of_false nofun fun known => missing e known.1 known.2,
        iff_of_true rfl missing⟩
  | some row =>
      have known := List.mem_of_find?_eq_some found
      have same : row.entry.id = id := eq_of_beq (List.find?_some (p := fun row : Row => row.entry.id == id) found)
      have member : row.entry ∈ log := (logs.mem_iff _).mpr ⟨row, known, rfl⟩
      refine ⟨fun e => ⟨fun equal => ?_, fun other => ?_⟩, iff_of_false nofun fun missing =>
        missing _ member same⟩
      · rw [← Except.ok.inj equal]
        exact ⟨member, same⟩
      · obtain ⟨old, present, rfl⟩ := (logs.mem_iff e).mp other.1
        have symmetric : Std.Symm fun a b : Row => a.entry.id ≠ b.entry.id := ⟨fun _ _ apart => apart.symm⟩
        by_cases here : row = old
        · rw [here]
        · exact absurd (same.trans other.2.symm) (logs.distinct.forall known present here)

end Logs

end Journal

/-- The journal is a faithful log of whatever is recorded and cleared. Its listings have the surviving
entries of a session, the newest first and of entries of one time the one that came last; an
identifier finds the surviving entry that has it, and nothing if there is none; an entry is refused,
and the journal left alone, if and only if its identifier is taken; and clearing takes the entries of
the session and counts them. -/
theorem journal_logs (path : String) (start : Identifiers) (calls : List JournalCall) :
    let (events, j, ids) := (Journal.new path).actAll calls start
    let log := (survivors events).map Entry.readBack
    (∀ session limit, ∃ listing : List Entry, listing.Perm (log.filter (Entry.belongs session)) ∧
      (listing.Pairwise fun a b =>
        b.created < a.created ∨ b.created = a.created ∧ [b, a].Sublist log) ∧
      j.recent session limit = .ok (listing.take (if limit ≤ 0 then 20 else limit.toNat))) ∧
    (∀ id, (∀ e, j.get id = .ok e ↔ e ∈ log ∧ e.id = id) ∧
      (j.get id = .error .notFound ↔ ∀ e ∈ log, e.id ≠ id)) ∧
    (∀ now e, let given := e.completed now ids
      if ∃ old ∈ log, old.id = given.id
      then j.save now ids e = (.error (.duplicate given.id), j, ids.after e)
      else (j.save now ids e).1 = .ok given) ∧
    ∀ session, (j.clear session).map Prod.fst = .ok (log.filter (Entry.belongs session)).length := by
  have logs := Journal.Logs.actAll calls (Journal.new_logs path) start
  generalize (Journal.new path).actAll calls start = result at logs ⊢
  obtain ⟨events, j, ids⟩ := result
  dsimp only [List.nil_append] at logs ⊢
  refine ⟨fun session limit => ?_, logs.get_eq, fun now e => ?_, fun session => ?_⟩
  · obtain ⟨perm, sorted⟩ := logs.listing_spec session
    exact ⟨j.listing session, perm, sorted, by rw [Journal.recent, logs.opened]; rfl⟩
  · rcases logs.save_eq now ids e with ⟨taken, saved⟩ | ⟨fresh, saved⟩
    · rw [if_pos taken]
      exact saved
    · rw [if_neg fresh, saved]
  · rw [logs.clear_eq session, List.filter_map, List.length_map]
    rfl

end Reckoner
