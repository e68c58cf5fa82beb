import Mathlib.Data.List.Basic
import Reckoner.Service.Basic
import Reckoner.Text.Digits

/-!
Sessions do not interfere. What a session answers depends on its own requests alone: every session
follows a private account of its machine, whatever is asked of the service in between.
-/

namespace Reckoner

namespace Text

theorem digitIn_digitChar : ∀ n < 16, digitIn? 16 n.digitChar = some n := by
  decide

theorem valueIn_append (digits : List Char) (c : Char) (n : Nat)
    (before : valueIn? 16 digits = some n) :
    valueIn? 16 (digits ++ [c]) = (digitIn? 16 c).map (16 * n + ·) := by
  rw [valueIn?, List.foldlM_append]
  rw [valueIn?] at before
  rw [before]
  simp [List.foldlM]

theorem valueIn_toDigits (n : Nat) : valueIn? 16 (Nat.toDigits 16 n) = some n := by
  induction n using Nat.strongRecOn with
  | ind n ih =>
      by_cases small : n < 16
      · rw [Nat.toDigits_of_lt_base small]
        simp [valueIn?, List.foldlM, digitIn_digitChar n small]
      · have digit : n % 16 < 16 := Nat.mod_lt n (by omega)
        rw [Nat.toDigits_of_base_le (by omega) (by omega),
          valueIn_append _ _ (n / 16) (ih (n / 16) (by omega)), digitIn_digitChar _ digit]
        exact congrArg some (Nat.div_add_mod n 16)

theorem valueIn_hexadecimal (width n : Nat) : valueIn? 16 (hexadecimal width n) = some n := by
  have zeros : ∀ k, valueIn? 16 (List.replicate k '0') = some 0 := by
    intro k
    induction k with
    | zero => rfl
    | succ k ih =>
        rw [List.replicate_succ', valueIn_append _ _ 0 ih]
        rfl
  rw [hexadecimal, valueIn?, List.foldlM_append]
  have padding := zeros (width - (Nat.toDigits 16 n).length)
  rw [valueIn?] at padding
  rw [padding]
  exact valueIn_toDigits n

end Text

namespace Identifiers

def textOf (n : Nat) : String :=
  "00000000-0000-4000-8000-" ++ String.ofList (Text.hexadecimal 12 n)

theorem append_ofList_inj {start : String} {a b : List Char}
    (same : start ++ String.ofList a = start ++ String.ofList b) : a = b := by
  have chars := congrArg String.toList same
  rw [String.toList_append, String.toList_append, String.toList_ofList, String.toList_ofList] at chars
  exact List.append_cancel_left chars

theorem textOf_injective {a b : Nat} (same : textOf a = textOf b) : a = b := by
  unfold textOf at same
  have values := congrArg (Text.valueIn? 16) (append_ofList_inj same)
  rw [Text.valueIn_hexadecimal, Text.valueIn_hexadecimal] at values
  exact Option.some.inj values

theorem textOf_ne_empty (n : Nat) : textOf n ≠ "" := by
  intro empty
  have length := congrArg String.length empty
  unfold textOf at length
  rw [String.length_append, String.length_empty] at length
  have stem : 0 < "00000000-0000-4000-8000-".length := by decide
  omega

end Identifiers

/-- What a client sees of an answer, the identifiers apart. -/
structure Observation where
  result : Machine.Result
  value : String
  output : List String
  diagnostics : List String
  instructions : Nat
  deriving Repr, DecidableEq

def Answer.observation (a : Answer) : Observation :=
  ⟨a.result, a.value, a.output, a.diagnostics, a.instructions⟩

def Session.renewed (session : Session) : Session :=
  { session with machine := session.machine.freshUnit.2 }

namespace Service

structure Request where
  now : Int
  source : String
  session : String
  deriving Repr, DecidableEq

def Request.redirect (old new : String) (q : Request) : Request :=
  if q.session = old then { q with session := new } else q

section

variable (host : Host) (fuel : Nat)

def serve (s : Service) (q : Request) : Except ServiceError Answer × Service :=
  s.evaluate host fuel q.now q.source q.session

def serveAll : List Request → Service → List (Except ServiceError Answer) × Service
  | [], s => ([], s)
  | q :: rest, s =>
    let (answer, s) := s.serve host fuel q
    let (answers, s) := serveAll rest s
    (answer :: answers, s)

/-- The requests of one session with their answers: the one that creates it, and from then on those
that name it. -/
def exchanges (id : String) : List Request → Service → List (Request × Except ServiceError Answer)
  | [], _ => []
  | q :: rest, s =>
    let (answer, after) := s.serve host fuel q
    let isOwn : Bool := (after.session? id).isSome && ((s.session? id).isNone || q.session == id)
    if isOwn then (q, answer) :: exchanges id rest after else exchanges id rest after

end

def observe (answer : Except ServiceError Answer) : Except ServiceError Observation :=
  answer.map Answer.observation

def outcome (answer : Except String Answer) : Except ServiceError Observation :=
  match answer with
  | .ok a => .ok a.observation
  | .error reason => .error (.crashed reason)

def respond (host : Host) (fuel : Nat) (source : String) (m : Machine) :
    Except ServiceError Observation × Machine :=
  if Text.isAllBlank source then (.error .sourceRequired, m)
  else
    match compileEither m.units source with
    | .error ds => (.error (.diagnostics ds), m)
    | .ok r =>
      let (answer, after) := run host fuel ⟨"", m, 0⟩ r
      (outcome answer, after.machine.freshUnit.2)

def respondAll (host : Host) (fuel : Nat) :
    List String → Machine → List (Except ServiceError Observation)
  | [], _ => []
  | source :: rest, m =>
    (respond host fuel source m).1 :: respondAll host fuel rest (respond host fuel source m).2

section

variable {host : Host} {fuel : Nat}

theorem run_spec (session : Session) (r : Routine) :
    outcome (run host fuel session r).1 = outcome (run host fuel ⟨"", session.machine, 0⟩ r).1 ∧
      (run host fuel session r).2.machine = (run host fuel ⟨"", session.machine, 0⟩ r).2.machine ∧
      (run host fuel session r).2.id = session.id := by
  simp only [run]
  generalize session.machine.clearWritten.interpret host fuel r = ending
  cases ending with
  | done _ m =>
      dsimp only
      generalize m.pop = popped
      rcases popped with _ | ⟨v, m⟩ <;> exact ⟨rfl, rfl, rfl⟩
  | _ => exact ⟨rfl, rfl, rfl⟩

theorem session?_id {s : Service} {id : String} {session : Session}
    (found : s.session? id = some session) : session.id = id :=
  eq_of_beq (List.find?_some (p := fun session : Session => session.id == id) found)

theorem session?_update (s : Service) (session : Session) (id : String) :
    (s.update session).session? id =
      if session.id = id then (s.session? id).map fun _ => session else s.session? id := by
  have keeps : ((fun old : Session => old.id == id) ∘ fun old : Session =>
      if old.id == session.id then session else old) = fun old : Session => old.id == id := by
    funext old
    by_cases same : old.id = session.id <;> simp [same]
  have found : (s.update session).session? id = (s.session? id).map fun old =>
      if old.id == session.id then session else old := by
    simp only [update, session?]
    rw [List.find?_map, keeps]
  rw [found]
  cases known : s.session? id with
  | none => simp
  | some old =>
      rw [Option.map_some, Option.map_some, session?_id known]
      by_cases same : session.id = id
      · rw [if_pos same, if_pos (beq_iff_eq.mpr same.symm)]
      · rw [if_neg same, if_neg fun equal => same (eq_of_beq equal).symm]

theorem record_spec (s : Service) (now : Int) (source : String) (a : Answer) :
    (s.record now source a).1.observation = a.observation ∧
      (s.record now source a).2.sessions = s.sessions ∧ (s.record now source a).2.base = s.base ∧
      s.ids.issued ≤ (s.record now source a).2.ids.issued := by
  rw [record]
  cases s.journal with
  | none => exact ⟨rfl, rfl, rfl, Nat.le_refl _⟩
  | some journal =>
      have unnamed : ("" : String).isEmpty = true := rfl
      simp only [Journal.save, Journal.record, Entry.timed_id, unnamed, if_true]
      generalize journal.add _ = added
      cases added <;> exact ⟨rfl, rfl, rfl, Nat.le_succ _⟩

theorem serve_opened {s opened : Service} {q : Request} {session : Session} {r : Routine}
    (stated : Text.isAllBlank q.source = false)
    (compiled : compileEither (s.unitFor q.session) q.source = .ok r)
    (chosen : s.sessionFor q.now q.session = some (session, opened)) :
    observe (s.serve host fuel q).1 = outcome (run host fuel session r).1 ∧
      (s.serve host fuel q).2.sessions =
        (opened.update (run host fuel session r).2.renewed).sessions ∧
      (s.serve host fuel q).2.base = opened.base ∧
      opened.ids.issued ≤ (s.serve host fuel q).2.ids.issued := by
  rw [serve, evaluate, if_neg (by rw [stated]; exact Bool.false_ne_true)]
  simp only [compiled, chosen]
  generalize run host fuel session r = ran
  obtain ⟨answer, after⟩ := ran
  cases answer with
  | error reason => exact ⟨rfl, rfl, rfl, Nat.le_refl _⟩
  | ok answer =>
      obtain ⟨seen, sessions, base, issued⟩ := record_spec
        (opened.update after.renewed) q.now q.source answer
      exact ⟨congrArg Except.ok seen, sessions, base, issued⟩

def Refuses (s : Service) (q : Request) (e : ServiceError) : Prop :=
  (Text.isAllBlank q.source = true ∧ e = .sourceRequired) ∨
    (Text.isAllBlank q.source = false ∧
      ((∃ ds, compileEither (s.unitFor q.session) q.source = .error ds ∧ e = .diagnostics ds) ∨
        ∃ r, compileEither (s.unitFor q.session) q.source = .ok r ∧
          s.sessionFor q.now q.session = none ∧ e = .sessionNotFound q.session))

theorem serve_refused {s : Service} {q : Request} {e : ServiceError} (refuses : s.Refuses q e) :
    (s.serve host fuel q).1 = .error e ∧ (s.serve host fuel q).2.sessions = s.sessions ∧
      (s.serve host fuel q).2.base = s.base ∧
      s.ids.issued ≤ (s.serve host fuel q).2.ids.issued := by
  rw [serve, evaluate]
  rcases refuses with ⟨blank, rfl⟩ | ⟨stated, ⟨ds, failed, rfl⟩ | ⟨r, compiled, unknown, rfl⟩⟩
  · rw [if_pos blank]
    exact ⟨rfl, rfl, rfl, Nat.le_refl _⟩
  · rw [if_neg (by rw [stated]; exact Bool.false_ne_true)]
    dsimp only
    rw [failed]
    exact ⟨rfl, (record_spec ..).2⟩
  · rw [if_neg (by rw [stated]; exact Bool.false_ne_true)]
    dsimp only
    rw [compiled]
    dsimp only
    rw [unknown]
    exact ⟨rfl, rfl, rfl, Nat.le_refl _⟩

theorem serve_cases (s : Service) (q : Request) :
    (∃ e, s.Refuses q e) ∨ ∃ r session opened, Text.isAllBlank q.source = false ∧
      compileEither (s.unitFor q.session) q.source = .ok r ∧
      s.sessionFor q.now q.session = some (session, opened) := by
  by_cases blank : Text.isAllBlank q.source = true
  · exact .inl ⟨_, .inl ⟨blank, rfl⟩⟩
  · have stated : Text.isAllBlank q.source = false := by simpa using blank
    cases compiled : compileEither (s.unitFor q.session) q.source with
    | error ds => exact .inl ⟨_, .inr ⟨stated, .inl ⟨ds, compiled, rfl⟩⟩⟩
    | ok r =>
        cases chosen : s.sessionFor q.now q.session with
        | none => exact .inl ⟨_, .inr ⟨stated, .inr ⟨r, compiled, chosen, rfl⟩⟩⟩
        | some pair => exact .inr ⟨r, pair.1, pair.2, stated, rfl, rfl⟩

def Numbered (s : Service) : Prop :=
  ∀ session ∈ s.sessions, ∃ n ≤ s.ids.issued, session.id = Identifiers.textOf n

def newcomer (s : Service) (now : Int) : Session :=
  { id := Identifiers.textOf (s.ids.issued + 1), machine := s.base.duplicate, lastUsed := now }

theorem create_eq (s : Service) (now : Int) :
    s.create now = (s.newcomer now,
      { s with sessions := s.newcomer now :: s.sessions, ids := ⟨s.ids.issued + 1⟩ }) := rfl

theorem Numbered.absent {s : Service} (numbered : s.Numbered) {n : Nat} (later : s.ids.issued < n) :
    s.session? (Identifiers.textOf n) = none := by
  refine List.find?_eq_none.mpr fun session member same => ?_
  obtain ⟨k, bound, id⟩ := numbered session member
  have equal : k = n := Identifiers.textOf_injective (id.symm.trans (eq_of_beq same))
  omega

theorem Numbered.unnamed {s : Service} (numbered : s.Numbered) : s.session? "" = none := by
  refine List.find?_eq_none.mpr fun session member same => ?_
  obtain ⟨k, -, id⟩ := numbered session member
  exact Identifiers.textOf_ne_empty k (id.symm.trans (eq_of_beq same))

theorem Numbered.update {s : Service} (numbered : s.Numbered) {session : Session} {n : Nat}
    (issued : n ≤ s.ids.issued) (id : session.id = Identifiers.textOf n) :
    (s.update session).Numbered := by
  intro other member
  obtain ⟨old, known, rfl⟩ := List.mem_map.mp member
  by_cases same : (old.id == session.id) = true
  · rw [if_pos same]
    exact ⟨n, issued, id⟩
  · rw [if_neg same]
    exact numbered old known

theorem Numbered.known {s : Service} (numbered : s.Numbered) {id : String} {session : Session}
    (found : s.session? id = some session) : ∃ n ≤ s.ids.issued, id = Identifiers.textOf n := by
  obtain ⟨n, bound, same⟩ := numbered session (List.mem_of_find?_eq_some found)
  exact ⟨n, bound, (session?_id found).symm.trans same⟩

theorem sessionFor_cases {s opened : Service} {now : Int} {id : String} {session : Session}
    (chosen : s.sessionFor now id = some (session, opened)) :
    (id = "" ∧ session = s.newcomer now ∧ opened = (s.create now).2) ∨
      ∃ old, s.session? id = some old ∧ session = { old with lastUsed := now } ∧
        opened = s.update session := by
  rw [sessionFor] at chosen
  split at chosen
  · rename_i empty
    rw [create_eq] at chosen
    obtain ⟨rfl, rfl⟩ := Prod.mk.inj (Option.some.inj chosen)
    exact .inl ⟨by simpa using empty, rfl, rfl⟩
  · obtain ⟨old, known, pair⟩ := Option.map_eq_some_iff.mp chosen
    obtain ⟨rfl, rfl⟩ := Prod.mk.inj pair
    exact .inr ⟨old, known, rfl, rfl⟩

theorem respond_run {source : String} {m : Machine} {r : Routine} {session : Session}
    (stated : Text.isAllBlank source = false) (compiled : compileEither m.units source = .ok r)
    (same : session.machine = m) :
    respond host fuel source m = (outcome (run host fuel session r).1,
      (run host fuel session r).2.machine.freshUnit.2) := by
  obtain ⟨seen, machine, -⟩ := @run_spec host fuel session r
  rw [respond, if_neg (by rw [stated]; exact Bool.false_ne_true), compiled, seen, machine, same]

def machineOf (s : Service) (id : String) : Option Machine := (s.session? id).map Session.machine

theorem machineOf_congr {s t : Service} (same : s.sessions = t.sessions) (id : String) :
    s.machineOf id = t.machineOf id := by
  rw [machineOf, machineOf, session?, session?, same]

theorem machineOf_update (s : Service) (session : Session) (id : String) :
    (s.update session).machineOf id =
      if session.id = id then (s.machineOf id).map fun _ => session.machine else s.machineOf id := by
  rw [machineOf, machineOf, session?_update]
  by_cases same : session.id = id
  · rw [if_pos same, if_pos same, Option.map_map, Option.map_map]
    rfl
  · rw [if_neg same, if_neg same]

theorem machineOf_newcomer (s : Service) (now : Int) (id : String) :
    (s.create now).2.machineOf id =
      if id = Identifiers.textOf (s.ids.issued + 1) then some s.base.duplicate
      else s.machineOf id := by
  rw [machineOf, session?, create_eq]
  dsimp only
  rw [List.find?_cons]
  by_cases same : id = Identifiers.textOf (s.ids.issued + 1)
  · rw [if_pos same, newcomer, same, beq_self_eq_true]
    rfl
  · have other : ((s.newcomer now).id == id) = false := beq_false_of_ne fun equal => same equal.symm
    rw [if_neg same, other]
    rfl

theorem unitFor_eq {s : Service} {id : String} {m : Machine} (known : s.machineOf id = some m) :
    s.unitFor id = m.units := by
  obtain ⟨session, found, rfl⟩ := Option.map_eq_some_iff.mp known
  rw [unitFor, found]
  rfl

theorem unitFor_unknown {s : Service} {id : String} (unknown : s.session? id = none) :
    s.unitFor id = s.base.units := by
  rw [unitFor, unknown]
  rfl

def CanRun (source : String) (m : Machine) : Prop :=
  Text.isAllBlank source = false ∧ ∃ r, compileEither m.units source = .ok r

/-- What one request does to the service: the answer, the base and the machines of all sessions. -/
structure Effect (host : Host) (fuel : Nat) (s : Service) (q : Request) : Prop where
  base : (s.serve host fuel q).2.base = s.base
  issued : s.ids.issued ≤ (s.serve host fuel q).2.ids.issued
  numbered : (s.serve host fuel q).2.Numbered
  own : ∀ m, s.machineOf q.session = some m →
    observe (s.serve host fuel q).1 = (respond host fuel q.source m).1 ∧
      (s.serve host fuel q).2.machineOf q.session = some (respond host fuel q.source m).2
  other : ∀ id m, id ≠ q.session → s.machineOf id = some m →
    (s.serve host fuel q).2.machineOf id = some m
  created : ∀ id, s.machineOf id = none → (s.serve host fuel q).2.machineOf id ≠ none →
    q.session = "" ∧ CanRun q.source s.base ∧ id = Identifiers.textOf (s.ids.issued + 1)
  opens : q.session = "" → CanRun q.source s.base →
    observe (s.serve host fuel q).1 = (respond host fuel q.source s.base.duplicate).1 ∧
      (s.serve host fuel q).2.machineOf (Identifiers.textOf (s.ids.issued + 1)) =
        some (respond host fuel q.source s.base.duplicate).2

theorem Numbered.of_sessions {s t : Service} (numbered : s.Numbered)
    (same : t.sessions = s.sessions) (issued : s.ids.issued ≤ t.ids.issued) : t.Numbered := by
  intro session member
  rw [same] at member
  obtain ⟨n, bound, id⟩ := numbered session member
  exact ⟨n, Nat.le_trans bound issued, id⟩

theorem Effect.of_refused {s : Service} {q : Request} {e : ServiceError} (numbered : s.Numbered)
    (refuses : s.Refuses q e) : Effect host fuel s q := by
  obtain ⟨answer, sessions, base, issued⟩ := @serve_refused host fuel s q e refuses
  have same : ∀ id, (s.serve host fuel q).2.machineOf id = s.machineOf id := machineOf_congr sessions
  refine ⟨base, issued, numbered.of_sessions sessions issued, ?_, ?_, ?_, ?_⟩
  · intro m known
    rw [answer, same, known, respond]
    rcases refuses with ⟨blank, rfl⟩ | ⟨stated, ⟨ds, failed, rfl⟩ | ⟨r, compiled, unknown, rfl⟩⟩
    · rw [if_pos blank]
      exact ⟨rfl, rfl⟩
    · rw [unitFor_eq known] at failed
      rw [if_neg (by rw [stated]; exact Bool.false_ne_true), failed]
      exact ⟨rfl, rfl⟩
    · obtain ⟨session, found, -⟩ := Option.map_eq_some_iff.mp known
      rw [sessionFor, found] at unknown
      split at unknown <;> exact absurd unknown nofun
  · intro id m _ known
    rw [same, known]
  · intro id unknown appeared
    rw [same] at appeared
    exact absurd unknown appeared
  · rintro unnamed ⟨stated, r, compiled⟩
    have units : s.unitFor q.session = s.base.units := by
      rw [unnamed, unitFor_unknown numbered.unnamed]
    rcases refuses with ⟨blank, -⟩ | ⟨-, ⟨ds, failed, -⟩ | ⟨r, -, unknown, -⟩⟩
    · rw [stated] at blank
      exact absurd blank Bool.false_ne_true
    · rw [units, compiled] at failed
      exact absurd failed nofun
    · rw [unnamed] at unknown
      exact absurd unknown nofun

theorem Effect.of_new {s : Service} {q : Request} {r : Routine} (numbered : s.Numbered)
    (stated : Text.isAllBlank q.source = false)
    (compiled : compileEither (s.unitFor q.session) q.source = .ok r) (unnamed : q.session = "")
    (chosen : s.sessionFor q.now q.session = some (s.newcomer q.now, (s.create q.now).2)) :
    Effect host fuel s q := by
  obtain ⟨answer, sessions, base, issued⟩ := @serve_opened host fuel _ _ _ _ _ stated compiled chosen
  obtain ⟨-, -, id⟩ := @run_spec host fuel (s.newcomer q.now) r
  have units : s.unitFor q.session = s.base.duplicate.units := by
    rw [unnamed, unitFor_unknown numbered.unnamed]
    rfl
  rw [units] at compiled
  have canRun : CanRun q.source s.base := ⟨stated, r, compiled⟩
  have responds := @respond_run host fuel q.source s.base.duplicate r (s.newcomer q.now) stated compiled rfl
  generalize run host fuel (s.newcomer q.now) r = ran at *
  have renewed : ran.2.renewed.id = Identifiers.textOf (s.ids.issued + 1) := id
  have created : (s.create q.now).2.Numbered := by
    rw [create_eq]
    intro session member
    rcases List.mem_cons.mp member with rfl | old
    · exact ⟨s.ids.issued + 1, Nat.le_refl _, rfl⟩
    · obtain ⟨n, bound, known⟩ := numbered session old
      exact ⟨n, Nat.le_succ_of_le bound, known⟩
  have machines : ∀ id, (s.serve host fuel q).2.machineOf id =
      if id = Identifiers.textOf (s.ids.issued + 1) then
        some (respond host fuel q.source s.base.duplicate).2
      else s.machineOf id := by
    intro other
    rw [machineOf_congr sessions, machineOf_update, machineOf_newcomer, responds, renewed]
    by_cases same : other = Identifiers.textOf (s.ids.issued + 1)
    · rw [if_pos same, if_pos same, if_pos same.symm]
      rfl
    · rw [if_neg same, if_neg same, if_neg fun equal => same equal.symm]
  refine ⟨base, Nat.le_trans (Nat.le_succ _) issued, ?_, ?_, ?_, ?_, ?_⟩
  · exact (created.update (Nat.le_refl _) renewed).of_sessions sessions issued
  · intro m known
    rw [unnamed, machineOf, numbered.unnamed] at known
    exact absurd known nofun
  · intro other m _ known
    rw [machines]
    by_cases same : other = Identifiers.textOf (s.ids.issued + 1)
    · rw [same, machineOf, numbered.absent (Nat.lt_succ_self _)] at known
      exact absurd known nofun
    · rw [if_neg same, known]
  · intro other unknown appeared
    rw [machines] at appeared
    split at appeared
    · rename_i same
      exact ⟨unnamed, canRun, same⟩
    · exact absurd unknown appeared
  · intro _ _
    rw [machines, if_pos rfl, answer, responds]
    exact ⟨rfl, rfl⟩

theorem Effect.of_known {s : Service} {q : Request} {r : Routine} {old : Session}
    (numbered : s.Numbered) (stated : Text.isAllBlank q.source = false)
    (compiled : compileEither (s.unitFor q.session) q.source = .ok r)
    (found : s.session? q.session = some old)
    (chosen : s.sessionFor q.now q.session =
      some ({ old with lastUsed := q.now }, s.update { old with lastUsed := q.now })) :
    Effect host fuel s q := by
  obtain ⟨answer, sessions, base, issued⟩ := @serve_opened host fuel _ _ _ _ _ stated compiled chosen
  obtain ⟨-, -, id⟩ := @run_spec host fuel { old with lastUsed := q.now } r
  have known : s.machineOf q.session = some old.machine := by rw [machineOf, found]; rfl
  rw [unitFor_eq known] at compiled
  have responds := @respond_run host fuel q.source old.machine r { old with lastUsed := q.now } stated
    compiled rfl
  obtain ⟨n, bound, number⟩ := numbered.known found
  have name : old.id = q.session := session?_id found
  generalize run host fuel { old with lastUsed := q.now } r = ran at *
  have machines : ∀ id, (s.serve host fuel q).2.machineOf id =
      if q.session = id then some (respond host fuel q.source old.machine).2 else s.machineOf id := by
    intro other
    rw [machineOf_congr sessions, machineOf_update, machineOf_update, responds]
    have names : ran.2.renewed.id = q.session := id.trans name
    rw [names, name]
    by_cases same : q.session = other
    · rw [if_pos same, if_pos same, if_pos same, ← same, known]
      rfl
    · rw [if_neg same, if_neg same, if_neg same]
  refine ⟨base, issued, ?_, ?_, ?_, ?_, ?_⟩
  · have first : (s.update { old with lastUsed := q.now }).Numbered :=
      numbered.update bound (name.trans number)
    have renewed : ran.2.renewed.id = Identifiers.textOf n := id.trans (name.trans number)
    exact (first.update bound renewed).of_sessions sessions issued
  · intro m same
    rw [known] at same
    rw [← Option.some.inj same, machines, if_pos rfl, answer, responds]
    exact ⟨rfl, rfl⟩
  · intro other m different known
    rw [machines, if_neg (Ne.symm different), known]
  · intro other unknown appeared
    rw [machines] at appeared
    split at appeared
    · rename_i same
      rw [← same, known] at unknown
      exact absurd unknown nofun
    · exact absurd unknown appeared
  · intro unnamed
    rw [unnamed, numbered.unnamed] at found
    exact absurd found nofun

theorem Numbered.effect {s : Service} (numbered : s.Numbered) (q : Request) :
    Effect host fuel s q := by
  rcases s.serve_cases q with ⟨e, refuses⟩ | ⟨r, session, opened, stated, compiled, chosen⟩
  · exact .of_refused numbered refuses
  · rcases sessionFor_cases chosen with ⟨unnamed, rfl, rfl⟩ | ⟨old, found, rfl, rfl⟩
    · exact .of_new numbered stated compiled unnamed chosen
    · exact .of_known numbered stated compiled found chosen

theorem serveAll_own {id : String} {m : Machine} {s : Service} (numbered : s.Numbered)
    (known : s.machineOf id = some m) {qs : List Request} (own : ∀ q ∈ qs, q.session = id) :
    (serveAll host fuel qs s).1.map observe =
      respondAll host fuel (qs.map Request.source) m := by
  induction qs generalizing s m with
  | nil => rfl
  | cons q rest ih =>
      have effect := @Numbered.effect host fuel s numbered q
      have named : q.session = id := own q List.mem_cons_self
      obtain ⟨seen, after⟩ := effect.own m (by rw [named]; exact known)
      rw [named] at after
      have others := ih effect.numbered after fun x member => own x (List.mem_cons_of_mem q member)
      rw [serveAll, List.map_cons, List.map_cons, respondAll, seen, others]

theorem exchanges_known {id : String} {m : Machine} {s : Service} (numbered : s.Numbered)
    (known : s.machineOf id = some m) (qs : List Request) :
    (exchanges host fuel id qs s).map (fun x => observe x.2) =
        respondAll host fuel ((exchanges host fuel id qs s).map fun x => x.1.source) m ∧
      ∀ x ∈ exchanges host fuel id qs s, x.1.session = id := by
  induction qs generalizing s m with
  | nil => exact ⟨rfl, nofun⟩
  | cons q rest ih =>
      have effect := @Numbered.effect host fuel s numbered q
      have there : (s.session? id).isNone = false := by
        obtain ⟨session, found, -⟩ := Option.map_eq_some_iff.mp known
        rw [found]
        rfl
      by_cases named : q.session = id
      · obtain ⟨seen, after⟩ := effect.own m (by rw [named]; exact known)
        rw [named] at after
        obtain ⟨others, all⟩ := ih effect.numbered after
        have stays : ((s.serve host fuel q).2.session? id).isSome = true := by
          obtain ⟨session, found, -⟩ := Option.map_eq_some_iff.mp after
          rw [found]
          rfl
        simp only [exchanges, there, stays, named, beq_self_eq_true, Bool.or_true, Bool.and_self,
          if_true, List.map_cons, respondAll, seen, others]
        refine ⟨trivial, ?_⟩
        intro x member
        rcases List.mem_cons.mp member with rfl | later
        · exact named
        · exact all x later
      · have after := effect.other id m (Ne.symm named) known
        have foreign : (q.session == id) = false := beq_false_of_ne named
        simp only [exchanges, there, foreign, Bool.or_self, Bool.and_false, Bool.false_eq_true,
          if_false]
        exact ih effect.numbered after

theorem exchanges_unknown {id : String} {s : Service} (numbered : s.Numbered)
    (unknown : s.machineOf id = none) (qs : List Request) :
    exchanges host fuel id qs s = [] ∨
      ∃ q answer rest, exchanges host fuel id qs s = (q, answer) :: rest ∧ q.session = "" ∧ id ≠ "" ∧
        CanRun q.source s.base ∧ (∀ x ∈ rest, x.1.session = id) ∧
        (exchanges host fuel id qs s).map (fun x => observe x.2) =
          respondAll host fuel ((exchanges host fuel id qs s).map fun x => x.1.source)
            s.base.duplicate := by
  induction qs generalizing s with
  | nil => exact .inl rfl
  | cons q rest ih =>
      have effect := @Numbered.effect host fuel s numbered q
      have missing : (s.session? id).isNone = true := by
        rw [machineOf, Option.map_eq_none_iff] at unknown
        rw [unknown]
        rfl
      cases after : (s.serve host fuel q).2.machineOf id with
      | none =>
          have stays : ((s.serve host fuel q).2.session? id).isSome = false := by
            rw [machineOf, Option.map_eq_none_iff] at after
            rw [after]
            rfl
          simp only [exchanges, stays, Bool.false_and, Bool.false_eq_true, if_false]
          rw [← effect.base]
          exact ih effect.numbered after
      | some m =>
          have appeared : (s.serve host fuel q).2.machineOf id ≠ none := by rw [after]; exact nofun
          obtain ⟨unnamed, canRun, rfl⟩ := effect.created id unknown appeared
          obtain ⟨seen, machine⟩ := effect.opens unnamed canRun
          obtain ⟨others, all⟩ := @exchanges_known host fuel _ _ _ effect.numbered machine rest
          have stays : ((s.serve host fuel q).2.session?
              (Identifiers.textOf (s.ids.issued + 1))).isSome = true := by
            obtain ⟨session, found, -⟩ := Option.map_eq_some_iff.mp after
            rw [found]
            rfl
          simp only [exchanges, missing, stays, Bool.true_or, Bool.and_self, if_true]
          refine .inr ⟨q, _, _, rfl, unnamed, Identifiers.textOf_ne_empty _, canRun, all, ?_⟩
          rw [List.map_cons, List.map_cons, respondAll, seen, others]

theorem new_numbered (base : Machine) (journal : Option Journal) (ids : Identifiers) :
    (Service.new base journal ids).Numbered := nofun

theorem serveAll_base {s : Service} (numbered : s.Numbered) (qs : List Request) :
    (serveAll host fuel qs s).2.base = s.base := by
  induction qs generalizing s with
  | nil => rfl
  | cons q rest ih =>
      have effect := @Numbered.effect host fuel s numbered q
      rw [serveAll, ← effect.base]
      exact ih effect.numbered

end

end Service

open Service

/-- Sessions do not interfere. The requests of a session are answered as if there were no others, but
for the identifiers; no request changes the template; and one that is refused changes no session. -/
theorem sessions_do_not_interfere (host : Host) (fuel : Nat) (base : Machine)
    (journal : Option Journal) (ids : Identifiers) (requests : List Service.Request) :
    (∀ id, let own := exchanges host fuel id requests (.new base journal ids)
      let alone := own.map fun x => x.1.redirect id (Identifiers.textOf (ids.issued + 1))
      own.map (fun x => observe x.2) =
        (serveAll host fuel alone (.new base journal ids)).1.map observe) ∧
    (serveAll host fuel requests (.new base journal ids)).2.base = base ∧
    ∀ (s : Service) q e, (s.serve host fuel q).1 = .error e → (∀ reason, e ≠ .crashed reason) →
      (s.serve host fuel q).2.sessions = s.sessions := by
  have numbered := new_numbered base journal ids
  refine ⟨fun id => ?_, serveAll_base numbered requests, ?_⟩
  · have unknown : (Service.new base journal ids).machineOf id = none := rfl
    obtain none | ⟨q, answer, rest, own, unnamed, named, canRun, all, seen⟩ :=
      @exchanges_unknown host fuel _ _ numbered unknown requests
    · simp only [none]
      rfl
    · dsimp only
      rw [seen, own, List.map_cons, List.map_cons]
      have kept : q.redirect id (Identifiers.textOf (ids.issued + 1)) = q := by
        rw [Service.Request.redirect, unnamed, if_neg named.symm]
      have effect := @Numbered.effect host fuel _ numbered q
      obtain ⟨first, machine⟩ := effect.opens unnamed canRun
      have others := @serveAll_own host fuel _ _ _ effect.numbered machine
        (rest.map fun x => x.1.redirect id (Identifiers.textOf (ids.issued + 1))) (by
          intro x member
          obtain ⟨y, known, rfl⟩ := List.mem_map.mp member
          rw [Service.Request.redirect, if_pos (all y known)]
          rfl)
      have sources : (rest.map fun x => x.1.redirect id (Identifiers.textOf (ids.issued + 1))).map
          Service.Request.source = rest.map fun x => x.1.source := by
        rw [List.map_map]
        refine List.map_congr_left fun x _ => ?_
        rw [Function.comp, Service.Request.redirect]
        split <;> rfl
      rw [kept, serveAll, List.map_cons, respondAll, first, others, sources]
  · intro s q e failed uncrashed
    rcases s.serve_cases q with ⟨f, refuses⟩ | ⟨r, session, opened, stated, compiled, chosen⟩
    · exact (serve_refused refuses).2.1
    · obtain ⟨answer, -⟩ := @serve_opened host fuel _ _ _ _ _ stated compiled chosen
      rw [failed] at answer
      cases ran : (run host fuel session r).1 with
      | ok a =>
          rw [ran] at answer
          exact absurd answer nofun
      | error reason =>
          rw [ran] at answer
          exact absurd (Except.error.inj answer) (uncrashed reason)

/-- Two sessions with a global of one name take turns. Then the second is asked for something that does
not compile. -/
theorem sessions_do_not_interfere_turns :
    let first := Identifiers.textOf 1
    let second := Identifiers.textOf 2
    let requests : List Service.Request := [⟨0, "var a = 1;", ""⟩, ⟨1, "var a = 20;", ""⟩,
      ⟨2, "print a + 1;", first⟩, ⟨3, "a = a + a;", second⟩, ⟨4, "print a;", first⟩,
      ⟨5, "print a;", second⟩]
    let s := Service.new (Machine.new 0 ⟨0, 0⟩) none ⟨0⟩
    let after := (serveAll Host.standard 100 requests s).2
    let own := exchanges Host.standard 100 second requests s
    own.map (fun x => (x.1.source, (observe x.2).toOption.map Observation.output)) =
        [("var a = 20;", some []), ("a = a + a;", some []), ("print a;", some ["40"])] ∧
      own.map (fun x => observe x.2) =
        (serveAll Host.standard 100 (own.map fun x => x.1.redirect second first) s).1.map observe ∧
      after.sessions.length = 2 ∧
      ∃ ds, (after.serve Host.standard 100 ⟨6, "a +", second⟩).1 = .error (.diagnostics ds) ∧
        (after.serve Host.standard 100 ⟨6, "a +", second⟩).2.sessions = after.sessions := by
  intro first second requests s after own
  obtain ⟨alone, -, keeps⟩ :=
    sessions_do_not_interfere Host.standard 100 (Machine.new 0 ⟨0, 0⟩) none ⟨0⟩ requests
  refine ⟨by decide +kernel, alone second, by decide +kernel, ?_⟩
  have fails : (compileEither (after.unitFor second) "a +").isOk = false := by decide +kernel
  cases compiled : compileEither (after.unitFor second) "a +" with
  | ok r =>
      rw [compiled] at fails
      exact absurd fails nofun
  | error ds =>
      have refuses : after.Refuses ⟨6, "a +", second⟩ (.diagnostics ds) :=
        .inr ⟨by decide, .inl ⟨ds, compiled, rfl⟩⟩
      have refused := (@serve_refused Host.standard 100 _ _ _ refuses).1
      exact ⟨ds, refused, keeps after _ _ refused nofun⟩

end Reckoner
