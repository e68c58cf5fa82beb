import Mathlib.Data.List.Pairwise
import Reckoner.Proofs.Code.Validity
import Reckoner.Proofs.Compiler.Unlined
import Reckoner.Proofs.Compiler.Verdict
import Reckoner.Proofs.Script.Plain

/-!
Stocked routines. Once the constants of a routine, and those of the routines in it, stand in the order in
which they are met in the tree, the tree says all there is to know of the routine but its lines.
-/

namespace Reckoner.Script

/-! Where constants stand -/

theorem Pool.Holds.findIdx_eq {pool : Pool} {es : List Entry} (holds : pool.Holds es)
    {p : Constant → Bool} {q : Entry → Bool}
    (agree : ∀ c ∈ pool, ∀ e, Entry.ofConstant? c = some e → p c = q e) :
    pool.findIdx p = es.findIdx q := by
  obtain ⟨constants⟩ := pool
  rw [Pool.Holds] at holds
  simp only [List.findIdx_toArray, List.mem_toArray] at holds agree ⊢
  induction constants generalizing es with
  | nil =>
      obtain rfl := List.map_eq_nil_iff.mp holds.symm
      rfl
  | cons c constants ih =>
      obtain ⟨e, rest, rfl, first, others⟩ := List.map_eq_cons_iff.mp holds.symm
      rw [List.findIdx_cons, List.findIdx_cons, agree c List.mem_cons_self e first.symm,
        ih others.symm fun c member => agree c (List.mem_cons_of_mem _ member)]

structure Pool.Agrees (unit : Nat) (a b : Pool) : Prop where
  number : ∀ d, a.find (.number d) = b.find (.number d)
  text : ∀ name, a.find (.text name) = b.find (.text name)
  routine : ∀ i, a.findRoutine ⟨unit, i⟩ = b.findRoutine ⟨unit, i⟩

def Pool.Native (unit : Nat) (pool : Pool) : Prop := ∀ r, .routine r ∈ pool → r.identity.unit = unit

theorem Pool.Agrees.of_holds {unit : Nat} {a b : Pool} {es : List Entry} (first : a.Holds es)
    (second : b.Holds es) (native : a.Native unit) (nativeToo : b.Native unit) :
    Pool.Agrees unit a b := by
  have number : ∀ {pool : Pool}, pool.Holds es → ∀ d,
      pool.find (.number d) = es.findIdx fun old => old.same (.number d) := fun holds d =>
    holds.findIdx_eq fun _ _ _ known => Compiler.same_entry known rfl nofun
  have text : ∀ {pool : Pool}, pool.Holds es → ∀ name,
      pool.find (.text name) = es.findIdx fun old => old.same (.name name) := fun holds name =>
    holds.findIdx_eq fun _ _ _ known => Compiler.same_entry known rfl nofun
  have routine : ∀ {pool : Pool}, pool.Holds es → pool.Native unit → ∀ i,
      pool.findRoutine ⟨unit, i⟩ = es.findIdx fun old => old.same (.function i) := by
    intro pool holds native i
    refine holds.findIdx_eq fun c member e known => ?_
    cases c with
    | routine r =>
        obtain rfl := Option.some.inj known
        have own : r.identity = ⟨unit, r.identity.index⟩ := by
          rw [← native r member]
        rw [isRoutine, own]
        exact Bool.eq_iff_iff.mpr (by simp [Entry.same])
    | number d => obtain rfl := Option.some.inj known; rfl
    | text name => obtain rfl := Option.some.inj known; rfl
    | bool | foreign => simp [Entry.ofConstant?] at known
  exact {
    number := fun d => (number first d).trans (number second d).symm
    text := fun name => (text first name).trans (text second name).symm
    routine := fun i => (routine first native i).trans (routine second nativeToo i).symm }

namespace Pool.Agrees

variable {unit : Nat} {a b : Pool} (agrees : Pool.Agrees unit a b)

include agrees

theorem load (scope : List String) (name : String) : loadOf a scope name = loadOf b scope name := by
  simp only [loadOf, agrees.text]

theorem store (scope : List String) (name : String) : storeOf a scope name = storeOf b scope name := by
  simp only [storeOf, agrees.text]

theorem defined (isGlobal : Bool) (name : String) :
    defineCode a isGlobal name = defineCode b isGlobal name := by
  simp only [defineCode, agrees.text]

omit agrees

mutual

theorem expression (agrees : Pool.Agrees unit a b) (scope : List String) (e : Expression) :
    e.code a scope = e.code b scope := by
  cases e with
  | number d => simp only [Expression.code, agrees.number]
  | bool => rfl
  | read name => simp only [Expression.code, agrees.load]
  | assign name e => simp only [Expression.code, agrees.store, agrees.expression scope e]
  | update name op e =>
      simp only [Expression.code, agrees.load, agrees.store, agrees.expression scope e]
  | negate e => simp only [Expression.code, agrees.expression scope e]
  | not e => simp only [Expression.code, agrees.expression scope e]
  | binary op x y =>
      simp only [Expression.code, agrees.expression scope x, agrees.expression scope y]
  | and x y => simp only [Expression.code, agrees.expression scope x, agrees.expression scope y]
  | or x y => simp only [Expression.code, agrees.expression scope x, agrees.expression scope y]
  | call f args => simp only [Expression.code, agrees.expression scope f, agrees.all scope args]

theorem all (agrees : Pool.Agrees unit a b) (scope : List String) (args : List Expression) :
    codeOfAll a scope args = codeOfAll b scope args := by
  cases args with
  | nil => rfl
  | cons e rest => simp only [codeOfAll, agrees.expression scope e, agrees.all scope rest]

end

include agrees

theorem optional (scope : List String) (value : Option Expression) :
    codeOfOptional a scope value = codeOfOptional b scope value := by
  cases value with
  | none => rfl
  | some e => exact agrees.expression scope e

theorem initializer (scope : List String) (first : Initializer) :
    first.code a scope = first.code b scope := by
  cases first with
  | none => rfl
  | var name value => exact agrees.optional scope value
  | expression e => simp only [Initializer.code, agrees.expression]

theorem loop (scope : List String) (p : Nat) (test step : Option Expression)
    (body : LoopSite → Nat → List Slot) :
    loopCode a scope p test step body = loopCode b scope p test step body := by
  have tested : ∀ rest, testCode a scope rest test = testCode b scope rest test := by
    intro rest
    cases test with
    | none => rfl
    | some e => simp only [testCode, agrees.expression]
  have stepped : ∀ p q, stepCode a scope p q step = stepCode b scope p q step := by
    intro p q
    cases step with
    | none => rfl
    | some e => simp only [stepCode, agrees.expression]
  simp only [loopCode, tested, stepped]

omit agrees

mutual

theorem statement (agrees : Pool.Agrees unit a b) (s : Statement) (scope : List String)
    (site : Option LoopSite) (p : Nat) :
    s.code a unit scope site p = s.code b unit scope site p := by
  cases s with
  | empty | «break» | «continue» => rfl
  | print e => simp only [Statement.code, agrees.expression]
  | expression e => simp only [Statement.code, agrees.expression]
  | ifElse c s t =>
      simp only [Statement.code, agrees.expression, agrees.statement s, agrees.statement t]
  | «while» c s => simp only [Statement.code, agrees.loop, agrees.statement s]
  | «for» first c step s =>
      simp only [Statement.code, agrees.initializer, agrees.loop, agrees.statement s]
  | «return» value => simp only [Statement.code, agrees.optional]
  | block body => simp only [Statement.code, agrees.declarations body]

theorem declaration (agrees : Pool.Agrees unit a b) (d : Declaration) (isGlobal : Bool)
    (scope : List String) (site : Option LoopSite) (p : Nat) :
    d.code a unit isGlobal scope site p = d.code b unit isGlobal scope site p := by
  cases d with
  | var name value => simp only [Declaration.code, agrees.optional, agrees.defined]
  | function f => simp only [Declaration.code, agrees.routine, agrees.defined]
  | statement s => exact agrees.statement s scope site p

theorem declarations (agrees : Pool.Agrees unit a b) (body : List Declaration) (isGlobal : Bool)
    (scope : List String) (site : Option LoopSite) (p : Nat) :
    codeOfBody a unit isGlobal scope site p body = codeOfBody b unit isGlobal scope site p body := by
  cases body with
  | nil => rfl
  | cons d rest => simp only [codeOfBody, agrees.declaration d, agrees.declarations rest]

end

include agrees

theorem code (f : Function) (isGlobal : Bool) : f.code a unit isGlobal = f.code b unit isGlobal := by
  simp only [Function.code, agrees.declarations, agrees.optional]

end Pool.Agrees

/-! Each constant once -/

theorem pairwise_keep {es : List Entry} (distinct : es.Pairwise fun a b => a.same b = false) (e : Entry) :
    (keep es e).Pairwise fun a b => a.same b = false := by
  rw [keep]
  split
  · exact distinct
  · rename_i missing
    have other : ∀ old ∈ es, old.same e = false := by simpa using missing
    refine List.pairwise_append.mpr ⟨distinct, List.pairwise_singleton _ _, fun old member last same => ?_⟩
    rw [List.mem_singleton.mp same]
    exact other old member

theorem pairwise_gather {es : List Entry} (distinct : es.Pairwise fun a b => a.same b = false)
    (new : List Entry) : (gather es new).Pairwise fun a b => a.same b = false := by
  induction new generalizing es with
  | nil => exact distinct
  | cons e rest ih => exact ih (pairwise_keep distinct e)

theorem Pool.Holds.routine_unique {pool : Pool} {f : Function} {isGlobal : Bool}
    (holds : pool.Holds (f.entries isGlobal)) {p q : Routine} (first : .routine p ∈ pool)
    (second : .routine q ∈ pool) (same : p.identity = q.identity) : p = q := by
  have distinct : (f.entries isGlobal).Pairwise fun a b => a.same b = false :=
    pairwise_gather List.Pairwise.nil _
  let apart (a b : Option Entry) : Prop := ∀ i, a = some (.function i) → b ≠ some (.function i)
  have entries : ((f.entries isGlobal).map some).Pairwise apart := by
    refine List.pairwise_map.mpr (distinct.imp fun {a b} other i left right => ?_)
    rw [Option.some.inj left, Option.some.inj right, Entry.same_self] at other
    exact absurd other (by decide)
  rw [← holds] at entries
  have constants := List.pairwise_map.mp entries
  have symm : Std.Symm fun a b => apart (Entry.ofConstant? a) (Entry.ofConstant? b) :=
    ⟨fun _ _ other i left right => other i right left⟩
  by_contra different
  refine constants.forall (Array.mem_toList_iff.mpr first) (Array.mem_toList_iff.mpr second)
    (fun equal => different (Constant.routine.inj equal)) p.identity.index rfl ?_
  rw [same]
  rfl

/-! Stocked routines -/

/-- The constants of the routine are those of the function, in the order in which they are met, and so are
those of the routines of the functions inside. -/
inductive Stocked (unit : Nat) : (isGlobal : Bool) → Routine → Function → Prop where
  | intro {isGlobal : Bool} {r : Routine} {f : Function} (holds : Pool.Holds r.constants (f.entries isGlobal))
    (image : Function → Routine)
    (stored : ∀ g ∈ functionsOf f.body,
      .routine (image g) ∈ r.constants ∧ (image g).identity = ⟨unit, g.index⟩)
    (images : ∀ g ∈ functionsOf f.body, Stocked unit false (image g) g) : Stocked unit isGlobal r f

/-- The functions have their routines in the pool, and these are stocked. -/
def Filed (unit : Nat) (pool : Pool) (fs : List Function) : Prop :=
  ∀ g ∈ fs, ∃ q, .routine q ∈ pool ∧ q.identity = ⟨unit, g.index⟩ ∧ Stocked unit false q g

namespace Stocked

variable {unit : Nat} {isGlobal : Bool} {r q : Routine} {f g : Function}

theorem of_filed (holds : Pool.Holds r.constants (f.entries isGlobal))
    (filed : Filed unit r.constants (functionsOf f.body)) : Stocked unit isGlobal r f := by
  have : Nonempty Routine := ⟨r⟩
  choose! image stored identity images using filed
  exact .intro holds image (fun g member => ⟨stored g member, identity g member⟩) images

theorem holds (stocked : Stocked unit isGlobal r f) :
    Pool.Holds r.constants (f.entries isGlobal) := by
  cases stocked with
  | intro holds => exact holds

theorem filed (stocked : Stocked unit isGlobal r f) :
    Filed unit r.constants (functionsOf f.body) := by
  cases stocked with
  | intro _ image stored images =>
      exact fun g member => ⟨image g, (stored g member).1, (stored g member).2, images g member⟩

end Stocked

theorem Implements.native {unit : Nat} {isGlobal : Bool} {r : Routine} {f : Function}
    (implements : Implements unit isGlobal r f) : Pool.Native unit r.constants := by
  intro q member
  obtain ⟨g, -, inner⟩ := implements.nested member
  obtain ⟨marked, carries⟩ := inner.carries
  rw [carries.identity]

theorem Implements.no_routine {unit : Nat} {isGlobal : Bool} {r : Routine} {f : Function}
    (implements : Implements unit isGlobal r f) (none : functionsOf f.body = []) :
    ∀ q, .routine q ∉ r.constants := by
  intro q member
  obtain ⟨g, declared, -⟩ := implements.nested member
  rw [none] at declared
  exact absurd declared List.not_mem_nil

theorem Implements.of_stored {unit : Nat} {isGlobal : Bool} {r q : Routine} {f g : Function}
    (implements : Implements unit isGlobal r f) (holds : Pool.Holds r.constants (f.entries isGlobal))
    (declared : g ∈ functionsOf f.body) (member : .routine q ∈ r.constants)
    (identity : q.identity = ⟨unit, g.index⟩) : Implements unit false q g := by
  obtain ⟨p, stored, inner⟩ := implements.linked declared
  obtain ⟨marked, carries⟩ := inner.carries
  have same : p = q := holds.routine_unique (Array.mem_of_getElem? stored) member
    (carries.identity.trans identity.symm)
  rw [← same]
  exact inner

theorem map_eq_map_of_forall {α β γ δ : Type} {f : α → γ} {g : β → γ} {u : α → δ} {v : β → δ}
    {xs : List α} {ys : List β} (same : xs.map f = ys.map g)
    (follows : ∀ x ∈ xs, ∀ y ∈ ys, f x = g y → u x = v y) : xs.map u = ys.map v := by
  induction xs generalizing ys with
  | nil =>
      obtain rfl := List.map_eq_nil_iff.mp same.symm
      rfl
  | cons x xs ih =>
      obtain ⟨y, rest, rfl, first, others⟩ := List.map_eq_cons_iff.mp same.symm
      rw [List.map_cons, List.map_cons, follows x List.mem_cons_self y List.mem_cons_self first.symm,
        ih others.symm fun x member y memberToo =>
          follows x (List.mem_cons_of_mem _ member) y (List.mem_cons_of_mem _ memberToo)]

theorem Constant.unlined_eq {x y : Constant} {e : Entry} (first : Entry.ofConstant? x = some e)
    (second : Entry.ofConstant? y = some e)
    (routines : ∀ p q, x = .routine p → y = .routine q → p.unlined = q.unlined) :
    x.unlined = y.unlined := by
  cases x with
  | number d =>
      obtain rfl := Option.some.inj first
      cases y with
      | number => rw [Entry.number.inj (Option.some.inj second)]
      | _ => simp [Entry.ofConstant?] at second
  | text name =>
      obtain rfl := Option.some.inj first
      cases y with
      | text => rw [Entry.name.inj (Option.some.inj second)]
      | _ => simp [Entry.ofConstant?] at second
  | routine p =>
      obtain rfl := Option.some.inj first
      cases y with
      | routine q => exact congrArg Constant.routine (routines p q rfl rfl)
      | _ => simp [Entry.ofConstant?] at second
  | bool | foreign => simp [Entry.ofConstant?] at first

theorem Pool.Holds.entry {pool : Pool} {es : List Entry} (holds : pool.Holds es) {c : Constant}
    (member : c ∈ pool.toList) : ∃ e, Entry.ofConstant? c = some e := by
  have known : Entry.ofConstant? c ∈ es.map some := by
    rw [← holds]
    exact List.mem_map_of_mem member
  obtain ⟨e, -, same⟩ := List.mem_map.mp known
  exact ⟨e, same.symm⟩

theorem Pool.Holds.unlined_eq {a b : Pool} {es : List Entry} (first : a.Holds es) (second : b.Holds es)
    (routines : ∀ p q, .routine p ∈ a → .routine q ∈ b → p.identity.index = q.identity.index →
      p.unlined = q.unlined) : a.map Constant.unlined = b.map Constant.unlined := by
  apply Array.toList_inj.mp
  rw [Array.toList_map, Array.toList_map]
  refine map_eq_map_of_forall (first.trans second.symm) fun x member y memberToo known => ?_
  obtain ⟨e, entry⟩ := first.entry member
  refine Constant.unlined_eq entry (known.symm.trans entry) fun p q isP isQ => ?_
  subst isP isQ
  exact routines p q (Array.mem_toList_iff.mp member) (Array.mem_toList_iff.mp memberToo)
    (Entry.function.inj (Option.some.inj known))

theorem map_unlined_of_none {pool : Pool} (none : ∀ r, .routine r ∉ pool) :
    pool.map Constant.unlined = pool := by
  conv => rhs; rw [← Array.map_id pool]
  refine Array.map_congr_left fun c member => ?_
  cases c with
  | routine r => exact absurd member (none r)
  | number | text | bool | foreign => rfl

theorem Carries.lines_size {unit : Nat} {isGlobal : Bool} {r : Routine} {f : Function}
    {marked : List Marked} (carries : Carries unit isGlobal r f marked) :
    r.lines.size = codeSize (f.code r.constants unit isGlobal) := by
  rw [← Array.length_toList, carries.lines, length_markedLines, carries.directives]

theorem Implements.unlined_eq {unit : Nat} {isGlobal : Bool} {r q : Routine} {f g : Function}
    (first : Implements unit isGlobal r f) (second : Implements unit isGlobal q g)
    (same : f.plain = g.plain) (code : f.code r.constants unit isGlobal = g.code q.constants unit isGlobal)
    (pools : r.constants.map Constant.unlined = q.constants.map Constant.unlined) :
    r.unlined = q.unlined := by
  obtain ⟨marked, carries⟩ := first.carries
  obtain ⟨marks, others⟩ := second.carries
  have identity : r.identity = q.identity := by
    rw [carries.identity, others.identity, ← f.index_plain, same, g.index_plain]
  have name : r.name = q.name := by
    rw [carries.name, others.name, ← f.name_plain, same, g.name_plain]
  have arity : r.arity = q.arity := by
    rw [carries.arity, others.arity, ← f.parameters_plain, same, g.parameters_plain]
  have bytes : r.code = q.code := by
    apply Array.toList_inj.mp
    rw [carries.bytes, others.bytes, code]
  have lines : r.lines.size = q.lines.size := by
    rw [carries.lines_size, others.lines_size, code]
  rw [Routine.unlined_eq, Routine.unlined_eq, identity, name, arity, bytes, lines, pools]

theorem Stocked.inner {unit : Nat} {isGlobal : Bool} {r q : Routine} {f h : Function}
    (stocked : Stocked unit isGlobal r f) (implements : Implements unit isGlobal r f)
    (declared : h ∈ functionsOf f.body) (member : .routine q ∈ r.constants)
    (index : q.identity.index = h.index) : Stocked unit false q h ∧ Implements unit false q h := by
  have identity : q.identity = ⟨unit, h.index⟩ := by
    rw [← index, ← implements.native q member]
  obtain ⟨p, found, numbered, inner⟩ := stocked.filed h declared
  have same : p = q := stocked.holds.routine_unique found member (numbered.trans identity.symm)
  rw [same] at inner
  exact ⟨inner, implements.of_stored stocked.holds declared member identity⟩

/-- The plain tree determines the routine. The induction is on the functions inside: their routines are
alike, so the pools are, so is what stands where, and so is the code. -/
theorem Stocked.determined {unit : Nat} {isGlobal : Bool} {r q : Routine} {f g : Function}
    (stocked : Stocked unit isGlobal r f) (implements : Implements unit isGlobal r f)
    (other : Stocked unit isGlobal q g) (second : Implements unit isGlobal q g)
    (same : f.plain = g.plain) : r.unlined = q.unlined := by
  have whole := stocked
  induction stocked generalizing q g with
  | @intro isGlobal r f holds image stored images ih =>
      have otherHolds := other.holds
      rw [← g.entries_plain, ← same, f.entries_plain] at otherHolds
      have agrees := Pool.Agrees.of_holds holds otherHolds implements.native second.native
      have code : f.code r.constants unit isGlobal = g.code q.constants unit isGlobal := by
        rw [← f.code_plain, same, g.code_plain]
        exact agrees.code g isGlobal
      have bodies : (functionsOf f.body).map Function.plain = (functionsOf g.body).map Function.plain := by
        rw [← functionsOf_plain, ← functionsOf_plain, ← Function.body_plain, same, Function.body_plain]
      refine implements.unlined_eq second same code (holds.unlined_eq otherHolds ?_)
      intro p p' member memberToo index
      obtain ⟨h, declared, inner⟩ := implements.nested member
      obtain ⟨marked, carries⟩ := inner.carries
      have own : image h = p := holds.routine_unique (stored h declared).1 member
        ((stored h declared).2.trans carries.identity.symm)
      have plain : h.plain ∈ (functionsOf g.body).map Function.plain := by
        rw [← bodies]
        exact List.mem_map_of_mem declared
      obtain ⟨h', declaredToo, samePlain⟩ := List.mem_map.mp plain
      have numbered : p'.identity.index = h'.index := by
        rw [← h'.index_plain, samePlain, h.index_plain, ← index, carries.identity]
      obtain ⟨deeper, innerToo⟩ := other.inner second declaredToo memberToo numbered
      rw [← own] at inner ⊢
      exact ih h declared inner deeper innerToo samePlain.symm (images h declared)

end Reckoner.Script
