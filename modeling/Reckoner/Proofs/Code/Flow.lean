import Reckoner.Proofs.Code.Layout

/-!
Static stack depths. Control reaches an offset with a number of values above the base of the call;
stretches of code that agree on the depths where they meet can be put together.
-/

namespace Reckoner

namespace Operation

def takes (op : Operation) (operand : Nat) : Nat :=
  match op with
  | .true | .false | .constant | .loadGlobal | .loadLocal | .jump | .loop => 0
  | .popN => operand
  | .call => operand + 1
  | .pop | .defineGlobal | .assignGlobal | .assignLocal | .negate | .not | .print | .jumpIfFalse
  | .return => 1
  | .equal | .greater | .less | .add | .subtract | .multiply | .divide | .exponent | .modulo => 2

def gives : Operation → Nat
  | .pop | .popN | .defineGlobal | .print | .jump | .loop | .return => 0
  | _ => 1

def depthAfter (op : Operation) (operand depth : Nat) : Nat := depth - op.takes operand + op.gives

def fallsThrough : Operation → Bool
  | .jump | .loop | .return => Bool.false
  | _ => Bool.true

end Operation

/-- Control can reach an offset of a routine with a number of values above the base of the call. It
starts with the callee and its arguments. -/
inductive Routine.Flows (r : Routine) : (offset depth : Nat) → Prop where
  | start {count : Nat} (arity : r.arity = count) : Flows r 0 (count + 1)
  | next {offset depth : Nat} {i : Instruction} {op : Operation} (reached : Flows r offset depth)
    (read : r.decodeAt offset = .ok i) (known : Operation.ofByte? i.byte = some op)
    (falls : op.fallsThrough = true) :
    Flows r (offset + i.size) (op.depthAfter (i.operand.getD 0) depth)
  | jump {offset depth target : Nat} {i : Instruction} (reached : Flows r offset depth)
    (read : r.decodeAt offset = .ok i) (leads : i.target = some (target : Int)) :
    Flows r target depth

namespace Script

def Directive.Refers (pool : Pool) (d : Directive) : Prop :=
  match d.op with
  | .constant =>
    (∃ n, d.operand = pool.find (.number n)) ∨ ∃ id, d.operand = pool.findRoutine id
  | .loadGlobal | .assignGlobal | .defineGlobal => ∃ name, d.operand = pool.find (.text name)
  | _ => True

/-- A directive can stand at an offset at a depth: it finds what it takes above slot zero, and it
leads only to offsets of the right depth. -/
structure Directive.Sound (pool : Pool) (depths : Nat → Nat → Prop) (p : Nat) (d : Directive)
    (depth : Nat) : Prop where
  refers : d.Refers pool
  slot : d.op.operand = .slot → d.operand < depth
  enough : d.op.takes d.operand < depth
  falls : d.op.fallsThrough = true → depths (p + d.size) (d.op.depthAfter d.operand depth)
  forward : d.op.operand = .jump → depths (p + d.size + d.operand) depth
  back : d.op.operand = .loop →
    d.operand ≤ p + d.size ∧ depths (p + d.size - d.operand) depth

theorem Directive.Sound.mono {pool : Pool} {depths wider : Nat → Nat → Prop} {p depth : Nat}
    {d : Directive} (sound : d.Sound pool depths p depth)
    (more : ∀ q e, depths q e → wider q e) : d.Sound pool wider p depth where
  refers := sound.refers
  slot := sound.slot
  enough := sound.enough
  falls := fun falls => more _ _ (sound.falls falls)
  forward := fun jumps => more _ _ (sound.forward jumps)
  back := fun loops => ⟨(sound.back loops).1, more _ _ (sound.back loops).2⟩

/-- The depth at an offset of some code, each directive given with the depth before it, or at the
end of the code. -/
def depthAt (final : Nat) : (p : Nat) → List (Directive × Nat) → Nat → Nat → Prop
  | p, [] => fun q e => q = p ∧ e = final
  | p, (d, depth) :: rest => fun q e => (q = p ∧ e = depth) ∨ depthAt final (p + d.size) rest q e

def SoundFrom (pool : Pool) (depths : Nat → Nat → Prop) : (p : Nat) → List (Directive × Nat) → Prop
  | _, [] => True
  | p, (d, depth) :: rest =>
    d.Sound pool depths p depth ∧ SoundFrom pool depths (p + d.size) rest

theorem SoundFrom.mono {pool : Pool} {depths wider : Nat → Nat → Prop}
    (more : ∀ q e, depths q e → wider q e) {p : Nat} {marks : List (Directive × Nat)}
    (sound : SoundFrom pool depths p marks) : SoundFrom pool wider p marks := by
  induction marks generalizing p with
  | nil => trivial
  | cons m rest ih => exact ⟨sound.1.mono more, ih sound.2⟩

theorem SoundFrom.append {pool : Pool} {depths : Nat → Nat → Prop} {p : Nat}
    {a b : List (Directive × Nat)} (first : SoundFrom pool depths p a)
    (second : SoundFrom pool depths (p + codeSize (a.map Prod.fst)) b) :
    SoundFrom pool depths p (a ++ b) := by
  induction a generalizing p with
  | nil => exact second
  | cons m rest ih =>
      refine ⟨first.1, ih first.2 ?_⟩
      rw [Nat.add_assoc]
      exact second

theorem depthAt_end (final p : Nat) (marks : List (Directive × Nat)) :
    depthAt final p marks (p + codeSize (marks.map Prod.fst)) final := by
  induction marks generalizing p with
  | nil => exact ⟨rfl, rfl⟩
  | cons m rest ih =>
      have inside := ih (p + m.1.size)
      rw [Nat.add_assoc] at inside
      exact .inr inside

theorem depthAt_append {final middle p q e : Nat} {a b : List (Directive × Nat)}
    (entry : depthAt final (p + codeSize (a.map Prod.fst)) b
      (p + codeSize (a.map Prod.fst)) middle)
    (inside : depthAt middle p a q e ∨ depthAt final (p + codeSize (a.map Prod.fst)) b q e) :
    depthAt final p (a ++ b) q e := by
  induction a generalizing p with
  | nil =>
      rcases inside with ⟨rfl, rfl⟩ | inside
      · exact entry
      · exact inside
  | cons m rest ih =>
      have sizes : p + codeSize ((m :: rest).map Prod.fst) =
          p + m.1.size + codeSize (rest.map Prod.fst) := by
        rw [List.map_cons, codeSize]
        omega
      rw [sizes] at entry inside
      rcases inside with (here | inside) | inside
      · exact .inl here
      · exact .inr (ih entry (.inl inside))
      · exact .inr (ih entry (.inr inside))

def MarkedAt (marks : List (Directive × Nat)) (p : Nat) (d : Directive) (depth : Nat) : Prop :=
  ∃ before after, marks = before ++ (d, depth) :: after ∧ codeSize (before.map Prod.fst) = p

theorem MarkedAt.cons {marks : List (Directive × Nat)} {p depth : Nat} {d : Directive}
    (marked : MarkedAt marks p d depth) (m : Directive × Nat) :
    MarkedAt (m :: marks) (m.1.size + p) d depth := by
  obtain ⟨before, after, rfl, rfl⟩ := marked
  exact ⟨m :: before, after, rfl, rfl⟩

theorem MarkedAt.stands {marks : List (Directive × Nat)} {p depth : Nat} {d : Directive}
    (marked : MarkedAt marks p d depth) : Stands (marks.map Prod.fst) p d := by
  obtain ⟨before, after, rfl, rfl⟩ := marked
  exact ⟨before.map Prod.fst, after.map Prod.fst, by simp, rfl⟩

theorem MarkedAt.unique {marks : List (Directive × Nat)} {p depth other : Nat} {d e : Directive}
    (first : MarkedAt marks p d depth) (second : MarkedAt marks p e other) : depth = other := by
  obtain ⟨before, after, rfl, rfl⟩ := first
  obtain ⟨before', after', same, sized⟩ := second
  induction before generalizing before' with
  | nil =>
      cases before' with
      | nil => exact congrArg Prod.snd (List.cons.inj same).1
      | cons x rest =>
          have := x.1.size_pos
          simp only [List.map_cons, List.map_nil, codeSize] at sized
          omega
  | cons x rest ih =>
      cases before' with
      | nil =>
          have := x.1.size_pos
          simp only [List.map_cons, List.map_nil, codeSize] at sized
          omega
      | cons y rest' =>
          obtain ⟨rfl, tails⟩ := List.cons.inj same
          simp only [List.map_cons, codeSize, Nat.add_left_cancel_iff] at sized
          exact ih rest' tails sized

theorem SoundFrom.sound {pool : Pool} {depths : Nat → Nat → Prop} {p q depth : Nat}
    {marks : List (Directive × Nat)} {d : Directive} (sound : SoundFrom pool depths p marks)
    (marked : MarkedAt marks q d depth) : d.Sound pool depths (p + q) depth := by
  obtain ⟨before, after, rfl, rfl⟩ := marked
  induction before generalizing p with
  | nil => exact sound.1
  | cons m rest ih =>
      have inner := ih sound.2
      rwa [Nat.add_assoc] at inner

theorem depthAt_marked {final p q e : Nat} {marks : List (Directive × Nat)} (last : Directive)
    (known : depthAt final p marks q e) :
    ∃ d r, q = p + r ∧ MarkedAt (marks ++ [(last, final)]) r d e := by
  induction marks generalizing p with
  | nil =>
      obtain ⟨rfl, rfl⟩ := known
      exact ⟨last, 0, rfl, [], [], rfl, rfl⟩
  | cons m rest ih =>
      rcases known with ⟨rfl, rfl⟩ | inner
      · exact ⟨m.1, 0, rfl, [], rest ++ [(last, final)], rfl, rfl⟩
      · obtain ⟨d, r, rfl, marked⟩ := ih inner
        exact ⟨d, m.1.size + r, Nat.add_assoc .., marked.cons m⟩

/-- Code at offset `p` takes the depth `d` to the depth `e`. Its jumps stay inside or lead to offsets
whose depth is known from outside; the depths at some offsets inside are known, too. -/
def Trail (pool : Pool) (out inner : Nat → Nat → Prop) (p : Nat) (code : List Directive)
    (d e : Nat) : Prop :=
  ∃ marks : List (Directive × Nat), marks.map Prod.fst = code ∧ depthAt e p marks p d ∧
    (∀ q c, inner q c → depthAt e p marks q c) ∧
    SoundFrom pool (fun q c => depthAt e p marks q c ∨ out q c) p marks

def Path (pool : Pool) (out : Nat → Nat → Prop) (p : Nat) (code : List Directive) (d e : Nat) :
    Prop := Trail pool out (fun _ _ => False) p code d e

section

variable {pool : Pool} {out wider inner : Nat → Nat → Prop} {p d e : Nat} {code : List Directive}

theorem Trail.append {a b : List Directive} {m : Nat} {first second : Nat → Nat → Prop}
    (left : Trail pool out first p a d m) (right : Trail pool out second (p + codeSize a) b m e) :
    Trail pool out
      (fun q c => first q c ∨ second q c ∨ (q = p + codeSize a ∧ c = m)) p (a ++ b) d e := by
  obtain ⟨marksA, rfl, entryA, innerA, soundA⟩ := left
  obtain ⟨marksB, rfl, entryB, innerB, soundB⟩ := right
  have inside : ∀ q c, depthAt m p marksA q c ∨
      depthAt e (p + codeSize (marksA.map Prod.fst)) marksB q c →
        depthAt e p (marksA ++ marksB) q c := fun q c => depthAt_append entryB
  refine ⟨marksA ++ marksB, List.map_append, inside _ _ (.inl entryA), ?_,
    .append (soundA.mono ?_) (soundB.mono ?_)⟩
  · rintro q c (known | known | ⟨rfl, rfl⟩)
    · exact inside q c (.inl (innerA q c known))
    · exact inside q c (.inr (innerB q c known))
    · exact inside _ _ (.inr entryB)
  · exact fun q c => .imp_left fun known => inside q c (.inl known)
  · exact fun q c => .imp_left fun known => inside q c (.inr known)

theorem Trail.retain {wanted : Nat → Nat → Prop} (trail : Trail pool out inner p code d e)
    (known : ∀ q c, out q c → wider q c ∨ inner q c ∨ (q = p ∧ c = d) ∨
      (q = p + codeSize code ∧ c = e))
    (less : ∀ q c, wanted q c → inner q c ∨ (q = p ∧ c = d) ∨ (q = p + codeSize code ∧ c = e)) :
    Trail pool wider wanted p code d e := by
  obtain ⟨marks, rfl, entry, inside, sound⟩ := trail
  have within : ∀ q c, inner q c ∨ (q = p ∧ c = d) ∨
      (q = p + codeSize (marks.map Prod.fst) ∧ c = e) → depthAt e p marks q c := by
    rintro q c (within | ⟨rfl, rfl⟩ | ⟨rfl, rfl⟩)
    · exact inside q c within
    · exact entry
    · exact depthAt_end c p marks
  refine ⟨marks, rfl, entry, fun q c wants => within q c (less q c wants), sound.mono ?_⟩
  rintro q c (here | outside)
  · exact .inl here
  · exact (known q c outside).symm.imp_left (within q c)

theorem Trail.close (trail : Trail pool out inner p code d e)
    (known : ∀ q c, out q c → wider q c ∨ inner q c ∨ (q = p ∧ c = d) ∨
      (q = p + codeSize code ∧ c = e)) : Path pool wider p code d e :=
  trail.retain known fun _ _ => False.elim

theorem Trail.widen (trail : Trail pool out inner p code d e) (more : ∀ q c, out q c → wider q c) :
    Trail pool wider inner p code d e :=
  trail.retain (fun q c outside => .inl (more q c outside)) fun _ _ => .inl

end

namespace Path

variable {pool : Pool} {out wider : Nat → Nat → Prop} {p d e : Nat} {code : List Directive}

theorem nil (pool : Pool) (out : Nat → Nat → Prop) (p d : Nat) : Path pool out p [] d d :=
  ⟨[], rfl, ⟨rfl, rfl⟩, fun _ _ => False.elim, trivial⟩

theorem of_sound {x : Directive}
    (sound : x.Sound pool (fun q c => (q = p + x.size ∧ c = e) ∨ out q c) p d) :
    Path pool out p [x] d e := by
  refine ⟨[(x, d)], rfl, .inl ⟨rfl, rfl⟩, fun _ _ => False.elim, sound.mono ?_, trivial⟩
  rintro q c (after | outside)
  · exact .inl (.inr after)
  · exact .inr outside

theorem widen (path : Path pool out p code d e) (more : ∀ q c, out q c → wider q c) :
    Path pool wider p code d e :=
  path.close fun q c outside => .inl (more q c outside)

theorem seq {a b : List Directive} {m : Nat} (first : Path pool out p a d m)
    (second : Path pool out (p + codeSize a) b m e)
    (known : ∀ q c, out q c → wider q c ∨ (q = p + codeSize a ∧ c = m) ∨ (q = p ∧ c = d) ∨
      (q = p + codeSize (a ++ b) ∧ c = e)) :
    Path pool wider p (a ++ b) d e :=
  (Trail.append first second).close fun q c outside =>
    (known q c outside).imp_right fun inside => inside.imp_left fun meets => .inr (.inr meets)

theorem append {a b : List Directive} {m : Nat} (first : Path pool out p a d m)
    (second : Path pool out (p + codeSize a) b m e) : Path pool out p (a ++ b) d e :=
  first.seq second fun _ _ => .inl

theorem plain {op : Operation} {n : Nat} (refers : Directive.Refers pool ⟨op, n⟩)
    (enough : op.takes n < d)
    (kind : op.operand ≠ .slot ∧ op.operand ≠ .jump ∧ op.operand ≠ .loop)
    (after : op.depthAfter n d = e) : Path pool out p [⟨op, n⟩] d e :=
  .of_sound {
    refers := refers
    slot := fun slot => absurd slot kind.1
    enough := enough
    falls := fun _ => .inl ⟨rfl, after⟩
    forward := fun jumps => absurd jumps kind.2.1
    back := fun loops => absurd loops kind.2.2 }

theorem pop (positive : 0 < d) : Path pool out p [⟨.pop, 0⟩] (d + 1) d :=
  .plain trivial (Nat.succ_lt_succ positive) (by decide) rfl

theorem loadLocal {slot : Nat} (inside : slot < d) : Path pool out p [⟨.loadLocal, slot⟩] d (d + 1) :=
  .of_sound ⟨trivial, fun _ => inside, Nat.zero_lt_of_lt inside, fun _ => .inl ⟨rfl, rfl⟩, nofun,
    nofun⟩

theorem assignLocal {slot : Nat} (inside : slot < d) :
    Path pool out p [⟨.assignLocal, slot⟩] (d + 1) (d + 1) :=
  .of_sound ⟨trivial, fun _ => Nat.lt_succ_of_lt inside, Nat.succ_lt_succ (Nat.zero_lt_of_lt inside),
    fun _ => .inl ⟨rfl, rfl⟩, nofun, nofun⟩

theorem jump {n : Nat} (positive : 0 < d) (leads : out (p + 3 + n) d) :
    Path pool out p [⟨.jump, n⟩] d e :=
  .of_sound {
    refers := trivial
    slot := nofun
    enough := positive
    falls := nofun
    forward := fun _ => .inr leads
    back := nofun }

theorem branch {n : Nat} (enough : 1 < d) (leads : out (p + 3 + n) d) :
    Path pool out p [⟨.jumpIfFalse, n⟩] d d :=
  .of_sound {
    refers := trivial
    slot := nofun
    enough := enough
    falls := fun _ => .inl ⟨rfl, Nat.sub_add_cancel (Nat.le_of_lt enough)⟩
    forward := fun _ => .inr leads
    back := nofun }

theorem loopBack {start : Nat} (positive : 0 < d) (before : start ≤ p + 3) (leads : out start d) :
    Path pool out p [loopBack p start] d e :=
  .of_sound {
    refers := trivial
    slot := nofun
    enough := positive
    falls := nofun
    forward := nofun
    back := by
      intro _
      have size : (Script.loopBack p start).size = 3 := rfl
      have operand : (Script.loopBack p start).operand = p + 3 - start := rfl
      rw [size, operand, show p + 3 - (p + 3 - start) = start by omega]
      exact ⟨by omega, .inr leads⟩ }

theorem final (enough : 1 < d) : Path pool out p [⟨.return, 0⟩] d e :=
  .of_sound ⟨trivial, nofun, enough, nofun, nofun, nofun⟩

theorem skip {a : List Directive} (enough : 1 < d) (inside : Path pool out (p + 3) a d d) :
    Path pool out p (⟨.jumpIfFalse, codeSize a⟩ :: a) d d := by
  let known := fun q c => out q c ∨ (q = p + 3 + codeSize a ∧ c = d)
  have first : Path pool known p [⟨.jumpIfFalse, codeSize a⟩] d d := .branch enough (.inr ⟨rfl, rfl⟩)
  refine first.seq (inside.widen fun _ _ => .inl) ?_
  rintro q c (outside | ⟨rfl, rfl⟩)
  · exact .inl outside
  · exact .inr (.inr (.inr ⟨by simp [codeSize, Directive.size, Operation.operand, Operand.width,
      Nat.add_assoc], rfl⟩))

end Path

theorem Trail.marks {pool : Pool} {inner : Nat → Nat → Prop} {d e : Nat} {code : List Directive}
    (trail : Trail pool (fun _ _ => False) inner 0 code d e) (enough : 1 < e) :
    ∃ marks : List (Directive × Nat), marks.map Prod.fst = code ++ [⟨.return, 0⟩] ∧
      (∃ x, MarkedAt marks 0 x d) ∧ (∀ q c, inner q c → ∃ x, MarkedAt marks q x c) ∧
      ∀ q x c, MarkedAt marks q x c → x.Sound pool (fun q c => ∃ y, MarkedAt marks q y c) q c := by
  obtain ⟨marks, rfl, entry, inside, sound⟩ := trail
  have present : ∀ q c, depthAt e 0 marks q c →
      ∃ y, MarkedAt (marks ++ [(⟨.return, 0⟩, e)]) q y c := by
    intro q c known
    obtain ⟨y, r, rfl, marked⟩ := depthAt_marked ⟨.return, 0⟩ known
    rw [Nat.zero_add]
    exact ⟨y, marked⟩
  refine ⟨marks ++ [(⟨.return, 0⟩, e)], by simp, present _ _ entry,
    fun q c known => present q c (inside q c known), ?_⟩
  intro q x c marked
  have whole : SoundFrom pool _ 0 (marks ++ [(⟨.return, 0⟩, e)]) :=
    (sound.mono fun q c known => present q c (known.resolve_right id)).append
      ⟨⟨trivial, nofun, enough, nofun, nofun, nofun⟩, trivial⟩
  have here := whole.sound marked
  rwa [Nat.zero_add] at here

/-- A branch to one of two stretches of code, after which they meet again. -/
theorem Trail.fork {pool : Pool} {out first second : Nat → Nat → Prop} {p d e : Nat}
    {a b : List Directive} (enough : 1 < d) (positive : 0 < e)
    (consequent : Trail pool out first (p + 3) a d e)
    (alternative : Trail pool out second (p + 3 + codeSize a + 3) b d e) :
    Trail pool out (fun q c => first q c ∨ second q c) p
      (⟨.jumpIfFalse, codeSize a + 3⟩ :: a ++ ⟨.jump, codeSize b⟩ :: b) d e := by
  let known := fun q c => out q c ∨ (q = p + 3 + codeSize a + 3 ∧ c = d) ∨
    (q = p + 3 + codeSize a + 3 + codeSize b ∧ c = e)
  have test : Path pool known p [⟨.jumpIfFalse, codeSize a + 3⟩] d d :=
    .branch enough (.inr (.inl ⟨by omega, rfl⟩))
  have across : Path pool known (p + 3 + codeSize a) [⟨.jump, codeSize b⟩] e d :=
    .jump positive (.inr (.inr ⟨rfl, rfl⟩))
  have lower : Trail pool known _ (p + 3 + codeSize a) ([⟨.jump, codeSize b⟩] ++ b) e e :=
    Trail.append across (alternative.widen fun _ _ => .inl)
  have whole : Trail pool known _ p
      ([⟨.jumpIfFalse, codeSize a + 3⟩] ++ (a ++ ([⟨.jump, codeSize b⟩] ++ b))) d e :=
    Trail.append test (Trail.append (consequent.widen fun _ _ => .inl) lower)
  refine Trail.retain whole ?_ ?_
  · rintro q c (outside | ⟨rfl, rfl⟩ | ⟨rfl, rfl⟩)
    · exact .inl outside
    · exact .inr (.inl (.inr (.inl (.inr (.inl (.inr (.inr ⟨rfl, rfl⟩)))))))
    · refine .inr (.inr (.inr ⟨?_, rfl⟩))
      simp only [codeSize_append, codeSize, Directive.size, Operation.operand, Operand.width]
      omega
  · rintro q c (inside | inside)
    · exact .inl (.inr (.inl (.inl inside)))
    · exact .inl (.inr (.inl (.inr (.inl (.inr (.inl inside))))))

theorem Path.fork {pool : Pool} {out : Nat → Nat → Prop} {p d e : Nat} {a b : List Directive}
    (enough : 1 < d) (positive : 0 < e) (consequent : Path pool out (p + 3) a d e)
    (alternative : Path pool out (p + 3 + codeSize a + 3) b d e) :
    Path pool out p (⟨.jumpIfFalse, codeSize a + 3⟩ :: a ++ ⟨.jump, codeSize b⟩ :: b) d e :=
  (Trail.fork enough positive consequent alternative).close fun _ _ => .inl

end Script

end Reckoner
