import TurtleCode.Proofs.LineMachine

/-!
# The structured meaning of statements

What a list of statements does, said without lines and addresses.  A statement runs to its end, or
it ends at a return, and then it is said which one: a `Place` leads to it through the statements
around it.

* `Setting.executes`, `Setting.executesAll`: the meaning of a statement and of a list, built from
  `Outcome.Seq`, `Outcome.Branch`, `Outcome.Loop` and `Outcome.Until`.  What assignments, calls and
  conditions do is again left open: it is the effect of their code.
* `Statement.lineCount`: how many lines a statement takes.
* `Statement.returnAt?`: the return at a place and the line it is on, counted from the first line.
  Two returns are never on one line (`Statement.returnAt?_inj`).
-/

namespace TurtleCode

/-- The way to a return: into the first statement of a list or past it, and into the body of a
compound statement or its `else` part. -/
inductive Place
  | here
  | first (p : Place)
  | later (p : Place)
  | body (p : Place)
  | otherwise (p : Place)

inductive Outcome (σ : Type)
  | done (state : σ)
  | returned (place : Place) (state : σ)

namespace Outcome

variable {σ : Type}

def via (step : Place → Place) : Outcome σ → Outcome σ
  | .done x => .done x
  | .returned p x => .returned (step p) x

theorem via_id (o : Outcome σ) : o.via id = o := by cases o <;> rfl

inductive Seq (R₁ R₂ : σ → Outcome σ → Prop) : σ → Outcome σ → Prop
  | next {x y : σ} {o : Outcome σ} : R₁ x (.done y) → R₂ y o → Seq R₁ R₂ x (o.via .later)
  | leave {x y : σ} {p : Place} : R₁ x (.returned p y) → Seq R₁ R₂ x (.returned (.first p) y)

inductive Branch (test : σ → Bool → σ → Prop) (R₁ R₂ : σ → Outcome σ → Prop) :
    σ → Outcome σ → Prop
  | holds {x y : σ} {o : Outcome σ} :
      test x true y → R₁ y o → Branch test R₁ R₂ x (o.via .body)
  | fails {x y : σ} {o : Outcome σ} :
      test x false y → R₂ y o → Branch test R₁ R₂ x (o.via .otherwise)

/-- As long as a condition holds, a block and then a step after it. -/
inductive Loop (test : σ → Bool → σ → Prop) (R : σ → Outcome σ → Prop) (after : σ → σ → Prop) :
    σ → Outcome σ → Prop
  | stop {x y : σ} : test x false y → Loop test R after x (.done y)
  | again {x y z w : σ} {o : Outcome σ} : test x true y → R y (.done z) → after z w →
      Loop test R after w o → Loop test R after x o
  | leave {x y z : σ} {p : Place} : test x true y → R y (.returned p z) →
      Loop test R after x (.returned (.body p) z)

/-- A block over and over until a condition holds after it. -/
inductive Until (R : σ → Outcome σ → Prop) (test : σ → Bool → σ → Prop) : σ → Outcome σ → Prop
  | stop {x y z : σ} : R x (.done y) → test y true z → Until R test x (.done z)
  | again {x y z : σ} {o : Outcome σ} : R x (.done y) → test y false z → Until R test z o →
      Until R test x o
  | leave {x y : σ} {p : Place} : R x (.returned p y) → Until R test x (.returned (.body p) y)

end Outcome

/-- The straight code at the start of a line. -/
def Line.straightPart (line : Line) : Line := line.takeWhile fun w => !w.movesControl

namespace Setting

variable {σ : Type}

def assigns (s : Setting) (e : Effects σ) (a : Assignment) (x y : σ) : Prop :=
  ∃ code, s.assignment a = .ok code ∧ e.run code x y

def calls (s : Setting) (e : Effects σ) (c : Call) (x y : σ) : Prop :=
  ∃ code, s.call c = .ok code ∧ e.run code x y

def tests (s : Setting) (e : Effects σ) (condition : Expression) (x : σ) (v : Bool)
    (y : σ) : Prop :=
  ∃ code, s.expression false condition = .ok code ∧ e.test code x v y

def returns (s : Setting) (e : Effects σ) (routine : Routine) (value : Option Expression)
    (x y : σ) : Prop :=
  ∃ line, s.returnLine value routine = .ok line ∧ e.run line.straightPart x y

mutual

/-- The meaning of a statement: from which state it can end how. -/
def executes (s : Setting) (e : Effects σ) (routine : Routine) :
    Statement → σ → Outcome σ → Prop
  | .assign a => fun x o => ∃ y, s.assigns e a x y ∧ o = .done y
  | .call c => fun x o => ∃ y, s.calls e c x y ∧ o = .done y
  | .ifElse condition thenBody elseBody =>
    Outcome.Branch (s.tests e condition) (s.executesAll e routine thenBody)
      (s.executesAll e routine elseBody)
  | .whileDo condition body =>
    Outcome.Loop (s.tests e condition) (s.executesAll e routine body) fun x y => y = x
  | .repeatUntil condition body =>
    Outcome.Until (s.executesAll e routine body) (s.tests e condition)
  | .forLoop initial condition change body => fun x o =>
    ∃ y, s.assigns e initial x y ∧
      Outcome.Loop (s.tests e condition) (s.executesAll e routine body) (s.assigns e change) y o
  | .ret value => fun x o => ∃ y, s.returns e routine value x y ∧ o = .returned .here y
  | .pass => fun x o => o = .done x

def executesAll (s : Setting) (e : Effects σ) (routine : Routine) :
    List Statement → σ → Outcome σ → Prop
  | [] => fun x o => o = .done x
  | head :: rest => Outcome.Seq (s.executes e routine head) (s.executesAll e routine rest)

end

end Setting

/-! ## The lines of statements -/

namespace Statement

mutual

def lineCount : Statement → Nat
  | .assign _ | .call _ | .ret _ => 1
  | .ifElse _ thenBody elseBody =>
    1 + lineCountAll thenBody + if elseBody.isEmpty then 0 else 1 + lineCountAll elseBody
  | .whileDo _ body => 2 + lineCountAll body
  | .repeatUntil _ body => 1 + lineCountAll body
  | .forLoop _ _ _ body => 3 + lineCountAll body
  | .pass => 0

def lineCountAll : List Statement → Nat
  | [] => 0
  | head :: rest => lineCount head + lineCountAll rest

end

mutual

/-- The return at a place in a statement: the line it is on, and its value. -/
def returnAt? : Statement → Place → Option (Nat × Option Expression)
  | .ret value, .here => some (0, value)
  | .ifElse _ thenBody _, .body p => (returnAtAll? thenBody p).map fun r => (1 + r.1, r.2)
  | .ifElse _ thenBody elseBody, .otherwise p =>
    (returnAtAll? elseBody p).map fun r => (2 + lineCountAll thenBody + r.1, r.2)
  | .whileDo _ body, .body p => (returnAtAll? body p).map fun r => (1 + r.1, r.2)
  | .repeatUntil _ body, .body p => returnAtAll? body p
  | .forLoop _ _ _ body, .body p => (returnAtAll? body p).map fun r => (2 + r.1, r.2)
  | _, _ => none

def returnAtAll? : List Statement → Place → Option (Nat × Option Expression)
  | head :: _, .first p => returnAt? head p
  | head :: rest, .later p => (returnAtAll? rest p).map fun r => (lineCount head + r.1, r.2)
  | _, _ => none

end

/-- What is known of a place inside a block, moved by the lines before the block. -/
theorem map_eq_some {found : Option (Nat × Option Expression)} {n k : Nat} {v : Option Expression}
    (h : (found.map fun r => (n + r.1, r.2)) = some (k, v)) :
    ∃ j, found = some (j, v) ∧ k = n + j := by
  obtain ⟨⟨j, w⟩, hf, he⟩ := Option.map_eq_some_iff.mp h
  cases he
  exact ⟨j, hf, rfl⟩

mutual

theorem returnAt?_lt : ∀ (st : Statement) (p : Place) {k : Nat} {v : Option Expression},
    returnAt? st p = some (k, v) → k < lineCount st
  | .ret value, .here, k, v, h => by
    cases h
    exact Nat.one_pos
  | .ifElse c thenBody elseBody, .body p, k, v, h => by
    obtain ⟨j, hj, rfl⟩ := map_eq_some h
    have := returnAtAll?_lt thenBody p hj
    rw [lineCount]
    omega
  | .ifElse c thenBody elseBody, .otherwise p, k, v, h => by
    obtain ⟨j, hj, rfl⟩ := map_eq_some h
    have hlt := returnAtAll?_lt elseBody p hj
    cases elseBody with
    | nil => cases hj
    | cons head rest =>
      rw [lineCount, List.isEmpty_cons, if_neg Bool.false_ne_true]
      omega
  | .whileDo c body, .body p, k, v, h => by
    obtain ⟨j, hj, rfl⟩ := map_eq_some h
    have := returnAtAll?_lt body p hj
    rw [lineCount]
    omega
  | .repeatUntil c body, .body p, k, v, h => by
    rw [returnAt?] at h
    have := returnAtAll?_lt body p h
    rw [lineCount]
    omega
  | .forLoop i c s body, .body p, k, v, h => by
    obtain ⟨j, hj, rfl⟩ := map_eq_some h
    have := returnAtAll?_lt body p hj
    rw [lineCount]
    omega

theorem returnAtAll?_lt : ∀ (ss : List Statement) (p : Place) {k : Nat} {v : Option Expression},
    returnAtAll? ss p = some (k, v) → k < lineCountAll ss
  | head :: rest, .first p, k, v, h => by
    have := returnAt?_lt head p h
    rw [lineCountAll]
    omega
  | head :: rest, .later p, k, v, h => by
    obtain ⟨j, hj, rfl⟩ := map_eq_some h
    have := returnAtAll?_lt rest p hj
    rw [lineCountAll]
    omega

end

mutual

/-- Two returns are never on one line. -/
theorem returnAt?_inj : ∀ (st : Statement) (p q : Place) {k : Nat} {v w : Option Expression},
    returnAt? st p = some (k, v) → returnAt? st q = some (k, w) → p = q
  | .ret value, .here, .here, k, v, w, hp, hq => rfl
  | .ifElse c thenBody elseBody, .body p, .body q, k, v, w, hp, hq => by
    obtain ⟨i, hi, rfl⟩ := map_eq_some hp
    obtain ⟨j, hj, e⟩ := map_eq_some hq
    obtain rfl : i = j := by omega
    rw [returnAtAll?_inj thenBody p q hi hj]
  | .ifElse c thenBody elseBody, .body p, .otherwise q, k, v, w, hp, hq => by
    obtain ⟨i, hi, rfl⟩ := map_eq_some hp
    obtain ⟨j, hj, e⟩ := map_eq_some hq
    have := returnAtAll?_lt thenBody p hi
    omega
  | .ifElse c thenBody elseBody, .otherwise p, .body q, k, v, w, hp, hq => by
    obtain ⟨i, hi, rfl⟩ := map_eq_some hp
    obtain ⟨j, hj, e⟩ := map_eq_some hq
    have := returnAtAll?_lt thenBody q hj
    omega
  | .ifElse c thenBody elseBody, .otherwise p, .otherwise q, k, v, w, hp, hq => by
    obtain ⟨i, hi, rfl⟩ := map_eq_some hp
    obtain ⟨j, hj, e⟩ := map_eq_some hq
    obtain rfl : i = j := by omega
    rw [returnAtAll?_inj elseBody p q hi hj]
  | .whileDo c body, .body p, .body q, k, v, w, hp, hq => by
    obtain ⟨i, hi, rfl⟩ := map_eq_some hp
    obtain ⟨j, hj, e⟩ := map_eq_some hq
    obtain rfl : i = j := by omega
    rw [returnAtAll?_inj body p q hi hj]
  | .repeatUntil c body, .body p, .body q, k, v, w, hp, hq => by
    rw [returnAt?] at hp hq
    rw [returnAtAll?_inj body p q hp hq]
  | .forLoop i c s body, .body p, .body q, k, v, w, hp, hq => by
    obtain ⟨i, hi, rfl⟩ := map_eq_some hp
    obtain ⟨j, hj, e⟩ := map_eq_some hq
    obtain rfl : i = j := by omega
    rw [returnAtAll?_inj body p q hi hj]

theorem returnAtAll?_inj : ∀ (ss : List Statement) (p q : Place) {k : Nat}
    {v w : Option Expression},
    returnAtAll? ss p = some (k, v) → returnAtAll? ss q = some (k, w) → p = q
  | head :: rest, .first p, .first q, k, v, w, hp, hq => by
    rw [returnAtAll?] at hp hq
    rw [returnAt?_inj head p q hp hq]
  | head :: rest, .first p, .later q, k, v, w, hp, hq => by
    obtain ⟨j, hj, rfl⟩ := map_eq_some hq
    have := returnAt?_lt head p hp
    omega
  | head :: rest, .later p, .first q, k, v, w, hp, hq => by
    obtain ⟨j, hj, rfl⟩ := map_eq_some hp
    have := returnAt?_lt head q hq
    omega
  | head :: rest, .later p, .later q, k, v, w, hp, hq => by
    obtain ⟨i, hi, rfl⟩ := map_eq_some hp
    obtain ⟨j, hj, e⟩ := map_eq_some hq
    obtain rfl : i = j := by omega
    rw [returnAtAll?_inj rest p q hi hj]

end

end Statement

end TurtleCode
