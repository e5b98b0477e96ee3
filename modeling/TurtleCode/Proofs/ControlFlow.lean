import TurtleCode.Proofs.Structured

/-!
# Lines do what the statements mean

The lines of a list of statements, placed where they were made for, run exactly as the structured
meaning says: control reaches the line after them in the same states, and it reaches the halt or
return of a return statement when, and only when, the statements end there.

* `Holds code start lines`: a program has these lines from `start` on.
* `Realises a b`: a block of lines is closed and runs exactly as some meaning says.  There is one
  lemma for each way of building a block (`Realises.seq`, `Realises.ifElse`, `Realises.loop`, ...).
* `Setting.statements_realise`: the lines of statements realise their meaning.
* `Setting.statements_run_iff`: the same, said without blocks.
-/

namespace TurtleCode

def Holds (code : Nat → Option Line) (start : Nat) (lines : List Line) : Prop :=
  ∀ i line, lines[i]? = some line → code (start + i) = some line

namespace Holds

variable {code : Nat → Option Line} {start : Nat} {line : Line} {lines more : List Line}

theorem head (h : Holds code start (line :: lines)) : code start = some line := h 0 line rfl

theorem tail (h : Holds code start (line :: lines)) : Holds code (start + 1) lines := by
  intro i l hl
  rw [Nat.add_assoc, Nat.add_comm 1 i]
  exact h (i + 1) l hl

theorem append_left (h : Holds code start (lines ++ more)) : Holds code start lines := by
  intro i l hl
  have hi : i < lines.length := (List.getElem?_eq_some_iff.mp hl).1
  exact h i l (by rw [List.getElem?_append_left hi, hl])

theorem append_right (h : Holds code start (lines ++ more)) :
    Holds code (start + lines.length) more := by
  intro i l hl
  rw [Nat.add_assoc]
  exact h (lines.length + i) l (by rw [List.getElem?_append_right (by omega)]; simpa using hl)

end Holds

/-! ## Blocks that realise a meaning -/

/-- Where the returns of a block are: the line, counted from its first line, and the value. -/
abbrev Returns := Place → Option (Nat × Option Expression)

variable {σ : Type}

inductive Answers (a b : Nat) (returnAt : Returns) : Outcome σ → Config σ → Prop
  | done (y : σ) : Answers a b returnAt (.done y) (.on b y)
  | returned {p : Place} {k : Nat} {v : Option Expression} (y : σ) : returnAt p = some (k, v) →
      Answers a b returnAt (.returned p y) (.left (a + k) y)

/-- The outcome of a block that starts `n` lines after `a`, seen from `a`. -/
theorem Answers.shift {a b n : Nat} {returnAt returnAt₁ : Returns} {into : Place → Place}
    {o : Outcome σ} {c : Config σ} (h : Answers (a + n) b returnAt₁ o c)
    (hp : ∀ p, returnAt (into p) = (returnAt₁ p).map fun r => (n + r.1, r.2)) :
    Answers a b returnAt (o.via into) c := by
  cases h with
  | done y => exact .done y
  | @returned p k v y hk =>
    rw [Nat.add_assoc]
    exact .returned y (v := v) (by rw [hp, hk]; rfl)

/-- The block from `a` to `b` runs exactly as `R` says. -/
structure Realises (e : Effects σ) (code : Nat → Option Line) (a b : Nat) (returnAt : Returns)
    (R : σ → Outcome σ → Prop) : Prop where
  closed : e.Closed code a b
  sound {x : σ} {o : Outcome σ} : R x o → ∃ n c, Answers a b returnAt o c ∧ e.Run code a b n a x c
  complete {n : Nat} {x : σ} {c : Config σ} : e.Run code a b n a x c →
    (∀ q y, c = .on q y → b ≤ q) → ∃ o, Answers a b returnAt o c ∧ R x o

namespace Effects

variable {e : Effects σ} {code : Nat → Option Line} {lo hi a b k n : Nat} {x : σ} {c : Config σ}

theorem Run.first (h : e.Run code lo hi n k x c) (hk : k < hi)
    (hend : ∀ q y, c = .on q y → hi ≤ q) :
    (∃ m k' y, n = m + 1 ∧ e.Step code k x (.on k' y) ∧ e.Run code lo hi m k' y c) ∨
      ∃ y, e.Step code k x (.left k y) ∧ c = .left k y := by
  cases h with
  | stop =>
    have := hend k x rfl
    omega
  | leave _ _ hs => exact .inr ⟨_, hs, rfl⟩
  | step _ _ hs hr => exact .inl ⟨_, _, _, rfl, hs, hr⟩

/-- A run from a closed block that ends where the larger block ends stays in the closed block. -/
theorem Run.restrict (hc : e.Closed code a b) (h : e.Run code lo b n k x c)
    (ha : a ≤ k) (hb : k ≤ b) (hend : ∀ q y, c = .on q y → b ≤ q) :
    ∃ m, e.Run code a b m k x c := by
  rcases h.split hc ha hb hend with ⟨y, m, m', _, r1, r2⟩ | ⟨_, _, _, r⟩
  · rw [r2.eq_of_outside (Nat.le_refl b)]
    exact ⟨m, r1⟩
  · exact ⟨n, r⟩

end Effects

namespace Realises

variable {e : Effects σ} {code : Nat → Option Line} {a b m : Nat}
  {returnAt returnAt₁ returnAt₂ : Returns} {R R₁ R₂ : σ → Outcome σ → Prop} {body step : Line}
  {target : Int64}

theorem run_done (h : Realises e code a b returnAt R) {x y : σ} (hr : R x (.done y)) :
    ∃ n, e.Run code a b n a x (.on b y) := by
  obtain ⟨n, c, ha, run⟩ := h.sound hr
  cases ha
  exact ⟨n, run⟩

theorem run_returned (h : Realises e code a b returnAt R) {x y : σ} {p : Place}
    (hr : R x (.returned p y)) :
    ∃ n k v, returnAt p = some (k, v) ∧ e.Run code a b n a x (.left (a + k) y) := by
  obtain ⟨n, c, ha, run⟩ := h.sound hr
  cases ha with
  | returned _ hp => exact ⟨n, _, _, hp, run⟩

theorem done_of_run (h : Realises e code a b returnAt R) {x y : σ} {n : Nat}
    (run : e.Run code a b n a x (.on b y)) : R x (.done y) := by
  obtain ⟨o, ha, hr⟩ := h.complete run fun q z he => by cases he; exact Nat.le_refl b
  cases ha
  exact hr

theorem returned_of_run (h : Realises e code a b returnAt R) {x y : σ} {n q : Nat}
    (run : e.Run code a b n a x (.left q y)) :
    ∃ p k v, returnAt p = some (k, v) ∧ q = a + k ∧ R x (.returned p y) := by
  obtain ⟨o, ha, hr⟩ := h.complete run fun q z he => by cases he
  cases ha with
  | returned _ hp => exact ⟨_, _, _, hp, rfl, hr⟩

/-- What a run from the first line of a realised block inside a larger one does: it goes through the
block to its end and on from there, or it ends at a return of the block. -/
theorem split (h : Realises e code a b returnAt R) (hab : a ≤ b) {lo hi n : Nat} {x : σ}
    {c : Config σ} (run : e.Run code lo hi n a x c) (hend : ∀ q y, c = .on q y → b ≤ q) :
    (∃ y m, m ≤ n ∧ R x (.done y) ∧ e.Run code lo hi m b y c) ∨
      ∃ p k v y, returnAt p = some (k, v) ∧ c = .left (a + k) y ∧ R x (.returned p y) := by
  rcases run.split h.closed (Nat.le_refl a) hab hend with ⟨y, n₁, m, hn, r1, r2⟩ | ⟨q, y, rfl, r⟩
  · exact .inl ⟨y, m, by omega, h.done_of_run r1, r2⟩
  · obtain ⟨p, k, v, hp, rfl, hr⟩ := h.returned_of_run r
    exact .inr ⟨p, k, v, y, hp, rfl, hr⟩

/-! ### Single lines -/

theorem empty (e : Effects σ) (code : Nat → Option Line) (a : Nat) (returnAt : Returns) :
    Realises e code a a returnAt fun x o => o = .done x where
  closed k x c h1 h2 _ := by omega
  sound {x o} h := by
    subst h
    exact ⟨0, _, .done x, .stop⟩
  complete {n x c} h _ := by
    rw [h.eq_of_outside (Nat.le_refl a)]
    exact ⟨_, .done x, rfl⟩

theorem cons (hc : code a = some body) (hb : body.Straight) (hab : a + 1 ≤ b)
    (h : Realises e code (a + 1) b returnAt₁ R)
    (hp : ∀ p, returnAt p = (returnAt₁ p).map fun r => (1 + r.1, r.2)) :
    Realises e code a b returnAt fun x o => ∃ y, e.run body x y ∧ R y o := by
  have hc' : code a = some (body ++ Exit.next.words) := by rw [hc, Exit.words, List.append_nil]
  refine ⟨?_, ?_, ?_⟩
  · intro k x c h1 h2 hs
    rcases Nat.eq_or_lt_of_le h1 with rfl | hk
    · obtain ⟨y, _, rfl⟩ := (Effects.step_iff hc' hb).mp hs
      exact .inl ⟨a + 1, y, rfl, by omega, hab⟩
    · exact h.closed.widen (by omega) (by omega) hk h2 hs
  · rintro x o ⟨y, hy, hr⟩
    have first : e.Step code a x (.on (a + 1) y) := (Effects.step_iff hc' hb).mpr ⟨y, hy, rfl⟩
    obtain ⟨n, c, ha, run⟩ := h.sound hr
    exact ⟨n + 1, c, o.via_id ▸ ha.shift hp,
      .step (Nat.le_refl a) (by omega) first (run.mono (by omega) (Nat.le_refl b))⟩
  · intro n x c run hend
    rcases run.first (by omega) hend with ⟨m, k', y, rfl, hs, r⟩ | ⟨y, hs, rfl⟩
    · obtain ⟨y', hy, he⟩ := (Effects.step_iff hc' hb).mp hs
      cases he
      obtain ⟨m', r'⟩ := r.restrict h.closed (Nat.le_refl _) hab hend
      obtain ⟨o, ha, hr⟩ := h.complete r' hend
      exact ⟨o, o.via_id ▸ ha.shift hp, y, hy, hr⟩
    · obtain ⟨_, _, he⟩ := (Effects.step_iff hc' hb).mp hs
      cases he

theorem single (hc : code a = some body) (hb : body.Straight) (returnAt : Returns)
    (hp : ∀ p, returnAt p = none) :
    Realises e code a (a + 1) returnAt fun x o => ∃ y, e.run body x y ∧ o = .done y :=
  cons hc hb (Nat.le_refl _) (empty e code (a + 1) fun _ => none) hp

theorem leave {exit : Exit} (hc : code a = some (body ++ exit.words)) (hb : body.Straight)
    (he : ∀ x c, exit.Leads e body a x c ↔ ∃ y, e.run body x y ∧ c = .left a y)
    {v : Option Expression} (hp : returnAt .here = some (0, v)) :
    Realises e code a (a + 1) returnAt fun x o => ∃ y, e.run body x y ∧ o = .returned .here y := by
  have hs (x : σ) (c : Config σ) : e.Step code a x c ↔ ∃ y, e.run body x y ∧ c = .left a y :=
    (Effects.step_iff hc hb).trans (he x c)
  refine ⟨?_, ?_, ?_⟩
  · intro k x c h1 h2 hk
    obtain rfl : a = k := by omega
    obtain ⟨y, _, rfl⟩ := (hs x c).mp hk
    exact .inr ⟨y, rfl⟩
  · rintro x o ⟨y, hy, rfl⟩
    exact ⟨1, _, .returned y hp, .leave (Nat.le_refl a) (by omega) ((hs x _).mpr ⟨y, hy, rfl⟩)⟩
  · intro n x c run hend
    rcases run.first (by omega) hend with ⟨m, k', y, _, hk, _⟩ | ⟨y, hk, rfl⟩
    · obtain ⟨_, _, h⟩ := (hs x _).mp hk
      cases h
    · obtain ⟨_, hy, h⟩ := (hs x _).mp hk
      cases h
      exact ⟨_, .returned y hp, y, hy, rfl⟩

/-! ### Blocks one after another -/

theorem seq {n : Nat} (h₁ : Realises e code a (a + n) returnAt₁ R₁)
    (h₂ : Realises e code (a + n) b returnAt₂ R₂) (hab : a + n ≤ b)
    (hf : ∀ p, returnAt (.first p) = returnAt₁ p)
    (hl : ∀ p, returnAt (.later p) = (returnAt₂ p).map fun r => (n + r.1, r.2)) :
    Realises e code a b returnAt (Outcome.Seq R₁ R₂) := by
  refine ⟨?_, ?_, ?_⟩
  · intro k x c h1 h2 hs
    rcases Nat.lt_or_ge k (a + n) with hk | hk
    · exact h₁.closed.widen (by omega) (by omega) h1 hk hs
    · exact h₂.closed.widen (by omega) (by omega) hk h2 hs
  · intro x o ho
    cases ho with
    | @next y o hr₁ hr₂ =>
      obtain ⟨n₁, r₁⟩ := h₁.run_done hr₁
      obtain ⟨n₂, c, ha, r₂⟩ := h₂.sound hr₂
      exact ⟨n₁ + n₂, c, ha.shift hl,
        (r₁.mono (Nat.le_refl a) hab).trans (r₂.mono (by omega) (Nat.le_refl b))⟩
    | @leave y p hr =>
      obtain ⟨n₁, k, v, hk, r⟩ := h₁.run_returned hr
      exact ⟨n₁, _, .returned y (by rw [hf, hk]), r.mono (Nat.le_refl a) hab⟩
  · intro N x c run hend
    have hend' : ∀ q y, c = .on q y → a + n ≤ q := fun q y hq => Nat.le_trans hab (hend q y hq)
    rcases h₁.split (by omega) run hend' with ⟨y, m, _, hr₁, r⟩ | ⟨p, k, v, y, hp, rfl, hr⟩
    · obtain ⟨m', r'⟩ := r.restrict h₂.closed (Nat.le_refl _) hab hend
      obtain ⟨o, ha, hr₂⟩ := h₂.complete r' hend
      exact ⟨_, ha.shift hl, .next hr₁ hr₂⟩
    · exact ⟨_, .returned y (by rw [hf, hp]), .leave hr⟩

/-! ### Branches -/

theorem ifThen (hc : code a = some (body ++ Exit.words (.unless target))) (hb : body.Straight)
    (ht : Address.ofOperand target = b) (hab : a + 1 ≤ b)
    (h : Realises e code (a + 1) b returnAt₁ R)
    (hp : ∀ p, returnAt (.body p) = (returnAt₁ p).map fun r => (1 + r.1, r.2)) :
    Realises e code a b returnAt
      (Outcome.Branch (e.test body) R fun x o => o = .done x) := by
  have hs (x : σ) (c : Config σ) : e.Step code a x c ↔
      ∃ v y, e.test body x v y ∧ c = .on (if v then a + 1 else b) y := by
    rw [Effects.step_iff hc hb, Exit.Leads, ht]
  refine ⟨?_, ?_, ?_⟩
  · intro k x c h1 h2 hk
    rcases Nat.eq_or_lt_of_le h1 with rfl | h1
    · obtain ⟨v, y, _, rfl⟩ := (hs x c).mp hk
      exact .inl ⟨_, y, rfl, by split <;> omega, by split <;> omega⟩
    · exact h.closed.widen (by omega) (by omega) h1 h2 hk
  · intro x o ho
    cases ho with
    | @holds y o hv hr =>
      obtain ⟨n, c, ha, run⟩ := h.sound hr
      exact ⟨n + 1, c, ha.shift hp, .step (Nat.le_refl a) (by omega)
        ((hs x _).mpr ⟨true, y, hv, rfl⟩) (run.mono (by omega) (Nat.le_refl b))⟩
    | @fails y o hv hr =>
      subst hr
      exact ⟨1, _, .done y, .single (Nat.le_refl a) (by omega) ((hs x _).mpr ⟨false, y, hv, rfl⟩)⟩
  · intro n x c run hend
    rcases run.first (by omega) hend with ⟨m, k', y, _, hk, r⟩ | ⟨y, hk, rfl⟩
    · obtain ⟨v, y', hv, he⟩ := (hs x _).mp hk
      cases he
      cases v with
      | true =>
        obtain ⟨m', r'⟩ := r.restrict h.closed (Nat.le_refl _) hab hend
        obtain ⟨o, ha, hr⟩ := h.complete r' hend
        exact ⟨_, ha.shift hp, .holds hv hr⟩
      | false =>
        rw [r.eq_of_outside (Nat.le_refl b)]
        exact ⟨.done y, .done y, .fails (o := .done y) hv rfl⟩
    · obtain ⟨_, _, _, he⟩ := (hs x _).mp hk
      cases he

theorem ifElse {back : Int64} (hc : code a = some (body ++ Exit.words (.unless target)))
    (hb : body.Straight) (ht : Address.ofOperand target = m + 1)
    (hj : code m = some (Exit.words (.jump back))) (hback : Address.ofOperand back = b)
    (ham : a + 1 ≤ m) (hmb : m + 1 ≤ b)
    (h₁ : Realises e code (a + 1) m returnAt₁ R₁) (h₂ : Realises e code (m + 1) b returnAt₂ R₂)
    (hp₁ : ∀ p, returnAt (.body p) = (returnAt₁ p).map fun r => (1 + r.1, r.2))
    (hp₂ : ∀ p, returnAt (.otherwise p) = (returnAt₂ p).map fun r => (m + 1 - a + r.1, r.2)) :
    Realises e code a b returnAt (Outcome.Branch (e.test body) R₁ R₂) := by
  have hs (x : σ) (c : Config σ) : e.Step code a x c ↔
      ∃ v y, e.test body x v y ∧ c = .on (if v then a + 1 else m + 1) y := by
    rw [Effects.step_iff hc hb, Exit.Leads, ht]
  have hskip (x : σ) (c : Config σ) : e.Step code m x c ↔ c = .on b x := by
    have hj' : code m = some ([] ++ Exit.words (.jump back)) := hj
    rw [Effects.step_iff hj' .nil, Exit.Leads, hback]
    simp only [e.run_nil, exists_eq_left]
  refine ⟨?_, ?_, ?_⟩
  · intro k x c h1 h2 hk
    rcases Nat.eq_or_lt_of_le h1 with rfl | h1
    · obtain ⟨v, y, _, rfl⟩ := (hs x c).mp hk
      exact .inl ⟨_, y, rfl, by split <;> omega, by split <;> omega⟩
    rcases Nat.lt_trichotomy k m with hm | rfl | hm
    · exact h₁.closed.widen (by omega) (by omega) h1 hm hk
    · obtain rfl := (hskip x c).mp hk
      exact .inl ⟨b, x, rfl, by omega, Nat.le_refl b⟩
    · exact h₂.closed.widen (by omega) (by omega) hm h2 hk
  · intro x o ho
    cases ho with
    | @holds y o hv hr =>
      have first := (hs x _).mpr ⟨true, y, hv, rfl⟩
      cases o with
      | done z =>
        obtain ⟨n, r⟩ := h₁.run_done hr
        refine ⟨n + 1 + 1, _, .done z, .step (Nat.le_refl a) (by omega) first ?_⟩
        exact (r.mono (by omega) (by omega)).trans
          (.single (by omega) (by omega) ((hskip z _).mpr rfl))
      | returned p z =>
        obtain ⟨n, k, v, hk, r⟩ := h₁.run_returned hr
        refine ⟨n + 1, _, ?_, .step (Nat.le_refl a) (by omega) first (r.mono (by omega) (by omega))⟩
        exact (Answers.returned (b := b) z hk).shift hp₁
    | @fails y o hv hr =>
      obtain ⟨n, c, ha, run⟩ := h₂.sound hr
      rw [show m + 1 = a + (m + 1 - a) by omega] at ha
      exact ⟨n + 1, c, ha.shift hp₂,
        .step (Nat.le_refl a) (by omega) ((hs x _).mpr ⟨false, y, hv, rfl⟩)
          (run.mono (by omega) (Nat.le_refl b))⟩
  · intro n x c run hend
    rcases run.first (by omega) hend with ⟨n', k', y, _, hk, r⟩ | ⟨y, hk, rfl⟩
    · obtain ⟨v, y', hv, he⟩ := (hs x _).mp hk
      cases he
      cases v with
      | true =>
        have hend' : ∀ q y, c = .on q y → m ≤ q := fun q y hq => by have := hend q y hq; omega
        rcases h₁.split ham r hend' with ⟨z, m', _, hr, r'⟩ | ⟨p, k, v, z, hk', rfl, hr⟩
        · -- the block is left at the jump over the other one
          rcases r'.first (by omega) hend with ⟨_, k'', w, _, hk', r''⟩ | ⟨w, hk', _⟩
          · cases (hskip z _).mp hk'
            rw [r''.eq_of_outside (Nat.le_refl b)]
            exact ⟨_, .done z, .holds hv hr⟩
          · cases (hskip z _).mp hk'
        · exact ⟨_, (Answers.returned (b := b) z hk').shift hp₁, .holds hv hr⟩
      | false =>
        obtain ⟨m', r'⟩ := r.restrict h₂.closed (Nat.le_refl _) hmb hend
        obtain ⟨o, ha, hr⟩ := h₂.complete r' hend
        rw [show m + 1 = a + (m + 1 - a) by omega] at ha
        exact ⟨_, ha.shift hp₂, .fails hv hr⟩
    · obtain ⟨_, _, _, he⟩ := (hs x _).mp hk
      cases he

/-! ### Loops -/

theorem loop {back : Int64} (hc : code a = some (body ++ Exit.words (.unless target)))
    (hb : body.Straight) (ht : Address.ofOperand target = m + 1)
    (hj : code m = some (step ++ Exit.words (.jump back))) (hstep : step.Straight)
    (hback : Address.ofOperand back = a) (ham : a + 1 ≤ m)
    (h : Realises e code (a + 1) m returnAt₁ R)
    (hp : ∀ p, returnAt (.body p) = (returnAt₁ p).map fun r => (1 + r.1, r.2)) :
    Realises e code a (m + 1) returnAt (Outcome.Loop (e.test body) R (e.run step)) := by
  have hs (x : σ) (c : Config σ) : e.Step code a x c ↔
      ∃ v y, e.test body x v y ∧ c = .on (if v then a + 1 else m + 1) y := by
    rw [Effects.step_iff hc hb, Exit.Leads, ht]
  have hturn (x : σ) (c : Config σ) : e.Step code m x c ↔ ∃ y, e.run step x y ∧ c = .on a y := by
    rw [Effects.step_iff hj hstep, Exit.Leads, hback]
  refine ⟨?_, ?_, ?_⟩
  · intro k x c h1 h2 hk
    rcases Nat.eq_or_lt_of_le h1 with rfl | h1
    · obtain ⟨v, y, _, rfl⟩ := (hs x c).mp hk
      exact .inl ⟨_, y, rfl, by split <;> omega, by split <;> omega⟩
    rcases Nat.lt_or_ge k m with hm | hm
    · exact h.closed.widen (by omega) (by omega) h1 hm hk
    · obtain rfl : k = m := by omega
      obtain ⟨y, _, rfl⟩ := (hturn x c).mp hk
      exact .inl ⟨a, y, rfl, Nat.le_refl a, by omega⟩
  · intro x o ho
    induction ho with
    | @stop x y hv =>
      exact ⟨1, _, .done y, .single (Nat.le_refl a) (by omega) ((hs x _).mpr ⟨false, y, hv, rfl⟩)⟩
    | @again x y z w o hv hr hw _ ih =>
      obtain ⟨n, r⟩ := h.run_done hr
      obtain ⟨n', c, ha, r'⟩ := ih
      have turn := (hturn z _).mpr ⟨w, hw, rfl⟩
      refine ⟨n + (n' + 1) + 1, c, ha, .step (Nat.le_refl a) (by omega)
        ((hs x _).mpr ⟨true, y, hv, rfl⟩) ?_⟩
      exact (r.mono (by omega) (by omega)).trans (.step (by omega) (by omega) turn r')
    | @leave x y z p hv hr =>
      obtain ⟨n, k, v, hk, r⟩ := h.run_returned hr
      refine ⟨n + 1, _, (Answers.returned (b := m + 1) z hk).shift hp,
        .step (Nat.le_refl a) (by omega) ((hs x _).mpr ⟨true, y, hv, rfl⟩)
          (r.mono (by omega) (by omega))⟩
  · -- each pass takes at least one line, so the induction is on the number of lines run
    intro n
    induction n using Nat.strongRecOn with
    | ind n ih =>
      intro x c run hend
      rcases run.first (by omega) hend with ⟨n', k', y, rfl, hk, r⟩ | ⟨y, hk, rfl⟩
      · obtain ⟨v, y', hv, he⟩ := (hs x _).mp hk
        cases he
        cases v with
        | false =>
          rw [r.eq_of_outside (Nat.le_refl _)]
          exact ⟨_, .done y, .stop hv⟩
        | true =>
          have hend' : ∀ q y, c = .on q y → m ≤ q := fun q y hq => by have := hend q y hq; omega
          rcases h.split ham r hend' with ⟨z, m', hm', hr, r'⟩ | ⟨p, k, v, z, hk', rfl, hr⟩
          · rcases r'.first (by omega) hend with ⟨m'', k'', w, rfl, hk', r''⟩ | ⟨w, hk', _⟩
            · obtain ⟨w', hw, he⟩ := (hturn z _).mp hk'
              cases he
              obtain ⟨o, ha, hl⟩ := ih m'' (by omega) r'' hend
              exact ⟨o, ha, .again hv hr hw hl⟩
            · obtain ⟨_, _, he⟩ := (hturn z _).mp hk'
              cases he
          · exact ⟨_, (Answers.returned (b := m + 1) z hk').shift hp, .leave hv hr⟩
      · obtain ⟨_, _, _, he⟩ := (hs x _).mp hk
        cases he

theorem repeatUntil (h : Realises e code a m returnAt₁ R) (ham : a ≤ m)
    (hc : code m = some (body ++ Exit.words (.unless target))) (hb : body.Straight)
    (ht : Address.ofOperand target = a) (hp : ∀ p, returnAt (.body p) = returnAt₁ p) :
    Realises e code a (m + 1) returnAt (Outcome.Until R (e.test body)) := by
  have hs (x : σ) (c : Config σ) : e.Step code m x c ↔
      ∃ v y, e.test body x v y ∧ c = .on (if v then m + 1 else a) y := by
    rw [Effects.step_iff hc hb, Exit.Leads, ht]
  refine ⟨?_, ?_, ?_⟩
  · intro k x c h1 h2 hk
    rcases Nat.lt_or_ge k m with hm | hm
    · exact h.closed.widen (by omega) (by omega) h1 hm hk
    · obtain rfl : k = m := by omega
      obtain ⟨v, y, _, rfl⟩ := (hs x c).mp hk
      exact .inl ⟨_, y, rfl, by split <;> omega, by split <;> omega⟩
  · intro x o ho
    induction ho with
    | @stop x y z hr hv =>
      obtain ⟨n, r⟩ := h.run_done hr
      exact ⟨n + 1, _, .done z, (r.mono (Nat.le_refl a) (by omega)).trans
        (.single ham (by omega) ((hs y _).mpr ⟨true, z, hv, rfl⟩))⟩
    | @again x y z o hr hv _ ih =>
      obtain ⟨n, r⟩ := h.run_done hr
      obtain ⟨n', c, ha, r'⟩ := ih
      exact ⟨n + (n' + 1), c, ha, (r.mono (Nat.le_refl a) (by omega)).trans
        (.step ham (by omega) ((hs y _).mpr ⟨false, z, hv, rfl⟩) r')⟩
    | @leave x y p hr =>
      obtain ⟨n, k, v, hk, r⟩ := h.run_returned hr
      exact ⟨n, _, .returned y (by rw [hp, hk]), r.mono (Nat.le_refl a) (by omega)⟩
  · intro n
    induction n using Nat.strongRecOn with
    | ind n ih =>
      intro x c run hend
      have hend' : ∀ q y, c = .on q y → m ≤ q := fun q y hq => by have := hend q y hq; omega
      rcases h.split ham run hend' with ⟨y, n', hn, hr, r⟩ | ⟨p, k, v, y, hk, rfl, hr⟩
      · rcases r.first (by omega) hend with ⟨n'', k', z, rfl, hk, r'⟩ | ⟨z, hk, _⟩
        · obtain ⟨v, z', hv, he⟩ := (hs y _).mp hk
          cases he
          cases v with
          | true =>
            rw [r'.eq_of_outside (Nat.le_refl _)]
            exact ⟨_, .done z, .stop hr hv⟩
          | false =>
            obtain ⟨o, ha, hl⟩ := ih n'' (by omega) r' hend
            exact ⟨o, ha, .again hr hv hl⟩
        · obtain ⟨_, _, _, he⟩ := (hs y _).mp hk
          cases he
      · exact ⟨_, .returned y (by rw [hp, hk]), .leave hr⟩

end Realises

/-! ## Statements -/

namespace Setting

variable {s : Setting} {routine : Routine}

mutual

theorem statement_length : ∀ (st : Statement) {start : Nat} {lines : List Line},
    s.statement routine start st = .ok lines → lines.length = st.lineCount
  | .assign a, start, lines, h => by
    obtain ⟨code, _, rfl⟩ := statement_assign_ok h
    rfl
  | .call c, start, lines, h => by
    obtain ⟨code, _, rfl⟩ := statement_call_ok h
    rfl
  | .ret value, start, lines, h => by
    obtain ⟨line, _, rfl⟩ := statement_ret_ok h
    rfl
  | .pass, start, lines, h => by
    rw [statement_pass_ok h]
    rfl
  | .ifElse c thenBody elseBody, start, lines, h => by
    obtain ⟨test, thenLines, _, ht, h⟩ := statement_ifElse_ok h
    have hlen := statements_length thenBody ht
    rcases h with ⟨rfl, _, rfl⟩ | ⟨elseLines, hne, he, _, rfl⟩
    · rw [Statement.lineCount, List.isEmpty_nil, if_pos rfl, List.length_cons]
      omega
    · have hlen' := statements_length elseBody he
      rw [Statement.lineCount, if_neg (by simpa using hne)]
      simp only [List.length_append, List.length_cons]
      omega
  | .whileDo c body, start, lines, h => by
    obtain ⟨test, bodyLines, _, hl, _, rfl⟩ := statement_whileDo_ok h
    have hlen := statements_length body hl
    rw [Statement.lineCount]
    simp only [List.length_append, List.length_cons, List.length_nil]
    omega
  | .repeatUntil c body, start, lines, h => by
    obtain ⟨test, bodyLines, _, hl, rfl⟩ := statement_repeatUntil_ok h
    have hlen := statements_length body hl
    rw [Statement.lineCount]
    simp only [List.length_append, List.length_cons, List.length_nil]
    omega
  | .forLoop i c a body, start, lines, h => by
    obtain ⟨first, test, step, bodyLines, _, _, _, hl, _, rfl⟩ := statement_forLoop_ok h
    have hlen := statements_length body hl
    rw [Statement.lineCount]
    simp only [List.length_append, List.length_cons, List.length_nil]
    omega

theorem statements_length : ∀ (ss : List Statement) {start : Nat} {lines : List Line},
    s.statements routine start ss = .ok lines → lines.length = Statement.lineCountAll ss
  | [], start, lines, h => by
    rw [statements_nil_ok h]
    rfl
  | head :: rest, start, lines, h => by
    obtain ⟨here, more, _, hh, hm, rfl⟩ := statements_cons_ok h
    rw [Statement.lineCountAll, List.length_append, statement_length head hh,
      statements_length rest hm]

end

theorem returnLine_reading {value : Option Expression} {line : Line}
    (hx : ∀ x ∈ (Statement.ret value).sites, x.Obeys Line.Straight)
    (h : s.returnLine value routine = .ok line) :
    ∃ (body : Line) (exit : Exit), line = body ++ exit.words ∧ body.Straight ∧
      (exit = .halt ∨ exit = .retn) := by
  have law := Line.Straight.codeLaw s
  cases routine with
  | program p =>
    obtain rfl := Except.ok.inj h
    exact ⟨[], .halt, rfl, law.nil, .inl rfl⟩
  | subroutine sub =>
    obtain ⟨result, pointer, _, rfl, hr⟩ := returnLine_subroutine_ok h
    refine ⟨result ++ instr .memr [pointer], .retn, (List.append_assoc _ _ _).symm,
      .append ?_ (.of_instr rfl _), .inr rfl⟩
    rcases hr with hr | ⟨ev, first, cell, rfl, hf, _, rfl⟩
    · exact law.copyResult hr
    · exact law.append (law.expression ev hx hf) (law.ordinary rfl rfl)

variable {e : Effects σ} {code : Line}

theorem assigns_eq {a : Assignment} (h : s.assignment a = .ok code) :
    s.assigns e a = e.run code := by
  funext x y
  simp [assigns, h]

theorem calls_eq {c : Call} (h : s.call c = .ok code) : s.calls e c = e.run code := by
  funext x y
  simp [calls, h]

theorem tests_eq {condition : Expression} (h : s.expression false condition = .ok code) :
    s.tests e condition = e.test code := by
  funext x v y
  simp [tests, h]

theorem returns_eq {value : Option Expression} {body : Line} {exit : Exit}
    (h : s.returnLine value routine = .ok (body ++ exit.words)) (hb : body.Straight) :
    s.returns e routine value = e.run body := by
  funext x y
  simp [returns, h, Line.straightPart, hb.takeWhile exit]

mutual

/-- **The lines of a statement realise its meaning.** -/
theorem statement_realise {code : Nat → Option Line} : ∀ (st : Statement) {start : Nat}
    {lines : List Line}, start < UInt64.size → (∀ x ∈ st.sites, x.Obeys Line.Straight) →
    s.statement routine start st = .ok lines → Holds code start lines →
    Realises e code start (start + lines.length) st.returnAt? (s.executes e routine st)
  | .assign a, start, lines, _, hx, h, hc => by
    obtain ⟨body, hb, rfl⟩ := statement_assign_ok h
    rw [executes, assigns_eq hb]
    have straight := (Line.Straight.codeLaw s).assignment hx hb
    exact Realises.single hc.head straight _ fun p => by cases p <;> rfl
  | .call c, start, lines, _, hx, h, hc => by
    obtain ⟨body, hb, rfl⟩ := statement_call_ok h
    rw [executes, calls_eq hb]
    have straight := (Line.Straight.codeLaw s).call' hx hb
    exact Realises.single hc.head straight _ fun p => by cases p <;> rfl
  | .ret value, start, lines, _, hx, h, hc => by
    obtain ⟨line, hl, rfl⟩ := statement_ret_ok h
    obtain ⟨body, exit, rfl, hb, hexit⟩ := returnLine_reading hx hl
    rw [executes, returns_eq hl hb]
    refine Realises.leave hc.head hb (fun x c => ?_) (v := value) rfl
    rcases hexit with rfl | rfl <;> exact Iff.rfl
  | .pass, start, lines, _, _, h, hc => by
    rw [statement_pass_ok h, executes]
    exact Realises.empty e code start _
  | .ifElse condition thenBody elseBody, start, lines, _, hx, h, hc => by
    rw [Statement.sites] at hx
    obtain ⟨test, thenLines, ht, hthen, h⟩ := statement_ifElse_ok h
    have straight := (Line.Straight.codeLaw s).expression condition
      (fun x hm => hx x (List.mem_append_left _ (List.mem_append_left _ hm))) ht
    have hxThen : ∀ x ∈ Statement.allSites thenBody, x.Obeys Line.Straight :=
      fun x hm => hx x (List.mem_append_left _ (List.mem_append_right _ hm))
    rw [executes, tests_eq ht]
    rcases h with ⟨rfl, hlt, rfl⟩ | ⟨elseLines, _, helse, hlt, rfl⟩
    · have block := statements_realise thenBody hxThen hthen hc.tail
      rw [List.length_cons,
        show start + (thenLines.length + 1) = start + 1 + thenLines.length by omega, executesAll]
      exact Realises.ifThen hc.head straight (Address.ofOperand_operand hlt) (by omega) block
        fun p => rfl
    · have hall := hc.tail
      have block₁ := statements_realise thenBody hxThen hthen hall.append_left
      have block₂ :=
        statements_realise elseBody (fun x hm => hx x (List.mem_append_right _ hm)) helse
        hall.append_right.tail
      have hlen := statements_length thenBody hthen
      rw [List.length_append, List.length_cons, List.length_cons,
        show start + (thenLines.length + 1 + (elseLines.length + 1))
          = start + 1 + thenLines.length + 1 + elseLines.length by omega]
      refine Realises.ifElse hc.head straight (Address.ofOperand_operand (by omega))
        hall.append_right.head (Address.ofOperand_operand hlt) (by omega) (by omega) block₁ block₂
        (fun p => rfl) fun p => ?_
      rw [Statement.returnAt?, ← hlen,
        show start + 1 + thenLines.length + 1 - start = 2 + thenLines.length by omega]
  | .whileDo condition body, start, lines, _, hx, h, hc => by
    rw [Statement.sites] at hx
    obtain ⟨test, bodyLines, ht, hbody, hlt, rfl⟩ := statement_whileDo_ok h
    have straight := (Line.Straight.codeLaw s).expression condition
      (fun x hm => hx x (List.mem_append_left _ hm)) ht
    have block := statements_realise body (fun x hm => hx x (List.mem_append_right _ hm)) hbody
      hc.tail.append_left
    have step : e.run [] = fun x y => y = x := by
      funext x y
      exact propext (e.run_nil x y)
    rw [executes, tests_eq ht, ← step, List.length_append, List.length_cons, List.length_singleton,
      show start + (bodyLines.length + 1 + 1) = start + 1 + bodyLines.length + 1 by omega]
    exact Realises.loop hc.head straight (Address.ofOperand_operand hlt) hc.tail.append_right.head
      .nil (Address.ofOperand_operand (by omega)) (by omega) block fun p => rfl
  | .repeatUntil condition body, start, lines, hstart, hx, h, hc => by
    rw [Statement.sites] at hx
    obtain ⟨test, bodyLines, ht, hbody, rfl⟩ := statement_repeatUntil_ok h
    have straight := (Line.Straight.codeLaw s).expression condition
      (fun x hm => hx x (List.mem_append_left _ hm)) ht
    have block := statements_realise body (fun x hm => hx x (List.mem_append_right _ hm)) hbody
      hc.append_left
    rw [executes, tests_eq ht, List.length_append, List.length_singleton, ← Nat.add_assoc]
    exact Realises.repeatUntil block (by omega) hc.append_right.head straight
      (Address.ofOperand_operand hstart) fun p => rfl
  | .forLoop initial condition change body, start, lines, _, hx, h, hc => by
    rw [Statement.sites] at hx
    obtain ⟨first, test, step, bodyLines, hf, ht, hs, hbody, hlt, rfl⟩ := statement_forLoop_ok h
    have law := Line.Straight.codeLaw s
    have hfirst := law.assignment (fun x hm => hx x (by simp [hm])) hf
    have htest := law.expression condition (fun x hm => hx x (by simp [hm])) ht
    have hstep := law.assignment (fun x hm => hx x (by simp [hm])) hs
    have block := statements_realise body (fun x hm => hx x (by simp [hm])) hbody
      hc.tail.tail.append_left
    rw [executes, assigns_eq hf, tests_eq ht, assigns_eq hs, List.length_cons, List.length_append,
      List.length_cons, List.length_singleton,
      show start + (bodyLines.length + 1 + 1 + 1) = start + 1 + 1 + bodyLines.length + 1 by omega]
    -- the places of the loop by itself, which starts one line later
    let inner : Returns := fun p => match p with
      | .body p => (Statement.returnAtAll? body p).map fun r => (1 + r.1, r.2)
      | _ => none
    have hloop : Realises e code (start + 1) (start + 1 + 1 + bodyLines.length + 1) inner _ :=
      Realises.loop hc.tail.head htest (Address.ofOperand_operand hlt)
        hc.tail.tail.append_right.head hstep (Address.ofOperand_operand (by omega)) (by omega) block
        fun p => rfl
    refine Realises.cons hc.head hfirst (by omega) hloop fun p => ?_
    cases p with
    | body p =>
      rw [Statement.returnAt?, Option.map_map]
      congr 1
      funext r
      simp only [Function.comp_apply]
      rw [← Nat.add_assoc]
    | here => rfl
    | first p => rfl
    | later p => rfl
    | otherwise p => rfl

theorem statements_realise {code : Nat → Option Line} : ∀ (ss : List Statement) {start : Nat}
    {lines : List Line}, (∀ x ∈ Statement.allSites ss, x.Obeys Line.Straight) →
    s.statements routine start ss = .ok lines → Holds code start lines →
    Realises e code start (start + lines.length) (Statement.returnAtAll? ss)
      (s.executesAll e routine ss)
  | [], start, lines, _, h, hc => by
    rw [statements_nil_ok h, executesAll]
    exact Realises.empty e code start _
  | head :: rest, start, lines, hx, h, hc => by
    rw [Statement.allSites] at hx
    obtain ⟨here, more, hstart, hh, hm, rfl⟩ := statements_cons_ok h
    have h₁ := statement_realise head hstart (fun x hm => hx x (List.mem_append_left _ hm)) hh
      hc.append_left
    have h₂ := statements_realise rest (fun x hm => hx x (List.mem_append_right _ hm)) hm
      hc.append_right
    rw [executesAll, List.length_append, ← Nat.add_assoc]
    refine Realises.seq h₁ h₂ (by omega) (fun p => rfl) fun p => ?_
    rw [Statement.returnAtAll?, statement_length head hh]

end

mutual

theorem statement_returnAt : ∀ (st : Statement) (p : Place) {start k : Nat} {lines : List Line}
    {v : Option Expression}, s.statement routine start st = .ok lines →
    st.returnAt? p = some (k, v) →
    ∃ line, s.returnLine v routine = .ok line ∧ lines[k]? = some line
  | .ret value, .here, start, k, lines, v, h, hp => by
    cases hp
    obtain ⟨line, hl, rfl⟩ := statement_ret_ok h
    exact ⟨line, hl, rfl⟩
  | .ifElse c thenBody elseBody, .body p, start, k, lines, v, h, hp => by
    obtain ⟨test, thenLines, _, hthen, h⟩ := statement_ifElse_ok h
    obtain ⟨j, hj, rfl⟩ := Statement.map_eq_some hp
    obtain ⟨line, hl, hk⟩ := statements_returnAt thenBody p hthen hj
    have hlt := (List.getElem?_eq_some_iff.mp hk).1
    refine ⟨line, hl, ?_⟩
    rw [Nat.add_comm]
    rcases h with ⟨_, _, rfl⟩ | ⟨elseLines, _, _, _, rfl⟩
    · exact hk
    · rw [List.cons_append, List.getElem?_cons_succ, List.getElem?_append_left hlt, hk]
  | .ifElse c thenBody elseBody, .otherwise p, start, k, lines, v, h, hp => by
    obtain ⟨test, thenLines, _, hthen, h⟩ := statement_ifElse_ok h
    obtain ⟨j, hj, rfl⟩ := Statement.map_eq_some hp
    have hlen := statements_length thenBody hthen
    rcases h with ⟨rfl, _, rfl⟩ | ⟨elseLines, _, helse, _, rfl⟩
    · cases hj
    · obtain ⟨line, hl, hk⟩ := statements_returnAt elseBody p helse hj
      refine ⟨line, hl, ?_⟩
      rw [← hlen, show 2 + thenLines.length + j = thenLines.length + (j + 1) + 1 by omega,
        List.cons_append, List.getElem?_cons_succ, List.getElem?_append_right (by omega),
        Nat.add_sub_cancel_left, List.getElem?_cons_succ, hk]
  | .whileDo c body, .body p, start, k, lines, v, h, hp => by
    obtain ⟨test, bodyLines, _, hbody, _, rfl⟩ := statement_whileDo_ok h
    obtain ⟨j, hj, rfl⟩ := Statement.map_eq_some hp
    obtain ⟨line, hl, hk⟩ := statements_returnAt body p hbody hj
    have hlt := (List.getElem?_eq_some_iff.mp hk).1
    refine ⟨line, hl, ?_⟩
    rw [Nat.add_comm 1 j, List.cons_append, List.getElem?_cons_succ,
      List.getElem?_append_left hlt, hk]
  | .repeatUntil c body, .body p, start, k, lines, v, h, hp => by
    obtain ⟨test, bodyLines, _, hbody, rfl⟩ := statement_repeatUntil_ok h
    rw [Statement.returnAt?] at hp
    obtain ⟨line, hl, hk⟩ := statements_returnAt body p hbody hp
    have hlt := (List.getElem?_eq_some_iff.mp hk).1
    exact ⟨line, hl, by rw [List.getElem?_append_left hlt, hk]⟩
  | .forLoop i c a body, .body p, start, k, lines, v, h, hp => by
    obtain ⟨first, test, step, bodyLines, _, _, _, hbody, _, rfl⟩ := statement_forLoop_ok h
    obtain ⟨j, hj, rfl⟩ := Statement.map_eq_some hp
    obtain ⟨line, hl, hk⟩ := statements_returnAt body p hbody hj
    have hlt := (List.getElem?_eq_some_iff.mp hk).1
    refine ⟨line, hl, ?_⟩
    rw [show 2 + j = j + 1 + 1 by omega, List.cons_append, List.getElem?_cons_succ,
      List.getElem?_cons_succ, List.getElem?_append_left hlt, hk]

/-- The line of a return, as found by its place, is the code of that return. -/
theorem statements_returnAt : ∀ (ss : List Statement) (p : Place) {start k : Nat}
    {lines : List Line} {v : Option Expression}, s.statements routine start ss = .ok lines →
    Statement.returnAtAll? ss p = some (k, v) →
    ∃ line, s.returnLine v routine = .ok line ∧ lines[k]? = some line
  | head :: rest, .first p, start, k, lines, v, h, hp => by
    obtain ⟨here, more, _, hh, hm, rfl⟩ := statements_cons_ok h
    rw [Statement.returnAtAll?] at hp
    obtain ⟨line, hl, hk⟩ := statement_returnAt head p hh hp
    have hlt := (List.getElem?_eq_some_iff.mp hk).1
    exact ⟨line, hl, by rw [List.getElem?_append_left hlt, hk]⟩
  | head :: rest, .later p, start, k, lines, v, h, hp => by
    obtain ⟨here, more, _, hh, hm, rfl⟩ := statements_cons_ok h
    obtain ⟨j, hj, rfl⟩ := Statement.map_eq_some hp
    obtain ⟨line, hl, hk⟩ := statements_returnAt rest p hm hj
    refine ⟨line, hl, ?_⟩
    rw [← statement_length head hh, List.getElem?_append_right (by omega), Nat.add_sub_cancel_left,
      hk]

end

/-- **Control flow of statements.**  Let a program have the lines of a list of statements where they
were made for, and let no native code among them move control.  The statements run to their end
exactly when the lines, run from the first one and without leaving them before, reach the line after
the last one, in the same state.  They end at a return exactly when the halt or return on the line
of that return is run, and no other line leaves the routine. -/
theorem statements_run_iff {start : Nat} {ss : List Statement} {lines : List Line}
    (h : s.statements routine start ss = .ok lines)
    (hn : ∀ x ∈ Statement.allSites ss, ∀ r, x.native? = some r → r.code.Straight)
    (e : Effects σ) {code : Nat → Option Line} (hc : Holds code start lines) (x y : σ) :
    (s.executesAll e routine ss x (.done y) ↔
      ∃ n, e.Run code start (start + lines.length) n start x (.on (start + lines.length) y)) ∧
    (∀ p, s.executesAll e routine ss x (.returned p y) ↔
      ∃ k v line, Statement.returnAtAll? ss p = some (k, v) ∧ s.returnLine v routine = .ok line ∧
        lines[k]? = some line ∧
        ∃ n, e.Run code start (start + lines.length) n start x (.left (start + k) y)) ∧
    ∀ n q, e.Run code start (start + lines.length) n start x (.left q y) →
      ∃ p, s.executesAll e routine ss x (.returned p y) := by
  have block : Realises e code start (start + lines.length) (Statement.returnAtAll? ss)
      (s.executesAll e routine ss) :=
    statements_realise ss
      (fun x hx => ⟨hn x hx, fun value _ => Line.Straight.literal value⟩) h hc
  refine ⟨⟨block.run_done, fun ⟨n, run⟩ => block.done_of_run run⟩, fun p => ⟨fun hr => ?_, ?_⟩, ?_⟩
  · obtain ⟨n, k, v, hk, run⟩ := block.run_returned hr
    obtain ⟨line, hl, hline⟩ := statements_returnAt ss p h hk
    exact ⟨k, v, line, hk, hl, hline, n, run⟩
  · rintro ⟨k, v, line, hk, _, _, n, run⟩
    obtain ⟨q, k', v', hq, he, hr⟩ := block.returned_of_run run
    obtain rfl : k = k' := by omega
    rw [Statement.returnAtAll?_inj ss p q hk hq]
    exact hr
  · intro n q run
    obtain ⟨p, k, v, _, _, hr⟩ := block.returned_of_run run
    exact ⟨p, hr⟩

/-! ### A loop with both ways out -/

/-- A loop that halts from inside a condition, or draws and goes on. -/
def drawOrHalt : List Statement :=
  [.whileDo (.boolean true)
    [.ifElse (.boolean false) [.ret none] [.call ⟨.native ⟨"blot", [], none, instr .blot []⟩, []⟩]]]

def drawOrHaltLines : List Line :=
  [instr .ldin [-1] ++ instr .ifno [11], instr .ldin [0] ++ instr .ifno [9], instr .halt [],
    instr .jump [10], instr .blot [], instr .jump [5]]

/-- A state that counts the words run.  Conditions hold while it is small: from 5 on the loop is
left at its end with 12, from 0 on the program halts with 4. -/
def countWords : Effects Nat where
  run code x y := y = x + code.length
  test code x v y := v = decide (x < 7) ∧ y = x + code.length
  run_nil _ _ := Iff.rfl

theorem statements_run_iff_drawOrHalt :
    let s : Setting := ⟨⟨.empty "draw" .basic, []⟩, {}⟩
    let main : Routine := .program (.empty "draw" .basic)
    let code : Nat → Option Line := fun k => if k < 5 then none else drawOrHaltLines[k - 5]?
    s.statements main 5 drawOrHalt = .ok drawOrHaltLines ∧
    (∀ x ∈ Statement.allSites drawOrHalt, ∀ r, x.native? = some r → r.code.Straight) ∧
    Holds code 5 drawOrHaltLines ∧
    (s.executesAll countWords main drawOrHalt 5 (.done 12) ↔
      ∃ n, countWords.Run code 5 11 n 5 5 (.on 11 12)) ∧
    (∀ p, s.executesAll countWords main drawOrHalt 0 (.returned p 4) ↔
      ∃ k v line, Statement.returnAtAll? drawOrHalt p = some (k, v) ∧
        s.returnLine v main = .ok line ∧ drawOrHaltLines[k]? = some line ∧
        ∃ n, countWords.Run code 5 11 n 5 0 (.left (5 + k) 4)) := by
  intro s main code
  have emitted : s.statements main 5 drawOrHalt = .ok drawOrHaltLines := rfl
  have straight : ∀ x ∈ Statement.allSites drawOrHalt, ∀ r, x.native? = some r →
      r.code.Straight := by
    intro x hx r hr
    simp only [drawOrHalt, Statement.allSites, Statement.sites, Call.sites, Expression.allSites,
      Expression.boolean, Expression.sites, List.append_nil, List.cons_append, List.nil_append,
      List.mem_cons, List.not_mem_nil, or_false] at hx
    rcases hx with rfl | rfl | rfl
    · cases hr
    · cases hr
    · cases hr
      exact Line.Straight.of_instr rfl []
  have held : Holds code 5 drawOrHaltLines := by
    intro i line hi
    rw [show code (5 + i) = drawOrHaltLines[5 + i - 5]? from if_neg (by omega),
      Nat.add_sub_cancel_left, hi]
  exact ⟨emitted, straight, held, (statements_run_iff emitted straight countWords held 5 12).1,
    (statements_run_iff emitted straight countWords held 0 4).2.1⟩

end Setting

end TurtleCode
