import TurtleCode.Proofs.CodeLaw
import TurtleCode.Proofs.Machine

/-!
# A machine that runs lines

Lines seen from outside: a line is a straight stretch of code and a way out of it.  What a straight
stretch does to the state is left open (`Effects`); the four opcodes that move control do what they
are documented to do.

* `Line.Straight`: no word of the line moves control.
* `Exit`: how control leaves a line, and `Exit.words`, the words that say so.
* `Effects.Step`: what running one line can lead to.  `Effects.step_iff` reads it off the line.
* `Effects.Run lo hi n`: `n` lines are run, all of them in `[lo, hi)`.
* `Effects.Closed a b`: control that leaves `[a, b)` does so at `b`, or leaves the routine.
  `Effects.Run.split` cuts a run where it leaves such a block.
-/

namespace TurtleCode

/-! ## Straight code and the way out of a line -/

/-- Opcodes after which control need not go on along the line. -/
def Opcode.movesControl : Opcode → Bool
  | .jump | .ifno | .halt | .retn => true
  | _ => false

def Word.movesControl : Word → Bool
  | .op code => code.movesControl
  | _ => false

def Line.Straight (line : Line) : Prop := ∀ w ∈ line, w.movesControl = false

namespace Line.Straight

theorem nil : Straight [] := fun _ h => absurd h List.not_mem_nil

theorem append {a b : Line} (ha : Straight a) (hb : Straight b) : Straight (a ++ b) := by
  intro w hw
  rcases List.mem_append.mp hw with hw | hw
  · exact ha w hw
  · exact hb w hw

theorem of_instr {op : Opcode} (h : op.movesControl = false) (operands : List Int64) :
    Straight (instr op operands) := by
  intro w hw
  rcases List.mem_cons.mp hw with rfl | hw
  · exact h
  · obtain ⟨n, _, rfl⟩ := List.mem_map.mp hw
    rfl

/-- Code without control of its own is straight, wherever it is straight in its native code. -/
theorem codeLaw (s : Setting) : CodeLaw s Straight where
  nil := nil
  append := append
  ordinary {op operands} h _ := of_instr (by revert h; cases op <;> decide) operands
  call _ := by
    intro w hw
    simp only [List.mem_cons, List.not_mem_nil, or_false] at hw
    rcases hw with rfl | rfl <;> rfl

theorem literal (value : Literal) : Straight value.code := by
  cases value <;> exact of_instr rfl _

end Line.Straight

inductive Exit
  | next
  | jump (target : Int64)
  | unless (target : Int64)
  | halt
  | retn

def Exit.words : Exit → Line
  | .next => []
  | .jump target => instr .jump [target]
  | .unless target => instr .ifno [target]
  | .halt => instr .halt []
  | .retn => instr .retn []

theorem Exit.takeWhile_words (exit : Exit) :
    exit.words.takeWhile (fun w => !w.movesControl) = [] := by
  cases exit <;> rfl

theorem Exit.words_inj {a b : Exit} (h : a.words = b.words) : a = b := by
  cases a <;> cases b <;> simp_all [Exit.words, instr]

theorem Line.Straight.takeWhile {body : Line} (h : body.Straight) (exit : Exit) :
    (body ++ exit.words).takeWhile (fun w => !w.movesControl) = body := by
  rw [List.takeWhile_append_of_pos (fun w hw => by simp [h w hw]), exit.takeWhile_words,
    List.append_nil]

/-- A line has one reading as a straight stretch and a way out. -/
theorem Line.Straight.reading_unique {a b : Line} {x y : Exit} (ha : a.Straight) (hb : b.Straight)
    (h : a ++ x.words = b ++ y.words) : a = b ∧ x = y := by
  have e : a = b := by rw [← ha.takeWhile x, h, hb.takeWhile y]
  subst e
  exact ⟨rfl, Exit.words_inj (List.append_cancel_left h)⟩

/-! ## Running lines -/

/-- What straight code does to a state, and what a condition does: it also yields a truth value.
No code at all does nothing. -/
structure Effects (σ : Type) where
  run : Line → σ → σ → Prop
  test : Line → σ → Bool → σ → Prop
  run_nil : ∀ x y, run [] x y ↔ y = x

/-- Where a run is: before a line, or out of the routine after the halt or return of a line. -/
inductive Config (σ : Type)
  | on (line : Nat) (state : σ)
  | left (line : Nat) (state : σ)

variable {σ : Type}

def Exit.Leads (e : Effects σ) (body : Line) (k : Nat) (x : σ) : Exit → Config σ → Prop
  | .next, c => ∃ y, e.run body x y ∧ c = .on (k + 1) y
  | .jump target, c => ∃ y, e.run body x y ∧ c = .on (Address.ofOperand target) y
  | .unless target, c =>
    ∃ v y, e.test body x v y ∧ c = .on (if v then k + 1 else Address.ofOperand target) y
  | .halt, c => ∃ y, e.run body x y ∧ c = .left k y
  | .retn, c => ∃ y, e.run body x y ∧ c = .left k y

namespace Effects

variable {e : Effects σ} {code : Nat → Option Line} {lo hi a b k n : Nat} {x : σ} {c : Config σ}

def Step (e : Effects σ) (code : Nat → Option Line) (k : Nat) (x : σ) (c : Config σ) : Prop :=
  ∃ (body : Line) (exit : Exit),
    code k = some (body ++ exit.words) ∧ body.Straight ∧ exit.Leads e body k x c

theorem step_iff {body : Line} {exit : Exit} (h : code k = some (body ++ exit.words))
    (hb : body.Straight) : e.Step code k x c ↔ exit.Leads e body k x c := by
  constructor
  · rintro ⟨body', exit', h', hb', hl⟩
    rw [h, Option.some.injEq] at h'
    obtain ⟨rfl, rfl⟩ := hb.reading_unique hb' h'
    exact hl
  · exact fun hl => ⟨body, exit, h, hb, hl⟩

/-- `n` lines are run one after another, all of them in `[lo, hi)`. -/
inductive Run (e : Effects σ) (code : Nat → Option Line) (lo hi : Nat) :
    Nat → Nat → σ → Config σ → Prop
  | stop {k : Nat} {x : σ} : Run e code lo hi 0 k x (.on k x)
  | leave {k : Nat} {x y : σ} : lo ≤ k → k < hi → e.Step code k x (.left k y) →
      Run e code lo hi 1 k x (.left k y)
  | step {n k k' : Nat} {x y : σ} {c : Config σ} : lo ≤ k → k < hi → e.Step code k x (.on k' y) →
      Run e code lo hi n k' y c → Run e code lo hi (n + 1) k x c

namespace Run

theorem single {k' : Nat} {y : σ} (h1 : lo ≤ k) (h2 : k < hi) (h : e.Step code k x (.on k' y)) :
    Run e code lo hi 1 k x (.on k' y) := step h1 h2 h stop

theorem trans {m k' : Nat} {y : σ} (h : Run e code lo hi n k x (.on k' y))
    (g : Run e code lo hi m k' y c) : Run e code lo hi (n + m) k x c := by
  generalize hd : Config.on k' y = d at h
  induction h with
  | stop =>
    cases hd
    rwa [Nat.zero_add]
  | leave => cases hd
  | step h1 h2 hs _ ih =>
    rw [Nat.add_right_comm]
    exact step h1 h2 hs (ih hd)

theorem mono {lo' hi' : Nat} (h1 : lo' ≤ lo) (h2 : hi ≤ hi') (h : Run e code lo hi n k x c) :
    Run e code lo' hi' n k x c := by
  induction h with
  | stop => exact stop
  | leave g1 g2 hs => exact leave (Nat.le_trans h1 g1) (Nat.lt_of_lt_of_le g2 h2) hs
  | step g1 g2 hs _ ih => exact step (Nat.le_trans h1 g1) (Nat.lt_of_lt_of_le g2 h2) hs ih

theorem eq_of_outside (h : Run e code lo hi n k x c) (hk : hi ≤ k) : c = .on k x := by
  cases h with
  | stop => rfl
  | leave _ h2 _ => omega
  | step _ h2 _ _ => omega

end Run

/-- Control that leaves `[a, b)` goes to `b`, or out of the routine. -/
def Closed (e : Effects σ) (code : Nat → Option Line) (a b : Nat) : Prop :=
  ∀ k x c, a ≤ k → k < b → e.Step code k x c →
    (∃ k' y, c = .on k' y ∧ a ≤ k' ∧ k' ≤ b) ∨ ∃ y, c = .left k y

theorem Closed.widen (h : e.Closed code a b) (hlo : lo ≤ a) (hhi : b ≤ hi) (h1 : a ≤ k) (h2 : k < b)
    (hs : e.Step code k x c) :
    (∃ k' y, c = .on k' y ∧ lo ≤ k' ∧ k' ≤ hi) ∨ ∃ y, c = .left k y := by
  rcases h k x c h1 h2 hs with ⟨k', y, rfl, h3, h4⟩ | hl
  · exact .inl ⟨k', y, rfl, Nat.le_trans hlo h3, Nat.le_trans h4 hhi⟩
  · exact .inr hl

/-- **A run is cut where it leaves a closed block**: it reaches the end of the block and goes on
from there, or it leaves the routine inside the block. -/
theorem Run.split (hc : e.Closed code a b) (h : Run e code lo hi n k x c) (ha : a ≤ k) (hb : k ≤ b)
    (hend : ∀ q y, c = .on q y → b ≤ q) :
    (∃ y m m', m + m' = n ∧ Run e code a b m k x (.on b y) ∧ Run e code lo hi m' b y c) ∨
      ∃ q y, c = .left q y ∧ Run e code a b n k x c := by
  -- the induction is on the run; at each line it is asked whether the block has been left
  induction h with
  | @stop k x =>
    have hk : k = b := Nat.le_antisymm hb (hend k x rfl)
    subst hk
    exact .inl ⟨x, 0, 0, rfl, stop, stop⟩
  | @leave k x y h1 h2 hs =>
    rcases Nat.lt_or_ge k b with hk | hk
    · exact .inr ⟨k, y, rfl, leave ha hk hs⟩
    · obtain rfl : k = b := Nat.le_antisymm hb hk
      exact .inl ⟨x, 0, 1, rfl, stop, leave h1 h2 hs⟩
  | @step n k k' x y c h1 h2 hs hr ih =>
    rcases Nat.lt_or_ge k b with hk | hk
    · rcases hc k x _ ha hk hs with ⟨k'', y', e', ha', hb'⟩ | ⟨y', e'⟩
      · cases e'
        rcases ih ha' hb' hend with ⟨z, m, m', rfl, r1, r2⟩ | ⟨q, z, rfl, r⟩
        · exact .inl ⟨z, m + 1, m', by omega, step ha hk hs r1, r2⟩
        · exact .inr ⟨q, z, rfl, step ha hk hs r⟩
      · cases e'
    · obtain rfl : k = b := Nat.le_antisymm hb hk
      exact .inl ⟨x, 0, n + 1, Nat.zero_add _, stop, step h1 h2 hs hr⟩

end Effects

end TurtleCode
