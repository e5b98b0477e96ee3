import TurtleCode.Proofs.Course

/-!
# Integrity of control, and frames in pairs

In every state that a generated program can reach, control is at an instruction of the routine that
the latest open call runs, and the frames claimed are those of the open calls.

* `Runs`: control is at an instruction of a routine that keeps to its course.
* `Awaits`: the open calls, each of which can be returned to.
* `Good`: a state is inside a routine, at its entry, or about to return.  `Good.step` and
  `Pcode.Reaches.good` are the step and the run.
* `control_integrity`: what follows for control, for the frames claimed, and for what an activation
  has executed.
-/

namespace TurtleCode

variable {p : Pcode} {placed : List Placement}

/-! ## Inside a routine -/

def ownLines (placed : List Placement) (size : Nat) : Option Placement → Nat → Prop
  | none => Setting.Free placed size
  | some pl => pl.Own

def Covers (placed : List Placement) (size : Nat) : Option Placement → Nat → Prop
  | none => Setting.Free placed size
  | some pl => pl.Has

/-- Control is at an instruction of a routine from which the line keeps to its course. -/
structure Runs (p : Pcode) (placed : List Placement) (o : Option Placement) (x : Point) : Prop where
  mem : ∀ pl ∈ o, pl ∈ placed
  covers : Covers placed p.size o x.line
  filled : p.rest x ≠ []
  course : Course (ownLines placed p.size o) (o.map (·.frame)) placed x.line (p.rest x)

namespace Runs

variable {o : Option Placement} {x : Point}

theorem of_line (h : Ruled p placed) (hmem : ∀ pl ∈ o, pl ∈ placed) {k : Nat}
    (hk : ownLines placed p.size o k) : Runs p placed o ⟨k, 0⟩ := by
  cases o with
  | none =>
    obtain ⟨hne, hc⟩ := h.free hk
    exact ⟨hmem, hk, hne, hc⟩
  | some pl =>
    obtain ⟨hne, hc⟩ := h.body (hmem pl rfl) hk
    exact ⟨hmem, hk.has, hne, hc⟩

theorem next (h : Ruled p placed) (hmem : ∀ pl ∈ o, pl ∈ placed)
    (hcovers : Covers placed p.size o x.line) {i : Instruction} {is : List Instruction}
    (hrest : p.rest x = i :: is)
    (hc : Course (ownLines placed p.size o) (o.map (·.frame)) placed x.line is) :
    Runs p placed o (p.after x) := by
  rcases Pcode.after_cases hrest with ⟨rfl, hafter⟩ | ⟨hne, hafter, hmore⟩
  · rw [hafter]
    cases hc with
    | fall hnext => exact .of_line h hmem hnext
  · refine ⟨hmem, ?_, by rwa [hmore], ?_⟩
    · rw [hafter]
      exact hcovers
    · rw [hmore, hafter]
      exact hc

end Runs

/-! ## Open calls -/

def Opcode.framed : Opcode → Bool
  | .memc | .memr | .retn => true
  | _ => false

theorem Opcode.framed_of_neutral {op : Opcode} (h : op.neutral = true) : op.framed = false := by
  revert h
  cases op <;> decide

/-- What an activation has executed, the latest first, after it has claimed its frame and before it
gives it back. -/
def Begun (cell : Int64) (executed : List Instruction) : Prop :=
  ∃ length middle, (∀ i ∈ middle, i.op.framed = false) ∧
    executed = middle ++ [⟨.memc, [cell, length]⟩]

theorem Begun.cons {cell : Int64} {executed : List Instruction} (h : Begun cell executed)
    {i : Instruction} (hi : i.op.framed = false) : Begun cell (i :: executed) := by
  obtain ⟨length, middle, hm, rfl⟩ := h
  exact ⟨length, i :: middle, List.forall_mem_cons.mpr ⟨hi, hm⟩, rfl⟩

/-- The open calls can be returned to one after another.  The latest of them is in the subroutine
given, and these are the cells of their frames. -/
inductive Awaits (p : Pcode) (placed : List Placement) :
    List Activation → Option Placement → List Int64 → Prop
  | main : Awaits p placed [] none []
  | call {c : Activation} {calls : List Activation} {o : Option Placement} {pl : Placement}
      {cells : List Int64} : Awaits p placed calls o cells → Runs p placed o c.back →
      pl ∈ placed → c.entry = pl.start → Begun pl.frame c.executed →
      Awaits p placed (c :: calls) (some pl) (pl.frame :: cells)

theorem Awaits.log {m : Control} {o : Option Placement} {cells : List Int64}
    (h : Awaits p placed m.calls o cells) {i : Instruction} (hi : i.op.framed = false) :
    Awaits p placed (m.log i) o cells := by
  unfold Control.log
  cases hm : m.calls with
  | nil =>
    rw [hm] at h
    exact h
  | cons c calls =>
    rw [hm] at h
    cases h with
    | call hcalls hback hpl hentry hbegun => exact .call hcalls hback hpl hentry (hbegun.cons hi)

/-- A state of a run.  It is inside a routine, or a call has just been made, or one is about to
return after giving its frame back. -/
inductive Good (p : Pcode) (placed : List Placement) (m : Control) : Prop
  | inside {o : Option Placement} {cells : List Int64} : Awaits p placed m.calls o cells →
      Runs p placed o m.point → claimedFrames m.trace = cells → Good p placed m
  | entering {c : Activation} {calls : List Activation} {o : Option Placement} {pl : Placement}
      {cells : List Int64} : m.calls = c :: calls → Awaits p placed calls o cells →
      Runs p placed o c.back → pl ∈ placed → c.entry = pl.start → c.executed = [] →
      m.point = ⟨pl.start, 0⟩ → claimedFrames m.trace = cells → Good p placed m
  | leaving {c : Activation} {calls : List Activation} {o : Option Placement} {pl : Placement}
      {cells : List Int64} {executed : List Instruction} : m.calls = c :: calls →
      Awaits p placed calls o cells → Runs p placed o c.back → pl ∈ placed → c.entry = pl.start →
      Begun pl.frame executed → c.executed = ⟨.memr, [pl.frame]⟩ :: executed →
      pl.Has m.point.line → p.at? m.point = some ⟨.retn, []⟩ → claimedFrames m.trace = cells →
      Good p placed m

/-! ## One step -/

namespace Good

variable {m m' : Control}

theorem go {o : Option Placement} {cells : List Int64} (hcalls : Awaits p placed m.calls o cells)
    (hframes : claimedFrames m.trace = cells) {i : Instruction} (hi : i.op.framed = false)
    {x : Point} (hx : Runs p placed o x) : Good p placed ⟨x, m.log i, i :: m.trace⟩ := by
  refine .inside (hcalls.log hi) hx ?_
  rw [claimedFrames_cons_of_ne (fun h => by rw [h] at hi; cases hi)
    fun h => by rw [h] at hi; cases hi]
  exact hframes

theorem release {o : Option Placement} {cells : List Int64}
    (hcalls : Awaits p placed m.calls o cells) (hruns : Runs p placed o m.point)
    (hframes : claimedFrames m.trace = cells) {cell : Int64} (hcell : o.map (·.frame) = some cell)
    {is : List Instruction} (hrest : p.rest m.point = ⟨.memr, [cell]⟩ :: ⟨.retn, []⟩ :: is) :
    Good p placed ⟨p.after m.point, m.log ⟨.memr, [cell]⟩, ⟨.memr, [cell]⟩ :: m.trace⟩ := by
  obtain ⟨pl, rfl, rfl⟩ := Option.map_eq_some_iff.mp hcell
  rcases Pcode.after_cases hrest with ⟨h, _⟩ | ⟨_, hafter, hmore⟩
  · cases h
  generalize hm : m.calls = calls at hcalls
  cases hcalls with
  | @call c calls o _ cells hawaits hback hpl hentry hbegun =>
    refine .leaving (c := { c with executed := ⟨.memr, [pl.frame]⟩ :: c.executed }) ?_ hawaits hback
      hpl hentry hbegun rfl ?_ ?_ ?_
    · rw [Control.log, hm]
    · rw [hafter]
      exact hruns.covers
    · rw [Pcode.at?, hmore]
      rfl
    · show (claimedFrames m.trace).erase pl.frame = cells
      rw [hframes, List.erase_cons_head]

theorem enter (h : Ruled p placed) {o : Option Placement} {cells : List Int64}
    (hcalls : Awaits p placed m.calls o cells) (hruns : Runs p placed o m.point)
    (hframes : claimedFrames m.trace = cells) {pl : Placement} (hpl : pl ∈ placed) {target : Int64}
    (ht : Address.ofOperand target = pl.start) {is : List Instruction}
    (hrest : p.rest m.point = ⟨.subr, [target]⟩ :: is)
    (hc : Course (ownLines placed p.size o) (o.map (·.frame)) placed m.point.line is) :
    Good p placed ⟨⟨Address.ofOperand target, 0⟩,
      ⟨Address.ofOperand target, p.after m.point, ⟨.subr, [target]⟩ :: m.trace, []⟩
        :: m.log ⟨.subr, [target]⟩, ⟨.subr, [target]⟩ :: m.trace⟩ := by
  refine .entering rfl (hcalls.log rfl) (.next h hruns.mem hruns.covers hrest hc)
    hpl ht rfl (by rw [ht]) ?_
  rw [claimedFrames_cons_of_ne (by simp) (by simp)]
  exact hframes

/-- **Every step keeps a state good.** -/
theorem step (h : Ruled p placed) (hm : Good p placed m) (hstep : p.Step m m') :
    Good p placed m' := by
  cases hm with
  | @inside o cells hcalls hruns hframes =>
    have hc := hruns.course
    cases hstep with
    | @along i hi ht =>
      obtain ⟨is, hrest⟩ := Pcode.at?_eq_some hi
      rw [hrest] at hc
      cases hc with
      | along hn hc =>
        exact go hcalls hframes (Opcode.framed_of_neutral hn)
          (.next h hruns.mem hruns.covers hrest hc)
      | release hcell => exact release hcalls hruns hframes hcell hrest
      | jump _ => cases ht
      | branch _ _ => cases ht
      | call _ _ _ => cases ht
      | halt => cases ht
    | jump hi =>
      obtain ⟨is, hrest⟩ := Pcode.at?_eq_some hi
      rw [hrest] at hc
      cases hc with
      | along hn _ => cases hn
      | jump hown => exact go hcalls hframes rfl (.of_line h hruns.mem hown)
    | holds hi =>
      obtain ⟨is, hrest⟩ := Pcode.at?_eq_some hi
      rw [hrest] at hc
      cases hc with
      | along hn _ => cases hn
      | branch _ hc => exact go hcalls hframes rfl (.next h hruns.mem hruns.covers hrest hc)
    | fails hi =>
      obtain ⟨is, hrest⟩ := Pcode.at?_eq_some hi
      rw [hrest] at hc
      cases hc with
      | along hn _ => cases hn
      | branch hown _ => exact go hcalls hframes rfl (.of_line h hruns.mem hown)
    | call hi =>
      obtain ⟨is, hrest⟩ := Pcode.at?_eq_some hi
      rw [hrest] at hc
      cases hc with
      | along hn _ => cases hn
      | call hpl ht hc => exact enter h hcalls hruns hframes hpl ht hrest hc
    | back hi _ =>
      obtain ⟨is, hrest⟩ := Pcode.at?_eq_some hi
      rw [hrest] at hc
      cases hc with
      | along hn _ => cases hn
  | @entering c calls o pl cells hm hawaits hback hpl hentry hexecuted hpoint hframes =>
    obtain ⟨length, more, hline, hc⟩ := h.entry hpl
    have hrest : p.rest m.point = ⟨.memc, [pl.frame, length]⟩ :: more := by
      rw [hpoint, Pcode.rest, hline, List.drop_zero]
    have hat : p.at? m.point = some ⟨.memc, [pl.frame, length]⟩ := by rw [Pcode.at?, hrest]; rfl
    cases hstep with
    | along hi ht =>
      obtain rfl := Option.some.inj (hat.symm.trans hi)
      have hlog : m.log ⟨.memc, [pl.frame, length]⟩ =
          { c with executed := [⟨.memc, [pl.frame, length]⟩] } :: calls := by
        rw [Control.log, hm]
        dsimp only
        rw [hexecuted]
      have hbegun : Begun pl.frame [⟨.memc, [pl.frame, length]⟩] := ⟨length, [], by simp, rfl⟩
      have hruns : Runs p placed (some pl) (p.after m.point) := by
        refine .next h (fun q hq => ?_) ?_ hrest ?_
        · obtain rfl := Option.some.inj hq
          exact hpl
        · rw [hpoint]
          exact ⟨Nat.le_refl _, (h.proper pl hpl).1⟩
        · rw [hpoint]
          exact hc
      rw [hlog]
      exact .inside (.call hawaits hback hpl hentry hbegun) hruns (congrArg (pl.frame :: ·) hframes)
    | jump hi => cases hat.symm.trans hi
    | holds hi => cases hat.symm.trans hi
    | fails hi => cases hat.symm.trans hi
    | call hi => cases hat.symm.trans hi
    | back hi _ => cases hat.symm.trans hi
  | leaving hm hawaits hback hpl hentry hbegun hexecuted hhas hat hframes =>
    cases hstep with
    | along hi ht =>
      obtain rfl := Option.some.inj (hat.symm.trans hi)
      cases ht
    | jump hi => cases hat.symm.trans hi
    | holds hi => cases hat.symm.trans hi
    | fails hi => cases hat.symm.trans hi
    | call hi => cases hat.symm.trans hi
    | back hi hm' =>
      obtain ⟨rfl, rfl⟩ := List.cons.inj (hm.symm.trans hm')
      refine .inside hawaits hback ?_
      rw [claimedFrames_cons_of_ne (by decide) (by decide)]
      exact hframes

end Good

theorem Good.of_retn (h : Ruled p placed) {m : Control} (hm : Good p placed m)
    (hat : p.at? m.point = some ⟨.retn, []⟩) :
    ∃ c calls pl, m.calls = c :: calls ∧ pl ∈ placed ∧ c.entry = pl.start ∧
      pl.Has m.point.line := by
  cases hm with
  | inside _ hruns _ =>
    have hc := hruns.course
    obtain ⟨is, hrest⟩ := Pcode.at?_eq_some hat
    rw [hrest] at hc
    cases hc with
    | along hn _ => cases hn
  | entering _ _ _ hpl _ _ hpoint _ =>
    obtain ⟨length, more, hline, _⟩ := h.entry hpl
    rw [hpoint, Pcode.at?_eq_getElem?, hline] at hat
    cases hat
  | leaving hm _ _ hpl hentry _ _ hhas _ _ => exact ⟨_, _, _, hm, hpl, hentry, hhas⟩

theorem Pcode.Reaches.good (h : Ruled p placed) {m : Control} (hm : p.Reaches m) :
    Good p placed m := by
  induction hm with
  | start => exact .inside .main (.of_line h (by simp) h.first) rfl
  | step _ hstep ih => exact ih.step h hstep

/-! ## What follows for runs -/

def Placements.frameCellAt? (placements : Placements) (line : Nat) : Option Int64 :=
  (placements.find? fun pl => decide (pl.start = line)).bind fun pl =>
    (MemoryMap.frameCell pl.index).toOption

/-- What an activation may have executed, the latest first.  It claims its frame first and only
then; it gives it back right before it returns, and only then. -/
def Paired (cell : Int64) (executed : List Instruction) : Prop :=
  ∃ begun, Begun cell begun ∧
    (executed = begun ∨ executed = ⟨.memr, [cell]⟩ :: begun ∨
      executed = ⟨.retn, []⟩ :: ⟨.memr, [cell]⟩ :: begun)

theorem Ruled.frameCellAt? (h : Ruled p placed) {placements : Placements}
    (hmem : ∀ pl, pl ∈ placements ↔ pl ∈ placed) {pl : Placement} (hpl : pl ∈ placed) :
    placements.frameCellAt? pl.start = some pl.frame := by
  have only : ∀ q ∈ placements, q.start = pl.start → q = pl := by
    intro q hq he
    have hproper := h.proper q ((hmem q).mp hq)
    exact h.unique ((hmem q).mp hq) hpl (k := pl.start) ⟨Nat.le_of_eq he, he ▸ hproper.1⟩
      ⟨Nat.le_refl _, (h.proper pl hpl).1⟩
  rw [Placements.frameCellAt?, Placements.find?_start ((hmem pl).mpr hpl) only, Option.bind_some,
    h.frames pl hpl]
  rfl

theorem Awaits.cells_eq (h : Ruled p placed) {placements : Placements}
    (hmem : ∀ pl, pl ∈ placements ↔ pl ∈ placed) {calls : List Activation} {o : Option Placement}
    {cells : List Int64} (hc : Awaits p placed calls o cells) :
    cells.map some = calls.map fun c => placements.frameCellAt? c.entry := by
  induction hc with
  | main => rfl
  | call _ _ hpl hentry _ ih =>
    rw [List.map_cons, List.map_cons, ih, hentry, h.frameCellAt? hmem hpl]

theorem Awaits.begun (h : Ruled p placed) {placements : Placements}
    (hmem : ∀ pl, pl ∈ placements ↔ pl ∈ placed) {calls : List Activation} {o : Option Placement}
    {cells : List Int64} (hc : Awaits p placed calls o cells) :
    ∀ c ∈ calls, ∃ cell, placements.frameCellAt? c.entry = some cell ∧ Begun cell c.executed := by
  induction hc with
  | main => simp
  | call _ _ hpl hentry hbegun ih =>
    refine List.forall_mem_cons.mpr ⟨⟨_, ?_, hbegun⟩, ih⟩
    rw [hentry, h.frameCellAt? hmem hpl]

/-- An instruction on a course claims no frame and does not return; it may give the frame back. -/
theorem Course.head {own : Nat → Prop} {frame : Option Int64} {k : Nat} {i : Instruction}
    {is : List Instruction} (h : Course own frame placed k (i :: is)) :
    i.op.framed = false ∨ ∃ cell, frame = some cell ∧ i = ⟨.memr, [cell]⟩ := by
  cases h with
  | along hn _ => exact .inl (Opcode.framed_of_neutral hn)
  | jump _ => exact .inl rfl
  | branch _ _ => exact .inl rfl
  | call _ _ _ => exact .inl rfl
  | release hcell => exact .inr ⟨_, hcell, rfl⟩
  | halt => exact .inl rfl

/-- What holds of a state whose next instruction is `i`. -/
structure Intact (p : Pcode) (placements : Placements) (m : Control) (i : Instruction) : Prop where
  /-- Control is at an instruction of the program. -/
  next : p.at? m.point = some i
  /-- Without an open call control is outside all subroutines. -/
  outside : m.calls = [] → ∀ pl ∈ placements, ¬ pl.Has m.point.line
  /-- Otherwise it is in the subroutine that the latest open call has called. -/
  inside : ∀ c calls, m.calls = c :: calls →
    ∃ pl ∈ placements, pl.start = c.entry ∧ pl.Has m.point.line
  /-- A return has a call to return from. -/
  called : i.op = .retn → m.calls ≠ []
  /-- The latest call has claimed its frame first, and gives it back right before it returns. -/
  latest : ∀ c calls, m.calls = c :: calls →
    ∃ cell, placements.frameCellAt? c.entry = some cell ∧ Paired cell (i :: c.executed)
  /-- The calls before it hold their frames. -/
  earlier : ∀ c ∈ m.calls.tail,
    ∃ cell, placements.frameCellAt? c.entry = some cell ∧ Begun cell c.executed
  /-- The frames claimed are those of the open calls, but for the latest one while it is about to
  claim its frame or to return. -/
  frames : (claimedFrames m.trace).map some =
    (if i.op = .memc ∨ i.op = .retn then m.calls.tail else m.calls).map
      fun c => placements.frameCellAt? c.entry

theorem Good.intact (h : Ruled p placed) {placements : Placements}
    (hmem : ∀ pl, pl ∈ placements ↔ pl ∈ placed) {m : Control} (hm : Good p placed m) :
    ∃ i, Intact p placements m i := by
  cases hm with
  | @inside o cells hcalls hruns hframes =>
    obtain ⟨i, is, hrest⟩ := List.exists_cons_of_ne_nil hruns.filled
    have hhead := Course.head (hrest ▸ hruns.course)
    have hplain : ¬ (i.op = .memc ∨ i.op = .retn) := by
      rcases hhead with hi | ⟨cell, _, rfl⟩
      · rintro (he | he)
        · rw [he] at hi
          cases hi
        · rw [he] at hi
          cases hi
      · simp
    have hcells := hcalls.cells_eq h hmem
    have hbegun := hcalls.begun h hmem
    refine ⟨i, by rw [Pcode.at?, hrest]; rfl, fun hnone pl hpl => ?_, fun c calls hc => ?_,
      fun he => absurd (.inr he) hplain, fun c calls hc => ?_,
      fun c hc => hbegun c (List.mem_of_mem_tail hc), by rw [if_neg hplain, hframes, hcells]⟩
    · rw [hnone] at hcalls
      cases hcalls
      exact hruns.covers.2 pl ((hmem pl).mp hpl)
    · rw [hc] at hcalls
      cases hcalls with
      | @call _ _ _ pl _ _ _ hpl hentry _ =>
        exact ⟨pl, (hmem pl).mpr hpl, hentry.symm, hruns.covers⟩
    · rw [hc] at hcalls
      cases hcalls with
      | @call _ _ _ pl _ _ _ hpl hentry hb =>
        refine ⟨pl.frame, hentry ▸ h.frameCellAt? hmem hpl, ?_⟩
        rcases hhead with hi | ⟨cell, hcell, rfl⟩
        · exact ⟨_, hb.cons hi, .inl rfl⟩
        · obtain rfl : pl.frame = cell := Option.some.inj hcell
          exact ⟨_, hb, .inr (.inl rfl)⟩
  | @entering c calls o pl cells hm hawaits hback hpl hentry hexecuted hpoint hframes =>
    obtain ⟨length, more, hline, hc⟩ := h.entry hpl
    have hat : p.at? m.point = some ⟨.memc, [pl.frame, length]⟩ := by
      rw [hpoint, Pcode.at?, Pcode.rest, hline]
      rfl
    have hhas : pl.Has m.point.line := by
      rw [hpoint]
      exact ⟨Nat.le_refl _, (h.proper pl hpl).1⟩
    refine ⟨_, hat, fun hnone => ?_, fun c' calls' hc' => ?_, fun he => (by cases he),
      fun c' calls' hc' => ?_, ?_, ?_⟩
    · rw [hm] at hnone
      cases hnone
    · obtain ⟨rfl, rfl⟩ := List.cons.inj (hm.symm.trans hc')
      exact ⟨pl, (hmem pl).mpr hpl, hentry.symm, hhas⟩
    · obtain ⟨rfl, rfl⟩ := List.cons.inj (hm.symm.trans hc')
      refine ⟨pl.frame, hentry ▸ h.frameCellAt? hmem hpl, [⟨.memc, [pl.frame, length]⟩],
        ⟨length, [], by simp, rfl⟩, .inl ?_⟩
      rw [hexecuted]
    · rw [hm]
      exact hawaits.begun h hmem
    · rw [if_pos (.inl rfl), hm, hframes, List.tail_cons, hawaits.cells_eq h hmem]
  | @leaving c calls o pl cells executed hm hawaits hback hpl hentry
      hbegun hexecuted hhas hat hframes =>
    refine ⟨_, hat, fun hnone => ?_, fun c' calls' hc' => ?_, fun _ hnone => ?_,
      fun c' calls' hc' => ?_, ?_, ?_⟩
    · rw [hm] at hnone
      cases hnone
    · obtain ⟨rfl, rfl⟩ := List.cons.inj (hm.symm.trans hc')
      exact ⟨pl, (hmem pl).mpr hpl, hentry.symm, hhas⟩
    · rw [hm] at hnone
      cases hnone
    · obtain ⟨rfl, rfl⟩ := List.cons.inj (hm.symm.trans hc')
      refine ⟨pl.frame, hentry ▸ h.frameCellAt? hmem hpl, executed, hbegun, .inr (.inr ?_)⟩
      rw [hexecuted]
    · rw [hm]
      exact hawaits.begun h hmem
    · rw [if_pos (.inr rfl), hm, hframes, List.tail_cons, hawaits.cells_eq h hmem]

theorem generate_ruled {p : Program} {options : Options} {a : Assembly} {q : Pcode}
    (ha : (Setting.of p options).assemble = .ok a) (hq : generate p options = .ok q)
    (hn : ∀ routine ∈ p.natives, routine.code.MadeOf Opcode.neutral)
    (ht : ∀ t, .string t ∈ p.literals → t.toList.length < UInt64.size / 2) :
    ∃ placed, (Setting.of p options).Layout (· ∈ p.sites) a placed ∧ link a = .ok q ∧
      Ruled q placed := by
  obtain ⟨placed, layout⟩ := Program.layout ha
  have hlink := link_of_generate ha hq
  refine ⟨placed, layout, hlink, layout.ruled ?_ hlink⟩
  intro x hx
  exact Line.Reads.obeys_of_mem_sites rfl rfl hn ht hx

/-- **Integrity of control.**  Let the subroutines of a program have distinct indexes, and let
native code be made of complete instructions that neither move control nor handle frames.  Then
every state that the generated program can reach is intact. -/
theorem control_integrity {p : Program} {options : Options} {a : Assembly} {q : Pcode}
    (ha : (Setting.of p options).assemble = .ok a) (hq : generate p options = .ok q)
    (hd : (p.allSubroutines.map (·.index)).Nodup)
    (hn : ∀ routine ∈ p.natives, routine.code.MadeOf Opcode.neutral)
    (ht : ∀ t, .string t ∈ p.literals → t.toList.length < UInt64.size / 2)
    {m : Control} (hm : q.Reaches m) : ∃ i, Intact q a.placements m i := by
  obtain ⟨placed, layout, _, ruled⟩ := generate_ruled ha hq hn ht
  exact (hm.good ruled).intact ruled fun pl => layout.mem_placements hd

/-! ### A state inside a recursive call -/

/-- The state of `countdown` after 56 instructions with all conditions true, as far as a view of it
shows. -/
theorem countdown_run {α : Type} (view : Control → α) (v : α)
    (h : ((generate countdown {}).toOption.bind fun q =>
      q.follow? (List.replicate 56 true) ⟨⟨0, 0⟩, [], []⟩).map view = some v) :
    ∃ a q m, (Setting.of countdown {}).assemble = .ok a ∧ generate countdown {} = .ok q ∧
      q.Reaches m ∧ view m = v := by
  obtain ⟨m, hm, hview⟩ := Option.map_eq_some_iff.mp h
  obtain ⟨q, hq, hfollow⟩ := Option.bind_eq_some_iff.mp hm
  have hg : generate countdown {} = .ok q := by
    cases hg : generate countdown {} with
    | error fault =>
      rw [hg] at hq
      cases hq
    | ok r =>
      rw [hg] at hq
      exact congrArg Except.ok (Option.some.inj hq)
  obtain ⟨a, ha, _⟩ := Result.bind_eq_ok.mp hg
  exact ⟨a, q, m, ha, hg, Pcode.Reaches.start.follow hfollow, hview⟩

theorem control_integrity_countdown : ∃ a q m i, (Setting.of countdown {}).assemble = .ok a ∧
    generate countdown {} = .ok q ∧ q.Reaches m ∧ m.calls.map (·.entry) = [2, 2] ∧
    m.point = ⟨3, 0⟩ ∧ Intact q a.placements m i := by
  obtain ⟨a, q, m, ha, hg, hm, hview⟩ :=
    countdown_run (fun m => (m.calls.map (·.entry), m.point)) ([2, 2], ⟨3, 0⟩) (by decide +kernel)
  obtain ⟨hentries, hpoint⟩ := Prod.mk.inj hview
  obtain ⟨i, hi⟩ := control_integrity ha hg (by decide +kernel)
    (fun routine hr => (countdown_natives _ rfl routine hr).2) countdown_literals hm
  exact ⟨a, q, m, i, ha, hg, hm, hentries, hpoint, hi⟩

end TurtleCode
