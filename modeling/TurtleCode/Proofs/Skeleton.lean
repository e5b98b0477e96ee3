import TurtleCode.Proofs.Correspondence
import TurtleCode.Proofs.StackLaw
import TurtleCode.Proofs.Storage

/-!
# The control skeleton

The options decide what the first line and the entries of subroutines do, whether indexes are
checked, and how the turtle is addressed.  They do not decide how many lines there are, where
subroutines are, or where jumps and calls go.

* `Matched`: lines held against other lines, alike except at entries, which neither jump nor call.
* `Setting.startup_both`, `Setting.prologue_agree`: the lines that do depend on the options are made
  under all of them, or fail in the same way.
* `Assembly.SameSkeleton`, `same_skeleton`: any two options lead to one skeleton, or to one fault.

Clearing a frame spares the stores of the lengths that strings have at the start.  Without it those
cells have to be computed, which can overflow for a string whose greatest length is no cell number:
`vault` is such a program.
-/

namespace TurtleCode

open Result (Both Agree)
open Line (Alike)

def Variable.Countable (v : Variable) : Prop :=
  v.ty = .string → (v.stringLength.toNat : Int) ≤ Int64.maxValue.toInt

instance (v : Variable) : Decidable v.Countable := inferInstanceAs (Decidable (v.ty = .string → _))

/-! ## Headers -/

namespace Region

variable {region : Region} {v : Variable}

/-- An element ends at the latest where the last one does or, if elements go backwards, where the
first one starts. -/
theorem element_end {start length count i first distance cell : Int64}
    (hend : start.toInt + 2 + count.toInt * length.toInt ≤ Int64.maxValue.toInt)
    (hlo : 0 ≤ i.toInt) (hhi : i.toInt + 1 ≤ count.toInt) (hfirst : Cell.add start 2 = .ok first)
    (hdistance : Cell.mul i length = .ok distance) (hcell : Cell.add first distance = .ok cell) :
    cell.toInt + length.toInt ≤ Int64.maxValue.toInt := by
  have hsecond : first.toInt = start.toInt + 2 := Cell.add_eq_ok.mp hfirst
  have htop : first.toInt ≤ Int64.maxValue.toInt := Int.le_of_lt_add_one first.toInt_lt
  have hstop : cell.toInt + length.toInt = first.toInt + (i.toInt + 1) * length.toInt := by
    rw [Cell.add_eq_ok.mp hcell, Cell.mul_eq_ok.mp hdistance, Int.add_mul, Int.one_mul,
      Int.add_assoc]
  rcases Int.le_total 0 length.toInt with hlength | hlength
  · have := Int.mul_le_mul_of_nonneg_right hhi hlength
    omega
  · have := Int.mul_nonpos_of_nonneg_of_nonpos (show 0 ≤ i.toInt + 1 by omega) hlength
    omega

theorem elements_agree {code code' : Int64 → Result Line} {start length count : Int64}
    (hend : start.toInt + 2 + count.toInt * length.toInt ≤ Int64.maxValue.toInt)
    (h : ∀ cell : Int64, cell.toInt + length.toInt ≤ Int64.maxValue.toInt →
      Agree (code cell) (code' cell)) :
    ∀ (n : Nat) (i : Int64), 0 ≤ i.toInt → (0 < n → i.toInt + n ≤ count.toInt) →
      Agree (elements code start length i n) (elements code' start length i n) := by
  intro n
  induction n with
  | zero =>
    intro i _ _
    exact .ok trivial
  | succ n ih =>
    intro i hlo hn
    have hn := hn n.succ_pos
    have hcount : count.toInt ≤ Int64.maxValue.toInt := Int.le_of_lt_add_one count.toInt_lt
    have hnext : (i + 1).toInt = i.toInt + 1 := toInt_add_one (by omega)
    rw [elements, elements]
    refine .bind_same ?_
    intro first hfirst
    refine .bind_same ?_
    intro distance hdistance
    refine .bind_same ?_
    intro cell hcell
    refine .bind (h cell (element_end hend hlo (by omega) hfirst hdistance hcell)) ?_
    intro _ _ _
    refine .bind (ih (i + 1) (by omega) (by omega)) ?_
    intro _ _ _
    exact .ok trivial

/-- Whether memory is zeroed or not, the headers of storage that ends in time are written. -/
theorem headersOver_agree (zeroed zeroed' : Bool) (hv : v.Countable) :
    ∀ {dimensions : List Bounds} {start length : Int64}, (dimensions = [] → v.ty = .string) →
      v.lengthOver dimensions = .ok length → start.toInt + length.toInt ≤ Int64.maxValue.toInt →
      Agree (region.headersOver v zeroed dimensions start)
        (region.headersOver v zeroed' dimensions start) := by
  intro dimensions
  induction dimensions with
  | nil =>
    intro start length hs hlength hend
    have hexact := Variable.scalarLength_eq_scalarExtent hv hlength
    rw [Variable.scalarExtent, if_pos (hs rfl)] at hexact
    have hmin : Int64.minValue.toInt ≤ start.toInt := start.le_toInt
    have htwo : (2 : Int64).toInt = 2 := by decide
    -- the third cell of the header is before the last character
    obtain ⟨third, hthird, _⟩ := exists_fit .add (n := start.toInt + (2 : Int64).toInt) (by omega)
      (by omega)
    rw [headersOver, headersOver, show Cell.add start 2 = .ok third from hthird]
    refine .bind_same ?_
    intro next _
    cases zeroed <;> cases zeroed' <;> exact .ok trivial
  | cons bounds inner ih =>
    intro start length _ hlength hend
    rw [Variable.lengthOver] at hlength
    simp only [Result.bind_eq_ok, Cell.mul_eq_ok, Cell.add_eq_ok] at hlength
    obtain ⟨count, hcount, each, heach, product, hproduct, hlength⟩ := hlength
    have hheader : Variable.arrayHeader.toInt = 2 := by decide
    have hall : start.toInt + 2 + count.toInt * each.toInt ≤ Int64.maxValue.toInt := by omega
    rw [headersOver, headersOver]
    refine .bind_same ?_
    intro next _
    refine .bind_of_eq hcount ?_
    dsimp only
    split
    · exact .ok trivial
    · next hmore =>
      have hinner : inner = [] → v.ty = .string := by
        intro hnil
        simpa [hnil] using hmore
      have hzero : (0 : Int64).toInt = 0 := by decide
      refine .bind_of_eq heach ?_
      refine .bind (elements_agree hall (fun _ => ih hinner heach) _ 0 (by decide) (by omega)) ?_
      intro _ _ _
      exact .ok trivial

theorem allHeaders_agree (zeroed zeroed' : Bool) {wanted : Variable → Bool}
    (hwanted : ∀ v, wanted v = true → v.ownsStorage = true) :
    ∀ {declarations : List Variable} {cell stop : Int64}, (∀ v ∈ declarations, v.Countable) →
      Variable.advance cell declarations = .ok stop →
      Agree (region.allHeaders zeroed wanted cell declarations)
        (region.allHeaders zeroed' wanted cell declarations) := by
  intro declarations
  induction declarations with
  | nil =>
    intro cell stop _ _
    exact .ok trivial
  | cons v rest ih =>
    intro cell stop hv h
    rw [Variable.advance] at h
    simp only [Result.bind_eq_ok] at h
    obtain ⟨length, hlength, next, hnext, hrest⟩ := h
    have hmore (here here' : Line) : Agree
        (do
          let length ← v.length
          let more ← region.allHeaders zeroed wanted (← Cell.add cell length) rest
          return here ++ more)
        (do
          let length ← v.length
          let more ← region.allHeaders zeroed' wanted (← Cell.add cell length) rest
          return here' ++ more) := by
      refine .bind_of_eq hlength (.bind_of_eq hnext ?_)
      refine .bind (ih (fun u hu => hv u (List.mem_cons_of_mem _ hu)) hrest) ?_
      intro _ _ _
      exact .ok trivial
    rw [allHeaders, allHeaders]
    split
    · next hw =>
      obtain ⟨hkind, hown⟩ := Variable.ownsStorage_iff.mp (hwanted v hw)
      have hscalar : v.dimensions = [] → v.ty = .string := by
        intro hnil
        exact hown.resolve_left (absurd hnil)
      have hend : next.toInt ≤ Int64.maxValue.toInt := Int.le_of_lt_add_one next.toInt_lt
      rw [Cell.add_eq_ok.mp hnext] at hend
      rw [Variable.length, hkind] at hlength
      have hcounted := hv v List.mem_cons_self
      refine .bind (headersOver_agree zeroed zeroed' hcounted hscalar hlength hend) ?_
      intro here here' _
      exact hmore here here'
    · exact hmore [] []

end Region

theorem Opcode.takesAddress_of_ordinary {op : Opcode} :
    op.ordinary = true → op.takesAddress = false := by
  cases op <;> decide

namespace Setting

variable {s : Setting} {base : Int64} {clear : Bool}

/-! ## Lines that depend on the options -/

theorem straight_law (s : Setting) :
    StackLaw s fun _ _ code => ∀ op ∈ Line.opcodes code, op.takesAddress = false where
  nil _ h := nomatch h
  append ha hb op hop := by
    rw [Line.opcodes_append] at hop
    exact (List.mem_append.mp hop).elim (ha op) (hb op)
  above _ h := h
  ordinary h _ _ op hop := by
    rw [Line.opcodes_instr] at hop
    obtain rfl := List.mem_singleton.mp hop
    exact Opcode.takesAddress_of_ordinary h

theorem prologue_targets {sub : Subroutine} {line : Line} (h : s.prologue sub = .ok line) :
    line.targets = [] := by
  obtain ⟨pointer, length, rest, _, rfl, hrest⟩ := (straight_law s).prologue h
  show rest.targets = []
  exact Line.targets_eq_nil hrest

theorem startup_targets {first : List Line} (h : s.startup = .ok first) :
    ∀ line ∈ first, line.targets = [] :=
  fun line hl => Line.targets_eq_nil ((straight_law s).startup h line hl).1

theorem receiveAll_agree (room : s.map.Roomy base) (routine : UInt64)
    (slots : List (Variable × Nat)) :
    Agree (s.receiveAll routine slots) ((bare s.map clear).receiveAll routine slots) := by
  induction slots with
  | nil => exact .ok trivial
  | cons slot rest ih =>
    have hhere : Agree (s.receive ⟨routine, slot.2.toUInt64⟩ slot.1)
        ((bare s.map clear).receive ⟨routine, slot.2.toUInt64⟩ slot.1) := by
      unfold receive
      split
      · refine .bind (load_alike room _) ?_
        intro _ _ _
        exact .ok trivial
      · refine .bind_same ?_
        intro _ _
        exact .ok trivial
    rw [receiveAll, receiveAll]
    refine .bind hhere ?_
    intro _ _ _
    refine .bind ih ?_
    intro _ _ _
    exact .ok trivial

/-- The entry of a subroutine is made whether frames are cleared or not, if the lengths of its
strings can be counted. -/
theorem prologue_agree (room : s.map.Roomy base) {sub : Subroutine}
    (h : s.options.clearLocals = clear ∨ ∀ v ∈ sub.declarations, v.Countable) :
    Agree (s.prologue sub) ((bare s.map clear).prologue sub) := by
  refine .bind_same ?_
  intro pointer _
  refine .bind_same ?_
  intro length hlength
  have hheaders : Agree
      (Region.allHeaders (.frame pointer) s.options.clearLocals Variable.headedInFrame 0
        sub.declarations)
      (Region.allHeaders (.frame pointer) clear Variable.headedInFrame 0 sub.declarations) := by
    rcases h with rfl | h
    · exact .refl (fun _ => trivial) _
    · exact Region.allHeaders_agree _ _ Variable.ownsStorage_of_headedInFrame h hlength
  refine .bind hheaders ?_
  intro _ _ _
  refine .bind (receiveAll_agree room _ _) ?_
  intro _ _ _
  exact .ok trivial

theorem setTurtle_cases (s : Setting) (base : Int64) :
    ∀ properties : List (TurtleProperty × Int64), (∃ line, s.setTurtle base properties = .ok line) ∨
      s.setTurtle base properties = .error (.overflow .add)
  | [] => .inl ⟨[], rfl⟩
  | (property, value) :: rest => by
    rw [setTurtle]
    have hstored : (∃ line, s.turtle .stvg .stvv base property.offset = .ok line) ∨
        s.turtle .stvg .stvv base property.offset = .error (.overflow .add) := by
      unfold turtle Cell.add fit
      split
      · split
        · exact .inl ⟨_, rfl⟩
        · exact .inr rfl
      · exact .inl ⟨_, rfl⟩
    rcases hstored with ⟨stored, hstored⟩ | hstored
    · rcases setTurtle_cases s base rest with ⟨more, hmore⟩ | hmore
      · exact .inl ⟨_, by rw [hstored, hmore]; rfl⟩
      · exact .inr (by rw [hstored, hmore]; rfl)
    · exact .inr (by rw [hstored]; rfl)

theorem startup_eq_error {fault : Fault} (h : s.map.globalsBase = .error fault) :
    s.startup = .error fault := by
  have hglobals := h
  unfold MemoryMap.globalsBase at h
  unfold startup
  cases hbase : s.map.turtleBase with
  | error fault' =>
    rw [hbase] at h
    cases h
    rfl
  | ok base =>
    rw [hbase] at h
    obtain rfl : fault = .overflow .add := Cell.eq_overflow_of_add_eq_error h
    -- with the turtle as globals its own cells can overflow first, with the same fault
    rcases setTurtle_cases s base s.turtleStart with ⟨line, hline⟩ | hline
    · show (s.setTurtle base s.turtleStart >>= _) = _
      rw [hline]
      show (s.map.globalsBase >>= _) = _
      rw [hglobals]
      rfl
    · show (s.setTurtle base s.turtleStart >>= _) = _
      rw [hline]
      rfl

theorem exists_roomy_of_startup {first : List Line} (h : s.startup = .ok first) :
    ∃ base, s.map.Roomy base := by
  cases hglobals : s.map.globalsBase with
  | error fault =>
    rw [startup_eq_error hglobals] at h
    cases h
  | ok cell => exact MemoryMap.exists_roomy hglobals

/-- Under every choice of options the program starts with as many lines, of which only the first
can differ. -/
theorem startup_both (s : Setting) (clear : Bool) :
    Both (fun a b => ∃ x y rest, a = x :: rest ∧ b = y :: rest) s.startup
      (bare s.map clear).startup := by
  cases hglobals : s.map.globalsBase with
  | error fault =>
    rw [startup_eq_error hglobals, startup_eq_error (s := bare s.map clear) hglobals]
    exact .error fault
  | ok cell =>
    obtain ⟨base, room⟩ := MemoryMap.exists_roomy hglobals
    obtain ⟨line, hline⟩ := exists_setTurtle (s := s) room.globals s.turtleStart
    obtain ⟨line', hline'⟩ := exists_setTurtle (s := bare s.map clear) room.globals
      (bare s.map clear).turtleStart
    refine .bind_of_eq room.turtle ?_
    rw [hline, hline']
    refine .bind (R := fun _ _ => True) (.ok trivial) ?_
    intro _ _ _
    refine .bind_same ?_
    intro _ _
    refine .bind_same ?_
    intro headers _
    split
    · exact .ok ⟨_, _, [], rfl, rfl⟩
    · exact .ok ⟨_, _, [headers], rfl, rfl⟩

end Setting

/-! ## Assemblies side by side -/

/-- Lines from `k` on held against other lines.  They are alike except at entries, which neither
jump nor call. -/
inductive Matched (base : Int64) (entry : Nat → Prop) : Nat → List Line → List Line → Prop
  | nil (k : Nat) : Matched base entry k [] []
  | alike {k : Nat} {x y : Line} {a b : List Line} : Alike base x y →
      Matched base entry (k + 1) a b → Matched base entry k (x :: a) (y :: b)
  | entry {k : Nat} {x y : Line} {a b : List Line} : entry k → x.targets = [] → y.targets = [] →
      Matched base entry (k + 1) a b → Matched base entry k (x :: a) (y :: b)

def targetsFrom (k : Nat) (lines : List Line) : List (Nat × Opcode × Option Word) :=
  (lines.zipIdx k).flatMap fun entry => entry.1.targets.map fun target => (entry.2, target)

def Assembly.targets (a : Assembly) : List (Nat × Opcode × Option Word) := targetsFrom 0 a.lines

/-- Two assemblies of one program are the same but for their first line, the entries of subroutines,
the checks of indexes, and how properties of the turtle are addressed, which is at `base`. -/
structure Assembly.SameSkeleton (base : Int64) (a b : Assembly) : Prop where
  length : a.lines.length = b.lines.length
  placements : a.placements = b.placements
  targets : a.targets = b.targets
  settled : ∀ k, k ≠ 0 → (∀ pl ∈ a.placements, pl.start ≠ k) →
    a.lines[k]?.map (Line.settled base) = b.lines[k]?.map (Line.settled base)

theorem Assembly.SameSkeleton.of_common {base : Int64} {a b c : Assembly}
    (ha : a.SameSkeleton base c) (hb : b.SameSkeleton base c) : a.SameSkeleton base b where
  length := ha.length.trans hb.length.symm
  placements := ha.placements.trans hb.placements.symm
  targets := ha.targets.trans hb.targets.symm
  settled k hk hentry := (ha.settled k hk hentry).trans
    (hb.settled k hk (by rwa [hb.placements, ← ha.placements])).symm

namespace Matched

variable {base : Int64} {entry entry' : Nat → Prop} {k : Nat} {a b c d : List Line}

theorem of_forall₂ (h : List.Forall₂ (Alike base) a b) (k : Nat) : Matched base entry k a b := by
  induction h generalizing k with
  | nil => exact .nil k
  | cons hx _ ih => exact .alike hx (ih (k + 1))

theorem refl (a : List Line) (k : Nat) : Matched base entry k a a := by
  induction a generalizing k with
  | nil => exact .nil k
  | cons x rest ih => exact .alike (.refl x) (ih (k + 1))

theorem mono (h : Matched base entry k a b) (he : ∀ j, entry j → entry' j) :
    Matched base entry' k a b := by
  induction h with
  | nil k => exact .nil k
  | alike hx _ ih => exact .alike hx ih
  | entry hk hx hy _ ih => exact .entry (he _ hk) hx hy ih

theorem append (h : Matched base entry k a b) (h' : Matched base entry (k + a.length) c d) :
    Matched base entry k (a ++ c) (b ++ d) := by
  induction h with
  | nil k => exact h'
  | alike hx _ ih =>
    refine .alike hx (ih ?_)
    rwa [List.length_cons, ← Nat.add_assoc, Nat.add_right_comm] at h'
  | entry hk hx hy _ ih =>
    refine .entry hk hx hy (ih ?_)
    rwa [List.length_cons, ← Nat.add_assoc, Nat.add_right_comm] at h'

theorem length_eq (h : Matched base entry k a b) : a.length = b.length := by
  induction h with
  | nil _ => rfl
  | alike _ _ ih => rw [List.length_cons, List.length_cons, ih]
  | entry _ _ _ _ ih => rw [List.length_cons, List.length_cons, ih]

theorem targets_eq (h : Matched base entry k a b) : targetsFrom k a = targetsFrom k b := by
  unfold targetsFrom
  induction h with
  | nil _ => rfl
  | alike hx _ ih => simp only [List.zipIdx_cons, List.flatMap_cons, hx.targets_eq, ih]
  | entry _ hx hy _ ih => simp only [List.zipIdx_cons, List.flatMap_cons, hx, hy, ih]

theorem settled_eq (h : Matched base entry k a b) (i : Nat) (hi : ¬ entry (k + i)) :
    a[i]?.map (Line.settled base) = b[i]?.map (Line.settled base) := by
  induction h generalizing i with
  | nil _ => rfl
  | alike hx _ ih =>
    cases i with
    | zero => exact congrArg some hx.settled_eq
    | succ i => exact ih i (by rwa [Nat.add_right_comm, Nat.add_assoc])
  | entry hk _ _ _ ih =>
    cases i with
    | zero => exact absurd hk hi
    | succ i => exact ih i (by rwa [Nat.add_right_comm, Nat.add_assoc])

end Matched

namespace Setting

variable {s : Setting} {base : Int64} {clear : Bool}

theorem subroutineLines_both (room : s.map.Roomy base) {sub : Subroutine}
    (h : s.options.clearLocals = clear ∨ ∀ v ∈ sub.declarations, v.Countable) (start : Nat) :
    Both (Matched base (· = start) start) (s.subroutineLines sub start)
      ((bare s.map clear).subroutineLines sub start) := by
  refine .bind (prologue_agree room h).and_eq ?_
  rintro entry entry' ⟨_, hentry, hentry'⟩
  refine .bind_same ?_
  intro next _
  refine .bind (statements_alike room _ sub.statements next) ?_
  intro body body' hbody
  refine .bind (epilogue_alike room sub) ?_
  intro exit exit' hexit
  refine .ok (.entry rfl (prologue_targets hentry) (prologue_targets hentry') ?_)
  exact .of_forall₂ (List.rel_append hbody (.cons hexit .nil)) _

theorem place_both (room : s.map.Roomy base) :
    ∀ {subs : List Subroutine} (cursor : Nat),
      (s.options.clearLocals = clear ∨ ∀ sub ∈ subs, ∀ v ∈ sub.declarations, v.Countable) →
      Both (fun x y => x.2 = y.2 ∧ x.2.map (·.index) = subs.map (·.index) ∧
          Matched base (fun k => ∃ pl ∈ x.2, pl.start = k) cursor x.1 y.1)
        (s.place cursor subs) ((bare s.map clear).place cursor subs) := by
  intro subs
  induction subs with
  | nil =>
    intro cursor _
    exact .ok ⟨rfl, rfl, .nil cursor⟩
  | cons sub rest ih =>
    intro cursor h
    rw [place, place]
    refine .bind
      (subroutineLines_both room (h.imp_right fun h => h sub List.mem_cons_self) cursor) ?_
    intro code code' hcode
    rw [← hcode.length_eq]
    refine .bind_same ?_
    intro stop hstop
    obtain ⟨_, rfl⟩ := Address.add_eq_ok.mp hstop
    refine .bind (ih _ (h.imp_right fun h t ht => h t (List.mem_cons_of_mem _ ht))) ?_
    rintro ⟨lines, placed⟩ ⟨lines', _⟩ ⟨rfl, hindexes, hlines⟩
    refine .ok ⟨rfl, congrArg (sub.index :: ·) hindexes, ?_⟩
    refine (hcode.mono ?_).append (hlines.mono ?_)
    · intro k hk
      exact ⟨_, List.mem_cons_self, hk.symm⟩
    · rintro k ⟨pl, hpl, hstart⟩
      exact ⟨pl, List.mem_cons_of_mem _ hpl, hstart⟩

theorem subroutineBlock_both (room : s.map.Roomy base) (start : Nat)
    (h : s.options.clearLocals = clear ∨
      ∀ sub ∈ s.map.subroutines, ∀ v ∈ sub.declarations, v.Countable) :
    Both (fun x y => x.2 = y.2 ∧ x.2.map (·.index) = s.map.subroutines.map (·.index) ∧
        Matched base (fun k => ∃ pl ∈ x.2, pl.start = k) start x.1 y.1)
      (s.subroutineBlock start) ((bare s.map clear).subroutineBlock start) := by
  unfold subroutineBlock
  show Both _ _ (if s.map.subroutines.isEmpty then _ else _)
  split
  · next hempty => exact .ok ⟨rfl, by simp [List.isEmpty_iff.mp hempty], .nil start⟩
  · refine .bind_same ?_
    intro next hnext
    obtain ⟨_, rfl⟩ := Address.add_eq_ok.mp hnext
    refine .bind (place_both room _ h) ?_
    rintro ⟨lines, placed⟩ ⟨lines', _⟩ ⟨rfl, hindexes, hlines⟩
    refine .ok ⟨rfl, hindexes, ?_⟩
    dsimp only at hlines ⊢
    rw [hlines.length_eq]
    exact .alike (.refl _) hlines

/-- **An assembly has the skeleton of the bare one.** -/
theorem assemble_both (hd : (s.map.subroutines.map (·.index)).Nodup)
    (h : s.options.clearLocals = clear ∨
      ∀ sub ∈ s.map.subroutines, ∀ v ∈ sub.declarations, v.Countable) :
    Both (fun a b => ∃ base, s.map.turtleBase = .ok base ∧ a.SameSkeleton base b) s.assemble
      (bare s.map clear).assemble := by
  refine .bind (startup_both s clear).and_eq ?_
  rintro _ _ ⟨⟨x, y, rest, rfl, rfl⟩, hfirst, hfirst'⟩
  obtain ⟨base, room⟩ := exists_roomy_of_startup hfirst
  refine .bind (subroutineBlock_both room _ h) ?_
  rintro ⟨block, placed⟩ ⟨block', _⟩ ⟨rfl, hindexes, hblock⟩
  have hstart : Matched base (fun k => k = 0 ∨ ∃ pl ∈ placed, pl.start = k) 0 (x :: rest)
      (y :: rest) :=
    .entry (.inl rfl) (startup_targets hfirst x List.mem_cons_self)
      (startup_targets hfirst' y List.mem_cons_self) (.refl rest 1)
  have hbefore : Matched base (fun k => k = 0 ∨ ∃ pl ∈ placed, pl.start = k) 0
      (x :: rest ++ block) (y :: rest ++ block') := by
    refine hstart.append ?_
    rw [Nat.zero_add]
    exact hblock.mono fun k hk => .inr hk
  dsimp only
  rw [← hbefore.length_eq]
  refine .bind (statements_alike room _ s.map.program.statements _) ?_
  intro main main' hmain
  have hlines := (hbefore.append (.of_forall₂ hmain _)).append (.refl [instr .halt []] _)
  refine .ok ⟨base, room.turtle, hlines.length_eq, rfl, hlines.targets_eq, ?_⟩
  intro k hk hentry
  refine hlines.settled_eq k ?_
  rw [Nat.zero_add]
  rintro (hzero | ⟨pl, hpl, hplaced⟩)
  · exact hk hzero
  · exact hentry pl ((Placements.mem_ofList (hindexes ▸ hd)).mpr hpl) hplaced

end Setting

/-- **Options do not change the control skeleton.**  If no two subroutines share an index, two
choices of options lead to the same fault, or to assemblies with as many lines, the same places of
the subroutines and the same jumps and calls.  Their lines other than the first one and the entries
of subroutines are the same without checks and with the turtle addressed as globals.  The choices
have to agree on the clearing of frames, unless the greatest lengths of all local strings can be
counted. -/
theorem same_skeleton (p : Program) (o₁ o₂ : Options)
    (hd : (p.allSubroutines.map (·.index)).Nodup)
    (h : o₁.clearLocals = o₂.clearLocals ∨
      ∀ sub ∈ p.allSubroutines, ∀ v ∈ sub.declarations, v.Countable) :
    Both (fun a b => ∃ base, (MemoryMap.of p).turtleBase = .ok base ∧ a.SameSkeleton base b)
      (Setting.of p o₁).assemble (Setting.of p o₂).assemble := by
  have h₁ : Both _ (Setting.of p o₁).assemble (Setting.bare _ o₁.clearLocals).assemble :=
    Setting.assemble_both hd (.inl rfl)
  have h₂ : Both _ (Setting.of p o₂).assemble (Setting.bare _ o₁.clearLocals).assemble :=
    Setting.assemble_both hd (h.imp_left Eq.symm)
  refine h₁.of_common h₂ ?_
  rintro a b c ⟨base, hbase, ha⟩ ⟨base', hbase', hb⟩
  obtain rfl : base = base' := Except.ok.inj (hbase.symm.trans hbase')
  exact ⟨base, hbase, ha.of_common hb⟩

def garden : Program where
  name := "garden"
  language := .pascal
  declarations := [.turtle .x, { name := "row", ty := .integer, dimensions := [⟨1, 3⟩] }]
  subroutines := [{
    index := 1
    name := "plant"
    declarations := [{ name := "seed", ty := .string, stringLength := 8 }]
    statements := [.assign ⟨⟨0, 1⟩, [.var ⟨0, 0⟩ [] .integer], .integer 7⟩] }]
  statements := [
    .whileDo (.binary .more (.var ⟨0, 0⟩ [] .integer) (.integer 1) .boolean)
      [.call ⟨.subroutine 1, []⟩, .assign ⟨⟨0, 0⟩, [], .var ⟨0, 1⟩ [.integer 2] .integer⟩]]

def sparse : Options where
  canvasSize := 500
  keyBuffer := false
  turtleAsGlobals := true
  clearLocals := false
  checkRanges := false

theorem same_skeleton_garden :
    (garden.allSubroutines.map (·.index)).Nodup ∧
      (∀ sub ∈ garden.allSubroutines, ∀ v ∈ sub.declarations, v.Countable) ∧
      (Setting.of garden {}).assemble.toOption.bind (·.lines[4]?) ≠
        (Setting.of garden sparse).assemble.toOption.bind (·.lines[4]?) ∧
      Both (fun a b => ∃ base, (MemoryMap.of garden).turtleBase = .ok base ∧ a.SameSkeleton base b)
        (Setting.of garden {}).assemble (Setting.of garden sparse).assemble := by
  have hd : (garden.allSubroutines.map (·.index)).Nodup := by decide +kernel
  have hc : ∀ sub ∈ garden.allSubroutines, ∀ v ∈ sub.declarations, v.Countable := by decide +kernel
  exact ⟨hd, hc, by decide +kernel, same_skeleton garden {} sparse hd (.inr hc)⟩

/-- A subroutine with two strings, the first of which takes nearly all cells.  The length of the
second one is, as a word, less than zero. -/
def vault : Program where
  name := "vault"
  language := .pascal
  declarations := []
  subroutines := [{
    index := 1
    name := "keep"
    declarations := [{ name := "long", ty := .string, stringLength := 9223372036854775803 },
      { name := "none", ty := .string, stringLength := 18446744073709551613 }] }]

/-- Without the clearing of frames the length that the second string has is past the last cell. -/
theorem vault_uncleared :
    (vault.allSubroutines.map (·.index)).Nodup ∧
      (Setting.of vault {}).assemble.toOption.isSome = true ∧
      (Setting.of vault { clearLocals := false }).assemble = .error (.overflow .add) := by
  refine ⟨?_, ?_, ?_⟩
  · decide +kernel
  · decide +kernel
  · decide +kernel

end TurtleCode
