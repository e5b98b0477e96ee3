import TurtleCode.Proofs.Headers

/-!
# Strings and arrays are ready to use

After the lines that a program starts with, and after the part of a subroutine's first line before
the parameters, every string and array has its headers, at the place that the memory map gives it.

* `Setting.setupLine_runs`: what the first line leaves alone.
* `MemoryMap.AllHeaded`: the variables of a routine have their headers.  `MemoryMap.Confined`: code
  is made of pieces that store inside their own variables.
* `storage_headed`: both hold of the start of a program and of every subroutine.
-/

namespace TurtleCode

/-! ## The start of a program -/

/-- The canvas, its resolution and the key buffer take their operands and leave some cells as they
are. -/
structure Machine.Spares (M : Machine) (H : Int → Prop) : Prop where
  canv : ∀ m a b c d st, ∃ m', M.other .canv [] ⟨m, a :: b :: c :: d :: st⟩ = some ⟨m', st⟩ ∧
    ∀ k, H k → m' k = m k
  reso : ∀ m a b st, ∃ m', M.other .reso [] ⟨m, a :: b :: st⟩ = some ⟨m', st⟩ ∧
    ∀ k, H k → m' k = m k
  bufr : ∀ m a st, ∃ m' x, M.other .bufr [] ⟨m, a :: st⟩ = some ⟨m', x :: st⟩ ∧
    ∀ k, H k → m' k = m k

namespace Setting

variable {M : Machine} {s : Setting} {m : Memory} {base : Int64} {code : Line}

theorem cellOf_turtle (h : m 0 = base.toInt) (offset : Int64) :
    s.cellOf m (.turtle base offset) = base.toInt + offset.toInt := by
  have hpointer : MemoryMap.turtlePointer.toInt = 0 := rfl
  simp only [cellOf, hpointer, h, ite_self]

/-- Properties are stored in the cells after the turtle's base, whichever way they are addressed. -/
theorem setTurtle_runs : ∀ {properties : List (TurtleProperty × Int64)} {code : Line} {m : Memory},
    s.setTurtle base properties = .ok code → 0 ≤ base.toInt → m 0 = base.toInt →
    ∃ m', (∀ st, M.Runs code ⟨m, st⟩ ⟨m', st⟩) ∧
      ∀ k, ¬(base.toInt < k ∧ k < base.toInt + 7) → m' k = m k := by
  intro properties
  induction properties with
  | nil =>
    intro code m h _ _
    cases h
    exact ⟨m, fun st => .nil, fun _ _ => rfl⟩
  | cons entry rest ih =>
    intro code m h hbase hm
    obtain ⟨property, value⟩ := entry
    rw [setTurtle] at h
    simp only [Result.bind_eq_ok, Result.pure_eq_ok] at h
    obtain ⟨stored, hstored, more, hmore, rfl⟩ := h
    have hoffset := property.offset_bounds
    have hcell := cellOf_turtle (s := s) hm property.offset
    have store (st : List Int) : M.Runs stored ⟨m, value.toInt :: st⟩
        ⟨Function.update m (base.toInt + property.offset.toInt) value.toInt, st⟩ := by
      rcases turtle_ok (m := m) hstored with ⟨cell, rfl, he⟩ | ⟨rfl, he⟩
      · rw [← hcell, he]
        exact .instr rfl
      · rw [← hcell, he]
        exact .instr rfl
    obtain ⟨m', hruns, hm'⟩ :=
      ih (m := Function.update m (base.toInt + property.offset.toInt) value.toInt) hmore hbase
        (by rw [Function.update_of_ne (by omega), hm])
    refine ⟨m', fun st => .append (.append (.instr rfl) (store st)) (hruns st), fun k hk => ?_⟩
    rw [hm' k hk, Function.update_of_ne (by omega)]

theorem setCanvas_runs {H : Int → Prop} (hM : M.Spares H) (size : Int64) (m : Memory)
    (st : List Int) : ∃ m', M.Runs (setCanvas size) ⟨m, st⟩ ⟨m', st⟩ ∧ ∀ k, H k → m' k = m k := by
  obtain ⟨m₁, hcanv, hm₁⟩ := hM.canv m size.toInt size.toInt 0 0 st
  obtain ⟨m₂, hreso, hm₂⟩ := hM.reso m₁ size.toInt size.toInt st
  have operands : M.Runs
      (instr .ldin [0] ++ instr .ldin [0] ++ instr .ldin [size] ++ instr .ldin [size])
      ⟨m, st⟩ ⟨m, size.toInt :: size.toInt :: 0 :: 0 :: st⟩ :=
    .append (.append (.append (.instr rfl) (.instr rfl)) (.instr rfl)) (.instr rfl)
  refine ⟨m₂, ?_, fun k hk => by rw [hm₂ k hk, hm₁ k hk]⟩
  exact .append (.append (.append (operands.append (.instr hcanv)) (.instr rfl)) (.instr rfl))
    (.instr hreso)

theorem setKeyBuffer_runs {H : Int → Prop} (hM : M.Spares H) (hH : ∀ k, H k → 1 < k) (m : Memory)
    (st : List Int) : ∃ m', M.Runs setKeyBuffer ⟨m, st⟩ ⟨m', st⟩ ∧ ∀ k, H k → m' k = m k := by
  obtain ⟨m₁, x, hbufr, hm₁⟩ := hM.bufr m keyBufferSize.toInt st
  refine ⟨Function.update m₁ 1 x, .append (.append (.instr rfl) (.instr hbufr)) (.instr rfl), ?_⟩
  intro k hk
  have := hH k hk
  rw [Function.update_of_ne (by omega), hm₁ k hk]

/-- The first line writes below the globals only, the canvas and the key buffer apart. -/
theorem setupLine_runs {H : Int → Prop} (hM : M.Spares H) (hH : ∀ k, H k → base.toInt + 7 ≤ k)
    (hbase : 2 ≤ base.toInt) {properties : Line}
    (h : s.setTurtle base s.turtleStart = .ok properties) (m : Memory) (st : List Int) :
    ∃ m', M.Runs (s.setupLine base properties) ⟨m, st⟩ ⟨m', st⟩ ∧ ∀ k, H k → m' k = m k := by
  obtain ⟨m₁, hruns, hm₁⟩ := setTurtle_runs (M := M) (m := Function.update m 0 base.toInt) h
    (by omega) (Function.update_self ..)
  obtain ⟨m₂, hcanvas, hm₂⟩ := setCanvas_runs hM s.options.canvasSize m₁ st
  have buffer : ∃ m₃, M.Runs (if s.options.keyBuffer then setKeyBuffer else []) ⟨m₂, st⟩ ⟨m₃, st⟩ ∧
      ∀ k, H k → m₃ k = m₂ k := by
    split
    · refine setKeyBuffer_runs hM (fun k hk => ?_) m₂ st
      have := hH k hk
      omega
    · exact ⟨m₂, .nil, fun _ _ => rfl⟩
  obtain ⟨m₃, hbuffer, hm₃⟩ := buffer
  have pointer : M.Runs (instr .ldin [base] ++ instr .stvg [MemoryMap.turtlePointer]) ⟨m, st⟩
      ⟨Function.update m 0 base.toInt, st⟩ := .append (.instr rfl) (.instr rfl)
  refine ⟨m₃, .append (.append (.append pointer (hruns st)) hcanvas) hbuffer, ?_⟩
  intro k hk
  have := hH k hk
  rw [hm₃ k hk, hm₂ k hk, hm₁ k (by omega), Function.update_of_ne (by omega)]

theorem startup_eq {properties headers : Line} {first : Int64} (hb : s.map.turtleBase = .ok base)
    (hp : s.setTurtle base s.turtleStart = .ok properties) (hg : s.map.globalsBase = .ok first)
    (hh : Region.allHeaders .globals true Variable.ownsStorage first s.map.program.declarations
      = .ok headers) :
    s.startup = .ok (if headers.isEmpty then [s.setupLine base properties]
      else [s.setupLine base properties, headers]) := by
  simp only [startup, hb, hp, hg, hh, bind, Except.bind]
  rfl

end Setting

/-! ## The start of a subroutine -/

namespace Setting

theorem claimFrame_runs {M : Machine} {s : Setting} {pointer length : Int64} {m m' : Memory}
    {st : List Int} (h : M.other .memc [pointer, length] ⟨m, st⟩ = some ⟨m', st⟩)
    (hp : ¬(m' pointer.toInt ≤ pointer.toInt ∧ pointer.toInt < m' pointer.toInt + length.toInt)) :
    ∃ m₁, M.Runs (s.claimFrame pointer length) ⟨m, st⟩ ⟨m₁, st⟩ ∧
      m₁ pointer.toInt = m' pointer.toInt ∧
      (s.options.clearLocals = true → ∀ k, m' pointer.toInt ≤ k →
        k < m' pointer.toInt + length.toInt → m₁ k = 0) := by
  unfold claimFrame
  split
  · refine ⟨m'.zero (m' pointer.toInt) length.toInt,
      .append (.instr h) (.append (.append (.instr rfl) (.instr rfl)) (.instr rfl)), if_neg hp, ?_⟩
    exact fun _ k hlo hhi => if_pos ⟨hlo, hhi⟩
  · next hempty =>
    refine ⟨m', .append (.instr h) .nil, rfl, fun hclear k hlo hhi => ?_⟩
    have hlength : ¬0 < length := fun hpos => hempty ⟨hclear, hpos⟩
    rw [Int64.lt_iff_toInt_lt] at hlength
    have hzero : (0 : Int64).toInt = 0 := rfl
    omega

theorem prologue_eq {s : Setting} {sub : Subroutine} {pointer length : Int64} {headers : Line}
    (hp : MemoryMap.frameCell sub.index = .ok pointer) (hl : MemoryMap.frameLength sub = .ok length)
    (hh : Region.allHeaders (.frame pointer) s.options.clearLocals Variable.headedInFrame 0
      sub.declarations = .ok headers) :
    s.prologue sub = (fun received => s.claimFrame pointer length ++ headers ++ received) <$>
      s.receiveAll sub.index sub.parameterSlots.reverse := by
  simp only [prologue, hp, hl, hh, bind, Except.bind]
  cases s.receiveAll sub.index sub.parameterSlots.reverse with
  | error fault => rfl
  | ok received => rfl

end Setting

/-! ## Headers are where variables are -/

namespace MemoryMap

/-- The wanted variables of a routine have their headers, at the places that the map gives them. -/
def AllHeaded (map : MemoryMap) (region : Region) (index : UInt64) (wanted : Variable → Bool)
    (m : Memory) : Prop :=
  ∀ slot v, map.declared ⟨index, slot⟩ = .ok v → wanted v = true →
    ∃ cell, map.location ⟨index, slot⟩ = .ok (region.place cell) ∧
      v.Headed m v.dimensions (region.origin m + cell.toInt)

/-- Pieces of code, one for each variable of a routine, that store inside their own variables. -/
def Confined (map : MemoryMap) (region : Region) (index : UInt64) (pieces : List Line) : Prop :=
  ∃ routine, map.routine index = .ok routine ∧ pieces.length = routine.declarations.length ∧
    ∀ slot v, map.declared ⟨index, slot⟩ = .ok v → ∃ piece, pieces[slot.toNat]? = some piece ∧
      (piece = [] ∨ ∃ cell length, map.location ⟨index, slot⟩ = .ok (region.place cell) ∧
        v.length = .ok length ∧
        region.StoresWithin cell.toInt (cell.toInt + length.toInt) piece)

def IsGlobalHeader (map : MemoryMap) (k : Int) : Prop :=
  ∃ slot v cell, map.declared ⟨0, slot⟩ = .ok v ∧ v.ownsStorage = true ∧
    map.location ⟨0, slot⟩ = .ok (.global cell) ∧ v.IsHeader v.dimensions cell.toInt k

section Region

variable {map : MemoryMap} {region : Region} {index : UInt64} {routine : Routine} {first : Int64}
  {zeroed : Bool} {wanted : Variable → Bool} {code : Line}

/-- The variables of a routine lie one after another in a region, from cell `first` on. -/
structure LaidFrom (map : MemoryMap) (region : Region) (index : UInt64) (first : Int64)
    (routine : Routine) : Prop where
  found : map.routine index = .ok routine
  laid : Variable.Laid first.toInt routine.declarations
  place : ∀ {slot : UInt64} {v : Variable}, routine.declarations[slot.toNat]? = some v →
    v.isTurtle = false → ∃ cell, map.location ⟨index, slot⟩ = .ok (region.place cell) ∧
      cell.toInt = first.toInt + Variable.extentAll (routine.declarations.take slot.toNat)

theorem LaidFrom.slot (h : map.LaidFrom region index first routine) {slot : UInt64} {v : Variable} :
    map.declared ⟨index, slot⟩ = .ok v ↔ routine.declarations[slot.toNat]? = some v := by
  rw [declared_eq_ok]
  constructor
  · rintro ⟨routine', hr, hv⟩
    obtain rfl := Except.ok.inj (h.found.symm.trans hr)
    exact hv
  · exact fun hv => ⟨routine, h.found, hv⟩

theorem LaidFrom.header_bounds (h : map.LaidFrom region index first routine) {slot : UInt64}
    {v : Variable} {cell : Int64} {o k : Int} (hv : map.declared ⟨index, slot⟩ = .ok v)
    (hown : v.ownsStorage = true) (hcell : map.location ⟨index, slot⟩ = .ok (region.place cell))
    (hk : v.IsHeader v.dimensions (o + cell.toInt) k) :
    o + first.toInt ≤ k ∧ k < o + first.toInt + Variable.extentAll routine.declarations := by
  rw [h.slot] at hv
  obtain ⟨cell', hcell', hvalue⟩ := h.place hv (Variable.isTurtle_of_ownsStorage hown)
  obtain rfl : cell' = cell := region.place_injective (Except.ok.inj (hcell'.symm.trans hcell))
  have hkind := (Variable.ownsStorage_iff.mp hown).1
  have hfits := h.laid.sized v (List.mem_of_getElem? hv) hkind
  have hbefore : 0 ≤ Variable.extentAll (routine.declarations.take slot.toNat) :=
    Variable.extentAll_nonneg fun u hu => h.laid.sized u (List.mem_of_mem_take hu)
  have hend := Variable.extentAll_take_add_le h.laid.sized hv
  rw [Variable.extent_eq_extentOver hkind] at hend
  have hrange := hk.mem_range hfits.size_nonneg
  omega

theorem LaidFrom.exists_confined (h : map.LaidFrom region index first routine)
    (hwanted : ∀ v, wanted v = true → v.ownsStorage = true)
    (hcode : region.allHeaders zeroed wanted first routine.declarations = .ok code) :
    ∃ pieces : List Line, code = pieces.flatten ∧ map.Confined region index pieces := by
  obtain ⟨pieces, hflat, hcount, hpieces⟩ := Region.allHeaders_pieces hwanted h.laid.sized hcode
  refine ⟨pieces, hflat, routine, h.found, hcount, fun slot v hv => ?_⟩
  rw [h.slot] at hv
  obtain ⟨piece, hpiece, hwithin⟩ := hpieces slot.toNat v hv
  refine ⟨piece, hpiece, hwithin.imp_right ?_⟩
  rintro ⟨hown, hwithin⟩
  obtain ⟨cell, hcell, hvalue⟩ := h.place hv (Variable.isTurtle_of_ownsStorage hown)
  obtain ⟨length, hlength, hexact⟩ := (h.laid.sized v (List.mem_of_getElem? hv)).exists_length
  refine ⟨cell, length, hcell, hlength, ?_⟩
  rw [hvalue, hexact]
  exact hwithin

theorem LaidFrom.headers_run (h : map.LaidFrom region index first routine)
    (hwanted : ∀ v, wanted v = true → v.ownsStorage = true)
    (hcode : region.allHeaders zeroed wanted first routine.declarations = .ok code) (M : Machine)
    {m : Memory} (hclear : region.Clear (region.origin m + first.toInt)
      (region.origin m + (first.toInt + Variable.extentAll routine.declarations)))
    (hblank : zeroed = true → ∀ slot v cell, map.declared ⟨index, slot⟩ = .ok v → wanted v = true →
      map.location ⟨index, slot⟩ = .ok (region.place cell) →
      ∀ k, v.IsHeader v.dimensions (region.origin m + cell.toInt) k → m k = 0) :
    ∃ m', (∀ st, M.Runs code ⟨m, st⟩ ⟨m', st⟩) ∧ region.origin m' = region.origin m ∧
      map.AllHeaded region index wanted m' := by
  obtain ⟨m', hruns, hsame, hheaded⟩ :=
    (Region.allHeaders_fills hwanted h.laid.sized hcode).runs m hclear (by
      intro slot v hv hw hz k hk
      have hslot := h.laid.toNat_slot hv
      rw [← hslot] at hv hk
      obtain ⟨cell, hcell, hvalue⟩ := h.place hv (Variable.isTurtle_of_ownsStorage (hwanted v hw))
      rw [← hvalue] at hk
      exact hblank hz _ v cell (h.slot.mpr hv) hw hcell k hk)
  have horigin := hclear.origin_eq hsame
  refine ⟨m', hruns, horigin, fun slot v hv hw => ?_⟩
  rw [h.slot] at hv
  obtain ⟨cell, hcell, hvalue⟩ := h.place hv (Variable.isTurtle_of_ownsStorage (hwanted v hw))
  refine ⟨cell, hcell, ?_⟩
  rw [horigin, hvalue]
  exact hheaded slot.toNat v hv hw

end Region

namespace Framed

variable {sub : Subroutine} {pointer : Int64}

theorem laidFrom {map : MemoryMap} (h : map.Framed sub pointer) :
    map.LaidFrom (.frame pointer) sub.index 0 (.subroutine sub) := by
  have hzero : (0 : Int64).toInt = 0 := rfl
  refine ⟨h.found, h.laid, fun hv ht => ?_⟩
  rw [hzero, Int.zero_add]
  exact h.location hv ht

theorem exists_headers {map : MemoryMap} (h : map.Framed sub pointer) (zeroed : Bool) :
    ∃ headers, Region.allHeaders (.frame pointer) zeroed Variable.headedInFrame 0 sub.declarations
      = .ok headers :=
  Region.exists_allHeaders Variable.ownsStorage_of_headedInFrame 0 h.laid.sized (Int.le_refl 0)
    h.laid.room

theorem opening_runs {s : Setting} (h : s.map.Framed sub pointer) {length : Int64} {headers : Line}
    (hlength : length.toInt = Variable.extentAll sub.declarations)
    (hheaders : Region.allHeaders (.frame pointer) s.options.clearLocals Variable.headedInFrame 0
      sub.declarations = .ok headers) {M : Machine} {m m' : Memory} {st : List Int}
    (hmemc : M.other .memc [pointer, length] ⟨m, st⟩ = some ⟨m', st⟩)
    (hapart : ¬(m' pointer.toInt ≤ pointer.toInt ∧
      pointer.toInt < m' pointer.toInt + length.toInt)) :
    ∃ m'', M.Runs (s.claimFrame pointer length ++ headers) ⟨m, st⟩ ⟨m'', st⟩ ∧
      m'' pointer.toInt = m' pointer.toInt ∧
      s.map.AllHeaded (.frame pointer) sub.index Variable.headedInFrame m'' := by
  have hzero : (0 : Int64).toInt = 0 := rfl
  have hdeclarations : (Routine.subroutine sub).declarations = sub.declarations := rfl
  obtain ⟨m₁, hclaim, hbase, hcleared⟩ := Setting.claimFrame_runs (s := s) hmemc hapart
  have hclear : Region.Clear (m₁ pointer.toInt + (0 : Int64).toInt) (m₁ pointer.toInt +
      ((0 : Int64).toInt + Variable.extentAll sub.declarations)) (.frame pointer) := by
    rw [hbase, hzero, ← hlength]
    intro hp
    exact hapart ⟨by omega, by omega⟩
  obtain ⟨m'', hruns, horigin, hheaded⟩ :=
    h.laidFrom.headers_run Variable.ownsStorage_of_headedInFrame hheaders M hclear (by
      intro hz slot v cell hv hw hcell k hk
      have hrange := h.laidFrom.header_bounds hv (v.ownsStorage_of_headedInFrame hw) hcell hk
      rw [Region.origin, hbase, hdeclarations] at hrange
      exact hcleared hz k (by omega) (by omega))
  exact ⟨m'', hclaim.append (hruns st), horigin.trans hbase, hheaded⟩

end Framed

end MemoryMap

namespace Program.Regular

variable {p : Program} {sub : Subroutine}

theorem laidFrom_globals (h : p.Regular) : ∃ first, (MemoryMap.of p).globalsBase = .ok first ∧
    first.toInt = (MemoryMap.of p).globalsCell ∧
    (MemoryMap.of p).LaidFrom .globals 0 first (.program p) := by
  obtain ⟨first, hfirst, hvalue⟩ := h.exists_globalsBase
  refine ⟨first, hfirst, hvalue, rfl, ?_, fun hv ht => ?_⟩
  · rw [hvalue]
    exact h.globals
  · rw [hvalue]
    exact h.location_global hv ht

theorem laidFrom_frame (h : p.Regular) (hs : sub ∈ p.allSubroutines) {pointer : Int64}
    (hp : MemoryMap.frameCell sub.index = .ok pointer) :
    (MemoryMap.of p).LaidFrom (.frame pointer) sub.index 0 (.subroutine sub) :=
  (h.framed hs hp).laidFrom

theorem exists_startup (h : p.Regular) (options : Options) :
    ∃ base first properties headers lines, (MemoryMap.of p).turtleBase = .ok base ∧
      base.toInt = (MemoryMap.of p).turtleCell ∧
      (Setting.of p options).setTurtle base (Setting.of p options).turtleStart = .ok properties ∧
      (MemoryMap.of p).LaidFrom .globals 0 first (.program p) ∧
      Region.allHeaders .globals true Variable.ownsStorage first p.declarations = .ok headers ∧
      (Setting.of p options).startup = .ok lines ∧
      lines.flatten = (Setting.of p options).setupLine base properties ++ headers := by
  obtain ⟨base, hbase, hvalue⟩ := h.exists_turtleBase
  obtain ⟨first, hfirst, hfirst', hlaid⟩ := h.laidFrom_globals
  have htwo := (MemoryMap.of p).two_le_turtleCell
  have hcell : (MemoryMap.of p).globalsCell = (MemoryMap.of p).turtleCell + 7 := rfl
  have hle := h.globalsCell_le
  have hset : ∃ properties,
      (Setting.of p options).setTurtle base (Setting.of p options).turtleStart = .ok properties :=
    Setting.exists_setTurtle (by omega) _
  have hmade : ∃ headers,
      Region.allHeaders .globals true Variable.ownsStorage first p.declarations = .ok headers :=
    Region.exists_allHeaders (fun _ hw => hw) first hlaid.laid.sized (by omega) hlaid.laid.room
  obtain ⟨properties, hproperties⟩ := hset
  obtain ⟨headers, hheaders⟩ := hmade
  refine ⟨base, first, properties, headers, _, hbase, hvalue, hproperties, hlaid, hheaders,
    Setting.startup_eq hbase hproperties hfirst hheaders, ?_⟩
  cases headers with
  | nil => simp
  | cons w rest => simp

theorem globalsCell_le_header (h : p.Regular) {k : Int} (hk : (MemoryMap.of p).IsGlobalHeader k) :
    (MemoryMap.of p).globalsCell ≤ k := by
  obtain ⟨slot, v, cell, hv, hown, hcell, hk⟩ := hk
  obtain ⟨first, _, hfirst, hlaid⟩ := h.laidFrom_globals
  rw [← Int.zero_add cell.toInt] at hk
  have := hlaid.header_bounds hv hown hcell hk
  omega

theorem startup_runs (h : p.Regular) {options : Options} {base first : Int64}
    {properties headers : Line} {M : Machine} (hM : M.Spares (MemoryMap.of p).IsGlobalHeader)
    (hbase : base.toInt = (MemoryMap.of p).turtleCell)
    (hproperties : (Setting.of p options).setTurtle base (Setting.of p options).turtleStart
      = .ok properties)
    (hlaid : (MemoryMap.of p).LaidFrom .globals 0 first (.program p))
    (hheaders : Region.allHeaders .globals true Variable.ownsStorage first p.declarations
      = .ok headers) (st : List Int) :
    ∃ m, M.Runs ((Setting.of p options).setupLine base properties ++ headers)
        ⟨fun _ => 0, st⟩ ⟨m, st⟩ ∧
      (MemoryMap.of p).AllHeaded .globals 0 Variable.ownsStorage m := by
  have htwo := (MemoryMap.of p).two_le_turtleCell
  have hcell : (MemoryMap.of p).globalsCell = (MemoryMap.of p).turtleCell + 7 := rfl
  have habove : ∀ k, (MemoryMap.of p).IsGlobalHeader k → base.toInt + 7 ≤ k := by
    intro k hk
    have := h.globalsCell_le_header hk
    omega
  obtain ⟨m₁, hsetup, hm₁⟩ :=
    Setting.setupLine_runs hM habove (by omega) hproperties (fun _ => 0) st
  obtain ⟨m, hruns, _, hheaded⟩ :=
    hlaid.headers_run (fun _ hw => hw) hheaders M (m := m₁) trivial (by
      intro _ slot v cell hv hown hplace k hk
      rw [Region.origin, Int.zero_add] at hk
      exact hm₁ k ⟨slot, v, cell, hv, hown, hplace, hk⟩)
  exact ⟨m, hsetup.append (hruns st), hheaded⟩

theorem opening_runs (h : p.Regular) (hs : sub ∈ p.allSubroutines) {options : Options}
    {pointer length : Int64} {headers : Line}
    (hpointer : MemoryMap.frameCell sub.index = .ok pointer)
    (hlength : length.toInt = Variable.extentAll sub.declarations)
    (hheaders : Region.allHeaders (.frame pointer) options.clearLocals Variable.headedInFrame 0
      sub.declarations = .ok headers) {M : Machine} {m m' : Memory} {st : List Int}
    (hmemc : M.other .memc [pointer, length] ⟨m, st⟩ = some ⟨m', st⟩)
    (hapart : ¬(m' pointer.toInt ≤ pointer.toInt ∧
      pointer.toInt < m' pointer.toInt + length.toInt)) :
    ∃ m'', M.Runs ((Setting.of p options).claimFrame pointer length ++ headers) ⟨m, st⟩ ⟨m'', st⟩ ∧
      m'' pointer.toInt = m' pointer.toInt ∧
      (MemoryMap.of p).AllHeaded (.frame pointer) sub.index Variable.headedInFrame m'' :=
  MemoryMap.Framed.opening_runs (s := .of p options) (h.framed hs hpointer) hlength hheaders hmemc
    hapart

end Program.Regular

/-- **Strings and arrays have their headers before they are used.**  The lines that a program starts
with, run from zeroed memory, leave all headers of the globals.  The first line of a subroutine, run
up to the parameters from any memory in which it gets a frame apart from its pointer, leaves all
headers of the locals but for arrays that are parameters.  What follows the setup of the turtle and
the canvas, or the claim of a frame, is one piece of code for each variable, which stores inside
this variable. -/
theorem storage_headed {p : Program} (h : p.Regular) (options : Options) :
    (∃ lines base properties pieces, (Setting.of p options).startup = .ok lines ∧
      (MemoryMap.of p).turtleBase = .ok base ∧
      (Setting.of p options).setTurtle base (Setting.of p options).turtleStart = .ok properties ∧
      lines.flatten = (Setting.of p options).setupLine base properties ++ pieces.flatten ∧
      (MemoryMap.of p).Confined .globals 0 pieces ∧
      ∀ M : Machine, M.Spares (MemoryMap.of p).IsGlobalHeader → ∀ st, ∃ m,
        M.execute lines.flatten ⟨fun _ => 0, st⟩ = some ⟨m, st⟩ ∧
        (MemoryMap.of p).AllHeaded .globals 0 Variable.ownsStorage m) ∧
    ∀ sub ∈ p.allSubroutines, ∃ pointer length opening pieces,
      MemoryMap.frameCell sub.index = .ok pointer ∧ MemoryMap.frameLength sub = .ok length ∧
      (Setting.of p options).prologue sub = (fun received => opening ++ received) <$>
        (Setting.of p options).receiveAll sub.index sub.parameterSlots.reverse ∧
      opening = (Setting.of p options).claimFrame pointer length ++ pieces.flatten ∧
      (MemoryMap.of p).Confined (.frame pointer) sub.index pieces ∧
      ∀ (M : Machine) m st m', M.other .memc [pointer, length] ⟨m, st⟩ = some ⟨m', st⟩ →
        ¬(m' pointer.toInt ≤ pointer.toInt ∧ pointer.toInt < m' pointer.toInt + length.toInt) →
        ∃ m'', M.execute opening ⟨m, st⟩ = some ⟨m'', st⟩ ∧
          m'' pointer.toInt = m' pointer.toInt ∧
          (MemoryMap.of p).AllHeaded (.frame pointer) sub.index Variable.headedInFrame m'' := by
  constructor
  · obtain ⟨base, first, properties, headers, lines, hbase, hcell, hproperties, hlaid, hheaders,
      hlines, hflat⟩ := h.exists_startup options
    obtain ⟨pieces, rfl, hconfined⟩ := hlaid.exists_confined (fun _ hw => hw) hheaders
    refine ⟨lines, base, properties, pieces, hlines, hbase, hproperties, hflat, hconfined,
      fun M hM st => ?_⟩
    obtain ⟨m, hruns, hheaded⟩ := h.startup_runs hM hcell hproperties hlaid hheaders st
    rw [hflat]
    exact ⟨m, Machine.execute_eq_some_iff.mpr hruns, hheaded⟩
  · intro sub hs
    obtain ⟨pointer, hpointer, _⟩ := h.exists_frameCell hs
    have hlaid := h.laidFrom_frame hs hpointer
    obtain ⟨length, hlength, hexact⟩ := (h.laid hs).exists_total (Int.le_refl 0)
    obtain ⟨headers, hheaders⟩ := (h.framed hs hpointer).exists_headers options.clearLocals
    obtain ⟨pieces, rfl, hconfined⟩ :=
      hlaid.exists_confined Variable.ownsStorage_of_headedInFrame hheaders
    refine ⟨pointer, length, _, pieces, hpointer, hlength,
      Setting.prologue_eq hpointer hlength hheaders, rfl, hconfined,
      fun M m st m' hmemc hapart => ?_⟩
    obtain ⟨m'', hruns, hbase, hheaded⟩ := h.opening_runs hs hpointer hexact hheaders hmemc hapart
    exact ⟨m'', Machine.execute_eq_some_iff.mpr hruns, hbase, hheaded⟩

/-- A machine that draws nothing, keeps its keys at 1000 and its frames at 500. -/
def Machine.bench : Machine :=
  { Machine.idle with
    other := fun op operands t =>
      match op, operands, t.stack with
      | .canv, [], _ :: _ :: _ :: _ :: st => some ⟨t.memory, st⟩
      | .reso, [], _ :: _ :: st => some ⟨t.memory, st⟩
      | .bufr, [], _ :: st => some ⟨t.memory, 1000 :: st⟩
      | .memc, [pointer, _], st => some ⟨Function.update t.memory pointer.toInt 500, st⟩
      | _, _, _ => none }

theorem Machine.bench_spares (H : Int → Prop) : Machine.bench.Spares H :=
  ⟨fun m _ _ _ _ _ => ⟨m, rfl, fun _ _ => rfl⟩, fun m _ _ _ => ⟨m, rfl, fun _ _ => rfl⟩,
    fun m _ _ => ⟨m, 1000, rfl, fun _ _ => rfl⟩⟩

theorem storage_headed_storeroom : storeroom.Regular ∧ stock ∈ storeroom.allSubroutines ∧
    (∃ lines m, (Setting.of storeroom {}).startup = .ok lines ∧
      Machine.bench.execute lines.flatten ⟨fun _ => 0, []⟩ = some ⟨m, []⟩ ∧
      m 13 = 14 ∧ m 14 = 3 ∧ m 22 = 23 ∧ m 23 = 4 ∧ m 24 = 0) ∧
    ∃ opening m, (Setting.of storeroom { clearLocals := false }).prologue stock =
        (fun received => opening ++ received) <$>
          (Setting.of storeroom { clearLocals := false }).receiveAll 2
            stock.parameterSlots.reverse ∧
      Machine.bench.execute opening ⟨fun _ => 7, [9]⟩ = some ⟨m, [9]⟩ ∧
      m 511 = 512 ∧ m 512 = 2 ∧ m 518 = 519 ∧ m 519 = 2 ∧ m 520 = 0 := by
  refine ⟨storeroom_regular, stock_mem, ?_, ?_⟩
  · obtain ⟨lines, _, _, _, hlines, _, _, _, _, hruns⟩ := (storage_headed storeroom_regular {}).1
    obtain ⟨m, hm, hheaded⟩ := hruns .bench (Machine.bench_spares _) []
    have hlabels : (MemoryMap.of storeroom).declared ⟨0, 7⟩ = .ok labels := rfl
    have hplace : (MemoryMap.of storeroom).location ⟨0, 7⟩ = .ok (Region.globals.place 13) := by
      rw [storeroom_map]
      rfl
    obtain ⟨cell, hcell, hpointer, hcount, helements⟩ := hheaded 7 _ hlabels rfl
    obtain rfl := Region.place_injective _ (Except.ok.inj (hplace.symm.trans hcell))
    exact ⟨lines, m, hlines, hm, hpointer, hcount, helements 1 (by decide) (by decide) rfl⟩
  · obtain ⟨pointer, length, opening, _, hpointer, hlength, hprologue, _, _, hruns⟩ :=
      (storage_headed storeroom_regular { clearLocals := false }).2 stock stock_mem
    obtain rfl : (3 : Int64) = pointer := Except.ok.inj hpointer
    obtain rfl : (23 : Int64) = length := Except.ok.inj hlength
    obtain ⟨m, hm, hbase, hheaded⟩ := hruns .bench (fun _ => 7) [9] _ rfl (by decide)
    have hdrafts : (MemoryMap.of storeroom).declared ⟨2, 3⟩ = .ok
        { name := "drafts", ty := .string, stringLength := 2, dimensions := [⟨0, 1⟩] } := by
      rw [storeroom_map]
      rfl
    have hplace : (MemoryMap.of storeroom).location ⟨2, 3⟩ = .ok ((Region.frame 3).place 11) := by
      rw [storeroom_map]
      rfl
    obtain ⟨cell, hcell, hdrafts⟩ := hheaded 3 _ hdrafts rfl
    obtain rfl := Region.place_injective _ (Except.ok.inj (hplace.symm.trans hcell))
    rw [Region.origin, hbase] at hdrafts
    obtain ⟨hpointer, hcount, helements⟩ := hdrafts
    exact ⟨opening, m, hprologue, hm, hpointer, hcount, helements 1 (by decide) (by decide) rfl⟩

end TurtleCode
