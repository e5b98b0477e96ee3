import TurtleCode.Proofs.Extents
import TurtleCode.Proofs.Layout

/-!
# The cells of the memory map

Every cell of fixed memory belongs to one thing, and so does every cell of a frame.

* `Program.Regular`: the subroutines are numbered from 1 on, no bounds are the wrong way round, and
  the lengths of variables, of the globals together and of each frame are words.
* `MemoryMap.Occupies`: the cells that a pointer, the result, the turtle or a global takes.
  `MemoryMap.OccupiesLocal`: the offsets that a local takes in its frame.
* `Program.Regular.location_global`, `MemoryMap.Framed.location`: where variables are.
* `memory_partition`: the cells from 0 to the end of the globals are divided up with no overlap and
  no gap, and so are the cells of each frame.
-/

namespace TurtleCode

/-! ## Variables laid one after another -/

namespace Variable

variable {declarations : List Variable} {slot slot' : Nat} {v v' : Variable}

theorem extentAll_take_succ (h : declarations[slot]? = some v) :
    extentAll (declarations.take (slot + 1)) = extentAll (declarations.take slot) + v.extent := by
  rw [List.take_add_one, h, Option.toList_some, extentAll_append]
  simp [extentAll]

theorem extentAll_take_le (h : ∀ v ∈ declarations, v.Sized) (hle : slot ≤ slot') :
    extentAll (declarations.take slot) ≤ extentAll (declarations.take slot') := by
  obtain ⟨more, rfl⟩ := Nat.exists_eq_add_of_le hle
  have hmore : 0 ≤ extentAll ((declarations.drop slot).take more) :=
    extentAll_nonneg fun v hv => h v (List.mem_of_mem_drop (List.mem_of_mem_take hv))
  rw [List.take_add, extentAll_append]
  omega

/-- A variable ends where one that is declared later begins, or before that. -/
theorem extentAll_take_lt (h : ∀ v ∈ declarations, v.Sized) (hv : declarations[slot]? = some v)
    (hlt : slot < slot') :
    extentAll (declarations.take slot) + v.extent ≤ extentAll (declarations.take slot') := by
  rw [← extentAll_take_succ hv]
  exact extentAll_take_le h hlt

theorem extentAll_take_add_le (h : ∀ v ∈ declarations, v.Sized)
    (hv : declarations[slot]? = some v) :
    extentAll (declarations.take slot) + v.extent ≤ extentAll declarations := by
  have hlt : slot < declarations.length := (List.getElem?_eq_some_iff.mp hv).1
  have := extentAll_take_lt h hv hlt
  rwa [List.take_length] at this

theorem slot_unique (h : ∀ v ∈ declarations, v.Sized) (hv : declarations[slot]? = some v)
    (hv' : declarations[slot']? = some v') {k : Int}
    (hk : extentAll (declarations.take slot) ≤ k ∧
      k < extentAll (declarations.take slot) + v.extent)
    (hk' : extentAll (declarations.take slot') ≤ k ∧
      k < extentAll (declarations.take slot') + v'.extent) : slot = slot' := by
  rcases Nat.lt_trichotomy slot slot' with hlt | heq | hlt
  · have := extentAll_take_lt h hv hlt
    omega
  · exact heq
  · have := extentAll_take_lt h hv' hlt
    omega

/-- Every cell up to the sum of the lengths belongs to a variable. -/
theorem exists_slot : ∀ (declarations : List Variable) {k : Int}, 0 ≤ k →
    k < extentAll declarations →
    ∃ slot v, declarations[slot]? = some v ∧ extentAll (declarations.take slot) ≤ k ∧
      k < extentAll (declarations.take slot) + v.extent := by
  intro declarations
  induction declarations with
  | nil =>
    intro k hlo hhi
    rw [extentAll] at hhi
    omega
  | cons v rest ih =>
    intro k hlo hhi
    by_cases hk : k < v.extent
    · refine ⟨0, v, rfl, hlo, ?_⟩
      rw [List.take_zero, extentAll]
      omega
    · rw [extentAll] at hhi
      obtain ⟨slot, u, hu, hstart, hend⟩ := ih (k := k - v.extent) (by omega) (by omega)
      refine ⟨slot + 1, u, hu, ?_, ?_⟩
      · rw [List.take_succ_cons, extentAll]
        omega
      · rw [List.take_succ_cons, extentAll]
        omega

/-- Declarations that can be laid one after another from a cell on. -/
structure Laid (start : Int) (declarations : List Variable) : Prop where
  sized : ∀ v ∈ declarations, v.Sized
  room : start + extentAll declarations ≤ Int64.maxValue.toInt
  slots : declarations.length ≤ UInt64.size

instance (start : Int) (declarations : List Variable) : Decidable (Laid start declarations) :=
  decidable_of_iff ((∀ v ∈ declarations, v.Sized) ∧
      start + extentAll declarations ≤ Int64.maxValue.toInt ∧ declarations.length ≤ UInt64.size)
    ⟨fun ⟨h₁, h₂, h₃⟩ => ⟨h₁, h₂, h₃⟩, fun h => ⟨h.sized, h.room, h.slots⟩⟩

theorem Laid.exists_total {start : Int} (h : Laid start declarations) (hs : 0 ≤ start) :
    ∃ w, total declarations = .ok w ∧ w.toInt = extentAll declarations := by
  have hroom := h.room
  have hzero : (0 : Int64).toInt = 0 := by decide
  obtain ⟨w, hw, hvalue⟩ := exists_advance 0 h.sized (by decide) (by omega)
  exact ⟨w, hw, by omega⟩

theorem Laid.exists_offset {start : Int} (h : Laid start declarations) (hs : 0 ≤ start)
    (hv : declarations[slot]? = some v) :
    ∃ w, total (declarations.take slot) = .ok w ∧ w.toInt = extentAll (declarations.take slot) := by
  have hroom := h.room
  have hend := extentAll_take_add_le h.sized hv
  have hextent := (h.sized v (List.mem_of_getElem? hv)).extent_nonneg
  have hlaid : Laid start (declarations.take slot) :=
    ⟨fun u hu => h.sized u (List.mem_of_mem_take hu), by omega,
      Nat.le_trans (List.length_take_le' _ _) h.slots⟩
  exact hlaid.exists_total hs

theorem Laid.toNat_slot {start : Int} (h : Laid start declarations)
    (hv : declarations[slot]? = some v) : slot.toUInt64.toNat = slot := by
  have hlt : slot < declarations.length := (List.getElem?_eq_some_iff.mp hv).1
  exact UInt64.toNat_ofNat_of_lt (Nat.lt_of_lt_of_le hlt h.slots)

end Variable

/-! ## Regular programs -/

namespace MemoryMap

def resultCells (m : MemoryMap) : Int := if m.returnsSome then 1 else 0

def turtleCell (m : MemoryMap) : Int := 2 + m.subroutines.length + m.resultCells

def globalsCell (m : MemoryMap) : Int := m.turtleCell + 7

theorem resultCells_cases (m : MemoryMap) :
    (m.returnsSome = true ∧ m.resultCells = 1) ∨ (m.returnsSome = false ∧ m.resultCells = 0) := by
  unfold resultCells
  cases m.returnsSome with
  | true => exact .inl ⟨rfl, rfl⟩
  | false => exact .inr ⟨rfl, rfl⟩

theorem two_le_turtleCell (m : MemoryMap) : 2 ≤ m.turtleCell := by
  unfold turtleCell
  rcases m.resultCells_cases with h | h <;> omega

theorem globalsCell_nonneg (m : MemoryMap) : 0 ≤ m.globalsCell := by
  have hpos := m.two_le_turtleCell
  unfold globalsCell
  omega

end MemoryMap

/-- What makes the memory of a program fit: the indexes of the subroutines, nested ones included,
are the numbers from 1 to their number; the globals and the locals of each subroutine are laid one
after another. -/
structure Program.Regular (p : Program) : Prop where
  numbered : ((Subroutine.flattenAll p.subroutines).map (·.index.toNat)).Perm
    (List.range' 1 (Subroutine.flattenAll p.subroutines).length)
  globals : Variable.Laid (MemoryMap.of p).globalsCell p.declarations
  locals : ∀ sub ∈ Subroutine.flattenAll p.subroutines, Variable.Laid 0 sub.declarations

/-! ## The turtle -/

theorem TurtleProperty.offset_bounds (property : TurtleProperty) :
    1 ≤ property.offset.toInt ∧ property.offset.toInt ≤ 6 := by
  cases property <;> decide

/-- Every property of the turtle has a cell, if what follows the turtle has one. -/
theorem TurtleProperty.add_offset {base : Int64} (h : base.toInt + 7 ≤ Int64.maxValue.toInt)
    (property : TurtleProperty) : Cell.add base property.offset = .ok (base + property.offset) := by
  have hoffset := property.offset_bounds
  have hmin : Int64.minValue.toInt ≤ base.toInt := base.le_toInt
  obtain ⟨cell, hcell, _⟩ := exists_fit .add (n := base.toInt + property.offset.toInt) (by omega)
    (by omega)
  obtain rfl := Cell.eq_add_of_add_eq_ok hcell
  exact hcell

theorem Setting.exists_setTurtle {s : Setting} {base : Int64}
    (h : base.toInt + 7 ≤ Int64.maxValue.toInt) :
    ∀ properties : List (TurtleProperty × Int64), ∃ code, s.setTurtle base properties = .ok code
  | [] => ⟨[], rfl⟩
  | (property, value) :: rest => by
    obtain ⟨more, hmore⟩ := exists_setTurtle h rest
    rw [setTurtle, turtle, property.add_offset h, hmore]
    split
    · exact ⟨_, rfl⟩
    · exact ⟨_, rfl⟩

namespace Program.Regular

variable {p : Program} {sub : Subroutine}

theorem laid (h : p.Regular) (hs : sub ∈ p.allSubroutines) : Variable.Laid 0 sub.declarations :=
  h.locals sub (List.mem_mergeSort.mp hs)

theorem indexes (h : p.Regular) : (p.allSubroutines.map (·.index.toNat)).Perm
    (List.range' 1 p.allSubroutines.length) := by
  have hperm : p.allSubroutines.Perm (Subroutine.flattenAll p.subroutines) :=
    List.mergeSort_perm _ _
  rw [hperm.length_eq]
  exact (hperm.map _).trans h.numbered

theorem nodup (h : p.Regular) : ((MemoryMap.of p).subroutines.map (·.index)).Nodup := by
  have hnat : (p.allSubroutines.map (·.index.toNat)).Nodup :=
    h.indexes.nodup_iff.mpr List.nodup_range'
  refine List.Nodup.of_map UInt64.toNat ?_
  rw [List.map_map]
  exact hnat

theorem index_range (h : p.Regular) (hs : sub ∈ p.allSubroutines) :
    1 ≤ sub.index.toNat ∧ sub.index.toNat ≤ p.allSubroutines.length := by
  have hmem := h.indexes.mem_iff.mp (List.mem_map_of_mem (f := (·.index.toNat)) hs)
  rw [List.mem_range'_1] at hmem
  omega

theorem exists_index (h : p.Regular) {i : Nat} (hlo : 1 ≤ i) (hhi : i ≤ p.allSubroutines.length) :
    ∃ sub ∈ p.allSubroutines, sub.index.toNat = i := by
  have hmem : i ∈ p.allSubroutines.map (·.index.toNat) := by
    rw [h.indexes.mem_iff, List.mem_range'_1]
    omega
  exact List.mem_map.mp hmem

/-! ### The fixed cells -/

theorem globalsCell_le (h : p.Regular) : (MemoryMap.of p).globalsCell ≤ Int64.maxValue.toInt := by
  have hroom := h.globals.room
  have hextent := Variable.extentAll_nonneg h.globals.sized
  omega

theorem length_le (h : p.Regular) :
    (p.allSubroutines.length : Int) + 9 ≤ Int64.maxValue.toInt := by
  have hle := h.globalsCell_le
  have hcell : (MemoryMap.of p).globalsCell
      = 2 + p.allSubroutines.length + (MemoryMap.of p).resultCells + 7 := rfl
  rcases (MemoryMap.of p).resultCells_cases with hr | hr <;> omega

theorem exists_frameCell (h : p.Regular) (hs : sub ∈ p.allSubroutines) :
    ∃ cell, MemoryMap.frameCell sub.index = .ok cell ∧ cell.toInt = 1 + sub.index.toNat := by
  obtain ⟨hlo, hhi⟩ := h.index_range hs
  have hlen := h.length_le
  have hindex := toInt_toInt64 (u := sub.index) (by omega)
  have htwo : MemoryMap.reservedCells.toInt = 2 := by decide
  have hone : (1 : Int64).toInt = 1 := by decide
  obtain ⟨above, habove, habove'⟩ := Cell.exists_add (a := MemoryMap.reservedCells)
    (b := sub.index.toInt64) (by omega) (by omega)
  obtain ⟨cell, hcell, hcell'⟩ := exists_fit .subtract (n := above.toInt - (1 : Int64).toInt)
    (Int.le_trans (by decide : Int64.minValue.toInt ≤ 0) (by omega)) (by omega)
  refine ⟨cell, ?_, by omega⟩
  unfold MemoryMap.frameCell
  exact Result.bind_eq_ok.mpr ⟨above, habove, hcell⟩

theorem exists_afterFrames (h : p.Regular) : ∃ cell,
    Cell.add MemoryMap.reservedCells (MemoryMap.of p).subroutineCount = .ok cell ∧
      cell.toInt = 2 + p.allSubroutines.length := by
  have hlen := h.length_le
  have hmax : Int64.maxValue.toInt = 9223372036854775807 := by decide
  have htwo : MemoryMap.reservedCells.toInt = 2 := by decide
  have hcount : (MemoryMap.of p).subroutineCount.toInt = p.allSubroutines.length :=
    Int64.toInt_ofNat_of_lt (show p.allSubroutines.length < 9223372036854775808 by omega)
  rw [← htwo, ← hcount]
  exact Cell.exists_add (by omega) (by omega)

theorem exists_resultCell (h : p.Regular) :
    ∃ cell : Int64, cell.toInt = 2 + p.allSubroutines.length ∧
    (MemoryMap.of p).resultCell =
      .ok (if (MemoryMap.of p).returnsSome then some cell else none) := by
  obtain ⟨cell, hcell, hvalue⟩ := h.exists_afterFrames
  refine ⟨cell, hvalue, ?_⟩
  unfold MemoryMap.resultCell
  split
  · rw [hcell]
    rfl
  · rfl

theorem exists_turtleBase (h : p.Regular) : ∃ base, (MemoryMap.of p).turtleBase = .ok base ∧
    base.toInt = (MemoryMap.of p).turtleCell := by
  obtain ⟨result, _, hresult⟩ := h.exists_resultCell
  obtain ⟨cell, hcell, hvalue⟩ := h.exists_afterFrames
  have hlen := h.length_le
  have hzero : (0 : Int64).toInt = 0 := by decide
  have hone : (1 : Int64).toInt = 1 := by decide
  have hturtle : (MemoryMap.of p).turtleCell
      = 2 + p.allSubroutines.length + (MemoryMap.of p).resultCells := rfl
  unfold MemoryMap.turtleBase
  simp only [Result.bind_eq_ok]
  rcases (MemoryMap.of p).resultCells_cases with ⟨hsome, hcells⟩ | ⟨hsome, hcells⟩
  · obtain ⟨base, hbase, hbase'⟩ := Cell.exists_add (a := cell) (b := 1) (by omega) (by omega)
    rw [hsome] at hresult
    exact ⟨base, ⟨some result, hresult, cell, hcell, hbase⟩, by omega⟩
  · obtain ⟨base, hbase, hbase'⟩ := Cell.exists_add (a := cell) (b := 0) (by omega) (by omega)
    rw [hsome] at hresult
    exact ⟨base, ⟨none, hresult, cell, hcell, hbase⟩, by omega⟩

theorem exists_globalsBase (h : p.Regular) : ∃ base, (MemoryMap.of p).globalsBase = .ok base ∧
    base.toInt = (MemoryMap.of p).globalsCell := by
  obtain ⟨turtle, hturtle, hvalue⟩ := h.exists_turtleBase
  have hle := h.globalsCell_le
  have hseven : MemoryMap.turtleCells.toInt = 7 := by decide
  have hpos := (MemoryMap.of p).two_le_turtleCell
  have hcell : (MemoryMap.of p).globalsCell = (MemoryMap.of p).turtleCell + 7 := rfl
  obtain ⟨base, hbase, hbase'⟩ := Cell.exists_add (a := turtle) (b := MemoryMap.turtleCells)
    (by omega) (by omega)
  refine ⟨base, ?_, by omega⟩
  unfold MemoryMap.globalsBase
  exact Result.bind_eq_ok.mpr ⟨turtle, hturtle, hbase⟩

end Program.Regular

/-! ### Where variables are -/

namespace MemoryMap

variable {m : MemoryMap} {index slot : UInt64} {v : Variable} {routine : Routine}

theorem declared_eq_ok : m.declared ⟨index, slot⟩ = .ok v ↔
    ∃ routine, m.routine index = .ok routine ∧ routine.declarations[slot.toNat]? = some v := by
  unfold declared
  rw [Result.bind_eq_ok]
  refine exists_congr fun routine => and_congr_right fun _ => ?_
  cases routine.declarations[slot.toNat]? with
  | none => simp
  | some u => simp

theorem declared_cases (h : m.declared ⟨index, slot⟩ = .ok v) :
    index = 0 ∧ m.program.declarations[slot.toNat]? = some v ∨
      ∃ sub ∈ m.subroutines, sub.index = index ∧ sub.declarations[slot.toNat]? = some v := by
  obtain ⟨routine, hroutine, hv⟩ := declared_eq_ok.mp h
  unfold MemoryMap.routine at hroutine
  split at hroutine
  · next hzero =>
    obtain rfl := Except.ok.inj hroutine
    exact .inl ⟨hzero, hv⟩
  · obtain ⟨sub, hsub, hroutine⟩ := Result.bind_eq_ok.mp hroutine
    obtain rfl := Except.ok.inj hroutine
    obtain ⟨hmem, hindex⟩ := subroutine_ok hsub
    exact .inr ⟨sub, hmem, hindex, hv⟩

/-- The place of a variable that is no property of the turtle is its offset in its region. -/
theorem location_eq {offset : Int64} (hr : m.routine index = .ok routine)
    (hv : routine.declarations[slot.toNat]? = some v) (ht : v.isTurtle = false)
    (ho : Variable.total (routine.declarations.take slot.toNat) = .ok offset) :
    m.location ⟨index, slot⟩ = if routine.isProgram then do
        return .global (← Cell.add (← m.globalsBase) offset)
      else do
        return .frame (← frameCell index) offset := by
  unfold location
  rw [declared_eq_ok.mpr ⟨routine, hr, hv⟩]
  simp only [bind, Except.bind, hr, ho]
  cases hk : v.kind with
  | turtle property => simp [Variable.isTurtle, hk] at ht
  | value | reference | pointer => rfl

/-- The properties of the turtle, and no other variables, are where the turtle is. -/
theorem isTurtle_iff_location {id : VariableId} {place : Location} (hv : m.declared id = .ok v)
    (h : m.location id = .ok place) :
    v.isTurtle = true ↔ ∃ base offset, place = .turtle base offset := by
  unfold location at h
  rw [hv] at h
  unfold Variable.isTurtle
  cases hk : v.kind with
  | turtle property =>
    simp only [bind, Except.bind, hk] at h
    split at h
    · cases h
    · exact ⟨fun _ => ⟨_, _, (Except.ok.inj h).symm⟩, fun _ => rfl⟩
  | value | reference | pointer =>
    refine ⟨Bool.noConfusion, ?_⟩
    rintro ⟨base, offset, rfl⟩
    simp only [bind, Except.bind, hk] at h
    repeat' split at h
    all_goals cases h

/-- A subroutine that is found by its index, and a frame that its variables fit in. -/
structure Framed (m : MemoryMap) (sub : Subroutine) (pointer : Int64) : Prop where
  found : m.routine sub.index = .ok (.subroutine sub)
  cell : frameCell sub.index = .ok pointer
  laid : Variable.Laid 0 sub.declarations

theorem Framed.location {sub : Subroutine} {pointer : Int64} (h : m.Framed sub pointer)
    (hv : sub.declarations[slot.toNat]? = some v) (ht : v.isTurtle = false) :
    ∃ offset, m.location ⟨sub.index, slot⟩ = .ok (.frame pointer offset) ∧
      offset.toInt = Variable.extentAll (sub.declarations.take slot.toNat) := by
  obtain ⟨offset, ho, hoffset⟩ := h.laid.exists_offset (Int.le_refl 0) hv
  refine ⟨offset, ?_, hoffset⟩
  rw [location_eq h.found hv ht ho]
  simp only [Routine.isProgram, Bool.false_eq_true, if_false, h.cell, bind, Except.bind, pure,
    Except.pure]

end MemoryMap

namespace Program.Regular

variable {p : Program} {sub : Subroutine} {slot : UInt64} {v : Variable}

theorem routine_local (h : p.Regular) (hs : sub ∈ p.allSubroutines) :
    (MemoryMap.of p).routine sub.index = .ok (.subroutine sub) := by
  have hne : sub.index ≠ 0 := by
    intro he
    have hlo := (h.index_range hs).1
    rw [he] at hlo
    exact absurd hlo (by decide)
  unfold MemoryMap.routine
  rw [if_neg hne, MemoryMap.subroutine_index h.nodup hs]
  rfl

theorem location_global (h : p.Regular) (hv : p.declarations[slot.toNat]? = some v)
    (ht : v.isTurtle = false) : ∃ cell, (MemoryMap.of p).location ⟨0, slot⟩ = .ok (.global cell) ∧
      cell.toInt = (MemoryMap.of p).globalsCell
        + Variable.extentAll (p.declarations.take slot.toNat) := by
  have hroutine : (MemoryMap.of p).routine 0 = .ok (.program p) := rfl
  have hpos := (MemoryMap.of p).globalsCell_nonneg
  obtain ⟨offset, ho, hoffset⟩ := h.globals.exists_offset hpos hv
  obtain ⟨base, hbase, hvalue⟩ := h.exists_globalsBase
  have hroom := h.globals.room
  have hend := Variable.extentAll_take_add_le h.globals.sized hv
  have hextent := (h.globals.sized v (List.mem_of_getElem? hv)).extent_nonneg
  have hbefore : 0 ≤ Variable.extentAll (p.declarations.take slot.toNat) :=
    Variable.extentAll_nonneg fun u hu => h.globals.sized u (List.mem_of_mem_take hu)
  obtain ⟨cell, hadd, hcell'⟩ := Cell.exists_add (a := base) (b := offset) (by omega) (by omega)
  refine ⟨cell, ?_, by omega⟩
  rw [MemoryMap.location_eq hroutine hv ht ho]
  simp only [Routine.isProgram, if_true, hbase, bind, Except.bind, hadd, pure, Except.pure]

theorem framed (h : p.Regular) (hs : sub ∈ p.allSubroutines) {pointer : Int64}
    (hp : MemoryMap.frameCell sub.index = .ok pointer) : (MemoryMap.of p).Framed sub pointer :=
  ⟨h.routine_local hs, hp, h.laid hs⟩

theorem location_local (h : p.Regular) (hs : sub ∈ p.allSubroutines)
    (hv : sub.declarations[slot.toNat]? = some v) (ht : v.isTurtle = false) {pointer : Int64}
    (hp : MemoryMap.frameCell sub.index = .ok pointer) :
    ∃ offset, (MemoryMap.of p).location ⟨sub.index, slot⟩ = .ok (.frame pointer offset) ∧
      offset.toInt = Variable.extentAll (sub.declarations.take slot.toNat) :=
  (h.framed hs hp).location hv ht

theorem location_turtle (h : p.Regular) {id : VariableId} {property : TurtleProperty}
    (hd : (MemoryMap.of p).declared id = .ok v) (hk : v.kind = .turtle property) :
    ∃ base, (MemoryMap.of p).turtleBase = .ok base ∧
      (MemoryMap.of p).location id = .ok (.turtle base property.offset) := by
  obtain ⟨base, hbase, _⟩ := h.exists_turtleBase
  refine ⟨base, hbase, ?_⟩
  unfold MemoryMap.location
  rw [hd]
  simp only [bind, Except.bind, hk, hbase]
  rfl

end Program.Regular

/-! ## Who a cell belongs to -/

inductive Occupant
  | turtlePointer
  | keyBufferPointer
  | framePointer (index : UInt64)
  | result
  | turtle
  | global (slot : UInt64)

/-- What is there in the memory of a program: the pointers and the turtle always, a frame pointer
for each subroutine, a result cell if some subroutine returns a value, and all globals but the
properties of the turtle. -/
def Occupant.Present (p : Program) : Occupant → Prop
  | .framePointer index => ∃ sub ∈ p.allSubroutines, sub.index = index
  | .result => ∃ sub ∈ p.allSubroutines, sub.returns.isSome
  | .global slot => ∃ v, p.declarations[slot.toNat]? = some v ∧ v.isTurtle = false
  | .turtlePointer | .keyBufferPointer | .turtle => True

namespace MemoryMap

/-- The cells that something takes in fixed memory. -/
def Occupies (m : MemoryMap) : Occupant → Int → Prop
  | .turtlePointer, k => k = turtlePointer.toInt
  | .keyBufferPointer, k => k = keyBufferPointer.toInt
  | .framePointer index, k => ∃ sub cell, m.subroutine index = .ok sub ∧
      frameCell index = .ok cell ∧ k = cell.toInt
  | .result, k => ∃ cell, m.resultCell = .ok (some cell) ∧ k = cell.toInt
  | .turtle, k => ∃ base, m.turtleBase = .ok base ∧ base.toInt ≤ k ∧
      k < base.toInt + turtleCells.toInt
  | .global slot, k => ∃ v cell length, m.declared ⟨0, slot⟩ = .ok v ∧
      m.location ⟨0, slot⟩ = .ok (.global cell) ∧ v.length = .ok length ∧
      cell.toInt ≤ k ∧ k < cell.toInt + length.toInt

def OccupiesLocal (m : MemoryMap) (index slot : UInt64) (k : Int) : Prop :=
  ∃ v pointer offset length, m.declared ⟨index, slot⟩ = .ok v ∧ frameCell index = .ok pointer ∧
    m.location ⟨index, slot⟩ = .ok (.frame pointer offset) ∧ v.length = .ok length ∧
    offset.toInt ≤ k ∧ k < offset.toInt + length.toInt

theorem Framed.occupiesLocal_iff {m : MemoryMap} {sub : Subroutine} {pointer : Int64}
    (h : m.Framed sub pointer) {slot : UInt64} {k : Int} :
    m.OccupiesLocal sub.index slot k ↔ ∃ v, sub.declarations[slot.toNat]? = some v ∧
      Variable.extentAll (sub.declarations.take slot.toNat) ≤ k ∧
      k < Variable.extentAll (sub.declarations.take slot.toNat) + v.extent := by
  constructor
  · rintro ⟨v, pointer', offset, length, hdeclared, hpointer, hcell, hlength, hlo, hhi⟩
    obtain ⟨routine, hroutine, hv⟩ := declared_eq_ok.mp hdeclared
    obtain rfl := Except.ok.inj (h.found.symm.trans hroutine)
    have hexact := (h.laid.sized v (List.mem_of_getElem? hv)).length_eq_extent hlength
    cases ht : v.isTurtle with
    | true =>
      obtain ⟨_, _, he⟩ := (isTurtle_iff_location hdeclared hcell).mp ht
      cases he
    | false =>
      obtain ⟨offset', hcell', hvalue⟩ := h.location hv ht
      rw [hcell] at hcell'
      cases hcell'
      exact ⟨v, hv, by omega, by omega⟩
  · rintro ⟨v, hv, hlo, hhi⟩
    obtain ⟨offset, hcell, hvalue⟩ := h.location hv (Variable.isTurtle_of_extent_pos (by omega))
    obtain ⟨length, hlength, hexact⟩ := (h.laid.sized v (List.mem_of_getElem? hv)).exists_length
    exact ⟨v, pointer, offset, length, declared_eq_ok.mpr ⟨_, h.found, hv⟩, h.cell, hcell, hlength,
      by omega, by omega⟩

end MemoryMap

/-- The first cell that something of a kind can have, and the one after the last. -/
def Occupant.band (p : Program) : Occupant → Int × Int
  | .turtlePointer => (0, 1)
  | .keyBufferPointer => (1, 2)
  | .framePointer _ => (2, 2 + p.allSubroutines.length)
  | .result => (2 + p.allSubroutines.length, (MemoryMap.of p).turtleCell)
  | .turtle => ((MemoryMap.of p).turtleCell, (MemoryMap.of p).globalsCell)
  | .global _ => ((MemoryMap.of p).globalsCell,
      (MemoryMap.of p).globalsCell + Variable.extentAll p.declarations)

namespace Program.Regular

variable {p : Program} {sub : Subroutine} {k : Int}

theorem occupies_framePointer (h : p.Regular) {index : UInt64} :
    (MemoryMap.of p).Occupies (.framePointer index) k ↔
      (∃ sub ∈ p.allSubroutines, sub.index = index) ∧ k = 1 + index.toNat := by
  constructor
  · rintro ⟨sub, cell, hsub, hcell, rfl⟩
    obtain ⟨hmem, rfl⟩ := MemoryMap.subroutine_ok hsub
    obtain ⟨cell', hcell', hvalue⟩ := h.exists_frameCell hmem
    rw [hcell] at hcell'
    obtain rfl := Except.ok.inj hcell'
    exact ⟨⟨sub, hmem, rfl⟩, hvalue⟩
  · rintro ⟨⟨sub, hmem, rfl⟩, rfl⟩
    obtain ⟨cell, hcell, hvalue⟩ := h.exists_frameCell hmem
    exact ⟨sub, cell, MemoryMap.subroutine_index h.nodup hmem, hcell, hvalue.symm⟩

theorem occupies_result (h : p.Regular) : (MemoryMap.of p).Occupies .result k ↔
    (MemoryMap.of p).returnsSome = true ∧ k = 2 + p.allSubroutines.length := by
  obtain ⟨cell, hvalue, hcell⟩ := h.exists_resultCell
  unfold MemoryMap.Occupies
  rw [hcell]
  by_cases hsome : (MemoryMap.of p).returnsSome = true
  · rw [if_pos hsome]
    constructor
    · rintro ⟨cell', he, rfl⟩
      obtain rfl := Option.some.inj (Except.ok.inj he)
      exact ⟨hsome, hvalue⟩
    · rintro ⟨_, rfl⟩
      exact ⟨cell, rfl, hvalue.symm⟩
  · rw [if_neg hsome]
    constructor
    · rintro ⟨cell', he, _⟩
      cases he
    · rintro ⟨he, _⟩
      exact absurd he hsome

theorem occupies_turtle (h : p.Regular) : (MemoryMap.of p).Occupies .turtle k ↔
    (MemoryMap.of p).turtleCell ≤ k ∧ k < (MemoryMap.of p).globalsCell := by
  obtain ⟨base, hbase, hvalue⟩ := h.exists_turtleBase
  have hseven : MemoryMap.turtleCells.toInt = 7 := by decide
  have hcell : (MemoryMap.of p).globalsCell = (MemoryMap.of p).turtleCell + 7 := rfl
  constructor
  · rintro ⟨base', hbase', hlo, hhi⟩
    rw [hbase] at hbase'
    obtain rfl := Except.ok.inj hbase'
    omega
  · rintro ⟨hlo, hhi⟩
    exact ⟨base, hbase, by omega, by omega⟩

theorem occupies_global (h : p.Regular) {slot : UInt64} :
    (MemoryMap.of p).Occupies (.global slot) k ↔ ∃ v, p.declarations[slot.toNat]? = some v ∧
      Variable.extentAll (p.declarations.take slot.toNat) ≤ k - (MemoryMap.of p).globalsCell ∧
      k - (MemoryMap.of p).globalsCell
        < Variable.extentAll (p.declarations.take slot.toNat) + v.extent := by
  constructor
  · rintro ⟨v, cell, length, hdeclared, hcell, hlength, hlo, hhi⟩
    obtain ⟨routine, hroutine, hv⟩ := MemoryMap.declared_eq_ok.mp hdeclared
    obtain rfl : Routine.program p = routine := Except.ok.inj hroutine
    have hexact := (h.globals.sized v (List.mem_of_getElem? hv)).length_eq_extent hlength
    cases ht : v.isTurtle with
    | true =>
      obtain ⟨_, _, he⟩ := (MemoryMap.isTurtle_iff_location hdeclared hcell).mp ht
      cases he
    | false =>
      obtain ⟨cell', hcell', hvalue⟩ := h.location_global hv ht
      rw [hcell] at hcell'
      cases hcell'
      exact ⟨v, hv, by omega, by omega⟩
  · rintro ⟨v, hv, hlo, hhi⟩
    have ht := Variable.isTurtle_of_extent_pos (v := v) (by omega)
    obtain ⟨cell, hcell, hvalue⟩ := h.location_global hv ht
    obtain ⟨length, hlength, hexact⟩ := (h.globals.sized v (List.mem_of_getElem? hv)).exists_length
    exact ⟨v, cell, length, MemoryMap.declared_eq_ok.mpr ⟨_, rfl, hv⟩, hcell, hlength, by omega,
      by omega⟩

theorem occupiesLocal_iff (h : p.Regular) (hs : sub ∈ p.allSubroutines) {slot : UInt64} :
    (MemoryMap.of p).OccupiesLocal sub.index slot k ↔
      ∃ v, sub.declarations[slot.toNat]? = some v ∧
        Variable.extentAll (sub.declarations.take slot.toNat) ≤ k ∧
        k < Variable.extentAll (sub.declarations.take slot.toNat) + v.extent := by
  obtain ⟨pointer, hpointer, _⟩ := h.exists_frameCell hs
  exact (h.framed hs hpointer).occupiesLocal_iff

/-- **Where a variable is**: with the turtle, among the globals or in a frame. -/
theorem location_cases (h : p.Regular) {id : VariableId} {v : Variable}
    (hd : (MemoryMap.of p).declared id = .ok v) :
    (∃ property base, v.kind = .turtle property ∧ (MemoryMap.of p).turtleBase = .ok base ∧
      (MemoryMap.of p).location id = .ok (.turtle base property.offset)) ∨
    v.isTurtle = false ∧
      ((∃ slot cell, id = ⟨0, slot⟩ ∧ (MemoryMap.of p).location id = .ok (.global cell) ∧
        (MemoryMap.of p).Occupies (.global slot) cell.toInt) ∨
      ∃ sub ∈ p.allSubroutines, ∃ slot pointer offset, id = ⟨sub.index, slot⟩ ∧
        MemoryMap.frameCell sub.index = .ok pointer ∧
        (MemoryMap.of p).location id = .ok (.frame pointer offset) ∧
        (MemoryMap.of p).OccupiesLocal sub.index slot offset.toInt) := by
  obtain ⟨index, slot⟩ := id
  cases ht : v.isTurtle with
  | true =>
    unfold Variable.isTurtle at ht
    split at ht
    · next property hk =>
      obtain ⟨base, hbase, hplace⟩ := h.location_turtle hd hk
      exact .inl ⟨property, base, hk, hbase, hplace⟩
    · cases ht
  | false =>
    refine .inr ⟨rfl, ?_⟩
    rcases MemoryMap.declared_cases hd with ⟨rfl, hv⟩ | ⟨sub, hs, rfl, hv⟩
    · have hone := (h.globals.sized v (List.mem_of_getElem? hv)).one_le_extent ht
      obtain ⟨cell, hplace, hcell⟩ := h.location_global hv ht
      exact .inl ⟨slot, cell, rfl, hplace, h.occupies_global.mpr ⟨v, hv, by omega, by omega⟩⟩
    · have hone := ((h.laid hs).sized v (List.mem_of_getElem? hv)).one_le_extent ht
      obtain ⟨pointer, hpointer, _⟩ := h.exists_frameCell hs
      obtain ⟨offset, hplace, hoffset⟩ := h.location_local hs hv ht hpointer
      exact .inr ⟨sub, hs, slot, pointer, offset, rfl, hpointer, hplace,
        (h.occupiesLocal_iff hs).mpr ⟨v, hv, by omega, by omega⟩⟩

/-! ### The partition -/

theorem occupies_band (h : p.Regular) {x : Occupant} (hx : (MemoryMap.of p).Occupies x k) :
    (x.band p).1 ≤ k ∧ k < (x.band p).2 := by
  have hturtle : (MemoryMap.of p).turtleCell
      = 2 + p.allSubroutines.length + (MemoryMap.of p).resultCells := rfl
  cases x with
  | turtlePointer =>
    obtain rfl : k = 0 := hx
    exact ⟨Int.le_refl 0, Int.zero_lt_one⟩
  | keyBufferPointer =>
    obtain rfl : k = 1 := hx
    exact ⟨Int.le_refl 1, show (1 : Int) < 2 by decide⟩
  | framePointer index =>
    obtain ⟨⟨sub, hsub, rfl⟩, hk⟩ := h.occupies_framePointer.mp hx
    have hrange := h.index_range hsub
    simp only [Occupant.band]
    omega
  | result =>
    obtain ⟨hsome, hk⟩ := h.occupies_result.mp hx
    rcases (MemoryMap.of p).resultCells_cases with ⟨_, hcells⟩ | ⟨hnone, _⟩
    · simp only [Occupant.band]
      omega
    · rw [hsome] at hnone
      cases hnone
  | turtle => exact h.occupies_turtle.mp hx
  | global slot =>
    obtain ⟨v, hv, hlo, hhi⟩ := h.occupies_global.mp hx
    have hend := Variable.extentAll_take_add_le h.globals.sized hv
    have hbefore : 0 ≤ Variable.extentAll (p.declarations.take slot.toNat) :=
      Variable.extentAll_nonneg fun u hu => h.globals.sized u (List.mem_of_mem_take hu)
    simp only [Occupant.band]
    omega

theorem occupant_unique (h : p.Regular) {x y : Occupant} (hx : (MemoryMap.of p).Occupies x k)
    (hy : (MemoryMap.of p).Occupies y k) : x = y := by
  have hbx := h.occupies_band hx
  have hby := h.occupies_band hy
  have hturtle : (MemoryMap.of p).turtleCell
      = 2 + p.allSubroutines.length + (MemoryMap.of p).resultCells := rfl
  have hresult := (MemoryMap.of p).resultCells_cases
  have hglobals : (MemoryMap.of p).globalsCell = (MemoryMap.of p).turtleCell + 7 := rfl
  -- things of different kinds have different bands
  cases x with
  | framePointer index =>
    cases y with
    | framePointer index' =>
      have hk := (h.occupies_framePointer.mp hx).2
      have hk' := (h.occupies_framePointer.mp hy).2
      rw [UInt64.toNat_inj.mp (show index.toNat = index'.toNat by omega)]
    | _ => simp only [Occupant.band] at hbx hby; omega
  | global slot =>
    cases y with
    | global slot' =>
      obtain ⟨v, hv, hlo, hhi⟩ := h.occupies_global.mp hx
      obtain ⟨v', hv', hlo', hhi'⟩ := h.occupies_global.mp hy
      have := Variable.slot_unique h.globals.sized hv hv' ⟨hlo, hhi⟩ ⟨hlo', hhi'⟩
      rw [UInt64.toNat_inj.mp this]
    | _ => simp only [Occupant.band] at hbx hby; omega
  | turtlePointer =>
    cases y with
    | turtlePointer => rfl
    | _ => simp only [Occupant.band] at hbx hby; omega
  | keyBufferPointer =>
    cases y with
    | keyBufferPointer => rfl
    | _ => simp only [Occupant.band] at hbx hby; omega
  | result =>
    cases y with
    | result => rfl
    | _ => simp only [Occupant.band] at hbx hby; omega
  | turtle =>
    cases y with
    | turtle => rfl
    | _ => simp only [Occupant.band] at hbx hby; omega

theorem exists_occupant (h : p.Regular) (hlo : 0 ≤ k)
    (hhi : k < (MemoryMap.of p).globalsCell + Variable.extentAll p.declarations) :
    ∃ x, (MemoryMap.of p).Occupies x k := by
  have hturtle : (MemoryMap.of p).turtleCell
      = 2 + p.allSubroutines.length + (MemoryMap.of p).resultCells := rfl
  by_cases h0 : k = 0
  · exact ⟨.turtlePointer, h0⟩
  by_cases h1 : k = 1
  · exact ⟨.keyBufferPointer, h1⟩
  by_cases hframes : k < 2 + p.allSubroutines.length
  · obtain ⟨sub, hsub, hindex⟩ := h.exists_index (i := (k - 1).toNat) (by omega) (by omega)
    exact ⟨.framePointer sub.index, h.occupies_framePointer.mpr ⟨⟨sub, hsub, rfl⟩, by omega⟩⟩
  by_cases hresult : k < (MemoryMap.of p).turtleCell
  · rcases (MemoryMap.of p).resultCells_cases with ⟨hsome, hcells⟩ | ⟨_, hcells⟩
    · exact ⟨.result, h.occupies_result.mpr ⟨hsome, by omega⟩⟩
    · omega
  by_cases hproperties : k < (MemoryMap.of p).globalsCell
  · exact ⟨.turtle, h.occupies_turtle.mpr ⟨by omega, hproperties⟩⟩
  obtain ⟨slot, v, hv, hstart, hend⟩ := Variable.exists_slot p.declarations
    (k := k - (MemoryMap.of p).globalsCell) (by omega) (by omega)
  have hslot := h.globals.toNat_slot hv
  refine ⟨.global slot.toUInt64, h.occupies_global.mpr ⟨v, ?_⟩⟩
  rw [hslot]
  exact ⟨hv, hstart, hend⟩

theorem occupies_iff (h : p.Regular) : (∃ x, (MemoryMap.of p).Occupies x k) ↔
    0 ≤ k ∧ k < (MemoryMap.of p).globalsCell + Variable.extentAll p.declarations := by
  constructor
  · rintro ⟨x, hx⟩
    have hband := h.occupies_band hx
    have hextent := Variable.extentAll_nonneg h.globals.sized
    have hturtle : (MemoryMap.of p).turtleCell
        = 2 + p.allSubroutines.length + (MemoryMap.of p).resultCells := rfl
    have hresult := (MemoryMap.of p).resultCells_cases
    have hglobals : (MemoryMap.of p).globalsCell = (MemoryMap.of p).turtleCell + 7 := rfl
    cases x <;> simp only [Occupant.band] at hband <;> omega
  · rintro ⟨hlo, hhi⟩
    exact h.exists_occupant hlo hhi

theorem exists_occupies_iff (h : p.Regular) {x : Occupant} :
    (∃ k, (MemoryMap.of p).Occupies x k) ↔ x.Present p := by
  cases x with
  | turtlePointer => exact ⟨fun _ => trivial, fun _ => ⟨_, rfl⟩⟩
  | keyBufferPointer => exact ⟨fun _ => trivial, fun _ => ⟨_, rfl⟩⟩
  | framePointer index =>
    constructor
    · rintro ⟨k, hk⟩
      exact (h.occupies_framePointer.mp hk).1
    · intro hsub
      exact ⟨_, h.occupies_framePointer.mpr ⟨hsub, rfl⟩⟩
  | result =>
    have hsome : (MemoryMap.of p).returnsSome = true ↔ Occupant.result.Present p := List.any_eq_true
    rw [← hsome]
    constructor
    · rintro ⟨k, hk⟩
      exact (h.occupies_result.mp hk).1
    · intro hs
      exact ⟨_, h.occupies_result.mpr ⟨hs, rfl⟩⟩
  | turtle =>
    refine ⟨fun _ => trivial, fun _ => ⟨(MemoryMap.of p).turtleCell, h.occupies_turtle.mpr ?_⟩⟩
    unfold MemoryMap.globalsCell
    omega
  | global slot =>
    constructor
    · rintro ⟨k, hk⟩
      obtain ⟨v, hv, hlo, hhi⟩ := h.occupies_global.mp hk
      exact ⟨v, hv, Variable.isTurtle_of_extent_pos (by omega)⟩
    · rintro ⟨v, hv, ht⟩
      have hone := (h.globals.sized v (List.mem_of_getElem? hv)).one_le_extent ht
      exact ⟨(MemoryMap.of p).globalsCell + Variable.extentAll (p.declarations.take slot.toNat),
        h.occupies_global.mpr ⟨v, hv, by omega, by omega⟩⟩

theorem occupiesLocal_unique (h : p.Regular) (hs : sub ∈ p.allSubroutines) {slot slot' : UInt64}
    (hk : (MemoryMap.of p).OccupiesLocal sub.index slot k)
    (hk' : (MemoryMap.of p).OccupiesLocal sub.index slot' k) : slot = slot' := by
  obtain ⟨v, hv, hrange⟩ := (h.occupiesLocal_iff hs).mp hk
  obtain ⟨v', hv', hrange'⟩ := (h.occupiesLocal_iff hs).mp hk'
  exact UInt64.toNat_inj.mp (Variable.slot_unique (h.laid hs).sized hv hv' hrange hrange')

theorem exists_occupiesLocal_iff (h : p.Regular) (hs : sub ∈ p.allSubroutines) :
    (∃ slot, (MemoryMap.of p).OccupiesLocal sub.index slot k) ↔
      0 ≤ k ∧ k < Variable.extentAll sub.declarations := by
  have hlaid := h.laid hs
  constructor
  · rintro ⟨slot, hk⟩
    obtain ⟨v, hv, hlo, hhi⟩ := (h.occupiesLocal_iff hs).mp hk
    have hend := Variable.extentAll_take_add_le hlaid.sized hv
    have hbefore : 0 ≤ Variable.extentAll (sub.declarations.take slot.toNat) :=
      Variable.extentAll_nonneg fun u hu => hlaid.sized u (List.mem_of_mem_take hu)
    omega
  · rintro ⟨hlo, hhi⟩
    obtain ⟨slot, v, hv, hrange⟩ := Variable.exists_slot _ hlo hhi
    refine ⟨slot.toUInt64, (h.occupiesLocal_iff hs).mpr ⟨v, ?_⟩⟩
    rw [hlaid.toNat_slot hv]
    exact ⟨hv, hrange⟩

end Program.Regular

/-- **The memory map has no overlap and no gap.**  In a regular program each cell from 0 to the end
of the globals belongs to exactly one of the pointers, the result cell, the turtle and the globals,
and no other cell belongs to any.  In the frame of each subroutine each offset up to its length
belongs to exactly one local, which is addressed through the frame pointer of that subroutine. -/
theorem memory_partition {p : Program} (h : p.Regular) :
    (∃ base length, (MemoryMap.of p).globalsBase = .ok base ∧
      (MemoryMap.of p).globalsLength = .ok length ∧
      ∀ k, (∃ x, (MemoryMap.of p).Occupies x k) ↔ 0 ≤ k ∧ k < base.toInt + length.toInt) ∧
    (∀ x y k, (MemoryMap.of p).Occupies x k → (MemoryMap.of p).Occupies y k → x = y) ∧
    (∀ x : Occupant, (∃ k, (MemoryMap.of p).Occupies x k) ↔ x.Present p) ∧
    ∀ sub ∈ p.allSubroutines, ∃ pointer length, MemoryMap.frameCell sub.index = .ok pointer ∧
      MemoryMap.frameLength sub = .ok length ∧
      (∀ k, (∃ slot, (MemoryMap.of p).OccupiesLocal sub.index slot k) ↔ 0 ≤ k ∧ k < length.toInt) ∧
      (∀ slot slot' k, (MemoryMap.of p).OccupiesLocal sub.index slot k →
        (MemoryMap.of p).OccupiesLocal sub.index slot' k → slot = slot') ∧
      ∀ slot v, sub.declarations[slot.toNat]? = some v → v.isTurtle = false →
        ∃ offset, (MemoryMap.of p).location ⟨sub.index, slot⟩ = .ok (.frame pointer offset) := by
  refine ⟨?_, fun x y k hx hy => h.occupant_unique hx hy, fun x => h.exists_occupies_iff,
    fun sub hs => ?_⟩
  · obtain ⟨base, hbase, hbase'⟩ := h.exists_globalsBase
    obtain ⟨length, hlength, hlength'⟩ := h.globals.exists_total (MemoryMap.of p).globalsCell_nonneg
    refine ⟨base, length, hbase, hlength, fun k => ?_⟩
    rw [hbase', hlength']
    exact h.occupies_iff
  · obtain ⟨pointer, hpointer, _⟩ := h.exists_frameCell hs
    obtain ⟨length, hlength, hlength'⟩ := (h.laid hs).exists_total (Int.le_refl 0)
    refine ⟨pointer, length, hpointer, hlength, fun k => ?_, fun slot slot' k hk hk' =>
      h.occupiesLocal_unique hs hk hk', fun slot v hv ht => ?_⟩
    · rw [hlength']
      exact h.exists_occupiesLocal_iff hs
    · obtain ⟨offset, hcell, _⟩ := h.location_local hs hv ht hpointer
      exact ⟨offset, hcell⟩

/-! ### A program with nested subroutines, strings and arrays -/

def tidy : Subroutine where
  index := 1
  name := "tidy"
  declarations := [{ name := "i", ty := .integer }]

/-- A function with a string parameter, a reference, an array of strings, and a procedure inside. -/
def stock : Subroutine where
  index := 2
  name := "stock"
  returns := some .integer
  resultVariable := some 2
  declarations := [
    { name := "label", ty := .string, stringLength := 6, parameter := true },
    { name := "source", ty := .integer, kind := .reference, parameter := true },
    { name := "result", ty := .integer },
    { name := "drafts", ty := .string, stringLength := 2, dimensions := [⟨0, 1⟩] }]
  subroutines := [tidy]

def labels : Variable :=
  { name := "labels", ty := .string, stringLength := 4, dimensions := [⟨-1, 1⟩] }

/-- A program with an array of strings, a table with negative bounds, and a pointer. -/
def storeroom : Program where
  name := "storeroom"
  language := .pascal
  declarations := TurtleProperty.all.map Variable.turtle ++ [
    { name := "total", ty := .integer },
    labels,
    { name := "shelf", ty := .integer, dimensions := [⟨1, 2⟩, ⟨-3, -1⟩] },
    { name := "view", ty := .integer, kind := .pointer }]
  subroutines := [stock]

/-- The procedure comes before the function around it. -/
theorem storeroom_map : MemoryMap.of storeroom = ⟨storeroom, [tidy, stock]⟩ := by
  have hflat : Subroutine.flattenAll storeroom.subroutines = [stock, tidy] := rfl
  rw [MemoryMap.of, Program.allSubroutines, hflat]
  simp [List.mergeSort, List.MergeSort.Internal.splitInTwo, stock, tidy]

theorem stock_mem : stock ∈ storeroom.allSubroutines :=
  List.mem_mergeSort.mpr (by simp [storeroom, stock, Subroutine.flattenAll, Subroutine.flatten])

theorem storeroom_regular : storeroom.Regular := by
  refine ⟨by decide +kernel, ?_, by decide +kernel⟩
  rw [storeroom_map]
  decide +kernel

theorem memory_partition_storeroom : storeroom.Regular ∧
    (∀ k, (∃ x, (MemoryMap.of storeroom).Occupies x k) ↔ 0 ≤ k ∧ k < 49) ∧
    (∀ x y, (MemoryMap.of storeroom).Occupies x 30 → (MemoryMap.of storeroom).Occupies y 30 →
      x = y) ∧
    ∀ k, (∃ slot, (MemoryMap.of storeroom).OccupiesLocal 2 slot k) ↔ 0 ≤ k ∧ k < 23 := by
  obtain ⟨⟨base, length, hbase, hlength, hall⟩, hunique, _, hlocal⟩ :=
    memory_partition storeroom_regular
  have hbase' : (MemoryMap.of storeroom).globalsBase = .ok 12 := by
    rw [storeroom_map]
    rfl
  have hlength' : (MemoryMap.of storeroom).globalsLength = .ok 37 := rfl
  have hframe : MemoryMap.frameLength stock = .ok 23 := rfl
  rw [hbase'] at hbase
  rw [hlength'] at hlength
  obtain rfl := Except.ok.inj hbase
  obtain rfl := Except.ok.inj hlength
  obtain ⟨_, frame, _, hframe', hoffsets, _⟩ := hlocal stock stock_mem
  rw [hframe] at hframe'
  obtain rfl := Except.ok.inj hframe'
  exact ⟨storeroom_regular, hall, fun x y => hunique x y 30, hoffsets⟩

end TurtleCode
