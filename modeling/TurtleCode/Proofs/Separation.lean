import TurtleCode.Proofs.Initialisation

/-!
# Stores are read back and disturb nothing else

In the memory of a running program every variable has cells of its own.  So a store into a variable
is what is read from it afterwards, and no other variable reads differently.

* `Program.Running`: what memory looks like while a program runs.
* `Program.Holds`: a cell belongs to a variable.  `Program.Running.holds_unique`: a cell belongs to
  one variable only, the variables of one property of the turtle apart.
* `Setting.store_direct_runs`: what the code of a store does.
* `Program.Regular.cell?_congr`: variables stay where they are when the pointers do.
* `store_read_back`: both together.
-/

namespace TurtleCode

/-! ## Memory while a program runs -/

namespace Program

variable {p : Program} {m m' : Memory} {k : Int}

def InFrame (m : Memory) (sub : Subroutine) (k : Int) : Prop :=
  ∃ pointer length, MemoryMap.frameCell sub.index = .ok pointer ∧
    MemoryMap.frameLength sub = .ok length ∧ m pointer.toInt ≤ k ∧
      k < m pointer.toInt + length.toInt

/-- The turtle pointer holds the base of the turtle, and the frame pointers hold the starts of
frames that lie after the globals and share no cells. -/
structure Running (p : Program) (m : Memory) : Prop where
  turtle : ∃ base, (MemoryMap.of p).turtleBase = .ok base ∧ m 0 = base.toInt
  above : ∀ sub ∈ p.allSubroutines, ∀ k, InFrame m sub k →
    ∃ base length, (MemoryMap.of p).globalsBase = .ok base ∧
      (MemoryMap.of p).globalsLength = .ok length ∧ base.toInt + length.toInt ≤ k
  apart : ∀ sub ∈ p.allSubroutines, ∀ sub' ∈ p.allSubroutines, ∀ k,
    InFrame m sub k → InFrame m sub' k → sub.index = sub'.index

inductive Holds (p : Program) (m : Memory) : VariableId → Int → Prop
  | turtle {id : VariableId} {v : Variable} {property : TurtleProperty} {base : Int64} :
      (MemoryMap.of p).declared id = .ok v → v.kind = .turtle property →
      (MemoryMap.of p).turtleBase = .ok base → Holds p m id (base.toInt + property.offset.toInt)
  | global {slot : UInt64} {k : Int} : (MemoryMap.of p).Occupies (.global slot) k →
      Holds p m ⟨0, slot⟩ k
  | inner {sub : Subroutine} {slot : UInt64} {pointer : Int64} {k : Int} : sub ∈ p.allSubroutines →
      MemoryMap.frameCell sub.index = .ok pointer →
      (MemoryMap.of p).OccupiesLocal sub.index slot k →
        Holds p m ⟨sub.index, slot⟩ (m pointer.toInt + k)

end Program

theorem TurtleProperty.offset_injective {a b : TurtleProperty}
    (h : a.offset.toInt = b.offset.toInt) : a = b := by
  cases a <;> cases b <;> first | rfl | exact absurd h (by decide)

namespace Program

variable {p : Program} {m m' : Memory} {id id' : VariableId} {sub : Subroutine} {k : Int}

theorem Regular.inFrame_of_occupiesLocal (h : p.Regular) (hs : sub ∈ p.allSubroutines)
    {pointer : Int64} (hp : MemoryMap.frameCell sub.index = .ok pointer) {slot : UInt64}
    (hk : (MemoryMap.of p).OccupiesLocal sub.index slot k) :
    InFrame m sub (m pointer.toInt + k) := by
  obtain ⟨length, hlength, hexact⟩ := (h.laid hs).exists_total (Int.le_refl 0)
  have hrange := (h.exists_occupiesLocal_iff hs).mp ⟨slot, hk⟩
  exact ⟨pointer, length, hp, hlength, by omega, by omega⟩

theorem Regular.eq_of_index (h : p.Regular) {sub' : Subroutine} (hs : sub ∈ p.allSubroutines)
    (hs' : sub' ∈ p.allSubroutines) (hindex : sub.index = sub'.index) : sub = sub' := by
  have hfound := MemoryMap.subroutine_index h.nodup hs
  rw [hindex, MemoryMap.subroutine_index h.nodup hs'] at hfound
  exact (Except.ok.inj hfound).symm

theorem occupies_property {base : Int64}
    (hb : (MemoryMap.of p).turtleBase = .ok base) (property : TurtleProperty) :
    (MemoryMap.of p).Occupies .turtle (base.toInt + property.offset.toInt) := by
  have hoffset := property.offset_bounds
  have hseven : MemoryMap.turtleCells.toInt = 7 := rfl
  exact ⟨base, hb, by omega, by omega⟩

theorem Running.globals_le (hm : p.Running m) (h : p.Regular) (hs : sub ∈ p.allSubroutines)
    (hk : InFrame m sub k) :
    (MemoryMap.of p).globalsCell + Variable.extentAll p.declarations ≤ k := by
  obtain ⟨base, length, hbase, hlength, hle⟩ := hm.above sub hs k hk
  obtain ⟨base', hbase', hvalue⟩ := h.exists_globalsBase
  obtain ⟨length', hlength', hexact⟩ := h.globals.exists_total (MemoryMap.of p).globalsCell_nonneg
  obtain rfl := Except.ok.inj (hbase'.symm.trans hbase)
  obtain rfl := Except.ok.inj (hlength'.symm.trans hlength)
  omega

theorem Running.not_occupies (hm : p.Running m) (h : p.Regular) (hs : sub ∈ p.allSubroutines)
    (hk : InFrame m sub k) (x : Occupant) : ¬ (MemoryMap.of p).Occupies x k := by
  intro hx
  have hle := hm.globals_le h hs hk
  have hlt := (h.occupies_iff.mp ⟨x, hx⟩).2
  omega

/-- **A cell belongs to one variable only**, or to variables that are the same property of the
turtle. -/
theorem Running.holds_unique (hm : p.Running m) (h : p.Regular) (hk : p.Holds m id k)
    (hk' : p.Holds m id' k) : id = id' ∨ ∃ v v' property, (MemoryMap.of p).declared id = .ok v ∧
      (MemoryMap.of p).declared id' = .ok v' ∧ v.kind = .turtle property ∧
      v'.kind = .turtle property := by
  have fixed {slot : UInt64} {base : Int64} {property : TurtleProperty}
      (hb : (MemoryMap.of p).turtleBase = .ok base)
      (hg : (MemoryMap.of p).Occupies (.global slot) (base.toInt + property.offset.toInt)) :
      False := by
    cases h.occupant_unique hg (occupies_property hb property)
  cases hk with
  | @turtle id v property base hd hkind hbase =>
    generalize hcell : base.toInt + property.offset.toInt = k at hk'
    cases hk' with
    | @turtle id' v' property' base' hd' hkind' hbase' =>
      obtain rfl := Except.ok.inj (hbase.symm.trans hbase')
      obtain rfl := TurtleProperty.offset_injective (a := property) (b := property') (by omega)
      exact .inr ⟨v, v', property, hd, hd', hkind, hkind'⟩
    | global hg =>
      subst hcell
      exact (fixed hbase hg).elim
    | inner hs hp ho =>
      have hin := h.inFrame_of_occupiesLocal (m := m) hs hp ho
      rw [← hcell] at hin
      exact absurd (occupies_property hbase property) (hm.not_occupies h hs hin _)
  | @global slot k hg =>
    cases hk' with
    | turtle _ _ hbase => exact (fixed hbase hg).elim
    | @global slot' k hg' =>
      cases h.occupant_unique hg hg'
      exact .inl rfl
    | inner hs hp ho =>
      exact absurd hg (hm.not_occupies h hs (h.inFrame_of_occupiesLocal hs hp ho) _)
  | @inner sub slot pointer offset hs hp ho =>
    have hin := h.inFrame_of_occupiesLocal (m := m) hs hp ho
    generalize hcell : m pointer.toInt + offset = k at hk' hin
    cases hk' with
    | turtle _ _ hbase =>
      exact absurd (occupies_property hbase _) (hm.not_occupies h hs hin _)
    | global hg => exact absurd hg (hm.not_occupies h hs hin _)
    | @inner sub' slot' pointer' offset' hs' hp' ho' =>
      have hindex := hm.apart sub hs sub' hs' _ hin (h.inFrame_of_occupiesLocal hs' hp' ho')
      obtain rfl : sub = sub' := h.eq_of_index hs hs' hindex
      obtain rfl := Except.ok.inj (hp.symm.trans hp')
      obtain rfl : offset = offset' := by omega
      rw [h.occupiesLocal_unique hs ho ho']
      exact .inl rfl

theorem Running.turtleCell_le (hm : p.Running m) (h : p.Regular) (hk : p.Holds m id k) :
    (MemoryMap.of p).turtleCell ≤ k := by
  have hglobals : (MemoryMap.of p).globalsCell = (MemoryMap.of p).turtleCell + 7 := rfl
  cases hk with
  | turtle _ _ hbase => exact (h.occupies_turtle.mp (occupies_property hbase _)).1
  | global hg =>
    have hband := (h.occupies_band hg).1
    simp only [Occupant.band] at hband
    omega
  | inner hs hp ho =>
    have hle := hm.globals_le h hs (h.inFrame_of_occupiesLocal hs hp ho)
    have hextent := Variable.extentAll_nonneg h.globals.sized
    omega

theorem Running.holds_cell (hm : p.Running m) (h : p.Regular) (options : Options) {v : Variable}
    (hd : (MemoryMap.of p).declared id = .ok v) :
    ∃ cell, (Setting.of p options).cell? m id = some cell ∧ p.Holds m id cell := by
  unfold Setting.cell?
  rcases h.location_cases hd with ⟨property, base, hk, hbase, hplace⟩ |
    ⟨_, ⟨slot, cell, rfl, hplace, ho⟩ | ⟨sub, hs, slot, pointer, offset, rfl, hp, hplace, ho⟩⟩
  · refine ⟨base.toInt + property.offset.toInt, ?_, .turtle hd hk hbase⟩
    obtain ⟨base', hbase', hm0⟩ := hm.turtle
    obtain rfl := Except.ok.inj (hbase.symm.trans hbase')
    rw [Setting.of, hplace]
    exact congrArg some (Setting.cellOf_turtle hm0 _)
  · rw [Setting.of, hplace]
    exact ⟨_, rfl, .global ho⟩
  · rw [Setting.of, hplace]
    exact ⟨_, rfl, .inner hs hp ho⟩

/-- **Variables stay where they are** when the cells before the turtle, pointers among them, keep
what they hold. -/
theorem Regular.cell?_congr (h : p.Regular) (options : Options) {v : Variable}
    (hd : (MemoryMap.of p).declared id = .ok v)
    (hsame : ∀ k < (MemoryMap.of p).turtleCell, m' k = m k) :
    (Setting.of p options).cell? m' id = (Setting.of p options).cell? m id := by
  have hturtle : (MemoryMap.of p).turtleCell
      = 2 + p.allSubroutines.length + (MemoryMap.of p).resultCells := rfl
  have hresult := (MemoryMap.of p).resultCells_cases
  have hzero : MemoryMap.turtlePointer.toInt = 0 := rfl
  unfold Setting.cell?
  rcases h.location_cases hd with ⟨property, base, hk, hbase, hplace⟩ |
    ⟨_, ⟨slot, cell, rfl, hplace, ho⟩ | ⟨sub, hs, slot, pointer, offset, rfl, hp, hplace, ho⟩⟩
  all_goals
    rw [Setting.of, hplace]
    simp only [Except.toOption, Option.map_some, Setting.cellOf]
  · rw [hsame _ (by omega)]
  · obtain ⟨pointer', hp', hvalue⟩ := h.exists_frameCell hs
    obtain rfl := Except.ok.inj (hp.symm.trans hp')
    have hrange := h.index_range hs
    rw [hsame _ (by omega)]

end Program

/-! ## Stores and loads -/

/-- A variable whose cell holds its value, not the address of another cell. -/
def Variable.Direct (v : Variable) : Prop := v.kind = .value ∨ ∃ property, v.kind = .turtle property

namespace Setting

variable {s : Setting} {id : VariableId} {v : Variable} {code : Line}

theorem load_direct_pushes (hd : s.map.declared id = .ok v) (hv : v.Direct)
    (hcode : s.load id = .ok code) {m : Memory} {cell : Int} (hcell : s.cell? m id = some cell)
    (M : Machine) : M.Pushes m code (m cell) := by
  obtain ⟨x, hx, hpush⟩ := load_pushes (M := M) (m := m) hcode
  obtain ⟨place, hplace, rfl⟩ := Option.map_eq_some_iff.mp hcell
  rw [content?_eq_some hd (Result.of_toOption hplace)] at hx
  obtain rfl := Option.some.inj hx
  rcases hv with hk | ⟨property, hk⟩
  all_goals
    rw [hk] at hpush
    exact hpush

theorem store_direct_runs (hd : s.map.declared id = .ok v) (hv : v.Direct)
    (hcode : s.store id = .ok code) {m : Memory} {cell : Int} (hcell : s.cell? m id = some cell)
    (M : Machine) (x : Int) (st : List Int) :
    M.Runs code ⟨m, x :: st⟩ ⟨Function.update m cell x, st⟩ := by
  obtain ⟨place, hplace, rfl⟩ := Option.map_eq_some_iff.mp hcell
  have hp := Result.of_toOption hplace
  unfold store at hcode
  rw [hd, hp] at hcode
  simp only [bind, Except.bind] at hcode
  rcases place_cases hd hp with
    ⟨property, base, offset, hk, rfl⟩ | ⟨hk, ⟨cell, rfl⟩ | ⟨pointer, offset, rfl⟩⟩
  · rcases turtle_ok (m := m) hcode with ⟨cell, rfl, hcell⟩ | ⟨rfl, hcell⟩
    all_goals
      rw [hcell]
      exact .instr rfl
  all_goals
    have hvalue : v.kind = .value := by
      rcases hv with hv | ⟨property, hv⟩
      · exact hv
      · rw [hv] at hk
        simp at hk
    rw [hvalue] at hcode
    obtain rfl := Except.ok.inj hcode
    exact .instr rfl

end Setting

namespace Program.Regular

variable {p : Program} {id : VariableId} {v : Variable}

theorem exists_turtle (h : p.Regular) (options : Options) (direct indirect : Opcode) {base : Int64}
    (hb : (MemoryMap.of p).turtleBase = .ok base) (property : TurtleProperty) :
    ∃ code, (Setting.of p options).turtle direct indirect base property.offset = .ok code := by
  obtain ⟨base', hb', hvalue⟩ := h.exists_turtleBase
  obtain rfl := Except.ok.inj (hb'.symm.trans hb)
  have hglobals : (MemoryMap.of p).globalsCell = (MemoryMap.of p).turtleCell + 7 := rfl
  have hle := h.globalsCell_le
  unfold Setting.turtle
  rw [property.add_offset (by omega)]
  split
  · exact ⟨_, rfl⟩
  · exact ⟨_, rfl⟩

/-- Code that depends on the place of a variable is made, if it is made for globals and locals. -/
theorem exists_access (h : p.Regular) (options : Options) (direct indirect : Opcode)
    (hd : (MemoryMap.of p).declared id = .ok v) {access : Variable → Location → Result Line}
    (hturtle : ∀ base offset,
      access v (.turtle base offset) = (Setting.of p options).turtle direct indirect base offset)
    (hglobal : ∀ cell, ∃ code, access v (.global cell) = .ok code)
    (hframe : ∀ pointer offset, ∃ code, access v (.frame pointer offset) = .ok code) :
    ∃ code, ((MemoryMap.of p).declared id >>= fun v =>
      (MemoryMap.of p).location id >>= access v) = .ok code := by
  rw [hd]
  simp only [bind, Except.bind]
  rcases h.location_cases hd with ⟨property, base, hk, hbase, hplace⟩ |
    ⟨_, ⟨slot, cell, rfl, hplace, ho⟩ | ⟨sub, hs, slot, pointer, offset, rfl, hp, hplace, ho⟩⟩
  all_goals rw [hplace]
  · obtain ⟨code, hcode⟩ := h.exists_turtle options direct indirect hbase property
    exact ⟨code, (hturtle base _).trans hcode⟩
  · exact hglobal cell
  · exact hframe pointer offset

theorem exists_load (h : p.Regular) (options : Options)
    (hd : (MemoryMap.of p).declared id = .ok v) :
    ∃ code, (Setting.of p options).load id = .ok code := by
  refine h.exists_access options .ldvg .ldvv hd (fun _ _ => rfl) (fun _ => ?_) (fun _ _ => ?_)
  all_goals cases v.kind <;> exact ⟨_, rfl⟩

theorem exists_store (h : p.Regular) (options : Options)
    (hd : (MemoryMap.of p).declared id = .ok v) :
    ∃ code, (Setting.of p options).store id = .ok code := by
  refine h.exists_access options .stvg .stvv hd (fun _ _ => rfl) (fun _ => ?_) (fun _ _ => ?_)
  all_goals cases v.kind <;> exact ⟨_, rfl⟩

theorem exists_addressOf (h : p.Regular) (options : Options)
    (hd : (MemoryMap.of p).declared id = .ok v) :
    ∃ code, (Setting.of p options).addressOf id = .ok code := by
  refine h.exists_access options .ldag .ldav hd (fun _ _ => rfl) (fun _ => ?_) (fun _ _ => ?_)
  all_goals cases v.kind <;> exact ⟨_, rfl⟩

end Program.Regular

/-- **Stores are read back and disturb nothing else.**  In a running program there is code to store
into a direct variable and to read it.  A store changes one cell, which belongs to the variable.
The variable then reads as what was stored, and any other direct variable reads as before, unless
both are the same property of the turtle. -/
theorem store_read_back {p : Program} (h : p.Regular) (options : Options) {m : Memory}
    (hm : p.Running m) {x y : VariableId} {v w : Variable}
    (hx : (MemoryMap.of p).declared x = .ok v) (hy : (MemoryMap.of p).declared y = .ok w)
    (hne : x ≠ y) (hv : v.Direct) (hw : w.Direct)
    (hturtle : ∀ property, v.kind = .turtle property → w.kind ≠ .turtle property) :
    ∃ store read readOther cell other, (Setting.of p options).store x = .ok store ∧
      (Setting.of p options).load x = .ok read ∧ (Setting.of p options).load y = .ok readOther ∧
      p.Holds m x cell ∧ ∀ (M : Machine) (value : Int) (st : List Int),
        let m' := Function.update m cell value
        M.execute store ⟨m, value :: st⟩ = some ⟨m', st⟩ ∧
        M.execute read ⟨m', st⟩ = some ⟨m', value :: st⟩ ∧
        M.execute readOther ⟨m, st⟩ = some ⟨m, other :: st⟩ ∧
        M.execute readOther ⟨m', st⟩ = some ⟨m', other :: st⟩ := by
  obtain ⟨store, hstore⟩ := h.exists_store options hx
  obtain ⟨read, hread⟩ := h.exists_load options hx
  obtain ⟨readOther, hreadOther⟩ := h.exists_load options hy
  obtain ⟨cell, hcell, hholds⟩ := hm.holds_cell h options hx
  obtain ⟨otherCell, hother, hholds'⟩ := hm.holds_cell h options hy
  refine ⟨store, read, readOther, cell, m otherCell, hstore, hread, hreadOther, hholds, ?_⟩
  intro M value st m'
  have hapart : otherCell ≠ cell := by
    rintro rfl
    rcases hm.holds_unique h hholds hholds' with heq | ⟨v', w', property, hv', hw', hkind, hkind'⟩
    · exact hne heq
    · obtain rfl := Except.ok.inj (hx.symm.trans hv')
      obtain rfl := Except.ok.inj (hy.symm.trans hw')
      exact hturtle property hkind hkind'
  -- the cell that is written is none of the pointers, so both variables are found where they were
  have hsame : ∀ k < (MemoryMap.of p).turtleCell, m' k = m k := by
    intro k hk
    have hle := hm.turtleCell_le h hholds
    have hbefore : k ≠ cell := by omega
    exact Function.update_of_ne hbefore value m
  have hcell' := (h.cell?_congr options hx hsame).trans hcell
  have hother' := (h.cell?_congr options hy hsame).trans hother
  have hwritten := Setting.load_direct_pushes hx hv hread hcell' M
  have hkept := Setting.load_direct_pushes hy hw hreadOther hother' M
  rw [show m' cell = value from Function.update_self ..] at hwritten
  rw [show m' otherCell = m otherCell from Function.update_of_ne hapart ..] at hkept
  simp only [Machine.execute_eq_some_iff]
  exact ⟨Setting.store_direct_runs hx hv hstore hcell M value st, hwritten st,
    Setting.load_direct_pushes hy hw hreadOther hother M st, hkept st⟩

/-- The frame of `tidy` is at 100 and that of `stock` at 500. -/
def busyMemory : Memory := fun cell =>
  match cell with
  | 0 => 5
  | 2 => 100
  | 3 => 500
  | _ => 7

theorem storeroom_running : storeroom.Running busyMemory := by
  have hall : storeroom.allSubroutines = [tidy, stock] :=
    congrArg MemoryMap.subroutines storeroom_map
  have htidy {k : Int} (h : Program.InFrame busyMemory tidy k) : 100 ≤ k ∧ k < 101 := by
    obtain ⟨pointer, length, hp, hl, hk⟩ := h
    obtain rfl : 2 = pointer := Except.ok.inj hp
    obtain rfl : 1 = length := Except.ok.inj hl
    exact hk
  have hstock {k : Int} (h : Program.InFrame busyMemory stock k) : 500 ≤ k ∧ k < 523 := by
    obtain ⟨pointer, length, hp, hl, hk⟩ := h
    obtain rfl : 3 = pointer := Except.ok.inj hp
    obtain rfl : 23 = length := Except.ok.inj hl
    exact hk
  have hbase : (MemoryMap.of storeroom).globalsBase = .ok 12 := by
    rw [storeroom_map]
    rfl
  have hend : (12 : Int64).toInt + (37 : Int64).toInt = 49 := by decide
  refine ⟨⟨5, by rw [storeroom_map]; rfl, rfl⟩, ?_, ?_⟩
  · intro sub hs k hk
    refine ⟨12, 37, hbase, rfl, ?_⟩
    rw [hall] at hs
    rcases List.mem_pair.mp hs with rfl | rfl
    · have hrange := htidy hk
      omega
    · have hrange := hstock hk
      omega
  · intro sub hs sub' hs' k hk hk'
    rw [hall] at hs hs'
    rcases List.mem_pair.mp hs with rfl | rfl
    all_goals
      rcases List.mem_pair.mp hs' with rfl | rfl
    · rfl
    · have hrange := htidy hk
      have hrange' := hstock hk'
      omega
    · have hrange := hstock hk
      have hrange' := htidy hk'
      omega
    · rfl

theorem store_read_back_result : storeroom.Regular ∧ storeroom.Running busyMemory ∧
    ∃ store read readOther cell other, (Setting.of storeroom {}).store ⟨2, 2⟩ = .ok store ∧
      (Setting.of storeroom {}).load ⟨2, 2⟩ = .ok read ∧
      (Setting.of storeroom {}).load ⟨0, 0⟩ = .ok readOther ∧
      storeroom.Holds busyMemory ⟨2, 2⟩ cell ∧
      let m' := Function.update busyMemory cell 8
      Machine.idle.execute store ⟨busyMemory, [8, 4]⟩ = some ⟨m', [4]⟩ ∧
      Machine.idle.execute read ⟨m', [4]⟩ = some ⟨m', [8, 4]⟩ ∧
      Machine.idle.execute readOther ⟨busyMemory, [4]⟩ = some ⟨busyMemory, [other, 4]⟩ ∧
      Machine.idle.execute readOther ⟨m', [4]⟩ = some ⟨m', [other, 4]⟩ := by
  have hx : (MemoryMap.of storeroom).declared ⟨2, 2⟩ =
      .ok { name := "result", ty := .integer } := by
    rw [storeroom_map]
    rfl
  have hy : (MemoryMap.of storeroom).declared ⟨0, 0⟩ = .ok (Variable.turtle .x) := by
    rw [storeroom_map]
    rfl
  obtain ⟨store, read, readOther, cell, other, hstore, hread, hother, hholds, hruns⟩ :=
    store_read_back storeroom_regular {} storeroom_running hx hy (by decide) (.inl rfl)
      (.inr ⟨_, rfl⟩) (fun _ hk => by cases hk)
  exact ⟨storeroom_regular, storeroom_running, store, read, readOther, cell, other, hstore, hread,
    hother, hholds, hruns .idle 8 [4]⟩

end TurtleCode
