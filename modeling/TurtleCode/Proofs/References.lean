import TurtleCode.Proofs.Evaluation

/-!
# Expressions passed as addresses

Where a parameter holds an address, an argument is passed as the address of what it names.
Following this address gives the value of the argument, so the parameter reads what its caller
reads.

* `Setting.NamesPointer`: a whole variable that is a pointer.  It is passed as the address of its
  own cell, from which there are two addresses to follow.
* `Setting.reference_cases`: only variables and elements have addresses.
  `Setting.addressOf_leads`: where the address of a variable leads.
* `Setting.Bound`: a variable holds an address.  `Setting.Bound.load_pushes`: what it reads.
* `Setting.arguments_getElem`: the code of one argument among the code of all.
* `Setting.reference_leads_to_value`: all of it together.
-/

namespace TurtleCode

namespace Setting

variable {M : Machine} {s : Setting} {m : Memory} {id : VariableId} {e : Expression}
  {address value code : Line} {x : Int}

def NamesPointer (s : Setting) : Expression → Prop
  | .var id [] _ => ∃ v, s.map.declared id = .ok v ∧ v.kind = .pointer
  | _ => False

theorem reference_cases (ha : s.expression true e = .ok address)
    (hv : s.expression false e = .ok value) :
    (∃ id ty, e = .var id [] ty ∧ s.addressOf id = .ok address ∧ s.load id = .ok value) ∨
      ∃ id indexes ty v pointer steps, e = .var id indexes ty ∧ indexes ≠ [] ∧
        s.load id = .ok pointer ∧ s.steps v 0 indexes = .ok steps ∧ address = pointer ++ steps ∧
        value = address ++ instr .lptr [] := by
  cases e with
  | var id indexes ty =>
    rcases expression_var_ok ha with
      ⟨rfl, _, haddress⟩ | ⟨_, hb, _⟩ | ⟨hne, v, pointer, steps, hd, hp, hs, rfl⟩
    · rcases expression_var_ok hv with ⟨_, hb, _⟩ | ⟨_, _, hload⟩ | ⟨hne, _⟩
      · cases hb
      · exact .inl ⟨id, ty, rfl, haddress, hload⟩
      · exact absurd rfl hne
    · cases hb
    · rcases expression_var_ok hv with
        ⟨_, hb, _⟩ | ⟨he, _⟩ | ⟨_, v', pointer', steps', hd', hp', hs', rfl⟩
      · cases hb
      · exact absurd he hne
      · -- the same pointer and the same steps, and then the load that an address goes without
        obtain rfl := Except.ok.inj (hd.symm.trans hd')
        obtain rfl := Except.ok.inj (hp.symm.trans hp')
        obtain rfl := Except.ok.inj (hs.symm.trans hs')
        exact .inr ⟨id, indexes, ty, v, pointer, steps, rfl, hne, hp, hs, by simp, by simp⟩
  | literal => cases (expression_literal_ok ha).1
  | input => cases (expression_input_ok ha).1
  | constant => cases (expression_constant_ok ha).1
  | colour => cases (expression_colour_ok ha).1
  | address => cases (expression_address_ok ha).1
  | call => cases (expression_call_ok ha).1
  | unary => cases (expression_unary_ok ha).1
  | binary => cases (expression_binary_ok ha).1
  | cast => cases (expression_cast_ok ha).1

/-- **Where the address of a variable leads**: to its value, or for a pointer to the address that it
holds. -/
theorem addressOf_leads (ha : s.addressOf id = .ok address) (hv : s.load id = .ok value)
    (M : Machine) (m : Memory) :
    ∃ v cell, s.map.declared id = .ok v ∧ s.cell? m id = some cell ∧
      (v.kind = .pointer → M.Pushes m address cell ∧ M.Pushes m value (m (m cell))) ∧
      (v.kind ≠ .pointer → ∃ a, M.Pushes m address a ∧ M.Pushes m value (m a)) := by
  obtain ⟨a, haddress, hpush⟩ := addressOf_pushes (M := M) (m := m) ha
  obtain ⟨x, hcontent, hload⟩ := load_pushes (M := M) (m := m) hv
  unfold load at hv
  simp only [Result.bind_eq_ok] at hv
  obtain ⟨v, hd, place, hp, _⟩ := hv
  rw [address?_eq_some hd hp] at haddress
  rw [content?_eq_some hd hp] at hcontent
  obtain rfl := Option.some.inj haddress
  obtain rfl := Option.some.inj hcontent
  refine ⟨v, s.cellOf m place, hd, by rw [cell?, hp]; rfl, fun hk => ?_, fun hk => ⟨_, hpush, ?_⟩⟩
  · rw [hk] at hpush hload
    exact ⟨hpush, hload⟩
  · cases hkind : v.kind with
    | pointer => exact absurd hkind hk
    | value | turtle property | reference =>
      rw [hkind] at hload
      exact hload

theorem execute_reference (ha : s.expression true e = .ok address)
    (hv : s.expression false e = .ok value) (he : ¬ s.NamesPointer e) (t : MachineState) :
    M.execute (address ++ instr .lptr []) t = M.execute value t := by
  rcases reference_cases ha hv with
    ⟨id, ty, rfl, haddress, hload⟩ | ⟨_, _, _, _, _, _, _, _, _, _, _, rfl⟩
  · obtain ⟨v, cell, hd, _, _, hleads⟩ := addressOf_leads haddress hload M t.memory
    obtain ⟨a, hpush, hvalue⟩ := hleads fun hk => he ⟨v, hd, hk⟩
    have hread : M.Pushes t.memory (address ++ instr .lptr []) (t.memory a) :=
      hpush.append fun st => .instr rfl
    rw [Machine.execute_eq_some_iff.mpr (hread t.stack),
      Machine.execute_eq_some_iff.mpr (hvalue t.stack)]
  · rfl

theorem reference_pushes (ha : s.expression true e = .ok address)
    (hv : s.expression false e = .ok value) (he : e.Evaluable) (M : Machine) (m : Memory) :
    ∃ a, M.Pushes m address a := by
  rcases reference_cases ha hv with
    ⟨id, ty, rfl, haddress, hload⟩ | ⟨id, indexes, ty, v, pointer, steps, rfl, hne, hp, hs, rfl, _⟩
  · obtain ⟨a, _, hpush⟩ := addressOf_pushes (M := M) (m := m) haddress
    exact ⟨a, hpush⟩
  · rw [Expression.Evaluable, Expression.sites] at he
    obtain ⟨x, _, hpush⟩ := load_pushes (M := M) (m := m) hp
    obtain ⟨xs, _, hyield⟩ := steps_yield indexes (fun x hm => he x (List.mem_cons_of_mem _ hm)) hs
    obtain ⟨cell, _, hruns⟩ := steps_reach hyield hne hs x
    exact ⟨cell, hpush.append hruns⟩

/-! ## Parameters that hold addresses -/

/-- A variable through which reads go holds an address. -/
def Bound (s : Setting) (m : Memory) (id : VariableId) (a : Int) : Prop :=
  ∃ v cell, s.map.declared id = .ok v ∧ (v.kind = .reference ∨ v.kind = .pointer) ∧
    s.cell? m id = some cell ∧ m cell = a

theorem Bound.load_pushes {a : Int} (h : s.Bound m id a) (M : Machine) :
    ∃ code, s.load id = .ok code ∧ M.Pushes m code (m a) := by
  obtain ⟨v, cell, hd, hk, hcell, rfl⟩ := h
  obtain ⟨place, hplace, rfl⟩ := Option.map_eq_some_iff.mp hcell
  have hp := Result.of_toOption hplace
  have made : ∃ code, s.load id = .ok code := by
    unfold load
    rw [hd, hp]
    simp only [bind, Except.bind]
    rcases place_cases hd hp with
      ⟨property, _, _, ht, _⟩ | ⟨_, ⟨cell, rfl⟩ | ⟨pointer, offset, rfl⟩⟩
    · rcases hk with hk | hk <;> cases hk.symm.trans ht
    all_goals
      rcases hk with hk | hk
      all_goals
        rw [hk]
        exact ⟨_, rfl⟩
  obtain ⟨code, hcode⟩ := made
  obtain ⟨x, hx, hpush⟩ := Setting.load_pushes (M := M) (m := m) hcode
  rw [content?_eq_some hd hp] at hx
  obtain rfl := Option.some.inj hx
  refine ⟨code, hcode, ?_⟩
  rcases hk with hk | hk
  all_goals
    rw [hk] at hpush
    exact hpush

theorem arguments_getElem : ∀ {arguments : List Expression} {flags : List Bool} {code : Line}
    {j : Nat} {flag : Bool}, s.arguments flags arguments = .ok code → flags[j]? = some flag →
    arguments[j]? = some e → ∃ before here after, code = before ++ here ++ after ∧
      s.arguments flags (arguments.take j) = .ok before ∧ s.expression flag e = .ok here := by
  intro arguments
  induction arguments with
  | nil =>
    intro flags code j flag _ _ he
    simp at he
  | cons argument rest ih =>
    intro flags code j flag h hf he
    cases flags with
    | nil => simp at hf
    | cons first flags =>
      obtain ⟨here, more, hhere, hmore, rfl⟩ := arguments_cons_ok h
      cases j with
      | zero =>
        obtain rfl := Option.some.inj hf
        obtain rfl := Option.some.inj he
        exact ⟨[], here, more, rfl, by rw [List.take_zero, Setting.arguments], hhere⟩
      | succ j =>
        obtain ⟨before, found, after, rfl, hbefore, hfound⟩ := ih hmore hf he
        refine ⟨here ++ before, found, after, by simp, ?_, hfound⟩
        rw [List.take_succ_cons, Setting.arguments, hhere, hbefore]
        rfl

theorem passing_getElem {index : UInt64} {sub : Subroutine} {count j : Nat} {flags : List Bool}
    {v : Variable} (hs : s.map.subroutine index = .ok sub)
    (h : s.passing (.subroutine index) count = .ok flags) (hv : sub.parameters[j]? = some v) :
    flags[j]? = some (decide (v.kind ≠ .value)) := by
  unfold passing at h
  simp only [hs, bind, Except.bind] at h
  obtain rfl := Except.ok.inj h
  rw [List.getElem?_map, hv]
  rfl

/-- **A reference is where the value is.**  Let an expression have code for its address and code for
its value.  If it is no whole variable that is a pointer, the code for the address and a load
through it do what the code for the value does, in any state; so a variable that is bound to the
address reads the value, as long as nothing is stored there.  A pointer is passed as the address of
its cell: its value is two loads away.  In a call, it is the code for the address that is run for a
parameter that holds an address. -/
theorem reference_leads_to_value (M : Machine) (s : Setting) {e : Expression} {address value : Line}
    (ha : s.expression true e = .ok address) (hv : s.expression false e = .ok value) :
    (¬ s.NamesPointer e →
      (∀ t, M.execute (address ++ instr .lptr []) t = M.execute value t) ∧
      (e.Evaluable → ∀ m, ∃ a, ∀ st, M.execute address ⟨m, st⟩ = some ⟨m, a :: st⟩) ∧
      ∀ m st m₁ a st₁, M.execute address ⟨m, st⟩ = some ⟨m₁, a :: st₁⟩ →
        M.execute value ⟨m, st⟩ = some ⟨m₁, m₁ a :: st₁⟩ ∧
        ∀ id m', s.Bound m' id a → m' a = m₁ a → ∃ code, s.load id = .ok code ∧
          ∀ st', M.execute code ⟨m', st'⟩ = some ⟨m', m₁ a :: st'⟩) ∧
    (s.NamesPointer e → ∃ id ty, e = .var id [] ty ∧ ∀ m, ∃ cell, s.cell? m id = some cell ∧
      ∀ st, M.execute address ⟨m, st⟩ = some ⟨m, cell :: st⟩ ∧
        M.execute value ⟨m, st⟩ = some ⟨m, m (m cell) :: st⟩) ∧
    ∀ index sub arguments flags code j v, s.map.subroutine index = .ok sub →
      sub.parameters[j]? = some v → v.kind ≠ .value → arguments[j]? = some e →
      s.passing (.subroutine index) arguments.length = .ok flags →
      s.arguments flags arguments = .ok code → ∃ before after, code = before ++ address ++ after ∧
        s.arguments flags (arguments.take j) = .ok before := by
  refine ⟨fun he => ⟨execute_reference ha hv he, fun hev m => ?_, ?_⟩, ?_, ?_⟩
  · obtain ⟨a, hpush⟩ := reference_pushes ha hv hev M m
    exact ⟨a, fun st => Machine.execute_eq_some_iff.mpr (hpush st)⟩
  · intro m st m₁ a st₁ hrun
    have hread : M.execute (address ++ instr .lptr []) ⟨m, st⟩ = some ⟨m₁, m₁ a :: st₁⟩ :=
      Machine.execute_eq_some_iff.mpr ((Machine.execute_eq_some_iff.mp hrun).append (.instr rfl))
    refine ⟨(execute_reference ha hv he _).symm.trans hread, ?_⟩
    intro id m' hbound hkept
    obtain ⟨code, hcode, hpush⟩ := hbound.load_pushes M
    rw [hkept] at hpush
    exact ⟨code, hcode, fun st' => Machine.execute_eq_some_iff.mpr (hpush st')⟩
  · intro he
    rcases reference_cases ha hv with
      ⟨id, ty, rfl, haddress, hload⟩ | ⟨_, indexes, _, _, _, _, rfl, hne, _⟩
    · refine ⟨id, ty, rfl, fun m => ?_⟩
      obtain ⟨v, cell, hd, hcell, hleads, _⟩ := addressOf_leads haddress hload M m
      obtain ⟨v', hd', hk⟩ := he
      obtain rfl := Except.ok.inj (hd.symm.trans hd')
      obtain ⟨hpush, hvalue⟩ := hleads hk
      exact ⟨cell, hcell, fun st => ⟨Machine.execute_eq_some_iff.mpr (hpush st),
        Machine.execute_eq_some_iff.mpr (hvalue st)⟩⟩
    · cases indexes with
      | nil => exact absurd rfl hne
      | cons index rest => exact he.elim
  · intro index sub arguments flags code j v hs hv hk he hf hcode
    have hflag := passing_getElem hs hf hv
    rw [decide_eq_true hk] at hflag
    obtain ⟨before, here, after, rfl, hbefore, hhere⟩ := arguments_getElem hcode hflag he
    obtain rfl := Except.ok.inj (ha.symm.trans hhere)
    exact ⟨before, after, rfl, hbefore⟩

def shelfElement : Expression :=
  .var ⟨0, 8⟩ [.integer 2, .binary .subt (.var ⟨0, 6⟩ [] .integer) (.integer 1) .integer] .integer

def shelfAddress : Line :=
  instr .ldvg [36] ++ instr .ldin [2] ++ instr .decr [] ++ instr .test [] ++ instr .ldin [5]
    ++ instr .mult [] ++ instr .plus [] ++ instr .incr [] ++ instr .lptr [] ++ instr .ldvg [12]
    ++ instr .decr [] ++ instr .ldin [-3] ++ instr .subt [] ++ instr .test [] ++ instr .plus []
    ++ instr .incr []

/-- The element is passed to the parameter `source` of `stock`, whose frame is at 500. -/
def sourceMemory : Memory := Function.update (Function.update shelfMemory 3 500) 509 46

theorem reference_leads_to_value_shelf :
    let s := Setting.of storeroom {}
    s.expression true shelfElement = .ok shelfAddress ∧
      s.expression false shelfElement = .ok (shelfAddress ++ instr .lptr []) ∧
      ¬ s.NamesPointer shelfElement ∧ s.Bound sourceMemory ⟨2, 1⟩ 46 ∧
      Machine.idle.execute shelfAddress ⟨shelfMemory, [5]⟩ = some ⟨shelfMemory, [46, 5]⟩ ∧
      Machine.idle.execute (shelfAddress ++ instr .lptr []) ⟨shelfMemory, [5]⟩ =
        some ⟨shelfMemory, [7, 5]⟩ ∧
      ∃ code, s.load ⟨2, 1⟩ = .ok code ∧
        Machine.idle.execute code ⟨sourceMemory, []⟩ = some ⟨sourceMemory, [7]⟩ := by
  intro s
  have haddress : s.expression true shelfElement = .ok shelfAddress := by
    show (Setting.of storeroom {}).expression _ _ = _
    rw [Setting.of, storeroom_map]
    rfl
  have hvalue : s.expression false shelfElement = .ok (shelfAddress ++ instr .lptr []) := by
    show (Setting.of storeroom {}).expression _ _ = _
    rw [Setting.of, storeroom_map]
    rfl
  have hbound : s.Bound sourceMemory ⟨2, 1⟩ 46 := by
    show (Setting.of storeroom {}).Bound _ _ _
    rw [Setting.of, storeroom_map]
    exact ⟨_, 509, rfl, .inl rfl, rfl, rfl⟩
  have hrun : Machine.idle.execute shelfAddress ⟨shelfMemory, [5]⟩ =
      some ⟨shelfMemory, [46, 5]⟩ := rfl
  obtain ⟨_, _, hleads⟩ := (reference_leads_to_value .idle s haddress hvalue).1 not_false
  obtain ⟨hread, hparameter⟩ := hleads _ _ _ _ _ hrun
  obtain ⟨code, hcode, hcallee⟩ := hparameter ⟨2, 1⟩ sourceMemory hbound rfl
  exact ⟨haddress, hvalue, not_false, hbound, hrun, hread, code, hcode, hcallee []⟩

/-- The pointer `view` leads to `total`, which holds 7. -/
def viewMemory : Memory := fun cell =>
  match cell with
  | 0 => 5
  | 12 => 7
  | 48 => 12
  | _ => 0

/-- A pointer that is passed by reference is not where its value is. -/
theorem view_passed_as_cell :
    let s := Setting.of storeroom {}
    let view : Expression := .var ⟨0, 9⟩ [] .integer
    (MemoryMap.of storeroom).turtleBase = .ok 5 ∧ viewMemory 0 = 5 ∧
      ∃ address value, s.expression true view = .ok address ∧ s.expression false view = .ok value ∧
        Machine.idle.execute (address ++ instr .lptr []) ⟨viewMemory, []⟩ =
          some ⟨viewMemory, [12]⟩ ∧
        Machine.idle.execute value ⟨viewMemory, []⟩ = some ⟨viewMemory, [7]⟩ ∧
        Machine.idle.execute (address ++ instr .lptr []) ⟨viewMemory, []⟩ ≠
          Machine.idle.execute value ⟨viewMemory, []⟩ := by
  intro s view
  have hbase : (MemoryMap.of storeroom).turtleBase = .ok 5 := by
    rw [storeroom_map]
    rfl
  have haddress : s.expression true view = .ok (instr .ldag [48]) := by
    show (Setting.of storeroom {}).expression _ _ = _
    rw [Setting.of, storeroom_map]
    rfl
  have hvalue : s.expression false view = .ok (instr .ldvg [48] ++ instr .lptr []) := by
    show (Setting.of storeroom {}).expression _ _ = _
    rw [Setting.of, storeroom_map]
    rfl
  refine ⟨hbase, rfl, _, _, haddress, hvalue, rfl, rfl, fun h => ?_⟩
  have hstack := congrArg MachineState.stack (Option.some.inj h)
  exact absurd hstack (by decide)

end Setting

end TurtleCode
