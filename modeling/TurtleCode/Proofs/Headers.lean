import TurtleCode.Proofs.Evaluation
import TurtleCode.Proofs.Storage

/-!
# The code that writes headers

What the code that writes headers does when it runs, and what it leaves alone.

* `Region.StoresWithin`: code that stores in some cells of a region and nowhere else.
* `Region.Fills`: code that does so and takes memory from one condition to another.
  `Region.Fills.append` puts code for neighbouring cells together.
* `Region.headersOver_fills`: the code for a variable fills the cells of the variable, and its
  headers are there afterwards.  `Region.allHeaders_fills`: so does the code for a list of
  variables.
* `Region.exists_allHeaders`: this code is made if the variables fit.  `Region.allHeaders_pieces`:
  it is made of pieces that each store inside their own variable.
-/

namespace TurtleCode

namespace Region

/-- The address from which the cells of a region are counted. -/
def origin (m : Memory) : Region → Int
  | .globals => 0
  | .frame pointer => m pointer.toInt

/-- No cell with `lo ≤ k < hi` is the one through which the region is found. -/
def Clear (lo hi : Int) : Region → Prop
  | .globals => True
  | .frame pointer => ¬(lo ≤ pointer.toInt ∧ pointer.toInt < hi)

def place (cell : Int64) : Region → Location
  | .globals => .global cell
  | .frame pointer => .frame pointer cell

theorem place_injective (region : Region) {a b : Int64} (h : region.place a = region.place b) :
    a = b := by
  cases region with
  | globals => exact Location.global.inj h
  | frame pointer => exact (Location.frame.inj h).2

/-- Code that pushes constants and addresses, and pops into cells `lo ≤ k < hi` of the region. -/
def StoresWithin (region : Region) (lo hi : Int) (code : Line) : Prop :=
  ∃ is : List Instruction, code = is.flatMap Instruction.words ∧ ∀ i ∈ is,
    i.op ∈ [Opcode.ldin, .ldag, .ldav] ∨
      ∃ cell : Int64, i.words = region.store cell ∧ lo ≤ cell.toInt ∧ cell.toInt < hi

variable {M : Machine} {region : Region} {lo mid hi : Int} {a b code : Line} {m m' : Memory}

theorem Clear.mono {lo' hi' : Int} (h : region.Clear lo hi) (hlo : lo ≤ lo') (hhi : hi' ≤ hi) :
    region.Clear lo' hi' := by
  cases region with
  | globals => trivial
  | frame pointer =>
    intro hp
    exact h ⟨by omega, by omega⟩

theorem Clear.origin_eq (h : region.Clear lo hi)
    (hm : ∀ k, ¬(lo ≤ k ∧ k < hi) → m' k = m k) : region.origin m' = region.origin m := by
  cases region with
  | globals => rfl
  | frame pointer => exact hm _ h

namespace StoresWithin

theorem nil : region.StoresWithin lo hi [] := ⟨[], rfl, by simp⟩

theorem append (ha : region.StoresWithin lo hi a) (hb : region.StoresWithin lo hi b) :
    region.StoresWithin lo hi (a ++ b) := by
  obtain ⟨as, rfl, ha⟩ := ha
  obtain ⟨bs, rfl, hb⟩ := hb
  refine ⟨as ++ bs, List.flatMap_append.symm, ?_⟩
  intro i hi
  rcases List.mem_append.mp hi with hi | hi
  · exact ha i hi
  · exact hb i hi

theorem mono {lo' hi' : Int} (h : region.StoresWithin lo hi code)
    (hlo : lo' ≤ lo) (hhi : hi ≤ hi') : region.StoresWithin lo' hi' code := by
  obtain ⟨is, rfl, h⟩ := h
  refine ⟨is, rfl, fun i hi => ?_⟩
  rcases h i hi with hpush | ⟨cell, hcell, hl, hh⟩
  · exact .inl hpush
  · exact .inr ⟨cell, hcell, by omega, by omega⟩

theorem push {op : Opcode} {operands : List Int64} (h : op ∈ [Opcode.ldin, .ldag, .ldav]) :
    region.StoresWithin lo hi (instr op operands) :=
  ⟨[⟨op, operands⟩], by simp [Instruction.words], fun i hmem =>
    .inl (by rw [List.mem_singleton.mp hmem]; exact h)⟩

theorem address (cell : Int64) : region.StoresWithin lo hi (region.address cell) := by
  cases region with
  | globals => exact push (by decide)
  | frame pointer => exact push (by decide)

theorem store {cell : Int64} (hlo : lo ≤ cell.toInt) (hhi : cell.toInt < hi) :
    region.StoresWithin lo hi (region.store cell) := by
  cases region with
  | globals =>
    refine ⟨[⟨.stvg, [cell]⟩], by simp [Instruction.words, Region.store], ?_⟩
    intro i hi
    rw [List.mem_singleton.mp hi]
    exact .inr ⟨cell, rfl, hlo, hhi⟩
  | frame pointer =>
    refine ⟨[⟨.stvv, [pointer, cell]⟩], by simp [Instruction.words, Region.store], ?_⟩
    intro i hi
    rw [List.mem_singleton.mp hi]
    exact .inr ⟨cell, rfl, hlo, hhi⟩

end StoresWithin

/-! ## Filling cells -/

theorem address_pushes (cell : Int64) :
    M.Pushes m (region.address cell) (region.origin m + cell.toInt) := by
  cases region with
  | globals =>
    rw [origin, Int.zero_add]
    exact .instr fun st => rfl
  | frame pointer => exact .instr fun st => rfl

theorem store_runs (cell : Int64) (x : Int) (st : List Int) :
    M.Runs (region.store cell) ⟨m, x :: st⟩
      ⟨Function.update m (region.origin m + cell.toInt) x, st⟩ := by
  cases region with
  | globals =>
    rw [origin, Int.zero_add]
    exact .instr rfl
  | frame pointer => exact .instr rfl

/-- Code for the cells `lo ≤ k < hi` of a region.  It stores nowhere else.  From memory with `P` it
leads to memory with `Q`, and all other cells are as they were.  Both conditions are told the origin
of the region. -/
structure Fills (M : Machine) (region : Region) (lo hi : Int) (P Q : Int → Memory → Prop)
    (code : Line) : Prop where
  stores : region.StoresWithin lo hi code
  runs : ∀ m, region.Clear (region.origin m + lo) (region.origin m + hi) → P (region.origin m) m →
    ∃ m', (∀ st, M.Runs code ⟨m, st⟩ ⟨m', st⟩) ∧
      (∀ k, ¬(region.origin m + lo ≤ k ∧ k < region.origin m + hi) → m' k = m k) ∧
      Q (region.origin m) m'

/-- A condition on the cells `lo ≤ k < hi` of a region only. -/
def Local (lo hi : Int) (P : Int → Memory → Prop) : Prop :=
  ∀ o m m', (∀ k, o + lo ≤ k → k < o + hi → m' k = m k) → P o m → P o m'

namespace Fills

variable {P P' Q Q' : Int → Memory → Prop}

theorem nil (lo hi : Int) (h : ∀ o m, P o m → Q o m) : Fills M region lo hi P Q [] :=
  ⟨.nil, fun m _ hp => ⟨m, fun _ => .nil, fun _ _ => rfl, h _ m hp⟩⟩

theorem weaken {lo' hi' : Int} (h : Fills M region lo hi P Q code) (hlo : lo' ≤ lo) (hhi : hi ≤ hi')
    (hP : ∀ o m, P' o m → P o m) (hQ : ∀ o m, Q o m → Q' o m) :
    Fills M region lo' hi' P' Q' code := by
  refine ⟨h.stores.mono hlo hhi, fun m hclear hp => ?_⟩
  obtain ⟨m', hruns, hm, hq⟩ := h.runs m (hclear.mono (by omega) (by omega)) (hP _ m hp)
  exact ⟨m', hruns, fun k hk => hm k (by omega), hQ _ m' hq⟩

theorem append (ha : Fills M region lo mid P Q a) (hb : Fills M region mid hi P' Q' b)
    (hlo : lo ≤ mid) (hhi : mid ≤ hi) (hP' : Local mid hi P') (hQ : Local lo mid Q) :
    Fills M region lo hi (fun o m => P o m ∧ P' o m) (fun o m => Q o m ∧ Q' o m) (a ++ b) := by
  refine ⟨(ha.stores.mono (Int.le_refl _) hhi).append (hb.stores.mono hlo (Int.le_refl _)), ?_⟩
  intro m hclear hp
  obtain ⟨m₁, hruns₁, hm₁, hq₁⟩ := ha.runs m (hclear.mono (by omega) (by omega)) hp.1
  have horigin : region.origin m₁ = region.origin m :=
    (hclear.mono (Int.le_refl _) (by omega)).origin_eq hm₁
  -- the second code finds its cells as the first code found them
  have hp₁ : P' (region.origin m) m₁ := hP' _ m m₁ (fun k _ _ => hm₁ k (by omega)) hp.2
  obtain ⟨m₂, hruns₂, hm₂, hq₂⟩ := hb.runs m₁
    (by rw [horigin]; exact hclear.mono (by omega) (by omega)) (by rw [horigin]; exact hp₁)
  rw [horigin] at hm₂ hq₂
  refine ⟨m₂, fun st => (hruns₁ st).append (hruns₂ st), fun k hk => ?_, ?_, hq₂⟩
  · rw [hm₂ k (by omega), hm₁ k (by omega)]
  · exact hQ _ m₁ m₂ (fun k _ _ => hm₂ k (by omega)) hq₁

theorem put {cell : Int64} {value : Int → Int} {push : Line} (hs : region.StoresWithin lo hi push)
    (hpush : ∀ m, M.Pushes m push (value (region.origin m))) (hlo : lo ≤ cell.toInt)
    (hhi : cell.toInt < hi) :
    Fills M region lo hi (fun _ _ => True) (fun o m => m (o + cell.toInt) = value o)
      (push ++ region.store cell) := by
  refine ⟨hs.append (.store hlo hhi), fun m hclear _ => ?_⟩
  refine ⟨Function.update m (region.origin m + cell.toInt) (value (region.origin m)),
    fun st => (hpush m st).append (store_runs ..), fun k hk => ?_, Function.update_self ..⟩
  exact Function.update_of_ne (by omega) ..

end Fills

/-! ## Headers -/

variable {v : Variable} {zeroed : Bool} {start : Int64}

def pair (region : Region) (start next n : Int64) : Line :=
  region.address next ++ region.store start ++ instr .ldin [n] ++ region.store next

theorem pair_fills {next n : Int64} (hnext : next.toInt = start.toInt + 1) :
    Fills M region start.toInt (start.toInt + 2) (fun _ _ => True)
      (fun o m => m (o + start.toInt) = o + start.toInt + 1 ∧ m (o + start.toInt + 1) = n.toInt)
      (region.pair start next n) := by
  have first : Fills M region start.toInt (start.toInt + 1) (fun _ _ => True)
      (fun o m => m (o + start.toInt) = o + next.toInt)
      (region.address next ++ region.store start) :=
    .put (.address next) (fun m => address_pushes next) (Int.le_refl _) (by omega)
  have second : Fills M region (start.toInt + 1) (start.toInt + 2) (fun _ _ => True)
      (fun o m => m (o + next.toInt) = n.toInt) (instr .ldin [n] ++ region.store next) :=
    .put (.push (by decide)) (fun m => .instr fun st => rfl) (by omega) (by omega)
  have both := first.append second (by omega) (by omega) (fun o m m' _ _ => trivial) (by
    intro o m m' hm hq
    rw [hm (o + start.toInt) (by omega) (by omega), hq])
  rw [← List.append_assoc] at both
  refine both.weaken (Int.le_refl _) (Int.le_refl _) (fun o m _ => ⟨trivial, trivial⟩) ?_
  intro o m hq
  rw [hnext, ← Int.add_assoc] at hq
  exact hq

theorem pair_append {next n : Int64} {P Q : Int → Memory → Prop}
    (hnext : next.toInt = start.toInt + 1) (hhi : start.toInt + 2 ≤ hi)
    (hrest : Fills M region (start.toInt + 2) hi P Q code) (hP : Local (start.toInt + 2) hi P) :
    Fills M region start.toInt hi P
      (fun o m => (m (o + start.toInt) = o + start.toInt + 1 ∧ m (o + start.toInt + 1) = n.toInt) ∧
        Q o m)
      (region.pair start next n ++ code) := by
  have both := (pair_fills (M := M) (n := n) hnext).append hrest (by omega) hhi hP (by
    intro o m m' hm hq
    rw [hm _ (by omega) (by omega), hm _ (by omega) (by omega)]
    exact hq)
  exact both.weaken (Int.le_refl _) (Int.le_refl _) (fun o m hp => ⟨trivial, hp⟩) fun o m hq => hq

theorem elements_fills {each : Int64 → Result Line} {inner : List Bounds} {length : Int64}
    {P Q : Int → Int → Memory → Prop} (hpos : 1 ≤ v.extentOver inner)
    (hlength : length.toInt = v.extentOver inner)
    (heach : ∀ {cell : Int64} {code : Line}, each cell = .ok code →
      Fills M region cell.toInt (cell.toInt + v.extentOver inner)
        (P cell.toInt) (Q cell.toInt) code)
    (hP : ∀ c, Local c (c + v.extentOver inner) (P c))
    (hQ : ∀ c, Local c (c + v.extentOver inner) (Q c)) :
    ∀ (n : Nat) {i : Int64} {code : Line}, elements each start length i n = .ok code →
      i.toInt + n ≤ Int64.maxValue.toInt →
      Fills M region (v.elementCell inner start.toInt i.toInt)
        (v.elementCell inner start.toInt (i.toInt + n))
        (fun o m => ∀ j, i.toInt ≤ j → j < i.toInt + n → P (v.elementCell inner start.toInt j) o m)
        (fun o m => ∀ j, i.toInt ≤ j → j < i.toInt + n → Q (v.elementCell inner start.toInt j) o m)
        code := by
  intro n
  induction n with
  | zero =>
    intro i code h _
    cases h
    exact .nil _ _ fun o m _ j hlo hhi => by omega
  | succ n ih =>
    intro i code h hmax
    rw [elements] at h
    simp only [Result.bind_eq_ok, Result.pure_eq_ok, Cell.add_eq_ok, Cell.mul_eq_ok] at h
    obtain ⟨first, hfirst, distance, hdistance, cell, hcell, here, hhere, more, hmore, rfl⟩ := h
    have htwo : (2 : Int64).toInt = 2 := rfl
    have hcell' : cell.toInt = v.elementCell inner start.toInt i.toInt := by
      rw [hcell, hfirst, hdistance, hlength, htwo, Variable.elementCell]
    have hnext : (i + 1).toInt = i.toInt + 1 := toInt_add_one (by omega)
    have hend : i.toInt + 1 + (n : Int) = i.toInt + (n + 1 : Nat) := by omega
    have hfills := heach hhere
    rw [hcell', ← Variable.elementCell_succ] at hfills
    have hrest := ih hmore (by omega)
    rw [hnext, hend] at hrest
    -- the elements after this one lie past its end
    have inside {j : Int} (hlo : i.toInt + 1 ≤ j) (hhi : j < i.toInt + (n + 1 : Nat)) :=
      And.intro (Variable.elementCell_mono (c := start.toInt) hpos hlo)
        (Variable.elementCell_add_le (c := start.toInt) hpos hhi)
    have both := hfills.append hrest (Variable.elementCell_mono hpos (by omega))
      (Variable.elementCell_mono hpos (by omega)) (by
        intro o m m' hm hp j hlo hhi
        have := inside hlo hhi
        exact hP _ o m m' (fun k _ _ => hm k (by omega) (by omega)) (hp j hlo hhi)) (by
        rw [Variable.elementCell_succ]
        exact hQ _)
    refine both.weaken (Int.le_refl _) (Int.le_refl _) ?_ ?_
    · intro o m hp
      exact ⟨hp _ (Int.le_refl _) (by omega), fun j hlo hhi => hp j (by omega) hhi⟩
    · rintro o m ⟨hq, hqs⟩ j hlo hhi
      by_cases hj : j = i.toInt
      · rw [hj]
        exact hq
      · exact hqs j (by omega) hhi

/-- What is asked of memory before headers are written.  If the code relies on zeroed memory, the
cells that are to hold headers are zero. -/
def Blank (v : Variable) (zeroed : Bool) (dimensions : List Bounds) (c o : Int)
    (m : Memory) : Prop :=
  zeroed = true → ∀ k, v.IsHeader dimensions (o + c) k → m k = 0

theorem local_blank {dimensions : List Bounds} (h : v.Fits dimensions) (c : Int) :
    Local c (c + v.extentOver dimensions) (Blank v zeroed dimensions c) := by
  intro o m m' hm hp hz k hk
  have := hk.mem_range h.size_nonneg
  rw [hm k (by omega) (by omega)]
  exact hp hz k hk

theorem local_headed {dimensions : List Bounds} (h : v.Fits dimensions) (c : Int) :
    Local c (c + v.extentOver dimensions) (fun o m => v.Headed m dimensions (o + c)) := by
  intro o m m' hm hq
  refine hq.congr fun k hk => ?_
  have := hk.mem_range h.size_nonneg
  exact hm k (by omega) (by omega)

theorem own_inner {inner : List Bounds}
    (h : ¬(inner.isEmpty && decide (v.ty ≠ .string)) = true) : inner ≠ [] ∨ v.ty = .string := by
  by_cases hs : v.ty = .string
  · exact .inr hs
  · refine .inl fun he => h ?_
    rw [he, decide_eq_true hs]
    rfl

/-- The header of a string: the length now is stored, unless it is known to be zero. -/
theorem headersOver_nil_ok (h : region.headersOver v zeroed [] start = .ok code) :
    ∃ next rest, next.toInt = start.toInt + 1 ∧
      code = region.pair start next v.stringLength.toInt64 ++ rest ∧
      (zeroed = true ∧ rest = [] ∨
        ∃ last, last.toInt = start.toInt + 2 ∧ rest = instr .ldin [0] ++ region.store last) := by
  rw [headersOver] at h
  obtain ⟨next, hnext, h⟩ := Result.bind_eq_ok.mp h
  dsimp only at h
  split at h
  · next hz =>
    rw [Result.pure_eq_ok] at h
    exact ⟨next, [], Cell.add_eq_ok.mp hnext, by rw [List.append_nil, ← h]; rfl, .inl ⟨hz, rfl⟩⟩
  · simp only [Result.bind_eq_ok, Result.pure_eq_ok] at h
    obtain ⟨last, hlast, rfl⟩ := h
    refine ⟨next, instr .ldin [0] ++ region.store last, Cell.add_eq_ok.mp hnext, ?_,
      .inr ⟨last, Cell.add_eq_ok.mp hlast, rfl⟩⟩
    simp only [pair, List.append_assoc]

/-- The header of an array is followed by those of its elements, unless these are single cells. -/
theorem headersOver_cons_ok {bounds : Bounds} {inner : List Bounds}
    (h : region.headersOver v zeroed (bounds :: inner) start = .ok code) :
    ∃ next count rest, next.toInt = start.toInt + 1 ∧ bounds.count = .ok count ∧
      code = region.pair start next count ++ rest ∧
      (inner = [] ∧ v.ty ≠ .string ∧ rest = [] ∨
        (inner ≠ [] ∨ v.ty = .string) ∧ ∃ length, v.lengthOver inner = .ok length ∧
          elements (region.headersOver v zeroed inner) start length 0 count.toInt.toNat
            = .ok rest) := by
  rw [headersOver] at h
  simp only [Result.bind_eq_ok] at h
  obtain ⟨next, hnext, count, hcount, h⟩ := h
  split at h
  · next hplain =>
    rw [Bool.and_eq_true, List.isEmpty_iff, decide_eq_true_eq] at hplain
    rw [Result.pure_eq_ok] at h
    exact ⟨next, count, [], Cell.add_eq_ok.mp hnext, hcount, by rw [List.append_nil, ← h]; rfl,
      .inl ⟨hplain.1, hplain.2, rfl⟩⟩
  · next hdeep =>
    simp only [Result.bind_eq_ok, Result.pure_eq_ok] at h
    obtain ⟨length, hlength, rest, hrest, rfl⟩ := h
    exact ⟨next, count, rest, Cell.add_eq_ok.mp hnext, hcount, rfl,
      .inr ⟨own_inner hdeep, length, hlength, hrest⟩⟩

theorem string_fills (hs : v.ty = .string) (hfits : v.Fits [])
    (h : region.headersOver v zeroed [] start = .ok code) :
    Fills M region start.toInt (start.toInt + v.extentOver []) (Blank v zeroed [] start.toInt)
      (fun o m => v.Headed m [] (o + start.toInt)) code := by
  have hcapacity := hfits.capacity hs
  have hlength := toInt_toInt64 (u := v.stringLength) (by omega)
  have hextent : v.extentOver [] = v.stringLength.toNat + 3 := by
    rw [Variable.extentOver, Variable.scalarExtent, if_pos hs]
  obtain ⟨next, rest, hnext, rfl, hrest⟩ := headersOver_nil_ok h
  have third : Fills M region (start.toInt + 2) (start.toInt + v.extentOver [])
      (fun o m => zeroed = true → m (o + start.toInt + 2) = 0)
      (fun o m => m (o + start.toInt + 2) = 0) rest := by
    rcases hrest with ⟨hz, rfl⟩ | ⟨last, hlast, rfl⟩
    · exact .nil _ _ fun o m hp => hp hz
    · have hput : Fills M region (start.toInt + 2) (start.toInt + 3) (fun _ _ => True)
          (fun o m => m (o + last.toInt) = 0) (instr .ldin [0] ++ region.store last) :=
        .put (.push (by decide)) (fun m => .instr fun st => rfl) (by omega) (by omega)
      rw [hlast] at hput
      refine hput.weaken (Int.le_refl _) (by omega) (fun _ _ _ => trivial) fun o m hq => ?_
      rwa [← Int.add_assoc] at hq
  have hlocal : Local (start.toInt + 2) (start.toInt + v.extentOver [])
      (fun o m => zeroed = true → m (o + start.toInt + 2) = 0) := by
    intro o m m' hm hp hz
    rw [hm _ (by omega) (by omega)]
    exact hp hz
  refine (pair_append hnext (by omega) third hlocal).weaken (Int.le_refl _) (Int.le_refl _) ?_ ?_
  · intro o m hp hz
    exact hp hz _ ⟨hs, by omega, by omega⟩
  · rintro o m ⟨⟨hpointer, hmost⟩, hnow⟩ _
    exact ⟨hpointer, by rw [hmost, hlength], hnow⟩

theorem nested_fills {bounds : Bounds} {inner : List Bounds} {count length : Int64}
    (hfits : v.Fits (bounds :: inner)) (hcount : bounds.count = .ok count)
    (hlength : v.lengthOver inner = .ok length)
    (heach : ∀ {cell : Int64} {code : Line}, region.headersOver v zeroed inner cell = .ok code →
      Fills M region cell.toInt (cell.toInt + v.extentOver inner) (Blank v zeroed inner cell.toInt)
        (fun o m => v.Headed m inner (o + cell.toInt)) code)
    (h : elements (region.headersOver v zeroed inner) start length 0 count.toInt.toNat = .ok code) :
    Fills M region (start.toInt + 2) (start.toInt + v.extentOver (bounds :: inner))
      (fun o m => ∀ i, 0 ≤ i → i < bounds.size →
        Blank v zeroed inner (v.elementCell inner start.toInt i) o m)
      (fun o m => ∀ i, 0 ≤ i → i < bounds.size →
        v.Headed m inner (o + v.elementCell inner start.toInt i)) code := by
  obtain ⟨hsize, _, hinner⟩ := hfits
  have hzero : (0 : Int64).toInt = 0 := rfl
  have hcount' := Bounds.count_eq_size hcount
  have hbound := count.toInt_le
  have hn : (count.toInt.toNat : Int) = bounds.size := by omega
  have hbegin : v.elementCell inner start.toInt 0 = start.toInt + 2 := by
    rw [Variable.elementCell]
    omega
  have hend : v.elementCell inner start.toInt bounds.size =
      start.toInt + v.extentOver (bounds :: inner) := by
    rw [Variable.elementCell, Variable.extentOver]
    omega
  obtain ⟨length', hlength', hexact⟩ := Variable.exists_lengthOver hinner
  obtain rfl := Except.ok.inj (hlength'.symm.trans hlength)
  have hfills := elements_fills (P := Blank v zeroed inner)
    (Q := fun c o m => v.Headed m inner (o + c)) hinner.one_le hexact heach (local_blank hinner)
    (local_headed hinner) _ h (by omega)
  rwa [hzero, Int.zero_add, hn, hbegin, hend] at hfills

/-- **The headers of a variable.** -/
theorem headersOver_fills : ∀ {dimensions : List Bounds} {start : Int64} {code : Line},
    v.Fits dimensions → (dimensions ≠ [] ∨ v.ty = .string) →
    region.headersOver v zeroed dimensions start = .ok code →
    Fills M region start.toInt (start.toInt + v.extentOver dimensions)
      (Blank v zeroed dimensions start.toInt)
      (fun o m => v.Headed m dimensions (o + start.toInt)) code := by
  intro dimensions
  induction dimensions with
  | nil =>
    intro start code hfits hown h
    exact string_fills (hown.resolve_left fun hne => hne rfl) hfits h
  | cons bounds inner ih =>
    intro start code hfits _ h
    have hinner := hfits.2.2
    have htwo := Variable.two_le_extentOver_cons hfits.1 hinner.one_le
    obtain ⟨next, count, rest, hnext, hcount, rfl, hrest⟩ := headersOver_cons_ok h
    have nested : Fills M region (start.toInt + 2) (start.toInt + v.extentOver (bounds :: inner))
        (fun o m => ∀ i, 0 ≤ i → i < bounds.size →
          Blank v zeroed inner (v.elementCell inner start.toInt i) o m)
        (fun o m => ∀ i, 0 ≤ i → i < bounds.size →
          v.Headed m inner (o + v.elementCell inner start.toInt i)) rest := by
      rcases hrest with ⟨rfl, hs, rfl⟩ | ⟨hown, length, hlength, hrest⟩
      · exact .nil _ _ fun o m _ i _ _ hs' => absurd hs' hs
      · exact nested_fills hfits hcount hlength (fun hc => ih hinner hown hc) hrest
    have hlocal : Local (start.toInt + 2) (start.toInt + v.extentOver (bounds :: inner))
        (fun o m => ∀ i, 0 ≤ i → i < bounds.size →
          Blank v zeroed inner (v.elementCell inner start.toInt i) o m) := by
      intro o m m' hm hp i hlo hhi
      have := Variable.elementCell_bounds (c := start.toInt) hinner.one_le hlo hhi
      exact local_blank hinner _ o m m' (fun k _ _ => hm k (by omega) (by omega)) (hp i hlo hhi)
    refine (pair_append hnext (by omega) nested hlocal).weaken (Int.le_refl _) (Int.le_refl _) ?_ ?_
    · intro o m hp i hlo hhi hz k hk
      refine hp hz k (.inr (.inr ⟨i, hlo, hhi, ?_⟩))
      rwa [Variable.elementCell_add]
    · rintro o m ⟨⟨hpointer, hnumber⟩, helements⟩
      refine ⟨hpointer, by rw [hnumber, Bounds.count_eq_size hcount], fun i hlo hhi => ?_⟩
      rw [Variable.elementCell_add]
      exact helements i hlo hhi

/-! ### Headers can be written -/

theorem exists_elements {each : Int64 → Result Line} {inner : List Bounds} {length : Int64}
    (hpos : 1 ≤ v.extentOver inner) (hlength : length.toInt = v.extentOver inner)
    (hstart : 0 ≤ start.toInt)
    (heach : ∀ {cell : Int64}, 0 ≤ cell.toInt →
      cell.toInt + v.extentOver inner ≤ Int64.maxValue.toInt → ∃ code, each cell = .ok code) :
    ∀ (n : Nat) {i : Int64}, 0 ≤ i.toInt → i.toInt + n ≤ Int64.maxValue.toInt →
      v.elementCell inner start.toInt (i.toInt + n) ≤ Int64.maxValue.toInt →
      ∃ code, elements each start length i n = .ok code := by
  intro n
  induction n with
  | zero =>
    intro i _ _ _
    exact ⟨[], rfl⟩
  | succ n ih =>
    intro i hi hcount hmax
    have htwo : (2 : Int64).toInt = 2 := rfl
    have hnext : (i + 1).toInt = i.toInt + 1 := toInt_add_one (by omega)
    have hend : i.toInt + 1 + (n : Int) = i.toInt + (n + 1 : Nat) := by omega
    have hlast := Variable.elementCell_add_le (c := start.toInt) hpos
      (show i.toInt < i.toInt + (n + 1 : Nat) by omega)
    have hproduct : 0 ≤ i.toInt * length.toInt := Int.mul_nonneg hi (by omega)
    have hcell : v.elementCell inner start.toInt i.toInt =
        start.toInt + 2 + i.toInt * length.toInt := by
      rw [Variable.elementCell, hlength]
    obtain ⟨first, hfirst, hfirst'⟩ := Cell.exists_add (a := start) (b := 2) (by omega) (by omega)
    obtain ⟨distance, hdistance, hdistance'⟩ :=
      Cell.exists_mul (a := i) (b := length) hproduct (by omega)
    obtain ⟨cell, hadd, hcell'⟩ :=
      Cell.exists_add (a := first) (b := distance) (by omega) (by omega)
    obtain ⟨here, hhere⟩ := @heach cell (by omega) (by omega)
    obtain ⟨more, hmore⟩ := ih (i := i + 1) (by omega) (by omega) (by rw [hnext, hend]; exact hmax)
    refine ⟨here ++ more, ?_⟩
    rw [elements]
    simp only [Result.bind_eq_ok, Result.pure_eq_ok]
    exact ⟨first, hfirst, distance, hdistance, cell, hadd, here, hhere, more, hmore, rfl⟩

theorem exists_headersOver : ∀ {dimensions : List Bounds} {start : Int64}, v.Fits dimensions →
    0 ≤ start.toInt → (dimensions ≠ [] ∨ v.ty = .string) →
    start.toInt + v.extentOver dimensions ≤ Int64.maxValue.toInt →
    ∃ code, region.headersOver v zeroed dimensions start = .ok code := by
  intro dimensions
  induction dimensions with
  | nil =>
    intro start hfits hstart hown hmax
    have hone : (1 : Int64).toInt = 1 := rfl
    have htwo : (2 : Int64).toInt = 2 := rfl
    have hs : v.ty = .string := hown.resolve_left fun hne => hne rfl
    rw [Variable.extentOver, Variable.scalarExtent, if_pos hs] at hmax
    obtain ⟨next, hnext, _⟩ := Cell.exists_add (a := start) (b := 1) (by omega) (by omega)
    obtain ⟨last, hlast, _⟩ := Cell.exists_add (a := start) (b := 2) (by omega) (by omega)
    simp only [headersOver, hnext, hlast, bind, Except.bind]
    cases zeroed with
    | true => exact ⟨_, rfl⟩
    | false => exact ⟨_, rfl⟩
  | cons bounds inner ih =>
    intro start hfits hstart _ hmax
    have hone : (1 : Int64).toInt = 1 := rfl
    obtain ⟨count, hcount, hcount'⟩ := hfits.exists_count
    obtain ⟨hsize, hfit, hinner⟩ := hfits
    have hpos := hinner.one_le
    have htwo := Variable.two_le_extentOver_cons hsize hpos
    have hbound := count.toInt_le
    obtain ⟨next, hnext, _⟩ := Cell.exists_add (a := start) (b := 1) (by omega) (by omega)
    obtain ⟨length, hlength, hexact⟩ := Variable.exists_lengthOver hinner
    simp only [headersOver, hnext, hcount, hlength, bind, Except.bind]
    split
    · exact ⟨_, rfl⟩
    · next hdeep =>
      have hend : v.elementCell inner start.toInt (0 + count.toInt.toNat) ≤
          Int64.maxValue.toInt := by
        rw [Variable.elementCell]
        rw [Variable.extentOver] at hmax
        have hn : 0 + (count.toInt.toNat : Int) = bounds.size := by omega
        rw [hn]
        omega
      obtain ⟨nested, hnested⟩ := exists_elements hpos hexact hstart
        (fun h₁ h₂ => ih hinner h₁ (own_inner hdeep) h₂) count.toInt.toNat (i := 0)
        (Int.le_refl 0) (by rw [show (0 : Int64).toInt = 0 from rfl]; omega) hend
      rw [hnested]
      exact ⟨_, rfl⟩

/-! ### The headers of a list of variables -/

variable {wanted : Variable → Bool}

theorem allHeaders_cons_ok {rest : List Variable} {cell : Int64}
    (h : region.allHeaders zeroed wanted cell (v :: rest) = .ok code) (hv : v.Sized) :
    ∃ here more next, code = here ++ more ∧ next.toInt = cell.toInt + v.extent ∧
      region.allHeaders zeroed wanted next rest = .ok more ∧
      (wanted v = true ∧ region.headers v zeroed cell = .ok here ∨
        wanted v = false ∧ here = []) := by
  rw [allHeaders] at h
  split at h
  · next hw =>
    simp only [Result.bind_eq_ok, Result.pure_eq_ok, Cell.add_eq_ok] at h
    obtain ⟨here, hhere, length, hlength, next, hnext, more, hmore, rfl⟩ := h
    rw [hv.length_eq_extent hlength] at hnext
    exact ⟨here, more, next, rfl, hnext, hmore, .inl ⟨hw, hhere⟩⟩
  · next hw =>
    simp only [Result.bind_eq_ok, Result.pure_eq_ok, Cell.add_eq_ok] at h
    obtain ⟨here, hhere, length, hlength, next, hnext, more, hmore, rfl⟩ := h
    rw [hv.length_eq_extent hlength] at hnext
    exact ⟨here, more, next, rfl, hnext, hmore,
      .inr ⟨by simpa using hw, (Except.ok.inj hhere).symm⟩⟩

/-- **The headers of variables that lie one after another.** -/
theorem allHeaders_fills (hwanted : ∀ v, wanted v = true → v.ownsStorage = true) :
    ∀ {declarations : List Variable} {cell : Int64} {code : Line},
      (∀ v ∈ declarations, v.Sized) → region.allHeaders zeroed wanted cell declarations = .ok code →
      Fills M region cell.toInt (cell.toInt + Variable.extentAll declarations)
        (fun o m => ∀ slot v, declarations[slot]? = some v → wanted v = true →
          Blank v zeroed v.dimensions
            (cell.toInt + Variable.extentAll (declarations.take slot)) o m)
        (fun o m => ∀ slot v, declarations[slot]? = some v → wanted v = true →
          v.Headed m v.dimensions (o + (cell.toInt + Variable.extentAll (declarations.take slot))))
        code := by
  intro declarations
  induction declarations with
  | nil =>
    intro cell code _ h
    cases h
    exact .nil _ _ fun o m _ slot v hv => by simp at hv
  | cons v rest ih =>
    intro cell code hsized h
    have hv := hsized v List.mem_cons_self
    have hrest : ∀ u ∈ rest, u.Sized := fun u hu => hsized u (List.mem_cons_of_mem _ hu)
    obtain ⟨here, more, next, rfl, hnext, hmore, hhere⟩ := allHeaders_cons_ok h hv
    have first : Fills M region cell.toInt next.toInt
        (fun o m => wanted v = true → Blank v zeroed v.dimensions cell.toInt o m)
        (fun o m => wanted v = true → v.Headed m v.dimensions (o + cell.toInt)) here := by
      rcases hhere with ⟨hw, hhere⟩ | ⟨hw, rfl⟩
      · obtain ⟨hkind, hown⟩ := Variable.ownsStorage_iff.mp (hwanted v hw)
        rw [hnext, Variable.extent_eq_extentOver hkind]
        exact (headersOver_fills (hv hkind) hown hhere).weaken (Int.le_refl _) (Int.le_refl _)
          (fun o m hp => hp hw) (fun o m hq _ => hq)
      · exact .nil _ _ fun o m _ hw' => by simp [hw] at hw'
    have second := ih hrest hmore
    have hlater := Variable.extentAll_nonneg hrest
    have hextent := hv.extent_nonneg
    have both := first.append second (by omega) (by omega)
      (by
        intro o m m' hm hp slot u hu hw
        obtain ⟨hkind, _⟩ := Variable.ownsStorage_iff.mp (hwanted u hw)
        have hlast := Variable.extentAll_take_add_le hrest hu
        have hbefore : 0 ≤ Variable.extentAll (rest.take slot) :=
          Variable.extentAll_nonneg fun x hx => hrest x (List.mem_of_mem_take hx)
        rw [Variable.extent_eq_extentOver hkind] at hlast
        refine local_blank (hrest u (List.mem_of_getElem? hu) hkind) _ o m m' ?_ (hp slot u hu hw)
        exact fun k _ _ => hm k (by omega) (by omega))
      (by
        intro o m m' hm hq hw
        obtain ⟨hkind, _⟩ := Variable.ownsStorage_iff.mp (hwanted v hw)
        refine local_headed (hv hkind) _ o m m' ?_ (hq hw)
        rw [hnext, Variable.extent_eq_extentOver hkind] at hm
        exact hm)
    have shift (slot : Nat) : cell.toInt + Variable.extentAll ((v :: rest).take (slot + 1)) =
        next.toInt + Variable.extentAll (rest.take slot) := by
      rw [List.take_succ_cons, Variable.extentAll]
      omega
    have start : cell.toInt + Variable.extentAll ((v :: rest).take 0) = cell.toInt := by
      rw [List.take_zero, Variable.extentAll]
      omega
    refine both.weaken (Int.le_refl _) (by rw [Variable.extentAll]; omega) ?_ ?_
    · intro o m hp
      refine ⟨fun hw => ?_, fun slot u hu hw => ?_⟩
      · have := hp 0 v rfl hw
        rwa [start] at this
      · have := hp (slot + 1) u hu hw
        rwa [shift] at this
    · rintro o m ⟨hq, hqs⟩ slot u hu hw
      cases slot with
      | zero =>
        cases hu
        rw [start]
        exact hq hw
      | succ slot =>
        rw [shift]
        exact hqs slot u hu hw

theorem exists_allHeaders (hwanted : ∀ v, wanted v = true → v.ownsStorage = true) :
    ∀ {declarations : List Variable} (cell : Int64), (∀ v ∈ declarations, v.Sized) →
      0 ≤ cell.toInt → cell.toInt + Variable.extentAll declarations ≤ Int64.maxValue.toInt →
      ∃ code, region.allHeaders zeroed wanted cell declarations = .ok code := by
  intro declarations
  induction declarations with
  | nil =>
    intro cell _ _ _
    exact ⟨[], rfl⟩
  | cons v rest ih =>
    intro cell hsized hcell hmax
    have hv := hsized v List.mem_cons_self
    have hrest : ∀ u ∈ rest, u.Sized := fun u hu => hsized u (List.mem_cons_of_mem _ hu)
    have hextent := hv.extent_nonneg
    have hothers := Variable.extentAll_nonneg hrest
    rw [Variable.extentAll] at hmax
    obtain ⟨length, hlength, hexact⟩ := hv.exists_length
    obtain ⟨next, hnext, hvalue⟩ := Cell.exists_add (a := cell) (b := length) (by omega) (by omega)
    obtain ⟨more, hmore⟩ := ih next hrest (by omega) (by omega)
    simp only [allHeaders, hlength, hnext, hmore, bind, Except.bind]
    split
    · next hw =>
      obtain ⟨hkind, hown⟩ := Variable.ownsStorage_iff.mp (hwanted v hw)
      rw [Variable.extent_eq_extentOver hkind] at hmax
      have hhere : ∃ here, region.headersOver v zeroed v.dimensions cell = .ok here :=
        exists_headersOver (hv hkind) hcell hown (by omega)
      obtain ⟨here, hhere⟩ := hhere
      rw [headers, hhere]
      exact ⟨_, rfl⟩
    · exact ⟨_, rfl⟩

/-- The code is made of a piece for each variable, which stores in the cells of this variable
only. -/
theorem allHeaders_pieces (hwanted : ∀ v, wanted v = true → v.ownsStorage = true) :
    ∀ {declarations : List Variable} {cell : Int64} {code : Line}, (∀ v ∈ declarations, v.Sized) →
      region.allHeaders zeroed wanted cell declarations = .ok code →
      ∃ pieces : List Line, code = pieces.flatten ∧ pieces.length = declarations.length ∧
        ∀ slot v, declarations[slot]? = some v → ∃ piece, pieces[slot]? = some piece ∧
          (piece = [] ∨ v.ownsStorage = true ∧ region.StoresWithin
            (cell.toInt + Variable.extentAll (declarations.take slot))
            (cell.toInt + Variable.extentAll (declarations.take slot) + v.extent) piece) := by
  intro declarations
  induction declarations with
  | nil =>
    intro cell code _ h
    cases h
    exact ⟨[], rfl, rfl, by simp⟩
  | cons v rest ih =>
    intro cell code hsized h
    have hv := hsized v List.mem_cons_self
    obtain ⟨here, more, next, rfl, hnext, hmore, hhere⟩ := allHeaders_cons_ok h hv
    obtain ⟨pieces, rfl, hlength, hpieces⟩ :=
      ih (fun u hu => hsized u (List.mem_cons_of_mem _ hu)) hmore
    refine ⟨here :: pieces, rfl, by rw [List.length_cons, List.length_cons, hlength], ?_⟩
    intro slot u hu
    cases slot with
    | zero =>
      cases hu
      refine ⟨here, rfl, ?_⟩
      rcases hhere with ⟨hw, hhere⟩ | ⟨_, rfl⟩
      · obtain ⟨hkind, hown⟩ := Variable.ownsStorage_iff.mp (hwanted v hw)
        rw [List.take_zero, Variable.extentAll, Int.add_zero, Variable.extent_eq_extentOver hkind]
        exact .inr ⟨hwanted v hw, (headersOver_fills (M := .idle) (hv hkind) hown hhere).stores⟩
      · exact .inl rfl
    | succ slot =>
      obtain ⟨piece, hpiece, hwithin⟩ := hpieces slot u hu
      refine ⟨piece, hpiece, ?_⟩
      rw [List.take_succ_cons, Variable.extentAll, ← Int.add_assoc, ← hnext]
      exact hwithin

end Region

end TurtleCode
