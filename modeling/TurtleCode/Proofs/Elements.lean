import TurtleCode.Proofs.Evaluation
import TurtleCode.Proofs.Storage

/-!
# The cells of elements

Where the indexes of an element lead: into the variable, to a cell of its own, past all headers.

* `Variable.Within`: indexes within the bounds of a variable.  `Variable.target`: the cell they
  select.
* `Variable.target_bounds`, `Variable.target_append`, `Variable.target_disjoint`: the cells of
  elements nest like the elements.
* `Variable.target_not_header`, `Variable.target_injective`: as many indexes as there can be select
  a cell that is no header, and no others select it.
* `Setting.reach?_eq_target`: the code of an element gets there.
* `element_target`: all this of the code of an element.
* `element_leads_out`: bounds that are the wrong way round, and lengths that are no words, lead out
  of the variable.
-/

namespace TurtleCode

namespace Variable

variable {v : Variable} {origin c : Int} {bounds : Bounds} {dimensions inner : List Bounds}
  {xs ys : List Int} {m : Memory}

/-- Indexes within bounds, one for each of the first dimensions.  A string takes one more, for a
character. -/
def Within (v : Variable) (origin : Int) : List Bounds → List Int → Prop
  | _, [] => True
  | bounds :: inner, x :: xs =>
    bounds.first.toInt ≤ x ∧ x ≤ bounds.last.toInt ∧ v.Within origin inner xs
  | [], x :: xs => v.ty = .string ∧ xs = [] ∧ origin ≤ x ∧ x < origin + v.stringLength.toNat

/-- The cell that indexes select in storage at `c`. -/
def target (v : Variable) (origin : Int) : List Bounds → Int → List Int → Int
  | _, c, [] => c
  | bounds :: inner, c, x :: xs =>
    v.target origin inner (v.elementCell inner c (x - bounds.first.toInt)) xs
  | [], c, x :: _ => c + 3 + (x - origin)

def rank (v : Variable) (dimensions : List Bounds) : Nat :=
  dimensions.length + if v.ty = .string then 1 else 0

theorem rank_cons : v.rank (bounds :: inner) = v.rank inner + 1 := by
  rw [rank, rank, List.length_cons, Nat.add_right_comm]

/-! ## Where elements are -/

theorem index_range {x : Int} (hlo : bounds.first.toInt ≤ x) (hhi : x ≤ bounds.last.toInt) :
    0 ≤ x - bounds.first.toInt ∧ x - bounds.first.toInt < bounds.size := by
  rw [Bounds.size]
  omega

theorem Within.size_nonneg (h : v.Within origin dimensions xs)
    (hrest : ∀ b ∈ dimensions.drop xs.length, 0 ≤ b.size) : ∀ b ∈ dimensions, 0 ≤ b.size := by
  induction dimensions generalizing xs with
  | nil => simp
  | cons bounds inner ih =>
    cases xs with
    | nil => exact hrest
    | cons x xs =>
      obtain ⟨hlo, hhi, h⟩ := h
      have hindex := index_range hlo hhi
      intro b hb
      rcases List.mem_cons.mp hb with rfl | hb
      · omega
      · exact ih h hrest b hb

theorem target_bounds (hsize : ∀ b ∈ dimensions, 0 ≤ b.size) (h : v.Within origin dimensions xs) :
    c ≤ v.target origin dimensions c xs ∧
      v.target origin dimensions c xs < c + v.extentOver dimensions := by
  induction dimensions generalizing c xs with
  | nil =>
    cases xs with
    | nil =>
      have := one_le_extentOver (v := v) hsize
      rw [target]
      omega
    | cons x xs =>
      obtain ⟨hs, _, hlo, hhi⟩ := h
      rw [target, extentOver, scalarExtent, if_pos hs]
      omega
  | cons bounds inner ih =>
    have hinner : ∀ b ∈ inner, 0 ≤ b.size := fun b hb => hsize b (List.mem_cons_of_mem _ hb)
    have hpos := one_le_extentOver (v := v) hinner
    cases xs with
    | nil =>
      have := one_le_extentOver (v := v) hsize
      rw [target]
      omega
    | cons x xs =>
      obtain ⟨hlo, hhi, h⟩ := h
      obtain ⟨hfirst, hlast⟩ := index_range hlo hhi
      have hcell := elementCell_bounds (c := c) hpos hfirst hlast
      have hnext := ih (c := v.elementCell inner c (x - bounds.first.toInt)) hinner h
      rw [target]
      omega

theorem target_append (hlen : xs.length ≤ dimensions.length) :
    v.target origin dimensions c (xs ++ ys) =
      v.target origin (dimensions.drop xs.length) (v.target origin dimensions c xs) ys := by
  induction dimensions generalizing c xs with
  | nil =>
    obtain rfl : xs = [] := List.eq_nil_of_length_eq_zero (by simpa using hlen)
    rfl
  | cons bounds inner ih =>
    cases xs with
    | nil => rfl
    | cons x xs =>
      rw [List.cons_append, target, target, List.length_cons, List.drop_succ_cons]
      exact ih (by simpa using hlen)

theorem Within.of_append (h : v.Within origin dimensions (xs ++ ys))
    (hlen : xs.length ≤ dimensions.length) : v.Within origin (dimensions.drop xs.length) ys := by
  induction dimensions generalizing xs with
  | nil =>
    obtain rfl : xs = [] := List.eq_nil_of_length_eq_zero (by simpa using hlen)
    exact h
  | cons bounds inner ih =>
    cases xs with
    | nil => exact h
    | cons x xs =>
      rw [List.length_cons, List.drop_succ_cons]
      exact ih h.2.2 (by simpa using hlen)

theorem target_add_le (hsize : ∀ b ∈ dimensions, 0 ≤ b.size) (h : v.Within origin dimensions xs)
    (hlen : xs.length ≤ dimensions.length) :
    c ≤ v.target origin dimensions c xs ∧
      v.target origin dimensions c xs + v.extentOver (dimensions.drop xs.length) ≤
        c + v.extentOver dimensions := by
  induction dimensions generalizing c xs with
  | nil =>
    obtain rfl : xs = [] := List.eq_nil_of_length_eq_zero (by simpa using hlen)
    exact ⟨Int.le_refl _, Int.le_refl _⟩
  | cons bounds inner ih =>
    have hinner : ∀ b ∈ inner, 0 ≤ b.size := fun b hb => hsize b (List.mem_cons_of_mem _ hb)
    cases xs with
    | nil => exact ⟨Int.le_refl _, Int.le_refl _⟩
    | cons x xs =>
      obtain ⟨hlo, hhi, h⟩ := h
      obtain ⟨hfirst, hlast⟩ := index_range hlo hhi
      have hcell := elementCell_bounds (c := c) (one_le_extentOver (v := v) hinner) hfirst hlast
      have hnext := ih (c := v.elementCell inner c (x - bounds.first.toInt)) hinner h
        (by simpa using hlen)
      rw [target, List.length_cons, List.drop_succ_cons]
      omega

/-- **Different indexes of the same dimensions select storage apart.** -/
theorem target_disjoint (hsize : ∀ b ∈ dimensions, 0 ≤ b.size) (hx : v.Within origin dimensions xs)
    (hy : v.Within origin dimensions ys) (hxlen : xs.length ≤ dimensions.length)
    (hlen : ys.length = xs.length) (hne : xs ≠ ys) :
    v.target origin dimensions c xs + v.extentOver (dimensions.drop xs.length) ≤
        v.target origin dimensions c ys ∨
      v.target origin dimensions c ys + v.extentOver (dimensions.drop xs.length) ≤
        v.target origin dimensions c xs := by
  induction dimensions generalizing c xs ys with
  | nil =>
    obtain rfl : xs = [] := List.eq_nil_of_length_eq_zero (by simpa using hxlen)
    exact absurd (List.eq_nil_of_length_eq_zero hlen).symm hne
  | cons bounds inner ih =>
    have hinner : ∀ b ∈ inner, 0 ≤ b.size := fun b hb => hsize b (List.mem_cons_of_mem _ hb)
    have hpos := one_le_extentOver (v := v) hinner
    cases xs with
    | nil => exact absurd (List.eq_nil_of_length_eq_zero hlen).symm hne
    | cons x xs =>
      cases ys with
      | nil => cases hlen
      | cons y ys =>
        obtain ⟨_, _, hx⟩ := hx
        obtain ⟨_, _, hy⟩ := hy
        rw [List.length_cons, List.length_cons, Nat.add_right_cancel_iff] at hlen
        rw [List.length_cons, List.length_cons, Nat.add_le_add_iff_right] at hxlen
        rw [target, target, List.length_cons, List.drop_succ_cons]
        have hxin := target_add_le (c := v.elementCell inner c (x - bounds.first.toInt)) hinner hx
          hxlen
        have hyin := target_add_le (c := v.elementCell inner c (y - bounds.first.toInt)) hinner hy
          (by omega)
        rw [hlen] at hyin
        by_cases hxy : x = y
        · subst hxy
          exact ih hinner hx hy hxlen hlen fun he => hne (by rw [he])
        · have hapart := elementCell_disjoint (c := c) hpos
            (show x - bounds.first.toInt ≠ y - bounds.first.toInt by omega)
          omega

/-! ## Single cells -/

theorem target_not_header (hsize : ∀ b ∈ dimensions, 0 ≤ b.size) (h : v.Within origin dimensions xs)
    (hlen : xs.length = v.rank dimensions) :
    ¬v.IsHeader dimensions c (v.target origin dimensions c xs) := by
  induction dimensions generalizing c xs with
  | nil =>
    rintro ⟨hs, hlo, hhi⟩
    cases xs with
    | nil => simp [rank, hs] at hlen
    | cons x xs =>
      obtain ⟨_, _, hfirst, _⟩ := h
      rw [target] at hhi
      omega
  | cons bounds inner ih =>
    have hinner : ∀ b ∈ inner, 0 ≤ b.size := fun b hb => hsize b (List.mem_cons_of_mem _ hb)
    have hpos := one_le_extentOver (v := v) hinner
    cases xs with
    | nil =>
      rw [rank_cons] at hlen
      cases hlen
    | cons x xs =>
      obtain ⟨hlo, hhi, h⟩ := h
      obtain ⟨hfirst, hlast⟩ := index_range hlo hhi
      have hcell := elementCell_bounds (c := c) hpos hfirst hlast
      have htarget := target_bounds (c := v.elementCell inner c (x - bounds.first.toInt)) hinner h
      rw [target]
      rintro (he | he | ⟨i, _, _, hheader⟩)
      · omega
      · omega
      · -- a header of another element is not in this one
        have hrange := hheader.mem_range hinner
        by_cases hi' : i = x - bounds.first.toInt
        · subst hi'
          rw [rank_cons, List.length_cons, Nat.add_right_cancel_iff] at hlen
          exact ih hinner h hlen hheader
        · have hapart := elementCell_disjoint (c := c) hpos hi'
          omega

/-- **No other indexes select the same cell**, if all are as many as there can be. -/
theorem target_injective (hsize : ∀ b ∈ dimensions, 0 ≤ b.size) (hx : v.Within origin dimensions xs)
    (hy : v.Within origin dimensions ys) (hxlen : xs.length = v.rank dimensions)
    (hylen : ys.length = v.rank dimensions)
    (heq : v.target origin dimensions c xs = v.target origin dimensions c ys) : xs = ys := by
  induction dimensions generalizing c xs ys with
  | nil =>
    cases xs with
    | nil => exact (List.eq_nil_of_length_eq_zero (hylen.trans hxlen.symm)).symm
    | cons x xs =>
      obtain ⟨_, rfl, _⟩ := hx
      cases ys with
      | nil => cases hxlen.trans hylen.symm
      | cons y ys =>
        obtain ⟨_, rfl, _⟩ := hy
        rw [target, target] at heq
        rw [show x = y by omega]
  | cons bounds inner ih =>
    have hinner : ∀ b ∈ inner, 0 ≤ b.size := fun b hb => hsize b (List.mem_cons_of_mem _ hb)
    have hpos := one_le_extentOver (v := v) hinner
    rw [rank_cons] at hxlen hylen
    cases xs with
    | nil => cases hxlen
    | cons x xs =>
      cases ys with
      | nil => cases hylen
      | cons y ys =>
        obtain ⟨_, _, hx⟩ := hx
        obtain ⟨_, _, hy⟩ := hy
        rw [List.length_cons, Nat.add_right_cancel_iff] at hxlen hylen
        rw [target, target] at heq
        have hxin := target_bounds (c := v.elementCell inner c (x - bounds.first.toInt)) hinner hx
        have hyin := target_bounds (c := v.elementCell inner c (y - bounds.first.toInt)) hinner hy
        by_cases hxy : x = y
        · subst hxy
          rw [ih hinner hx hy hxlen hylen heq]
        · have hapart := elementCell_disjoint (c := c) hpos
            (show x - bounds.first.toInt ≠ y - bounds.first.toInt by omega)
          omega

/-! ## Following pointers -/

theorem Linked.pointer (h : v.Linked m dimensions c) (hown : dimensions ≠ [] ∨ v.ty = .string) :
    m c = c + 1 := by
  cases dimensions with
  | nil => exact h (hown.resolve_left fun hne => hne rfl)
  | cons bounds inner => exact h.1

theorem Linked.target (h : v.Linked m dimensions c) (hw : v.Within origin dimensions xs)
    (hlen : xs.length ≤ dimensions.length) :
    v.Linked m (dimensions.drop xs.length) (v.target origin dimensions c xs) := by
  induction dimensions generalizing c xs with
  | nil =>
    obtain rfl : xs = [] := List.eq_nil_of_length_eq_zero (by simpa using hlen)
    exact h
  | cons bounds inner ih =>
    cases xs with
    | nil => exact h
    | cons x xs =>
      obtain ⟨hlo, hhi, hw⟩ := hw
      obtain ⟨hfirst, hlast⟩ := index_range hlo hhi
      rw [Variable.target, List.length_cons, List.drop_succ_cons]
      exact ih (h.2 _ hfirst hlast) hw (by simpa using hlen)

end Variable

/-! ## The code of elements -/

namespace Setting

variable {s : Setting} {M : Machine} {m : Memory} {v : Variable} {depth : Nat} {bounds : Bounds}
  {inner : List Bounds} {c : Int} {xs : List Int}

def origin (s : Setting) : Int := s.language.stringOrigin.toInt

theorem dimension_eq (h : v.dimensions.drop depth = bounds :: inner) :
    v.dimensions[depth]? = some bounds ∧ v.elementLength depth = v.lengthOver inner ∧
      v.dimensions.drop (depth + 1) = inner := by
  have hinner : v.dimensions.drop (depth + 1) = inner := by
    rw [← List.drop_drop, h]
    rfl
  refine ⟨?_, ?_, hinner⟩
  · rw [← Nat.add_zero depth, ← List.getElem?_drop, h]
    rfl
  · rw [Variable.elementLength, Variable.storageLength, hinner]

theorem no_dimension (hd : depth ≤ v.dimensions.length) (h : v.dimensions.drop depth = []) :
    v.dimensions[depth]? = none ∧ depth = v.dimensions.length := by
  rw [List.drop_eq_nil_iff] at h
  exact ⟨List.getElem?_eq_none h, by omega⟩

theorem selected?_element (h : v.dimensions.drop depth = bounds :: inner) (hf : v.Fits inner)
    (x : Int) :
    s.selected? v depth (c + 1) x = some (v.elementCell inner c (x - bounds.first.toInt)) := by
  obtain ⟨hbounds, hlength, _⟩ := dimension_eq h
  obtain ⟨each, heach, hexact⟩ := Variable.exists_lengthOver hf
  rw [selected?, hbounds, hlength, heach]
  simp only [Except.toOption, Option.map_some, Option.some.injEq]
  rw [hexact, Variable.elementCell]
  omega

theorem selected?_character (hd : depth ≤ v.dimensions.length) (h : v.dimensions.drop depth = [])
    (hs : v.ty = .string) (x : Int) :
    s.selected? v depth (c + 1) x = some (c + 3 + (x - s.origin)) := by
  obtain ⟨hnone, hlast⟩ := no_dimension hd h
  rw [selected?, hnone]
  simp only [hlast, hs, and_self, if_true, origin, Option.some.injEq]
  omega

/-- **Indexes within bounds lead to their cell**, through the pointers on the way. -/
theorem reach?_eq_target (hd : depth ≤ v.dimensions.length) (hf : v.Fits (v.dimensions.drop depth))
    (hl : v.Linked m (v.dimensions.drop depth) c)
    (hw : v.Within s.origin (v.dimensions.drop depth) xs) (hne : xs ≠ []) :
    s.reach? m v depth (c + 1) xs = some (v.target s.origin (v.dimensions.drop depth) c xs) := by
  induction xs generalizing depth c with
  | nil => exact absurd rfl hne
  | cons x xs ih =>
    cases hdims : v.dimensions.drop depth with
    | nil =>
      rw [hdims] at hw
      obtain ⟨hs, rfl, _⟩ := hw
      rw [reach?, selected?_character hd hdims hs]
      rfl
    | cons bounds inner =>
      rw [hdims] at hw hf hl
      obtain ⟨hlo, hhi, hw⟩ := hw
      obtain ⟨hfirst, hlast⟩ := Variable.index_range hlo hhi
      have hselected := selected?_element (s := s) (c := c) hdims hf.2.2 x
      obtain ⟨hbounds, _, hinner⟩ := dimension_eq hdims
      have hinnerlinked := hl.2 _ hfirst hlast
      rw [Variable.target]
      cases xs with
      | nil => rw [reach?, hselected, Variable.target]
      | cons y ys =>
        -- an index follows, so what was selected is storage and starts with a pointer
        have hown : inner ≠ [] ∨ v.ty = .string := by
          cases inner with
          | nil => exact .inr hw.1
          | cons b rest => exact .inl (List.cons_ne_nil _ _)
        have hdepth : depth < v.dimensions.length := (List.getElem?_eq_some_iff.mp hbounds).1
        have hnext := @ih (depth + 1) (v.elementCell inner c (x - bounds.first.toInt)) hdepth
          (by rw [hinner]; exact hf.2.2) (by rw [hinner]; exact hinnerlinked)
          (by rw [hinner]; exact hw) (List.cons_ne_nil _ _)
        rw [hinner] at hnext
        rw [reach?, hselected]
        simp only [Option.bind_eq_bind, Option.bind_some]
        rw [hinnerlinked.pointer hown]
        exact hnext

theorem exists_steps {indexes : List Expression} (hx : List.Forall₂ (s.Yields M m) indexes xs)
    (hd : depth ≤ v.dimensions.length) (hf : v.Fits (v.dimensions.drop depth))
    (hw : v.Within s.origin (v.dimensions.drop depth) xs) :
    ∃ code, s.steps v depth indexes = .ok code := by
  induction hx generalizing depth with
  | nil => exact ⟨[], by rw [steps]⟩
  | @cons index x rest xs hindex hrest ih =>
    obtain ⟨value, hvalue, _⟩ := hindex
    have finish {selection more : Line} (hs : s.select v depth = .ok selection)
        (hm : s.steps v (depth + 1) rest = .ok more) :
        ∃ code, s.steps v depth (index :: rest) = .ok code := by
      rw [steps, hvalue, hs, hm]
      exact ⟨_, rfl⟩
    cases hdims : v.dimensions.drop depth with
    | nil =>
      rw [hdims] at hw
      obtain ⟨hs, rfl, _⟩ := hw
      obtain ⟨hnone, hlast⟩ := no_dimension hd hdims
      cases hrest
      have hselect : ∃ selection, s.select v depth = .ok selection := by
        rw [select, hnone]
        simp only [hlast, hs, and_self, if_true]
        exact ⟨_, rfl⟩
      obtain ⟨selection, hselect⟩ := hselect
      exact finish hselect (by rw [steps])
    | cons bounds inner =>
      rw [hdims] at hw hf
      obtain ⟨hbounds, hlength, hinner⟩ := dimension_eq hdims
      obtain ⟨each, heach, _⟩ := Variable.exists_lengthOver hf.2.2
      have hselect : ∃ selection, s.select v depth = .ok selection := by
        simp only [select, hbounds, hlength, heach, bind, Except.bind]
        exact ⟨_, rfl⟩
      obtain ⟨selection, hselect⟩ := hselect
      have hdepth : depth < v.dimensions.length := (List.getElem?_eq_some_iff.mp hbounds).1
      obtain ⟨more, hmore⟩ := @ih (depth + 1) hdepth (by rw [hinner]; exact hf.2.2)
        (by rw [hinner]; exact hw.2.2)
      exact finish hselect hmore

theorem exists_load {id : VariableId} (hv : s.map.declared id = .ok v) (hk : v.kind = .value)
    (hc : s.cell? m id = some c) :
    ∃ code, s.load id = .ok code ∧ M.Pushes m code (m c) := by
  obtain ⟨place, hplace, rfl⟩ := Option.map_eq_some_iff.mp hc
  have hp : s.map.location id = .ok place := by
    cases hl : s.map.location id with
    | error fault =>
      rw [hl] at hplace
      cases hplace
    | ok found =>
      rw [hl] at hplace
      cases hplace
      rfl
  have hload : ∃ code, s.load id = .ok code := by
    simp only [load, hv, hp, bind, Except.bind]
    rcases place_cases hv hp with
      ⟨property, _, _, hturtle, _⟩ | ⟨_, ⟨cell, rfl⟩ | ⟨pointer, offset, rfl⟩⟩
    · rw [hk] at hturtle
      cases hturtle
    · rw [hk]
      exact ⟨_, rfl⟩
    · rw [hk]
      exact ⟨_, rfl⟩
  obtain ⟨code, hcode⟩ := hload
  obtain ⟨x, hx, hpush⟩ := load_pushes (M := M) (m := m) hcode
  rw [content?_eq_some hv hp, hk] at hx
  obtain rfl := Option.some.inj hx
  exact ⟨code, hcode, hpush⟩

/-- **The code of an element pushes its address.** -/
theorem element_pushes {id : VariableId} {indexes : List Expression}
    (hv : s.map.declared id = .ok v) (hown : v.ownsStorage = true) (hc : s.cell? m id = some c)
    (hf : v.Fits v.dimensions) (hl : v.Linked m v.dimensions c) (hne : indexes ≠ [])
    (hx : List.Forall₂ (s.Yields M m) indexes xs) (hw : v.Within s.origin v.dimensions xs) :
    ∃ code, s.element id indexes = .ok code ∧
      M.Pushes m code (v.target s.origin v.dimensions c xs) := by
  obtain ⟨hk, hstorage⟩ := Variable.ownsStorage_iff.mp hown
  obtain ⟨pointer, hpointer, hpush⟩ := exists_load (M := M) hv hk hc
  obtain ⟨steps, hsteps⟩ := exists_steps hx (Nat.zero_le v.dimensions.length) hf hw
  have hxne : xs ≠ [] := by
    rintro rfl
    cases hx
    exact hne rfl
  obtain ⟨cell, hcell, hruns⟩ := steps_reach hx hne hsteps (m c)
  rw [if_pos rfl, hl.pointer hstorage,
    reach?_eq_target (Nat.zero_le v.dimensions.length) hf hl hw hxne] at hcell
  obtain rfl := Option.some.inj hcell
  refine ⟨pointer ++ steps, ?_, hpush.append hruns⟩
  simp only [element, hv, hpointer, hsteps, bind, Except.bind]
  rfl

end Setting

def Setting.InBounds (s : Setting) (v : Variable) (xs : List Int) : Prop :=
  v.Within s.origin v.dimensions xs

def Setting.cellAt (s : Setting) (v : Variable) (c : Int) (xs : List Int) : Int :=
  v.target s.origin v.dimensions c xs

/-- **Elements have cells of their own.**  Let `v` be a string or an array at `c`, in a memory that
holds its pointers.  The code of an element pushes the cell that the values of its indexes select,
and this is a cell of `v`.  With as many indexes as there can be it is no header, and no other
indexes select it.  Indexes of the first dimensions select a part of `v`: further indexes select
cells of this part, and other indexes select parts that have no cell in common with it. -/
theorem element_target {s : Setting} {M : Machine} {m : Memory} {id : VariableId} {v : Variable}
    {length : Int64} {c : Int} (hv : s.map.declared id = .ok v) (hown : v.ownsStorage = true)
    (hlength : v.length = .ok length)
    (hs : v.ty = .string → (v.stringLength.toNat : Int) ≤ Int64.maxValue.toInt)
    (hc : s.cell? m id = some c) (hl : v.Linked m v.dimensions c) :
    (∀ indexes xs, indexes ≠ [] → List.Forall₂ (s.Yields M m) indexes xs → s.InBounds v xs →
      (∀ b ∈ v.dimensions.drop xs.length, 0 ≤ b.size) →
      (∃ code, s.element id indexes = .ok code ∧
        ∀ st, M.execute code ⟨m, st⟩ = some ⟨m, s.cellAt v c xs :: st⟩) ∧
      c ≤ s.cellAt v c xs ∧ s.cellAt v c xs < c + length.toInt) ∧
    (∀ xs, s.InBounds v xs → xs.length = v.rank v.dimensions →
      ¬v.IsHeader v.dimensions c (s.cellAt v c xs) ∧
      ∀ ys, s.InBounds v ys → ys.length = v.rank v.dimensions → xs ≠ ys →
        s.cellAt v c xs ≠ s.cellAt v c ys) ∧
    ∀ xs, s.InBounds v xs → xs.length ≤ v.dimensions.length →
      (∀ b ∈ v.dimensions.drop xs.length, 0 ≤ b.size) →
      ∃ each, v.storageLength xs.length = .ok each ∧
        v.Linked m (v.dimensions.drop xs.length) (s.cellAt v c xs) ∧
        (∀ ys, s.InBounds v (xs ++ ys) → s.cellAt v c xs ≤ s.cellAt v c (xs ++ ys) ∧
          s.cellAt v c (xs ++ ys) < s.cellAt v c xs + each.toInt) ∧
        ∀ ys, s.InBounds v ys → ys.length = xs.length → xs ≠ ys →
          s.cellAt v c xs + each.toInt ≤ s.cellAt v c ys ∨
          s.cellAt v c ys + each.toInt ≤ s.cellAt v c xs := by
  obtain ⟨hk, _⟩ := Variable.ownsStorage_iff.mp hown
  have hover : v.lengthOver v.dimensions = .ok length := by
    rwa [Variable.length, hk] at hlength
  have hexact := Variable.lengthOver_eq_extentOver hs hover
  refine ⟨fun indexes xs hne hx hw hrest => ?_, fun xs hw hfull => ?_, fun xs hw hlen hrest => ?_⟩
  · have hsize := hw.size_nonneg hrest
    have hfits := Variable.fits_of_lengthOver hs hover hsize
    obtain ⟨code, hcode, hpush⟩ := Setting.element_pushes hv hown hc hfits hl hne hx hw
    refine ⟨⟨code, hcode, fun st => Machine.execute_eq_some_iff.mpr (hpush st)⟩, ?_⟩
    rw [hexact]
    exact Variable.target_bounds hsize hw
  · have hall : v.dimensions.drop xs.length = [] := by
      rw [List.drop_eq_nil_iff, hfull, Variable.rank]
      omega
    have hsize := hw.size_nonneg (by simp [hall])
    refine ⟨Variable.target_not_header hsize hw hfull, fun ys hw' hfull' hne heq => hne ?_⟩
    exact Variable.target_injective hsize hw hw' hfull hfull' heq
  · have hsize := hw.size_nonneg hrest
    have hfits := Variable.fits_of_lengthOver hs hover hsize
    obtain ⟨each, heach, heach'⟩ := Variable.exists_lengthOver (hfits.drop xs.length)
    refine ⟨each, heach, hl.target hw hlen, fun ys hw' => ?_, fun ys hw' hlen' hne => ?_⟩
    · rw [heach', Setting.cellAt, Setting.cellAt, Variable.target_append hlen]
      exact Variable.target_bounds hrest (Variable.Within.of_append hw' hlen)
    · rw [heach']
      exact Variable.target_disjoint hsize hw hw' hlen hlen' hne

/-- The pointers of `labels`, which is at 13, and nothing else. -/
def labelsMemory : Memory := fun k => if k ∈ [13, 15, 22, 29] then k + 1 else 0

theorem element_target_labels :
    (MemoryMap.of storeroom).declared ⟨0, 7⟩ = .ok labels ∧ labels.ownsStorage = true ∧
    labels.length = .ok 23 ∧ (Setting.of storeroom {}).cell? labelsMemory ⟨0, 7⟩ = some 13 ∧
    labels.Linked labelsMemory labels.dimensions 13 ∧
    (∃ code, (Setting.of storeroom {}).element ⟨0, 7⟩ [.integer 0, .integer 2] = .ok code ∧
      Machine.idle.execute code ⟨labelsMemory, [5]⟩ = some ⟨labelsMemory, [26, 5]⟩) ∧
    ¬labels.IsHeader labels.dimensions 13 26 ∧
    (Setting.of storeroom {}).cellAt labels 13 [1, 2] ≠ 26 ∧
    ∀ ys, (Setting.of storeroom {}).InBounds labels ([0] ++ ys) →
      22 ≤ (Setting.of storeroom {}).cellAt labels 13 ([0] ++ ys) ∧
      (Setting.of storeroom {}).cellAt labels 13 ([0] ++ ys) < 29 := by
  have hdeclared : (MemoryMap.of storeroom).declared ⟨0, 7⟩ = .ok labels := rfl
  have hcell : (Setting.of storeroom {}).cell? labelsMemory ⟨0, 7⟩ = some 13 := by
    rw [Setting.of, storeroom_map]
    rfl
  have hlinked : labels.Linked labelsMemory labels.dimensions 13 := by
    refine ⟨rfl, fun i hlo hhi _ => ?_⟩
    have hi : i = 0 ∨ i = 1 ∨ i = 2 := by
      have hsize : Bounds.size ⟨-1, 1⟩ = 3 := rfl
      omega
    rcases hi with rfl | rfl | rfl <;> rfl
  have hpush (n : Int64) :
      (Setting.of storeroom {}).Yields .idle labelsMemory (.integer n) n.toInt :=
    ⟨_, rfl, .instr fun st => rfl⟩
  have hbounds : (Setting.of storeroom {}).InBounds labels [0, 2] :=
    ⟨by decide, by decide, rfl, rfl, by decide, by decide⟩
  have hother : (Setting.of storeroom {}).InBounds labels [1, 2] :=
    ⟨by decide, by decide, rfl, rfl, by decide, by decide⟩
  have hlength : labels.length = .ok 23 := rfl
  obtain ⟨hcode, hfull, hparts⟩ := element_target (M := .idle) (s := .of storeroom {}) hdeclared rfl
    hlength (by decide) hcell hlinked
  obtain ⟨⟨code, hmade, hruns⟩, _⟩ := hcode [.integer 0, .integer 2] [0, 2] (List.cons_ne_nil _ _)
    (.cons (hpush 0) (.cons (hpush 2) .nil)) hbounds (by decide)
  obtain ⟨hheader, hdistinct⟩ := hfull [0, 2] hbounds rfl
  obtain ⟨each, heach, _, hinside, _⟩ :=
    hparts [0] ⟨by decide, by decide, trivial⟩ (by decide) (by decide)
  obtain rfl : (7 : Int64) = each := Except.ok.inj heach
  exact ⟨hdeclared, rfl, hlength, hcell, hlinked, ⟨code, hmade, hruns [5]⟩, hheader,
    (hdistinct [1, 2] hother rfl (by decide)).symm, hinside⟩

/-! ### Lengths that are no lengths -/

def lone (v : Variable) : Program where
  name := "lone"
  language := .pascal
  declarations := [v]

theorem lone_map (v : Variable) : MemoryMap.of (lone v) = ⟨lone v, []⟩ := by
  have hflat : Subroutine.flattenAll (lone v).subroutines = [] := rfl
  rw [MemoryMap.of, Program.allSubroutines, hflat, List.mergeSort_nil]

def onward : Memory := fun k => k + 1

theorem Variable.linked_onward (v : Variable) (dimensions : List Bounds) (c : Int) :
    v.Linked onward dimensions c := by
  induction dimensions generalizing c with
  | nil => exact fun _ => rfl
  | cons bounds inner ih => exact ⟨rfl, fun i _ _ => ih _⟩

/-- The code of indexes within bounds leads out of the part that the first of them select, which
with none of them is the variable. -/
def LeadsOut (v : Variable) (first rest : List Int64) : Prop :=
  ∃ length code cell each, v.ownsStorage = true ∧ v.length = .ok length ∧
    (Setting.of (lone v) {}).cell? onward ⟨0, 0⟩ = some 9 ∧ v.Linked onward v.dimensions 9 ∧
    (Setting.of (lone v) {}).InBounds v ((first ++ rest).map Int64.toInt) ∧
    (Setting.of (lone v) {}).element ⟨0, 0⟩ ((first ++ rest).map .integer) = .ok code ∧
    Machine.idle.execute code ⟨onward, []⟩ = some ⟨onward, [cell]⟩ ∧
    v.storageLength first.length = .ok each ∧
    ¬((Setting.of (lone v) {}).cellAt v 9 (first.map Int64.toInt) ≤ cell ∧
      cell < (Setting.of (lone v) {}).cellAt v 9 (first.map Int64.toInt) + each.toInt)

def Codeless (v : Variable) (indexes : List Int64) : Prop :=
  ∃ fault, v.ownsStorage = true ∧ (Setting.of (lone v) {}).cell? onward ⟨0, 0⟩ = some 9 ∧
    v.Linked onward v.dimensions 9 ∧
    (Setting.of (lone v) {}).InBounds v (indexes.map Int64.toInt) ∧
    (Setting.of (lone v) {}).element ⟨0, 0⟩ (indexes.map .integer) = .error fault

/-- With bounds that are the wrong way round in a dimension that is left over, elements are outside
the variable and outside the row that they belong to.  So are the characters of a string whose
length is no word.  Elements that are too long have no code. -/
theorem element_leads_out :
    LeadsOut { name := "ribs", ty := .integer, dimensions := [⟨0, 0⟩, ⟨5, 1⟩] } [] [0] ∧
    LeadsOut { name := "ribs", ty := .integer, dimensions := [⟨0, 0⟩, ⟨0, 1⟩, ⟨5, 1⟩] } [0] [0] ∧
    LeadsOut { name := "ribs", ty := .string, stringLength := 18446744073709551612 } [] [1] ∧
    Codeless { name := "ribs", ty := .integer, dimensions := [⟨0, 0⟩, ⟨1, 9223372036854775806⟩] }
      [0] := by
  refine ⟨?_, ?_, ?_, ?_⟩
  · rw [LeadsOut, Setting.of, lone_map]
    exact ⟨_, _, _, _, rfl, rfl, rfl, Variable.linked_onward _ _ _, ⟨by decide, by decide, trivial⟩,
      rfl, rfl, rfl, by decide⟩
  · rw [LeadsOut, Setting.of, lone_map]
    exact ⟨_, _, _, _, rfl, rfl, rfl, Variable.linked_onward _ _ _,
      ⟨by decide, by decide, by decide, by decide, trivial⟩, rfl, rfl, rfl, by decide⟩
  · rw [LeadsOut, Setting.of, lone_map]
    exact ⟨_, _, _, _, rfl, rfl, rfl, Variable.linked_onward _ _ _,
      ⟨rfl, rfl, by decide, by decide⟩, rfl, rfl, rfl, by decide⟩
  · rw [Codeless, Setting.of, lone_map]
    exact ⟨_, rfl, rfl, Variable.linked_onward _ _ _, ⟨by decide, by decide, trivial⟩, rfl⟩

end TurtleCode
