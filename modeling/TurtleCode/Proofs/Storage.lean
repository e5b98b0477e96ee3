import TurtleCode.Proofs.Extents
import TurtleCode.Proofs.StackMachine

/-!
# Storage of strings and arrays

What the cells of a variable are for.  Storage with dimensions left starts with a pointer and a
count and goes on with its elements, which are storage themselves; a string starts with a pointer,
the most characters that it can have and the number it has now.

* `Variable.elementCell`: where the storage of an element starts.  `Variable.elementCell_bounds`,
  `Variable.elementCell_add_le`: elements lie inside, one after another.
* `Variable.IsHeader`: the cells of the headers, those in elements included.
* `Variable.Headed`: memory holds the headers of a variable.  `Variable.Linked`: it holds the
  pointers.
-/

namespace TurtleCode.Variable

variable {v : Variable} {bounds : Bounds} {inner dimensions : List Bounds} {m m' : Memory}
  {c i j k : Int}

theorem ownsStorage_iff :
    v.ownsStorage = true ↔ v.kind = .value ∧ (v.dimensions ≠ [] ∨ v.ty = .string) := by
  simp [ownsStorage, isArray]

theorem ownsStorage_of_headedInFrame (v : Variable) (h : v.headedInFrame = true) :
    v.ownsStorage = true := by
  rw [headedInFrame, Bool.and_eq_true] at h
  exact h.1

theorem isTurtle_of_ownsStorage (h : v.ownsStorage = true) : v.isTurtle = false := by
  rw [isTurtle, (ownsStorage_iff.mp h).1]

theorem extent_eq_extentOver (h : v.kind = .value) : v.extent = v.extentOver v.dimensions := by
  rw [extent, h]

/-- Where element `i` of an array at `c` begins, which has the dimensions `inner` left. -/
def elementCell (v : Variable) (inner : List Bounds) (c i : Int) : Int :=
  c + 2 + i * v.extentOver inner

theorem elementCell_bounds (hpos : 1 ≤ v.extentOver inner) (hlo : 0 ≤ i) (hhi : i < bounds.size) :
    c + 2 ≤ v.elementCell inner c i ∧
      v.elementCell inner c i + v.extentOver inner ≤ c + v.extentOver (bounds :: inner) := by
  have hfirst : 0 ≤ i * v.extentOver inner := Int.mul_nonneg hlo (by omega)
  have hlast : (i + 1) * v.extentOver inner ≤ bounds.size * v.extentOver inner :=
    Int.mul_le_mul_of_nonneg_right (by omega) (by omega)
  rw [Int.add_mul, Int.one_mul] at hlast
  rw [elementCell, extentOver]
  omega

theorem elementCell_add_le (hpos : 1 ≤ v.extentOver inner) (h : i < j) :
    v.elementCell inner c i + v.extentOver inner ≤ v.elementCell inner c j := by
  have hnext : (i + 1) * v.extentOver inner ≤ j * v.extentOver inner :=
    Int.mul_le_mul_of_nonneg_right (by omega) (by omega)
  rw [Int.add_mul, Int.one_mul] at hnext
  rw [elementCell, elementCell]
  omega

theorem elementCell_disjoint (hpos : 1 ≤ v.extentOver inner) (h : i ≠ j) :
    v.elementCell inner c i + v.extentOver inner ≤ v.elementCell inner c j ∨
      v.elementCell inner c j + v.extentOver inner ≤ v.elementCell inner c i := by
  rcases Int.lt_or_gt_of_ne h with hlt | hgt
  · exact .inl (elementCell_add_le hpos hlt)
  · exact .inr (elementCell_add_le hpos hgt)

theorem elementCell_add (o : Int) :
    v.elementCell inner (o + c) i = o + v.elementCell inner c i := by
  rw [elementCell, elementCell]
  omega

theorem elementCell_succ :
    v.elementCell inner c (i + 1) = v.elementCell inner c i + v.extentOver inner := by
  rw [elementCell, elementCell, Int.add_mul, Int.one_mul]
  omega

theorem elementCell_mono (hpos : 1 ≤ v.extentOver inner) (h : i ≤ j) :
    v.elementCell inner c i ≤ v.elementCell inner c j := by
  have hle : i * v.extentOver inner ≤ j * v.extentOver inner :=
    Int.mul_le_mul_of_nonneg_right h (by omega)
  rw [elementCell, elementCell]
  omega

/-- The cells of the headers of storage at `c`: pointer and count of an array, and what is a
header in its elements; pointer, most characters and characters now of a string. -/
def IsHeader (v : Variable) : List Bounds → Int → Int → Prop
  | [], c, k => v.ty = .string ∧ c ≤ k ∧ k < c + 3
  | bounds :: inner, c, k => k = c ∨ k = c + 1 ∨
      ∃ i, 0 ≤ i ∧ i < bounds.size ∧ v.IsHeader inner (v.elementCell inner c i) k

/-- Memory holds the headers of storage at `c` and of the elements in it, as they are before
anything is stored in a string. -/
def Headed (v : Variable) (m : Memory) : List Bounds → Int → Prop
  | [], c => v.ty = .string →
      m c = c + 1 ∧ m (c + 1) = v.stringLength.toNat ∧ m (c + 2) = 0
  | bounds :: inner, c => m c = c + 1 ∧ m (c + 1) = bounds.size ∧
      ∀ i, 0 ≤ i → i < bounds.size → v.Headed m inner (v.elementCell inner c i)

/-- Every pointer of storage at `c` and of the elements in it holds the next address. -/
def Linked (v : Variable) (m : Memory) : List Bounds → Int → Prop
  | [], c => v.ty = .string → m c = c + 1
  | bounds :: inner, c => m c = c + 1 ∧
      ∀ i, 0 ≤ i → i < bounds.size → v.Linked m inner (v.elementCell inner c i)

theorem IsHeader.mem_range (hsize : ∀ b ∈ dimensions, 0 ≤ b.size) (h : v.IsHeader dimensions c k) :
    c ≤ k ∧ k < c + v.extentOver dimensions := by
  induction dimensions generalizing c with
  | nil =>
    obtain ⟨hs, hlo, hhi⟩ := h
    rw [extentOver, scalarExtent, if_pos hs]
    omega
  | cons bounds inner ih =>
    have hinner : ∀ b ∈ inner, 0 ≤ b.size := fun b hb => hsize b (List.mem_cons_of_mem _ hb)
    have hpos := one_le_extentOver (v := v) hinner
    have htwo := two_le_extentOver_cons (hsize bounds List.mem_cons_self) hpos
    rcases h with rfl | rfl | ⟨i, hlo, hhi, h⟩
    · omega
    · omega
    · have hmem := ih hinner h
      have hcell := elementCell_bounds (c := c) hpos hlo hhi
      omega

theorem Headed.congr (h : v.Headed m dimensions c)
    (hm : ∀ k, v.IsHeader dimensions c k → m' k = m k) : v.Headed m' dimensions c := by
  induction dimensions generalizing c with
  | nil =>
    intro hs
    rw [hm c ⟨hs, by omega, by omega⟩, hm (c + 1) ⟨hs, by omega, by omega⟩,
      hm (c + 2) ⟨hs, by omega, by omega⟩]
    exact h hs
  | cons bounds inner ih =>
    obtain ⟨hpointer, hcount, helements⟩ := h
    refine ⟨?_, ?_, fun i hlo hhi => ?_⟩
    · rw [hm c (.inl rfl), hpointer]
    · rw [hm (c + 1) (.inr (.inl rfl)), hcount]
    · exact ih (helements i hlo hhi) fun k hk => hm k (.inr (.inr ⟨i, hlo, hhi, hk⟩))

end TurtleCode.Variable
