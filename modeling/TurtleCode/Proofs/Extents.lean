import TurtleCode.Memory.Extent
import TurtleCode.Proofs.Emission

/-!
# Exact lengths

The lengths of variables as plain integers, without a bound on words, and when the lengths that are
computed in words agree with them.

* `Bounds.size`, `Variable.extentOver`, `Variable.extent`: the exact lengths.
  `Variable.extentAll` adds them up.
* `Variable.Fits`: no bounds are the wrong way round, and every part of a variable that starts at
  some dimension has a length that is a word.
* `Variable.lengthOver_eq_extentOver`: a length that is computed is exact.
  `Variable.exists_lengthOver`: it is computed if the variable fits.
* `Variable.exists_advance`: a list of variables that fit, laid one after another, takes the sum of
  their lengths, if this sum is a word.
-/

namespace TurtleCode

/-! ## Arithmetic that fits -/

theorem exists_fit (operation : Arithmetic) {n : Int} (hlo : Int64.minValue.toInt ≤ n)
    (hhi : n ≤ Int64.maxValue.toInt) : ∃ w, fit operation n = .ok w ∧ w.toInt = n := by
  refine ⟨Int64.ofInt n, ?_, ?_⟩
  · rw [fit, if_pos ⟨hlo, hhi⟩]
  · exact Int64.toInt_ofInt_of_le hlo (Int.lt_of_le_of_lt hhi (by decide))

namespace Cell

variable {a b w : Int64}

theorem add_eq_ok : add a b = .ok w ↔ w.toInt = a.toInt + b.toInt := fit_eq_ok_iff

theorem sub_eq_ok : sub a b = .ok w ↔ w.toInt = a.toInt - b.toInt := fit_eq_ok_iff

theorem mul_eq_ok : mul a b = .ok w ↔ w.toInt = a.toInt * b.toInt := fit_eq_ok_iff

theorem exists_add (hlo : 0 ≤ a.toInt + b.toInt) (hhi : a.toInt + b.toInt ≤ Int64.maxValue.toInt) :
    ∃ w, add a b = .ok w ∧ w.toInt = a.toInt + b.toInt :=
  exists_fit .add (Int.le_trans (by decide) hlo) hhi

theorem exists_mul (hlo : 0 ≤ a.toInt * b.toInt) (hhi : a.toInt * b.toInt ≤ Int64.maxValue.toInt) :
    ∃ w, mul a b = .ok w ∧ w.toInt = a.toInt * b.toInt :=
  exists_fit .multiply (Int.le_trans (by decide) hlo) hhi

theorem eq_add_of_add_eq_ok (h : add a b = .ok w) : w = a + b := by
  unfold add fit at h
  split at h
  · cases h
    rw [Int64.ofInt_add, Int64.ofInt_toInt, Int64.ofInt_toInt]
  · cases h

theorem eq_overflow_of_add_eq_error {fault : Fault} (h : add a b = .error fault) :
    fault = .overflow .add := by
  unfold add fit at h
  split at h
  · cases h
  · exact (Except.error.inj h).symm

end Cell

theorem toInt_add_one {i : Int64} (h : i.toInt < Int64.maxValue.toInt) :
    (i + 1).toInt = i.toInt + 1 := by
  have hmin := Int64.le_toInt i
  have hmax : Int64.maxValue.toInt = 9223372036854775807 := by decide
  rw [Int64.toInt_add]
  exact Int.bmod_eq_of_le (by simp; omega) (by simp; omega)

theorem toInt_toInt64 {u : UInt64} (h : (u.toNat : Int) ≤ Int64.maxValue.toInt) :
    u.toInt64.toInt = u.toNat := by
  have hmax : Int64.maxValue.toInt = 9223372036854775807 := by decide
  calc u.toInt64.toInt = (UInt64.ofNat u.toNat).toInt64.toInt := by rw [UInt64.ofNat_toNat]
    _ = (Int64.ofNat u.toNat).toInt := by rw [UInt64.toInt64_ofNat']
    _ = u.toNat := Int64.toInt_ofNat_of_lt (show u.toNat < 9223372036854775808 by omega)

/-! ## The length of a variable -/

namespace Bounds

def size (b : Bounds) : Int := b.last.toInt - b.first.toInt + 1

theorem count_eq_size {b : Bounds} {w : Int64} (h : b.count = .ok w) : w.toInt = b.size := by
  unfold count at h
  simp only [Result.bind_eq_ok, Cell.sub_eq_ok, Cell.add_eq_ok] at h
  obtain ⟨d, hd, hw⟩ := h
  rw [hw, hd]
  rfl

theorem exists_count {b : Bounds} (hlo : 0 ≤ b.size) (hhi : b.size ≤ Int64.maxValue.toInt) :
    ∃ w, b.count = .ok w ∧ w.toInt = b.size := by
  have hone : (1 : Int64).toInt = 1 := by decide
  have hmin : Int64.minValue.toInt ≤ -1 := by decide
  unfold size at hlo hhi
  obtain ⟨d, hd, hd'⟩ := exists_fit .subtract (n := b.last.toInt - b.first.toInt)
    (by omega) (by omega)
  obtain ⟨w, hw, hw'⟩ := Cell.exists_add (a := d) (b := 1) (by omega) (by omega)
  have hcount : b.count = .ok w := by
    unfold count
    exact Result.bind_eq_ok.mpr ⟨d, hd, hw⟩
  exact ⟨w, hcount, count_eq_size hcount⟩

end Bounds

namespace Variable

def scalarExtent (v : Variable) : Int := if v.ty = .string then v.stringLength.toNat + 3 else 1

/-- The exact length of an array with the given dimensions whose innermost elements are those of
`v`. -/
def extentOver (v : Variable) : List Bounds → Int
  | [] => v.scalarExtent
  | bounds :: inner => bounds.size * v.extentOver inner + 2

/-- The exact number of cells that `v` takes in its routine's region. -/
def extent (v : Variable) : Int :=
  match v.kind with
  | .reference | .pointer => 1
  | .turtle _ => 0
  | .value => v.extentOver v.dimensions

def extentAll : List Variable → Int
  | [] => 0
  | v :: rest => v.extent + extentAll rest

/-- No bounds are the wrong way round, and each part has a length that is a word: the whole, an
element of the first dimension, and so on to the innermost elements. -/
def Fits (v : Variable) : List Bounds → Prop
  | [] => v.scalarExtent ≤ Int64.maxValue.toInt
  | bounds :: inner => 0 ≤ bounds.size ∧ v.extentOver (bounds :: inner) ≤ Int64.maxValue.toInt ∧
      v.Fits inner

instance decidableFits (v : Variable) : (dimensions : List Bounds) → Decidable (v.Fits dimensions)
  | [] => inferInstanceAs (Decidable (_ ≤ _))
  | _ :: inner =>
    have := v.decidableFits inner
    inferInstanceAs (Decidable (_ ∧ _ ∧ _))

variable {v : Variable}

theorem one_le_scalarExtent (v : Variable) : 1 ≤ v.scalarExtent := by
  unfold scalarExtent
  split
  · omega
  · omega

theorem two_le_extentOver_cons {bounds : Bounds} {inner : List Bounds} (hb : 0 ≤ bounds.size)
    (hi : 1 ≤ v.extentOver inner) : 2 ≤ v.extentOver (bounds :: inner) := by
  have := Int.mul_nonneg hb (show 0 ≤ v.extentOver inner by omega)
  rw [extentOver]
  omega

theorem one_le_extentOver {dimensions : List Bounds} (h : ∀ b ∈ dimensions, 0 ≤ b.size) :
    1 ≤ v.extentOver dimensions := by
  induction dimensions with
  | nil => exact v.one_le_scalarExtent
  | cons bounds inner ih =>
    have hi := ih fun b hb => h b (List.mem_cons_of_mem _ hb)
    have := two_le_extentOver_cons (h bounds List.mem_cons_self) hi
    omega

theorem Fits.size_nonneg {dimensions : List Bounds} (h : v.Fits dimensions) :
    ∀ b ∈ dimensions, 0 ≤ b.size := by
  induction dimensions with
  | nil => simp
  | cons bounds inner ih =>
    intro b hb
    rcases List.mem_cons.mp hb with rfl | hb
    · exact h.1
    · exact ih h.2.2 b hb

theorem Fits.one_le {dimensions : List Bounds} (h : v.Fits dimensions) :
    1 ≤ v.extentOver dimensions := one_le_extentOver h.size_nonneg

theorem Fits.drop {dimensions : List Bounds} (h : v.Fits dimensions) (k : Nat) :
    v.Fits (dimensions.drop k) := by
  induction dimensions generalizing k with
  | nil =>
    rw [List.drop_nil]
    exact h
  | cons bounds inner ih =>
    cases k with
    | zero => exact h
    | succ k => exact ih h.2.2 k

theorem Fits.capacity {dimensions : List Bounds} (h : v.Fits dimensions) (hs : v.ty = .string) :
    (v.stringLength.toNat : Int) + 3 ≤ Int64.maxValue.toInt := by
  induction dimensions with
  | nil =>
    have hle : v.scalarExtent ≤ Int64.maxValue.toInt := h
    rwa [scalarExtent, if_pos hs] at hle
  | cons bounds inner ih => exact ih h.2.2

/-- The number of elements is computed: each has a cell, so it is no larger than the length. -/
theorem Fits.exists_count {bounds : Bounds} {inner : List Bounds} (h : v.Fits (bounds :: inner)) :
    ∃ w, bounds.count = .ok w ∧ w.toInt = bounds.size := by
  obtain ⟨hsize, hmax, hinner⟩ := h
  have hle : bounds.size * 1 ≤ bounds.size * v.extentOver inner :=
    Int.mul_le_mul_of_nonneg_left hinner.one_le hsize
  rw [extentOver] at hmax
  exact Bounds.exists_count hsize (by omega)

theorem scalarLength_eq_scalarExtent {w : Int64}
    (hs : v.ty = .string → (v.stringLength.toNat : Int) ≤ Int64.maxValue.toInt)
    (h : v.scalarLength = .ok w) : w.toInt = v.scalarExtent := by
  unfold scalarLength at h
  unfold scalarExtent
  split at h
  · next hstring =>
    rw [Cell.add_eq_ok, toInt_toInt64 (hs hstring)] at h
    rw [if_pos hstring, h]
    rfl
  · next hother =>
    obtain rfl := Except.ok.inj h
    rw [if_neg hother]
    rfl

/-- **A length that is computed is exact**, if the number of characters of a string is a word. -/
theorem lengthOver_eq_extentOver
    (hs : v.ty = .string → (v.stringLength.toNat : Int) ≤ Int64.maxValue.toInt) :
    ∀ {dimensions : List Bounds} {w : Int64}, v.lengthOver dimensions = .ok w →
      w.toInt = v.extentOver dimensions := by
  intro dimensions
  induction dimensions with
  | nil =>
    intro w h
    exact scalarLength_eq_scalarExtent hs h
  | cons bounds inner ih =>
    intro w h
    rw [lengthOver] at h
    simp only [Result.bind_eq_ok, Cell.mul_eq_ok, Cell.add_eq_ok] at h
    obtain ⟨count, hcount, each, heach, product, hproduct, hw⟩ := h
    rw [hw, hproduct, Bounds.count_eq_size hcount, ih heach, extentOver]
    rfl

/-- A variable whose length is computed fits, unless bounds are the wrong way round. -/
theorem fits_of_lengthOver
    (hs : v.ty = .string → (v.stringLength.toNat : Int) ≤ Int64.maxValue.toInt) :
    ∀ {dimensions : List Bounds} {w : Int64}, v.lengthOver dimensions = .ok w →
      (∀ b ∈ dimensions, 0 ≤ b.size) → v.Fits dimensions := by
  intro dimensions
  have small {ds : List Bounds} {w : Int64} (h : v.lengthOver ds = .ok w) :
      v.extentOver ds ≤ Int64.maxValue.toInt := by
    rw [← lengthOver_eq_extentOver hs h]
    exact Int.le_of_lt_add_one w.toInt_lt
  induction dimensions with
  | nil =>
    intro w h _
    exact small h
  | cons bounds inner ih =>
    intro w h hb
    refine ⟨hb bounds List.mem_cons_self, small h, ?_⟩
    rw [lengthOver] at h
    simp only [Result.bind_eq_ok] at h
    obtain ⟨_, _, each, heach, _⟩ := h
    exact ih heach fun b hm => hb b (List.mem_cons_of_mem _ hm)

/-- **The length of a variable that fits is computed.** -/
theorem exists_lengthOver : ∀ {dimensions : List Bounds}, v.Fits dimensions →
    ∃ w, v.lengthOver dimensions = .ok w ∧ w.toInt = v.extentOver dimensions := by
  intro dimensions
  induction dimensions with
  | nil =>
    intro h
    rw [lengthOver, extentOver, scalarLength, scalarExtent]
    by_cases hs : v.ty = .string
    · have hcap := h.capacity hs
      have hthree : stringHeader.toInt = 3 := by decide
      have hlen := toInt_toInt64 (u := v.stringLength) (by omega)
      rw [if_pos hs, if_pos hs, ← hlen, ← hthree]
      exact Cell.exists_add (by omega) (by omega)
    · rw [if_neg hs, if_neg hs]
      exact ⟨1, rfl, rfl⟩
  | cons bounds inner ih =>
    intro h
    obtain ⟨count, hcount, hsize⟩ := h.exists_count
    obtain ⟨hb, hmax, hinner⟩ := h
    obtain ⟨each, heach, hexact⟩ := ih hinner
    have hpos := hinner.one_le
    have htwo : arrayHeader.toInt = 2 := by decide
    have hnonneg : 0 ≤ bounds.size * v.extentOver inner := Int.mul_nonneg hb (by omega)
    rw [extentOver] at hmax
    obtain ⟨product, hproduct, hvalue⟩ := Cell.exists_mul (a := count) (b := each)
      (by rw [hsize, hexact]; omega) (by rw [hsize, hexact]; omega)
    rw [hsize, hexact] at hvalue
    obtain ⟨w, hw, hwvalue⟩ := Cell.exists_add (a := product) (b := arrayHeader)
      (by omega) (by omega)
    refine ⟨w, ?_, by rw [hwvalue, hvalue, htwo, extentOver]⟩
    rw [lengthOver]
    simp only [Result.bind_eq_ok]
    exact ⟨count, hcount, each, heach, product, hproduct, hw⟩

/-! ## Variables one after another -/

def Sized (v : Variable) : Prop := v.kind = .value → v.Fits v.dimensions

instance (v : Variable) : Decidable v.Sized := inferInstanceAs (Decidable (_ → _))

theorem Sized.extent_nonneg (h : v.Sized) : 0 ≤ v.extent := by
  unfold extent
  split
  · omega
  · omega
  · omega
  · next hk =>
    have := (h hk).one_le
    omega

theorem Sized.one_le_extent (h : v.Sized) (ht : v.isTurtle = false) : 1 ≤ v.extent := by
  unfold isTurtle at ht
  unfold extent
  split
  · omega
  · omega
  · next property hk =>
    rw [hk] at ht
    cases ht
  · next hk => exact (h hk).one_le

theorem isTurtle_of_extent_pos (h : 0 < v.extent) : v.isTurtle = false := by
  unfold isTurtle
  unfold extent at h
  cases hk : v.kind with
  | turtle property =>
    rw [hk] at h
    exact absurd h (Int.lt_irrefl 0)
  | value | reference | pointer => rfl

theorem Sized.exists_length (h : v.Sized) : ∃ w, v.length = .ok w ∧ w.toInt = v.extent := by
  unfold length extent
  cases hk : v.kind with
  | value => exact exists_lengthOver (h hk)
  | turtle property => exact ⟨0, rfl, rfl⟩
  | reference => exact ⟨1, rfl, rfl⟩
  | pointer => exact ⟨1, rfl, rfl⟩

theorem Sized.length_eq_extent (h : v.Sized) {w : Int64} (hw : v.length = .ok w) :
    w.toInt = v.extent := by
  obtain ⟨w', hw', hexact⟩ := h.exists_length
  rw [hw] at hw'
  obtain rfl := Except.ok.inj hw'
  exact hexact

theorem extentAll_append (as bs : List Variable) :
    extentAll (as ++ bs) = extentAll as + extentAll bs := by
  induction as with
  | nil => simp [extentAll]
  | cons v rest ih =>
    rw [List.cons_append, extentAll, extentAll, ih]
    omega

theorem extentAll_nonneg {declarations : List Variable} (h : ∀ v ∈ declarations, v.Sized) :
    0 ≤ extentAll declarations := by
  induction declarations with
  | nil => exact Int.le_refl 0
  | cons v rest ih =>
    have hv := (h v List.mem_cons_self).extent_nonneg
    have hrest := ih fun u hu => h u (List.mem_cons_of_mem _ hu)
    rw [extentAll]
    omega

/-- **Variables one after another** end where the sum of their lengths says. -/
theorem exists_advance : ∀ {declarations : List Variable} (cell : Int64),
    (∀ v ∈ declarations, v.Sized) → 0 ≤ cell.toInt →
    cell.toInt + extentAll declarations ≤ Int64.maxValue.toInt →
    ∃ w, advance cell declarations = .ok w ∧ w.toInt = cell.toInt + extentAll declarations := by
  intro declarations
  induction declarations with
  | nil =>
    intro cell _ _ _
    exact ⟨cell, rfl, by simp [extentAll]⟩
  | cons v rest ih =>
    intro cell h hcell hmax
    have hv := h v List.mem_cons_self
    have hrest : ∀ u ∈ rest, u.Sized := fun u hu => h u (List.mem_cons_of_mem _ hu)
    have hextent := hv.extent_nonneg
    have hothers := extentAll_nonneg hrest
    obtain ⟨each, heach, hexact⟩ := hv.exists_length
    rw [extentAll] at hmax
    obtain ⟨next, hnext, hvalue⟩ := Cell.exists_add (a := cell) (b := each) (by omega) (by omega)
    obtain ⟨w, hw, hwvalue⟩ := ih next hrest (by omega) (by omega)
    refine ⟨w, ?_, by rw [extentAll]; omega⟩
    rw [advance]
    simp only [Result.bind_eq_ok]
    exact ⟨each, heach, next, hnext, hw⟩

end Variable

end TurtleCode
