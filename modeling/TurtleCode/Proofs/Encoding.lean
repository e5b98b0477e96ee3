import Mathlib.Algebra.Order.Ring.Nat
import Mathlib.Tactic.NormNum
import TurtleCode.Pcode.Bytes

/-!
# Bytes that say where they end

The bytes of a linked program can be followed by anything: the reader finds the program and stops
after its last byte.  If only a part of them is there, it asks for more.

* `Bytes.Delimits read bytes a`: `read` finds `a` in these bytes whatever follows them, and never in
  less than all of them.
* `Bytes.Delimits.bind`: readers that are run one after another.
* `Bytes.delimits_natFrom`, `Bytes.delimits_int`, `Bytes.delimits_list`: numbers and lists.
* `Pcode.toBytes_delimits`: whole programs.
-/

namespace TurtleCode

namespace Bytes

/-- A reader finds `a` in these bytes whatever follows them, and leaves the rest unread.  If some of
the bytes at the end are missing, it says that they end too soon. -/
structure Delimits {α : Type} (read : List UInt8 → Except BytesFault (α × List UInt8))
    (bytes : List UInt8) (a : α) : Prop where
  found : ∀ rest, read (bytes ++ rest) = .ok (a, rest)
  short : ∀ part, part <+: bytes → part ≠ bytes → read part = .error .endOfBytes

namespace Delimits

variable {α β : Type} {read : List UInt8 → Except BytesFault (α × List UInt8)}
  {bytes more : List UInt8} {a : α} {b : β}

theorem nothing (a : α) : Delimits (fun input => .ok (a, input)) [] a where
  found _ := rfl
  short _ hpart hne := absurd (List.prefix_nil.mp hpart) hne

/-- One reader and then another one, which may depend on what the first one found. -/
theorem bind (next : α → List UInt8 → Except BytesFault (β × List UInt8))
    (h : Delimits read bytes a) (h' : Delimits (next a) more b) :
    Delimits (fun input => read input >>= fun r => next r.1 r.2) (bytes ++ more) b where
  found rest := by
    rw [List.append_assoc, h.found]
    exact h'.found rest
  short part hpart hne := by
    obtain ⟨missing, hpart⟩ := hpart
    -- what is there ends inside the first bytes, or after all of them
    rcases List.append_eq_append_iff.mp hpart with ⟨left, hbytes, hmissing⟩ | ⟨begun, rfl, hmore⟩
    · by_cases hleft : left = []
      · subst hleft
        obtain rfl : bytes = part := by rw [hbytes, List.append_nil]
        have hnone : more ≠ [] := by
          rintro rfl
          exact hne (List.append_nil bytes).symm
        have hread := h.found []
        rw [List.append_nil] at hread
        rw [hread]
        exact h'.short [] List.nil_prefix hnone.symm
      · have hshort : part ≠ bytes := by
          rintro rfl
          exact hleft (List.append_cancel_left (hbytes.symm.trans (List.append_nil part).symm))
        rw [h.short part ⟨left, hbytes.symm⟩ hshort]
        rfl
    · rw [h.found]
      refine h'.short begun ⟨missing, hmore.symm⟩ ?_
      rintro rfl
      exact hne rfl

theorem map (f : α → β) (h : Delimits read bytes a) :
    Delimits (fun input => read input >>= fun r => .ok (f r.1, r.2)) bytes (f a) := by
  have := h.bind (fun x rest => .ok (f x, rest)) (nothing (f a))
  rwa [List.append_nil] at this

end Delimits

/-! ## Numbers -/

/-- A byte below 128 is a last one, which tenth bytes are only up to one. -/
theorem readNatFrom_last {place : Nat} {byte : UInt8} (hplace : place < 10)
    (hbyte : byte.toNat < 128) (hlast : place = 9 → byte.toNat ≤ 1) (rest : List UInt8) :
    readNatFrom place (byte :: rest) = .ok (byte.toNat, rest) := by
  have hlt : byte < 128 := UInt8.lt_iff_toNat_lt.mpr hbyte
  have hone : ¬ (place = 9 ∧ 1 < byte) := by
    rintro ⟨hnine, hbig⟩
    exact absurd (UInt8.lt_iff_toNat_lt.mp hbig) (Nat.not_lt.mpr (hlast hnine))
  rw [readNatFrom, if_neg (by omega), if_pos hlt, if_neg hone]

theorem readNatFrom_next {place : Nat} {byte : UInt8} (hplace : place < 10)
    (hbyte : 128 ≤ byte.toNat) (rest : List UInt8) :
    readNatFrom place (byte :: rest) = readNatFrom (place + 1) rest >>= fun r =>
      .ok (byte.toNat - 128 + 128 * r.1, r.2) := by
  have hge : ¬ byte < 128 := fun h => absurd (UInt8.lt_iff_toNat_lt.mp h) (Nat.not_lt.mpr hbyte)
  rw [readNatFrom, if_neg (by omega), if_neg hge]
  rfl

theorem readNatFrom_nil {place : Nat} (hplace : place < 10) :
    readNatFrom place [] = .error .endOfBytes := by
  rw [readNatFrom, if_pos hplace]

/-- A number of which `place` bytes come before is read back if the whole fits a word: each byte
before it makes it count 128 times more. -/
theorem delimits_natFrom (n : Nat) : ∀ {place : Nat}, place < 10 → n * 128 ^ place < UInt64.size →
    Delimits (readNatFrom place) (writeNat n) n := by
  fun_induction writeNat n with
  | case1 n hn =>
    intro place hplace hsize
    have hbyte : n.toUInt8.toNat = n := UInt8.toNat_ofNat_of_lt' (show n < 256 by omega)
    have hlast : place = 9 → n ≤ 1 := by
      rintro rfl
      norm_num [UInt64.size] at hsize
      omega
    refine ⟨?_, ?_⟩
    · intro rest
      show readNatFrom place (n.toUInt8 :: rest) = _
      rw [readNatFrom_last hplace (by omega) (by omega), hbyte]
    · intro part hpart hne
      rcases List.prefix_cons_iff.mp hpart with rfl | ⟨begun, rfl, hbegun⟩
      · exact readNatFrom_nil hplace
      · exact absurd (congrArg _ (List.prefix_nil.mp hbegun)) hne
  | case2 n hn ih =>
    intro place hplace hsize
    have hbyte : (n % 128 + 128).toUInt8.toNat = n % 128 + 128 :=
      UInt8.toNat_ofNat_of_lt' (show n % 128 + 128 < 256 by omega)
    have hnext : place + 1 < 10 := by
      by_contra hlast
      obtain rfl : place = 9 := by omega
      norm_num [UInt64.size] at hsize
      omega
    have hrest : n / 128 * 128 ^ (place + 1) < UInt64.size := by
      refine Nat.lt_of_le_of_lt ?_ hsize
      rw [pow_succ', ← Nat.mul_assoc]
      exact Nat.mul_le_mul_right _ (Nat.div_mul_le_self n 128)
    obtain ⟨found, short⟩ := ih hnext hrest
    refine ⟨?_, ?_⟩
    · intro rest
      rw [List.cons_append, readNatFrom_next hplace (by omega), found, hbyte]
      show Except.ok (n % 128 + 128 - 128 + 128 * (n / 128), rest) = _
      rw [Nat.add_sub_cancel, Nat.mod_add_div]
    · intro part hpart hne
      rcases List.prefix_cons_iff.mp hpart with rfl | ⟨begun, rfl, hbegun⟩
      · exact readNatFrom_nil hplace
      · have hshort : begun ≠ writeNat (n / 128) := by
          rintro rfl
          exact hne rfl
        rw [readNatFrom_next hplace (by omega), short begun hbegun hshort]
        rfl

theorem delimits_nat {n : Nat} (h : n < UInt64.size) : Delimits readNat (writeNat n) n :=
  delimits_natFrom n (by decide) (by rwa [pow_zero, Nat.mul_one])

theorem fold_lt (n : Int64) : fold n < UInt64.size := by
  have hlo := n.le_toInt
  have hhi := n.toInt_lt
  unfold fold
  split
  · next k hk =>
    rw [hk] at hhi
    norm_num [UInt64.size] at hhi ⊢
    omega
  · next k hk =>
    rw [hk] at hlo
    norm_num [UInt64.size] at hlo ⊢
    omega

theorem unfold_fold (n : Int64) : unfold (fold n) = n := by
  unfold fold Bytes.unfold
  split
  · next k hk =>
    rw [if_pos (Nat.mul_mod_right 2 k), Nat.mul_div_cancel_left k (by decide)]
    show Int64.ofInt (Int.ofNat k) = n
    rw [← hk, Int64.ofInt_toInt]
  · next k hk =>
    rw [if_neg (by omega), show (2 * k + 1) / 2 = k by omega, ← hk, Int64.ofInt_toInt]

theorem delimits_int (n : Int64) : Delimits readInt (writeNat (fold n)) n := by
  have := (delimits_nat (fold_lt n)).map unfold
  rwa [unfold_fold] at this

/-! ## Lists -/

section Lists

variable {α : Type} {read : List UInt8 → Except BytesFault (α × List UInt8)}
  {write : α → List UInt8}

theorem delimits_many : ∀ (items : List α), (∀ a ∈ items, Delimits read (write a) a) →
    Delimits (readMany read items.length) (items.flatMap write) items
  | [], _ => .nothing []
  | a :: rest, h => by
    have hrest := delimits_many rest fun b hb => h b (List.mem_cons_of_mem _ hb)
    exact (h a List.mem_cons_self).bind
      (fun x input => readMany read rest.length input >>= fun r => .ok (x :: r.1, r.2))
      (hrest.map (a :: ·))

theorem delimits_list {items : List α} (hsize : items.length < UInt64.size)
    (h : ∀ a ∈ items, Delimits read (write a) a) :
    Delimits (readList read) (writeList write items) items :=
  (delimits_nat hsize).bind (readMany read) (delimits_many items h)

end Lists

end Bytes

/-- **Bytes are lossless and delimit themselves.**  A program is read back from its bytes whatever
follows them, and from a part of them that lacks some at the end nothing is read: they end too soon.
The number of lines and the lengths of the lines have to be words. -/
theorem Pcode.toBytes_delimits {p : Pcode} (hlines : p.lines.length < UInt64.size)
    (hline : ∀ line ∈ p.lines, line.length < UInt64.size) :
    (∀ rest, Pcode.ofBytes (p.toBytes ++ rest) = .ok p) ∧
      ∀ part, part <+: p.toBytes → part ≠ p.toBytes → Pcode.ofBytes part = .error .endOfBytes := by
  obtain ⟨found, short⟩ := Bytes.delimits_list hlines fun line hl =>
    Bytes.delimits_list (hline line hl) fun n _ => Bytes.delimits_int n
  refine ⟨?_, ?_⟩
  · intro rest
    rw [Pcode.ofBytes, Pcode.toBytes, found]
    rfl
  · intro part hpart hne
    rw [Pcode.ofBytes, short part hpart hne]
    rfl

/-- A line with the least and the greatest number, between lines of which one is empty. -/
def extremes : Pcode := ⟨[[], [Int64.minValue, -1, 0, 1, Int64.maxValue], [64, -65]]⟩

theorem Pcode.toBytes_delimits_extremes :
    extremes.lines.length < UInt64.size ∧ (∀ line ∈ extremes.lines, line.length < UInt64.size) ∧
      extremes.toBytes.length = 31 ∧
      (∀ rest, Pcode.ofBytes (extremes.toBytes ++ rest) = .ok extremes) ∧
      Pcode.ofBytes (extremes.toBytes.take 12) = .error .endOfBytes := by
  have hlines : extremes.lines.length < UInt64.size := by decide
  have hline : ∀ line ∈ extremes.lines, line.length < UInt64.size := by decide
  have hlength : extremes.toBytes.length = 31 := by decide +kernel
  obtain ⟨found, short⟩ := Pcode.toBytes_delimits hlines hline
  have hpart : extremes.toBytes.take 12 <+: extremes.toBytes := List.take_prefix 12 _
  refine ⟨hlines, hline, hlength, found, short _ hpart ?_⟩
  intro he
  have := congrArg List.length he
  rw [List.length_take, hlength] at this
  exact absurd this (by decide)

end TurtleCode
