import TurtleCode.Proofs.Phrases

/-!
# The grammar of linked lines

A linked line is a sequence of instructions.  Each is the number of an opcode with the operands that
it asks for, and a string constant has its length and then as many characters.  The decoder accepts
these lines and no others, and loses nothing of them.

* `Instruction.WellFormed`: an instruction of the grammar, `Parses` a line that is made of some.
* `decodeOne_eq_ok`, `decode_eq_ok`: what the decoder accepts.
* `Parses.unique`: there is one way to read a line.
* `Cursor.scan`: the decoder with a cursor that moves over the line.  `Cursor.scan_eq`: it finds the
  same, no sum is too large and no place is outside the line.
* `decodeLine_exact`: all of it together.
-/

namespace TurtleCode

@[simp] theorem Result.mapError_ok {ε ε' α : Type} (f : ε → ε') (a : α) :
    (Except.ok a).mapError f = .ok a := rfl

@[simp] theorem Result.mapError_error {ε ε' α : Type} (f : ε → ε') (e : ε) :
    (Except.error e : Except ε α).mapError f = .error (f e) := rfl

/-! ## The grammar -/

theorem Opcode.value_of_ofValue? {value : Int64} {op : Opcode} (h : ofValue? value = some op) :
    op.value = value := by
  have hplace : ∀ k : Fin all.length, (all.get k).number = k := by decide
  unfold ofValue? at h
  split at h
  · next k hk =>
    obtain ⟨hlt, rfl⟩ := List.getElem?_eq_some_iff.mp h
    have hnumber : (all[k]).number = k := hplace ⟨k, hlt⟩
    rw [Opcode.value, hnumber]
    exact (congrArg Int64.ofInt hk).symm.trans (Int64.ofInt_toInt value)
  · cases h

theorem Opcode.exists_value_iff {value : Int64} :
    (∃ op : Opcode, op.value = value) ↔ 0 ≤ value.toInt ∧ value.toInt ≤ 102 := by
  constructor
  · rintro ⟨op, rfl⟩
    have hlt : op.number < 103 := op.number_lt
    have hint : op.value.toInt = Int.ofNat op.number :=
      Int64.toInt_ofNat_of_lt (Nat.lt_trans hlt (by decide))
    rw [hint]
    exact ⟨Int.natCast_nonneg _, Int.ofNat_le.mpr (Nat.le_of_lt_succ hlt)⟩
  · rintro ⟨hlow, hhigh⟩
    obtain ⟨k, hk⟩ := Int.eq_ofNat_of_zero_le hlow
    have hlt : k < all.length := by
      show k < 103
      omega
    refine ⟨all[k], value_of_ofValue? ?_⟩
    rw [ofValue?, hk]
    exact List.getElem?_eq_getElem hlt

namespace Instruction

/-- An instruction of the grammar: the operands that its opcode asks for, or the length of a string
constant and then as many characters. -/
inductive WellFormed : Instruction → Prop
  | plain {op : Opcode} {operands : List Int64} :
      op ≠ .lstr → operands.length = op.operandCount → WellFormed ⟨op, operands⟩
  | string {length : Int64} {characters : List Int64} :
      length.toInt = characters.length → WellFormed ⟨.lstr, length :: characters⟩

theorem WellFormed.complete {i : Instruction} (h : i.WellFormed) : i.Complete := by
  cases h with
  | plain hop hlength => exact complete_of_length hop hlength
  | @string length characters hlength =>
    unfold Complete operandsTaken
    rw [if_pos rfl, List.headD_cons, hlength]
    exact congrArg Except.ok (Nat.add_comm _ _)

end Instruction

/-- A line is made of instructions of the grammar, one after another. -/
structure Parses (line : List Int64) (is : List Instruction) : Prop where
  wellFormed : ∀ i ∈ is, i.WellFormed
  values : is.flatMap Instruction.values = line

/-! ## What the decoder accepts -/

theorem wellFormed_of_operandsTaken {op : Opcode} {rest : List Int64} {count : Nat}
    (h : operandsTaken op rest = .ok count) (hthere : count ≤ rest.length) :
    Instruction.WellFormed ⟨op, rest.take count⟩ := by
  unfold operandsTaken at h
  split at h
  · next hop =>
    subst hop
    split at h
    · next length hlength =>
      cases h
      cases rest with
      | nil => exact absurd hthere (by simp [Opcode.operandCount])
      | cons first more =>
        have hsize : length ≤ more.length := by
          simp only [Opcode.operandCount, List.length_cons] at hthere
          omega
        rw [show Opcode.lstr.operandCount + length = length + 1 from Nat.add_comm _ _,
          List.take_succ_cons]
        refine .string ?_
        rw [List.length_take, Nat.min_eq_left hsize]
        exact hlength
    · cases h
  · next hop =>
    cases h
    exact .plain hop (List.length_take_of_le hthere)

/-- **One instruction**: it is found exactly if the line begins with it. -/
theorem decodeOne_eq_ok {value : Int64} {rest after : List Int64} {i : Instruction} :
    decodeOne value rest = .ok (i, after) ↔ i.WellFormed ∧ i.values ++ after = value :: rest := by
  constructor
  · intro h
    unfold decodeOne at h
    split at h
    · cases h
    · next op hop =>
      split at h
      · cases h
      · next count hcount =>
        split at h
        · cases h
        · next hlength =>
          cases h
          rw [List.length_take] at hlength
          refine ⟨wellFormed_of_operandsTaken hcount (by omega), ?_⟩
          rw [Instruction.values, List.cons_append, Opcode.value_of_ofValue? hop,
            List.take_append_drop]
  · rintro ⟨hi, hvalues⟩
    obtain ⟨rfl, rfl⟩ := List.cons.inj hvalues
    exact hi.complete.decodeOne after

theorem decode_cons (value : Int64) (rest : List Int64) :
    decode (value :: rest) =
      decodeOne value rest >>= fun r => decode r.2 >>= fun more => .ok (r.1 :: more) := by
  rw [decode]
  split
  · next flaw h => simp only [bind, Except.bind, h]
  · next i after h => simp only [bind, Except.bind, pure, Except.pure, h]

theorem parses_of_decode (line : List Int64) : ∀ {is : List Instruction}, decode line = .ok is →
    Parses line is := by
  induction hn : line.length using Nat.strongRecOn generalizing line with
  | ind n ih =>
    intro is h
    cases line with
    | nil =>
      rw [decode] at h
      cases h
      exact ⟨by simp, rfl⟩
    | cons value rest =>
      rw [decode_cons] at h
      obtain ⟨⟨i, after⟩, hone, h⟩ := Result.bind_eq_ok.mp h
      obtain ⟨more, hmore, h⟩ := Result.bind_eq_ok.mp h
      cases h
      have hshorter : after.length < n := by
        rw [← hn]
        exact Nat.lt_succ_of_le (decodeOne_rest_length hone)
      obtain ⟨hi, hvalues⟩ := decodeOne_eq_ok.mp hone
      obtain ⟨hwell, hrest⟩ := ih after.length hshorter after rfl hmore
      refine ⟨List.forall_mem_cons.mpr ⟨hi, hwell⟩, ?_⟩
      rw [List.flatMap_cons, hrest, hvalues]

/-- **The decoder and the grammar agree.** -/
theorem decode_eq_ok {line : List Int64} {is : List Instruction} :
    decode line = .ok is ↔ Parses line is := by
  constructor
  · exact parses_of_decode line
  · rintro ⟨hwell, rfl⟩
    exact decode_values is fun i hi => (hwell i hi).complete

theorem Parses.unique {line : List Int64} {is js : List Instruction} (h : Parses line is)
    (h' : Parses line js) : is = js :=
  Except.ok.inj ((decode_eq_ok.mpr h).symm.trans (decode_eq_ok.mpr h'))

/-! ## A cursor on the line -/

namespace Cursor

/-- What can go wrong while a cursor moves over a line.  Only the first is the line's own fault. -/
inductive Slip
  | flaw (flaw : LineFlaw)
  | sumTooLarge
  | outsideLine
deriving DecidableEq

def plus (a b : Nat) : Except Slip Nat :=
  if a + b < UInt64.size then .ok (a + b) else .error .sumTooLarge

def value (code : List Int64) (place : Nat) : Except Slip Int64 :=
  match code[place]? with
  | some value => .ok value
  | none => .error .outsideLine

def between (code : List Int64) (first stop : Nat) : Except Slip (List Int64) :=
  if first ≤ stop ∧ stop ≤ code.length then .ok ((code.take stop).drop first)
  else .error .outsideLine

/-- How many integers from the place `next` on belong to an opcode.  A length that is not there is
taken for zero. -/
def taken (code : List Int64) (op : Opcode) (next : Nat) : Except Slip Nat :=
  if op = .lstr then
    match (code[next]?.getD 0).toInt with
    | .ofNat length => plus op.operandCount length
    | .negSucc _ => .error (.flaw (.negativeLength (code[next]?.getD 0)))
  else .ok op.operandCount

def round (code : List Int64) (place : Nat) : Except Slip (Instruction × Nat) :=
  value code place >>= fun value =>
    match Opcode.ofValue? value with
    | none => .error (.flaw (.notAnOpcode value))
    | some op =>
      plus place 1 >>= fun next =>
      taken code op next >>= fun count =>
      plus next count >>= fun stop =>
        if code.length < stop then .error (.flaw (.missingOperands op))
        else between code next stop >>= fun operands => .ok (⟨op, operands⟩, stop)

variable {code : List Int64} {place : Nat}

theorem plus_eq_ok {a b sum : Nat} (h : plus a b = .ok sum) : sum = a + b := by
  unfold plus at h
  split at h
  · exact (Except.ok.inj h).symm
  · cases h

theorem lt_of_round {i : Instruction} {stop : Nat} (h : round code place = .ok (i, stop)) :
    place < stop := by
  obtain ⟨value, -, h⟩ := Result.bind_eq_ok.mp h
  split at h
  · cases h
  · obtain ⟨next, hnext, h⟩ := Result.bind_eq_ok.mp h
    obtain ⟨count, -, h⟩ := Result.bind_eq_ok.mp h
    obtain ⟨sum, hsum, h⟩ := Result.bind_eq_ok.mp h
    split at h
    · cases h
    · obtain ⟨operands, -, h⟩ := Result.bind_eq_ok.mp h
      cases h
      have hstop := plus_eq_ok hsum
      have hplace := plus_eq_ok hnext
      omega

def scan (code : List Int64) (place : Nat) : Except Slip (List Instruction) :=
  if hplace : place < code.length then
    match h : round code place with
    | .error slip => .error slip
    | .ok (i, stop) =>
      have : code.length - stop < code.length - place := by
        have := lt_of_round h
        omega
      scan code stop >>= fun more => .ok (i :: more)
  else .ok []
termination_by code.length - place

theorem scan_of_lt (h : place < code.length) :
    scan code place =
      round code place >>= fun r => scan code r.2 >>= fun more => .ok (r.1 :: more) := by
  rw [scan, dif_pos h]
  split
  · next slip hround => simp only [bind, Except.bind, hround]
  · next i stop hround => simp only [bind, Except.bind, hround]

theorem scan_of_le (h : code.length ≤ place) : scan code place = .ok [] := by
  rw [scan, dif_neg (Nat.not_lt.mpr h)]

theorem plus_eq {a b : Nat} (h : a + b < 18446744073709551616) : plus a b = .ok (a + b) := if_pos h

theorem length_lt {word : Int64} {length : Nat} (h : word.toInt = Int.ofNat length) :
    length < 9223372036854775808 := by
  have hlt := word.toInt_lt
  rw [h] at hlt
  exact Int.ofNat_lt.mp hlt

theorem count_le {op : Opcode} {rest : List Int64} {count : Nat}
    (h : operandsTaken op rest = .ok count) : count ≤ 9223372036854775808 := by
  unfold operandsTaken at h
  split at h
  · next hop =>
    split at h
    · next length hlength =>
      cases h
      have hlt := length_lt hlength
      subst hop
      show 1 + length ≤ _
      omega
    · cases h
  · cases h
    have hsmall : ∀ op : Opcode, op.operandCount ≤ 2 := by
      intro op
      cases op <;> decide
    exact Nat.le_trans (hsmall op) (by decide)

theorem taken_eq (code : List Int64) (op : Opcode) (next : Nat) :
    taken code op next = (operandsTaken op (code.drop next)).mapError .flaw := by
  have hhead : (code.drop next).headD 0 = code[next]?.getD 0 := by
    rw [List.headD_eq_head?_getD, List.head?_drop]
  unfold taken operandsTaken
  rw [hhead]
  by_cases hop : op = .lstr
  · subst hop
    rw [if_pos rfl, if_pos rfl]
    cases hlength : (code[next]?.getD 0).toInt with
    | ofNat length =>
      have hlt := length_lt hlength
      exact plus_eq (show 1 + length < _ by omega)
    | negSucc k => rfl
  · rw [if_neg hop, if_neg hop]
    rfl

/-- **One round**: the cursor finds the instruction that the line begins with at its place, and
stops where the rest of the line begins. -/
theorem round_eq (hplace : place < code.length) (hcode : code.length < 9223372036854775808) :
    round code place =
      ((decodeOne code[place] (code.drop (place + 1))).mapError .flaw >>= fun r =>
        .ok (r.1, code.length - r.2.length)) := by
  have hvalue : value code place = .ok code[place] := by
    rw [value, List.getElem?_eq_getElem hplace]
  have hnext : plus place 1 = .ok (place + 1) := plus_eq (by omega)
  unfold round decodeOne
  rw [hvalue]
  simp only [bind, Except.bind]
  cases hop : Opcode.ofValue? code[place] with
  | none => rfl
  | some op =>
    simp only [hnext, taken_eq]
    cases htaken : operandsTaken op (code.drop (place + 1)) with
    | error flaw => rfl
    | ok count =>
      have hcount := count_le htaken
      have hstop : plus (place + 1) count = .ok (place + 1 + count) := plus_eq (by omega)
      simp only [Result.mapError_ok, hstop, List.length_take, List.length_drop]
      by_cases hmissing : code.length < place + 1 + count
      · rw [if_pos hmissing, if_pos (by omega), Result.mapError_error]
      · have hoperands : between code (place + 1) (place + 1 + count) =
            .ok ((code.drop (place + 1)).take count) := by
          rw [between, if_pos ⟨by omega, by omega⟩, List.drop_take, Nat.add_sub_cancel_left]
        have hleft : code.length - (code.length - (place + 1) - count) = place + 1 + count := by
          omega
        rw [if_neg hmissing, if_neg (by omega), hoperands]
        simp only [Result.mapError_ok, List.length_drop, hleft]

/-- **All rounds**: the cursor finds what the decoder finds in the rest of the line.  In particular
no sum is too large, and no place is outside the line. -/
theorem scan_eq (hcode : code.length < 9223372036854775808) :
    scan code place = (decode (code.drop place)).mapError .flaw := by
  -- by how much of the line is left
  induction hn : code.length - place using Nat.strongRecOn generalizing place with
  | ind n ih =>
    by_cases hplace : place < code.length
    · have hdrop : code.drop place = code[place] :: code.drop (place + 1) :=
        List.drop_eq_getElem_cons hplace
      rw [scan_of_lt hplace, round_eq hplace hcode, hdrop, decode_cons]
      cases hone : decodeOne code[place] (code.drop (place + 1)) with
      | error flaw => rfl
      | ok r =>
        obtain ⟨i, after⟩ := r
        obtain ⟨-, hvalues⟩ := decodeOne_eq_ok.mp hone
        have hsuffix : after <:+ code := by
          refine List.IsSuffix.trans ⟨i.values, ?_⟩ (List.drop_suffix place code)
          rw [hvalues, hdrop]
        have hrest := List.suffix_iff_eq_drop.mp hsuffix
        have hshorter : after.length < code.length - place := by
          have := decodeOne_rest_length hone
          rw [List.length_drop] at this
          omega
        have hmore := ih (code.length - (code.length - after.length)) (by omega) rfl
        rw [← hrest] at hmore
        simp only [Result.mapError_ok, bind, Except.bind, hmore]
        cases decode after with
        | error flaw => rfl
        | ok more => rfl
    · rw [scan_of_le (Nat.not_lt.mp hplace), List.drop_of_length_le (Nat.not_lt.mp hplace), decode]
      rfl

end Cursor

theorem decodeLine_eq (address : Nat) (line : List Int64) :
    decodeLine address line = (decode line).mapError (.malformedLine address) := by
  unfold decodeLine
  cases decode line with
  | ok is => rfl
  | error flaw => rfl

theorem decodeLine_eq_ok {address : Nat} {line : List Int64} {is : List Instruction} :
    decodeLine address line = .ok is ↔ Parses line is := by
  rw [← decode_eq_ok, decodeLine_eq]
  cases decode line with
  | ok js => simp
  | error flaw => simp

/-- **The decoder accepts exactly the grammar, and loses nothing.**  The numbers of the opcodes are
those from 0 to 102.  Instructions are found exactly if they are of the grammar and make up the
line, and there are no others like that.  If there are none at all, the line is malformed, and its
address is reported.  A cursor that moves over the line with sums that have to fit a word finds the
same: whatever the lengths of string constants are, no sum is too large and no place is outside the
line, which itself has to be one whose places are words. -/
theorem decodeLine_exact (address : Nat) (line : List Int64) :
    (∀ value : Int64,
      (∃ op : Opcode, op.value = value) ↔ 0 ≤ value.toInt ∧ value.toInt ≤ 102) ∧
    (∀ is, decodeLine address line = .ok is ↔ Parses line is) ∧
    (∀ is js, Parses line is → Parses line js → is = js) ∧
    ((¬ ∃ is, Parses line is) →
      ∃ flaw, decodeLine address line = .error (.malformedLine address flaw)) ∧
    (line.length < UInt64.size / 2 →
      (∀ is, Cursor.scan line 0 = .ok is ↔ Parses line is) ∧
      ∀ slip, Cursor.scan line 0 = .error slip → ∃ flaw, slip = .flaw flaw ∧
        decodeLine address line = .error (.malformedLine address flaw)) := by
  refine ⟨fun _ => Opcode.exists_value_iff, fun _ => decodeLine_eq_ok,
    fun _ _ => Parses.unique, ?_, ?_⟩
  · intro hnone
    rw [decodeLine_eq]
    cases hdecode : decode line with
    | ok is => exact absurd ⟨is, decode_eq_ok.mp hdecode⟩ hnone
    | error flaw => exact ⟨flaw, rfl⟩
  · intro hline
    have hscan : Cursor.scan line 0 = (decode line).mapError .flaw := Cursor.scan_eq hline
    simp only [hscan, decodeLine_eq, ← decode_eq_ok]
    cases decode line with
    | ok is => simp
    | error flaw => simp

/-- Says hi; the first character has the number of an opcode. -/
def greeting : List Int64 := [Opcode.lstr.value, 2, 15, 105, Opcode.prnt.value]

/-- A string constant that says to have as many characters as it can. -/
def boundless : List Int64 := [Opcode.lstr.value, Int64.maxValue, 7]

theorem decodeLine_exact_lengths :
    decodeLine 3 greeting = .ok [⟨.lstr, [2, 15, 105]⟩, ⟨.prnt, []⟩] ∧
    (∀ is, Parses greeting is → is = [⟨.lstr, [2, 15, 105]⟩, ⟨.prnt, []⟩]) ∧
    boundless.length < UInt64.size / 2 ∧ (¬ ∃ is, Parses boundless is) ∧
    (∃ flaw, decodeLine 4 boundless = .error (.malformedLine 4 flaw)) ∧
    Cursor.scan boundless 0 = .error (.flaw (.missingOperands .lstr)) ∧
    decodeLine 4 boundless = .error (.malformedLine 4 (.missingOperands .lstr)) := by
  have hgreeting : Parses greeting [⟨.lstr, [2, 15, 105]⟩, ⟨.prnt, []⟩] := by
    refine ⟨?_, rfl⟩
    intro i hi
    rcases List.mem_cons.mp hi with rfl | hi
    · exact .string (by decide)
    · obtain rfl := List.mem_singleton.mp hi
      exact .plain (by decide) rfl
  have hone : decodeOne Opcode.lstr.value [Int64.maxValue, 7] = .error (.missingOperands .lstr) :=
    rfl
  have hdecode : decode boundless = .error (.missingOperands .lstr) := by
    rw [boundless, decode_cons, hone]
    rfl
  have hnone : ¬ ∃ is, Parses boundless is := by
    rintro ⟨is, his⟩
    rw [← decode_eq_ok, hdecode] at his
    cases his
  have hline : boundless.length < UInt64.size / 2 := by decide
  obtain ⟨-, haccepts, hunique, -, -⟩ := decodeLine_exact 3 greeting
  obtain ⟨-, -, -, hmalformed, hcursor⟩ := decodeLine_exact 4 boundless
  have hscan : Cursor.scan boundless 0 = .error (.flaw (.missingOperands .lstr)) := by
    rw [Cursor.scan_eq hline, List.drop_zero, hdecode]
    rfl
  obtain ⟨flaw, hflaw, hreported⟩ := (hcursor hline).2 _ hscan
  cases hflaw
  exact ⟨(haccepts _).mpr hgreeting, fun is his => hunique _ _ his hgreeting, hline, hnone,
    hmalformed hnone, hscan, hreported⟩

end TurtleCode
