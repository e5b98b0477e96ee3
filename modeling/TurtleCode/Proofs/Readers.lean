import Mathlib.Data.List.Forall2
import TurtleCode.Json.Reader
import TurtleCode.Proofs.Drafts
import TurtleCode.Tree.Writer

/-!
# Readers of written values

When a reader gets back what was written, for the readers that trees are put together from: plain
values, lists, records and choices.  A container can be read if a level is left for it.

* `Reads read j a`: the reader makes `a` of the text of `j`.
* `Fields.Takes fields members a`: the members of an object give every field of a group once.
* `Json.depth` counts how deep arrays and objects are nested in a value.
-/

namespace TurtleCode.Json

/-- A reader that makes `a` of the draft of `j`. -/
def Reads {α : Type} (read : Read α) (j : Json) (a : α) : Prop := read j.draft = .ok a

mutual

def depth : Json → Nat
  | .array items => depthItems items + 1
  | .object members => depthMembers members + 1
  | _ => 0

def depthItems : List Json → Nat
  | [] => 0
  | item :: rest => max item.depth (depthItems rest)

def depthMembers : List (String × Json) → Nat
  | [] => 0
  | (_, value) :: rest => max value.depth (depthMembers rest)

end

theorem depth_le_depthItems {j : Json} {items : List Json} (hj : j ∈ items) :
    j.depth ≤ depthItems items := by
  induction items with
  | nil => cases hj
  | cons item items ih =>
    rw [depthItems]
    rcases List.mem_cons.mp hj with rfl | hj
    · exact Nat.le_max_left _ _
    · exact Nat.le_trans (ih hj) (Nat.le_max_right _ _)

variable {α β σ τ : Type} {read : Read α} {levels : Nat}

theorem Reads.map {j : Json} {a : α} (h : Reads read j a) (f : α → β) :
    Reads (fun d => do return f (← read d)) j (f a) := by
  simp only [Reads] at h ⊢
  rw [h]
  rfl

/-! ## Plain values -/

theorem reads_bool (b : Bool) : Reads readBool (.bool b) b := rfl

theorem reads_integer {low high n : Int} {expected : String} (hlow : low ≤ n) (hhigh : n ≤ high)
    (hleast : -(UInt64.size / 2 : Nat) ≤ n) (hmost : n < UInt64.size) :
    Reads (readInteger low high expected) (.int n) n := by
  simp only [Reads, draft, readInteger, meaning_writtenNumber hleast hmost, sound]
  exact if_pos ⟨hlow, hhigh⟩

theorem reads_int64 (n : Int64) : Reads readInt64 (int64 n) n := by
  have hlow := Int64.minValue_le_toInt n
  have hhigh := Int64.toInt_le n
  have h : Reads (readInteger Int64.minValue.toInt Int64.maxValue.toInt "i64") (.int n.toInt)
      n.toInt :=
    reads_integer hlow hhigh hlow (Int.lt_of_le_of_lt hhigh (by decide))
  have hword := h.map Int64.ofInt
  rwa [Int64.ofInt_toInt] at hword

theorem reads_uint64 (n : UInt64) : Reads readUInt64 (uint64 n) n := by
  have hlt : (n.toNat : Int) < UInt64.size := by exact_mod_cast n.toNat_lt_size
  have h : Reads (readInteger 0 (UInt64.size - 1) "usize") (.int n.toNat) n.toNat :=
    reads_integer (by omega) (by omega) (by omega) hlt
  have hword := h.map fun k => k.toNat.toUInt64
  rwa [Int.toNat_natCast, Nat.toUInt64_eq, UInt64.ofNat_toNat] at hword

theorem reads_text (s : String) : Reads readText (.string s) s := by
  simp only [Reads, draft, readText, decodePieces_stringPieces, sound]
  exact congrArg Except.ok String.ofList_toList

theorem reads_char (c : Char) : Reads readChar (.string (String.singleton c)) c := by
  simp only [Reads, draft, readChar, decodePieces_stringPieces, sound, String.toList_singleton]
  rfl

/-- A value that may be absent, where no value is written like an absent one. -/
theorem reads_option {write : α → Json} (hnull : ∀ a, write a ≠ .null) {value : Option α}
    (h : ∀ a, value = some a → Reads read (write a) a) :
    Reads (readOption read) (option write value) value := by
  have hsome : ∀ j : Json, j ≠ .null →
      readOption read j.draft = (do return some (← read j.draft)) := by
    intro j hj
    cases j with
    | null => exact absurd rfl hj
    | _ => rfl
  cases value with
  | none => rfl
  | some a =>
    rw [Reads, option, hsome _ (hnull a)]
    exact (h a rfl).map some

/-! ## Lists -/

theorem readItems_draftItems {items : List Json} {as : List α}
    (h : List.Forall₂ (Reads read) items as) :
    readItems read .closed (draftItems items) = .ok as := by
  induction h with
  | nil => rfl
  | cons hfirst _ ih =>
    rw [draftItems, readItems, hfirst, ih]
    rfl

theorem reads_array (hlevels : 0 < levels) {items : List Json} {as : List α}
    (h : List.Forall₂ (Reads read) items as) :
    Reads (readList levels read) (.array items) as := by
  rw [Reads, draft, readList, if_neg (by omega)]
  exact readItems_draftItems h

/-- A list, whose items may be as deep as levels are left after its own. -/
theorem reads_list {write : α → Json} {items : List α} (hlevels : (list write items).depth ≤ levels)
    (h : ∀ a ∈ items, (write a).depth + 1 ≤ levels → Reads read (write a) a) :
    Reads (readList levels read) (list write items) items := by
  rw [list, depth] at hlevels
  refine reads_array (by omega) (List.forall₂_map_left_iff.mpr (List.forall₂_same.mpr ?_))
  intro a ha
  have hdepth := depth_le_depthItems (List.mem_map_of_mem (f := write) ha)
  exact h a ha (by omega)

/-! ## Records -/

namespace Fields

/-- Members of an object that are all fields of a group take it from one state to another. -/
inductive Puts (fields : Fields σ α) : σ → List (String × Json) → σ → Prop
  | nil {state : σ} : Puts fields state [] state
  | cons {state next last : σ} {key : String} {value : Json} {rest : List (String × Json)} :
      fields.put key state value.draft = some (.ok next) → Puts fields next rest last →
        Puts fields state ((key, value) :: rest) last

theorem Puts.putAll {fields : Fields σ α} {first last : σ} {members : List (String × Json)}
    (h : Puts fields first members last) :
    fields.putAll .closed first (draftMembers members) = .ok last := by
  induction h with
  | nil => rfl
  | cons hput _ ih =>
    rw [draftMembers, Fields.putAll, decodePieces_stringPieces]
    simp only [sound, bind, Except.bind, String.ofList_toList, hput]
    exact ih

def Takes (fields : Fields σ α) (members : List (String × Json)) (a : α) : Prop :=
  ∃ state, Puts fields fields.empty members state ∧ fields.finish state = .ok a

theorem Takes.one {j : Json} {a : α} {name : String} {absent short : Option α}
    (h : Reads read j a) : (Fields.one name read absent short).Takes [(name, j)] a := by
  refine ⟨some a, .cons ?_ .nil, rfl⟩
  simp only [Fields.one, if_pos]
  rw [h]
  rfl

/-- Members whose keys are not the name of a field leave it alone. -/
theorem Puts.both_right {second : Fields τ β} {name : String} {absent short : Option α}
    {state : Option α} {first last : τ} {members : List (String × Json)}
    (hname : name ∉ members.map (·.1)) (h : Puts second first members last) :
    Puts ((Fields.one name read absent short).both second) (state, first) members
      (state, last) := by
  induction h with
  | nil => exact .nil
  | cons hput _ ih =>
    rw [List.map_cons, List.mem_cons, not_or] at hname
    refine .cons ?_ (ih hname.2)
    simp only [Fields.both, Fields.one, if_neg (Ne.symm hname.1), hput]
    rfl

theorem Takes.cons {second : Fields τ β} {j : Json} {a : α} {b : β} {name : String}
    {members : List (String × Json)} {absent short : Option α} (h : Reads read j a)
    (hmore : second.Takes members b) (hname : name ∉ members.map (·.1) := by simp) :
    ((Fields.one name read absent short).both second).Takes ((name, j) :: members) (a, b) := by
  obtain ⟨last, hputs, hfinish⟩ := hmore
  refine ⟨(some a, last), .cons ?_ (hputs.both_right hname), ?_⟩
  · simp only [Fields.both, Fields.one, if_pos]
    rw [h]
    rfl
  · simp only [Fields.both, hfinish]
    rfl

theorem Takes.reads {fields : Fields σ α} {members : List (String × Json)} {a : α}
    (h : fields.Takes members a) (hlevels : 0 < levels) {title : String} {make : α → β} :
    Reads (fields.read levels title make) (.object members) (make a) := by
  obtain ⟨state, hputs, hfinish⟩ := h
  rw [Reads, draft, Fields.read, if_neg (by omega), hputs.putAll]
  change (do return make (← fields.finish state)) = _
  rw [hfinish]
  rfl

end Fields

/-! ## Choices -/

theorem reads_variant (hlevels : 0 < levels) {variants : List (String × Variant α)} {name : String}
    {v : Variant α} {body : Json} {a : α} (hv : variants.lookup name = some v)
    (hbody : Reads v.readBody body a) :
    Reads (readChoice levels variants) (variant name body) a := by
  simp only [Reads, variant, draft, draftMembers, readChoice, if_neg (show levels ≠ 0 by omega),
    decodePieces_stringPieces, sound]
  change (do
    let v ← findVariant variants (String.ofList name.toList)
    let a ← v.readBody body.draft
    checkChoiceEnd [] .closed
    return a) = _
  rw [String.ofList_toList, findVariant, hv]
  change (do
    let a ← v.readBody body.draft
    checkChoiceEnd [] .closed
    return a) = _
  rw [hbody]
  rfl

theorem reads_holding (hlevels : 0 < levels) {variants : List (String × Variant β)} {name : String}
    {body : Json} {a : α} {f : α → β}
    (hv : variants.lookup name = some (.holding fun d => do return f (← read d)))
    (hbody : Reads read body a) : Reads (readChoice levels variants) (variant name body) (f a) :=
  reads_variant hlevels hv (hbody.map f)

theorem reads_plain {variants : List (String × Variant α)} {name : String} {a : α}
    (hv : variants.lookup name = some (.plain a)) :
    Reads (readChoice levels variants) (.string name) a := by
  simp only [Reads, draft, readChoice, decodePieces_stringPieces, sound]
  change (do
    let v ← findVariant variants (String.ofList name.toList)
    v.named) = _
  rw [String.ofList_toList, findVariant, hv]
  rfl

theorem reads_named {values : List α} {name : α → String} (hnames : (values.map name).Nodup)
    {a : α} (ha : a ∈ values) : Reads (readNamed levels values name) (.string (name a)) a := by
  refine reads_plain ?_
  induction values with
  | nil => cases ha
  | cons first values ih =>
    rw [List.map_cons, List.nodup_cons] at hnames
    rw [List.map_cons, List.lookup_cons]
    rcases List.mem_cons.mp ha with rfl | ha
    · simp
    · have hne : name a ≠ name first := by
        intro heq
        exact hnames.1 (heq ▸ List.mem_map_of_mem ha)
      rw [beq_eq_false_iff_ne.mpr hne]
      exact ih hnames.2 ha

end TurtleCode.Json
