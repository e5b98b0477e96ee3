import Mathlib.Data.List.Nodup
import TurtleCode.Proofs.Emission
import TurtleCode.Proofs.Sites

/-!
# The layout of an assembly

What stands on each line of an assembled program, said by the statement, subroutine or setup that
the line comes from, and where its jumps can go.

* `Setting.LineOf lo hi`: a line of statements, whose jumps go to lines from `lo` to `hi`.
  `Setting.statements_lines`: every line of statements is one.
* `Setting.LineIn`: a line of a subroutine: its entry, a line of its body, or its exit.
* `Setting.Part`: a line of the whole program.
* `Setting.Layout`: the subroutines lie apart from one another, and every line is a `Part`.
  `Setting.assemble_layout`: an assembly has such a layout.
-/

namespace TurtleCode

/-! ## Lines of statements -/

structure Target (lo hi target : Nat) : Prop where
  le : lo ≤ target
  ge : target ≤ hi
  lt_size : target < UInt64.size

theorem Target.mono {lo hi lo' hi' target : Nat} (h : Target lo hi target) (hlo : lo' ≤ lo)
    (hhi : hi ≤ hi') : Target lo' hi' target :=
  ⟨Nat.le_trans hlo h.le, Nat.le_trans h.ge hhi, h.lt_size⟩

namespace Setting

/-- What stands on a line of statements of a routine.  The sites that the line comes from are in
`S`, and its jumps go to lines from `lo` to `hi`. -/
inductive LineOf (s : Setting) (routine : Routine) (S : Site → Prop) (lo hi : Nat) : Line → Prop
  | assign {a : Assignment} {code : Line} : (∀ x ∈ a.sites, S x) → s.assignment a = .ok code →
      LineOf s routine S lo hi code
  | call {c : Call} {code : Line} : (∀ x ∈ c.sites, S x) → s.call c = .ok code →
      LineOf s routine S lo hi code
  | test {e : Expression} {code : Line} {target : Nat} : (∀ x ∈ e.sites, S x) →
      s.expression false e = .ok code → Target lo hi target →
      LineOf s routine S lo hi (code ++ unlessJumpTo target)
  | skip {target : Nat} : Target lo hi target → LineOf s routine S lo hi (jumpTo target)
  | change {a : Assignment} {code : Line} {target : Nat} : (∀ x ∈ a.sites, S x) →
      s.assignment a = .ok code → Target lo hi target →
      LineOf s routine S lo hi (code ++ jumpTo target)
  | ret {value : Option Expression} {line : Line} : (∀ e, value = some e → ∀ x ∈ e.sites, S x) →
      s.returnLine value routine = .ok line → LineOf s routine S lo hi line

variable {s : Setting} {routine : Routine} {S : Site → Prop}

theorem LineOf.mono {lo hi lo' hi' : Nat} {line : Line} (h : s.LineOf routine S lo hi line)
    (hlo : lo' ≤ lo) (hhi : hi ≤ hi') : s.LineOf routine S lo' hi' line := by
  cases h with
  | assign hx h => exact .assign hx h
  | call hx h => exact .call hx h
  | test hx h ht => exact .test hx h (ht.mono hlo hhi)
  | skip ht => exact .skip (ht.mono hlo hhi)
  | change hx h ht => exact .change hx h (ht.mono hlo hhi)
  | ret hx h => exact .ret hx h

mutual

theorem statement_lines : ∀ (st : Statement) {start : Nat} {lines : List Line},
    start < UInt64.size → (∀ x ∈ st.sites, S x) → s.statement routine start st = .ok lines →
    ∀ line ∈ lines, s.LineOf routine S start (start + lines.length) line
  | .assign a, start, lines, _, hx, h, line, hl => by
    obtain ⟨code, hc, rfl⟩ := statement_assign_ok h
    obtain rfl := List.mem_singleton.mp hl
    rw [Statement.sites] at hx
    exact .assign hx hc
  | .call c, start, lines, _, hx, h, line, hl => by
    obtain ⟨code, hc, rfl⟩ := statement_call_ok h
    obtain rfl := List.mem_singleton.mp hl
    rw [Statement.sites] at hx
    exact .call hx hc
  | .ret value, start, lines, _, hx, h, line, hl => by
    obtain ⟨code, hc, rfl⟩ := statement_ret_ok h
    obtain rfl := List.mem_singleton.mp hl
    refine .ret (fun e he x hm => hx x ?_) hc
    subst he
    rwa [Statement.sites]
  | .pass, start, lines, _, _, h, line, hl => by
    obtain rfl := statement_pass_ok h
    cases hl
  | .ifElse condition thenBody elseBody, start, lines, _, hx, h, line, hl => by
    rw [Statement.sites] at hx
    obtain ⟨test, thenLines, ht, hthen, h⟩ := statement_ifElse_ok h
    have hcond : ∀ x ∈ condition.sites, S x := fun x hm => hx x (by simp [hm])
    rcases h with ⟨_, hlt, rfl⟩ | ⟨elseLines, _, helse, hlt, rfl⟩
    · have block := statements_lines thenBody (fun x hm => hx x (by simp [hm])) hthen
      rw [List.length_cons]
      rcases List.mem_cons.mp hl with rfl | hl
      · exact .test hcond ht ⟨by omega, by omega, hlt⟩
      · exact (block line hl).mono (by omega) (by omega)
    · have block₁ := statements_lines thenBody (fun x hm => hx x (by simp [hm])) hthen
      have block₂ := statements_lines elseBody (fun x hm => hx x (by simp [hm])) helse
      rw [List.length_append, List.length_cons, List.length_cons]
      rcases List.mem_append.mp hl with hl | hl
      · rcases List.mem_cons.mp hl with rfl | hl
        · exact .test hcond ht ⟨by omega, by omega, by omega⟩
        · exact (block₁ line hl).mono (by omega) (by omega)
      · rcases List.mem_cons.mp hl with rfl | hl
        · exact .skip ⟨by omega, by omega, hlt⟩
        · exact (block₂ line hl).mono (by omega) (by omega)
  | .whileDo condition body, start, lines, hstart, hx, h, line, hl => by
    rw [Statement.sites] at hx
    obtain ⟨test, bodyLines, ht, hbody, hlt, rfl⟩ := statement_whileDo_ok h
    have block := statements_lines body (fun x hm => hx x (by simp [hm])) hbody
    rw [List.length_append, List.length_cons, List.length_singleton]
    rcases List.mem_append.mp hl with hl | hl
    · rcases List.mem_cons.mp hl with rfl | hl
      · exact .test (fun x hm => hx x (by simp [hm])) ht ⟨by omega, by omega, hlt⟩
      · exact (block line hl).mono (by omega) (by omega)
    · obtain rfl := List.mem_singleton.mp hl
      exact .skip ⟨Nat.le_refl start, by omega, hstart⟩
  | .repeatUntil condition body, start, lines, hstart, hx, h, line, hl => by
    rw [Statement.sites] at hx
    obtain ⟨test, bodyLines, ht, hbody, rfl⟩ := statement_repeatUntil_ok h
    have block := statements_lines body (fun x hm => hx x (by simp [hm])) hbody
    rw [List.length_append, List.length_singleton]
    rcases List.mem_append.mp hl with hl | hl
    · exact (block line hl).mono (Nat.le_refl start) (by omega)
    · obtain rfl := List.mem_singleton.mp hl
      exact .test (fun x hm => hx x (by simp [hm])) ht ⟨Nat.le_refl start, by omega, hstart⟩
  | .forLoop initial condition change body, start, lines, _, hx, h, line, hl => by
    rw [Statement.sites] at hx
    obtain ⟨first, test, step, bodyLines, hf, ht, hs, hbody, hlt, rfl⟩ := statement_forLoop_ok h
    have block := statements_lines body (fun x hm => hx x (by simp [hm])) hbody
    rw [List.length_cons, List.length_append, List.length_cons, List.length_singleton]
    rcases List.mem_cons.mp hl with rfl | hl
    · exact .assign (fun x hm => hx x (by simp [hm])) hf
    rcases List.mem_append.mp hl with hl | hl
    · rcases List.mem_cons.mp hl with rfl | hl
      · exact .test (fun x hm => hx x (by simp [hm])) ht ⟨by omega, by omega, hlt⟩
      · exact (block line hl).mono (by omega) (by omega)
    · obtain rfl := List.mem_singleton.mp hl
      exact .change (fun x hm => hx x (by simp [hm])) hs ⟨by omega, by omega, by omega⟩

/-- Every line of statements comes from one of them, and its jumps stay among the lines or go to the
line after the last one. -/
theorem statements_lines : ∀ (ss : List Statement) {start : Nat} {lines : List Line},
    (∀ x ∈ Statement.allSites ss, S x) → s.statements routine start ss = .ok lines →
    ∀ line ∈ lines, s.LineOf routine S start (start + lines.length) line
  | [], start, lines, _, h, line, hl => by
    obtain rfl := statements_nil_ok h
    cases hl
  | head :: rest, start, lines, hx, h, line, hl => by
    rw [Statement.allSites] at hx
    obtain ⟨here, more, hstart, hh, hm, rfl⟩ := statements_cons_ok h
    have first := statement_lines head hstart (fun x hm => hx x (List.mem_append_left _ hm)) hh
    have others := statements_lines rest (fun x hm => hx x (List.mem_append_right _ hm)) hm
    rw [List.length_append]
    rcases List.mem_append.mp hl with hl | hl
    · exact (first line hl).mono (Nat.le_refl start) (by omega)
    · exact (others line hl).mono (by omega) (by omega)

end

end Setting

/-! ## Lines of subroutines -/

def Placement.Has (pl : Placement) (k : Nat) : Prop := pl.start ≤ k ∧ k < pl.stop

instance (pl : Placement) (k : Nat) : Decidable (pl.Has k) := inferInstanceAs (Decidable (_ ∧ _))

namespace Setting

inductive LineIn (s : Setting) (S : Site → Prop) (sub : Subroutine) (pl : Placement) :
    Nat → Line → Prop
  | entry {line : Line} : s.prologue sub = .ok line → LineIn s S sub pl pl.start line
  | body {k : Nat} {line : Line} : pl.start < k → k + 1 < pl.stop →
      s.LineOf (.subroutine sub) S (pl.start + 1) (pl.stop - 1) line → LineIn s S sub pl k line
  | exit {k : Nat} {line : Line} : k + 1 = pl.stop → s.epilogue sub = .ok line →
      LineIn s S sub pl k line

variable {s : Setting} {S : Site → Prop}

theorem LineIn.has {sub : Subroutine} {pl : Placement} {k : Nat} {line : Line}
    (h : s.LineIn S sub pl k line) (hpl : pl.start + 1 < pl.stop) : pl.Has k := by
  cases h with
  | entry _ => exact ⟨Nat.le_refl _, by omega⟩
  | body h1 h2 _ => exact ⟨by omega, by omega⟩
  | exit h1 _ => exact ⟨by omega, by omega⟩

theorem subroutineLines_ok {sub : Subroutine} {start : Nat} {lines : List Line}
    (h : s.subroutineLines sub start = .ok lines) :
    ∃ entry body exit, s.prologue sub = .ok entry ∧
      s.statements (.subroutine sub) (start + 1) sub.statements = .ok body ∧
      s.epilogue sub = .ok exit ∧ lines = entry :: body ++ [exit] := by
  unfold subroutineLines at h
  simp only [Result.bind_eq_ok, Address.add_eq_ok, Result.pure_eq_ok] at h
  obtain ⟨entry, he, _, ⟨_, rfl⟩, body, hb, exit, hx, hl⟩ := h
  exact ⟨entry, body, exit, he, hb, hx, hl.symm⟩

theorem subroutineLines_lineIn {sub : Subroutine} {start : Nat} {lines : List Line}
    (hS : ∀ x ∈ Statement.allSites sub.statements, S x)
    (h : s.subroutineLines sub start = .ok lines) :
    2 ≤ lines.length ∧ ∀ k line, lines[k]? = some line →
      s.LineIn S sub ⟨sub.index, start, start + lines.length⟩ (start + k) line := by
  obtain ⟨entry, body, exit, he, hb, hx, rfl⟩ := subroutineLines_ok h
  have block := statements_lines sub.statements hS hb
  have hlen : (entry :: body ++ [exit]).length = body.length + 2 := by simp
  refine ⟨by omega, fun k line hk => ?_⟩
  rw [hlen]
  rcases k with _ | k
  · obtain rfl : entry = line := Option.some.inj hk
    exact .entry he
  rw [List.cons_append, List.getElem?_cons_succ] at hk
  rcases Nat.lt_or_ge k body.length with hlt | hge
  · rw [List.getElem?_append_left hlt] at hk
    refine .body (by show start < _; omega) (by show _ < start + _; omega) ?_
    refine (block line (List.mem_of_getElem? hk)).mono (Nat.le_refl _) ?_
    show _ ≤ start + (body.length + 2) - 1
    omega
  · rw [List.getElem?_append_right hge, List.getElem?_singleton] at hk
    split at hk
    · next hz =>
      obtain rfl : exit = line := Option.some.inj hk
      exact .exit (by show _ = start + _; omega) hx
    · cases hk

theorem place_ok : ∀ {subs : List Subroutine} {cursor : Nat} {lines : List Line}
    {placed : List Placement}, (∀ sub ∈ subs, ∀ x ∈ Statement.allSites sub.statements, S x) →
    s.place cursor subs = .ok (lines, placed) →
    placed.map (·.index) = subs.map (·.index) ∧
      (∀ pl ∈ placed, cursor ≤ pl.start ∧ pl.start + 1 < pl.stop ∧
        pl.stop ≤ cursor + lines.length ∧ pl.stop < UInt64.size) ∧
      placed.Pairwise (fun p q => p.stop ≤ q.start) ∧
      (subs ≠ [] → cursor + lines.length < UInt64.size) ∧
      ∀ k line, lines[k]? = some line → ∃ sub ∈ subs, ∃ pl ∈ placed, pl.index = sub.index ∧
        s.LineIn S sub pl (cursor + k) line
  | [], cursor, lines, placed, _, h => by
    cases h
    exact ⟨rfl, by simp, .nil, by simp, by simp⟩
  | sub :: rest, cursor, lines, placed, hS, h => by
    rw [place] at h
    simp only [Result.bind_eq_ok, Address.add_eq_ok, Result.pure_eq_ok] at h
    obtain ⟨code, hcode, _, ⟨hstop, rfl⟩, ⟨more, others⟩, hmore, he⟩ := h
    cases he
    obtain ⟨hlen, here⟩ := subroutineLines_lineIn (hS sub List.mem_cons_self) hcode
    obtain ⟨hindexes, hinside, hapart, hsize, hlines⟩ :=
      place_ok (fun t ht => hS t (List.mem_cons_of_mem _ ht)) hmore
    have hend : cursor + (code ++ more).length = cursor + code.length + more.length := by
      rw [List.length_append, Nat.add_assoc]
    refine ⟨by simp [hindexes], ?_, ?_, ?_, ?_⟩
    · intro pl hpl
      rw [hend]
      rcases List.mem_cons.mp hpl with rfl | hpl
      · exact ⟨Nat.le_refl _, by show cursor + 1 < cursor + _; omega,
          by show cursor + _ ≤ _; omega, hstop⟩
      · have := hinside pl hpl
        exact ⟨by omega, this.2.1, this.2.2.1, this.2.2.2⟩
    · exact .cons (fun q hq => (hinside q hq).1) hapart
    · intro _
      rw [hend]
      cases rest with
      | nil =>
        cases hmore
        exact hstop
      | cons t ts => exact hsize (by simp)
    · intro k line hk
      rcases Nat.lt_or_ge k code.length with hlt | hge
      · rw [List.getElem?_append_left hlt] at hk
        exact ⟨sub, List.mem_cons_self, _, List.mem_cons_self, rfl, here k line hk⟩
      · rw [List.getElem?_append_right hge] at hk
        obtain ⟨t, ht, pl, hpl, hi, hin⟩ := hlines _ line hk
        refine ⟨t, List.mem_cons_of_mem _ ht, pl, List.mem_cons_of_mem _ hpl, hi, ?_⟩
        rwa [show cursor + code.length + (k - code.length) = cursor + k by omega] at hin

end Setting

/-! ## Where subroutines are -/

namespace Placements

theorem mem_insert {new p : Placement} : ∀ {entries : Placements}, p ∈ insert new entries →
    p = new ∨ p ∈ entries
  | [], h => .inl (List.mem_singleton.mp h)
  | q :: rest, h => by
    rw [insert] at h
    split at h
    · exact List.mem_cons.mp h
    · split at h
      · exact .inr h
      · rcases List.mem_cons.mp h with rfl | h
        · exact .inr List.mem_cons_self
        · rcases mem_insert h with rfl | h
          · exact .inl rfl
          · exact .inr (List.mem_cons_of_mem _ h)

theorem mem_insert_of_mem {new p : Placement} : ∀ {entries : Placements}, p ∈ entries →
    p ∈ insert new entries
  | q :: rest, h => by
    rw [insert]
    split
    · exact List.mem_cons_of_mem _ h
    · split
      · exact h
      · rcases List.mem_cons.mp h with rfl | h
        · exact List.mem_cons_self
        · exact List.mem_cons_of_mem _ (mem_insert_of_mem h)

theorem exists_mem_insert (new : Placement) : ∀ (entries : Placements),
    ∃ p ∈ insert new entries, p.index = new.index
  | [] => ⟨new, List.mem_cons_self, rfl⟩
  | q :: rest => by
    rw [insert]
    split
    · exact ⟨new, List.mem_cons_self, rfl⟩
    · split
      · next he => exact ⟨q, List.mem_cons_self, he.symm⟩
      · obtain ⟨p, hp, he⟩ := exists_mem_insert new rest
        exact ⟨p, List.mem_cons_of_mem _ hp, he⟩

theorem mem_of_mem_ofList {p : Placement} {entries : List Placement} (h : p ∈ ofList entries) :
    p ∈ entries := by
  induction entries with
  | nil => exact h
  | cons q rest ih =>
    rcases mem_insert h with rfl | h
    · exact List.mem_cons_self
    · exact List.mem_cons_of_mem _ (ih h)

theorem exists_mem_ofList {p : Placement} {entries : List Placement} (h : p ∈ entries) :
    ∃ q ∈ ofList entries, q.index = p.index := by
  induction entries with
  | nil => cases h
  | cons q rest ih =>
    rcases List.mem_cons.mp h with rfl | h
    · exact exists_mem_insert p _
    · obtain ⟨r, hr, he⟩ := ih h
      exact ⟨r, mem_insert_of_mem hr, he⟩

/-- If no two entries share an index, all of them count. -/
theorem mem_ofList {p : Placement} {entries : List Placement}
    (hd : (entries.map (·.index)).Nodup) : p ∈ ofList entries ↔ p ∈ entries := by
  refine ⟨mem_of_mem_ofList, fun hp => ?_⟩
  obtain ⟨q, hq, he⟩ := exists_mem_ofList hp
  obtain rfl := List.inj_on_of_nodup_map hd (mem_of_mem_ofList hq) hp he
  exact hq

theorem start?_ofList {p : Placement} {entries : List Placement} (h : p ∈ entries) :
    ∃ q ∈ entries, q.index = p.index ∧ (ofList entries).start? p.index = some q.start := by
  obtain ⟨q, hq, he⟩ := exists_mem_ofList h
  have found : ((ofList entries).find? fun r => decide (r.index = p.index)).isSome :=
    List.find?_isSome.mpr ⟨q, hq, decide_eq_true he⟩
  obtain ⟨r, hr⟩ := Option.isSome_iff_exists.mp found
  refine ⟨r, mem_of_mem_ofList (List.mem_of_find?_eq_some hr), ?_, ?_⟩
  · simpa using List.find?_some hr
  · rw [start?, hr]
    rfl

/-- Looking for where a subroutine starts finds it, if no other one starts there. -/
theorem find?_start {placements : Placements} {pl : Placement} (hpl : pl ∈ placements)
    (h : ∀ q ∈ placements, q.start = pl.start → q = pl) :
    placements.find? (fun q => decide (q.start = pl.start)) = some pl := by
  have found : (placements.find? fun q => decide (q.start = pl.start)).isSome :=
    List.find?_isSome.mpr ⟨pl, hpl, decide_eq_true rfl⟩
  obtain ⟨q, hq⟩ := Option.isSome_iff_exists.mp found
  have hstart : q.start = pl.start := by simpa using List.find?_some hq
  rw [hq, h q (List.mem_of_find?_eq_some hq) hstart]

end Placements

theorem MemoryMap.subroutine_ok {m : MemoryMap} {index : UInt64} {sub : Subroutine}
    (h : m.subroutine index = .ok sub) : sub ∈ m.subroutines ∧ sub.index = index := by
  unfold subroutine at h
  split at h
  · next t ht =>
    cases h
    exact ⟨List.mem_of_find?_eq_some ht, by simpa using List.find?_some ht⟩
  · cases h

theorem MemoryMap.subroutine_index {m : MemoryMap} (hd : (m.subroutines.map (·.index)).Nodup)
    {sub : Subroutine} (h : sub ∈ m.subroutines) : m.subroutine sub.index = .ok sub := by
  have found : (m.subroutines.find? fun t => decide (t.index = sub.index)).isSome :=
    List.find?_isSome.mpr ⟨sub, h, decide_eq_true rfl⟩
  obtain ⟨t, ht⟩ := Option.isSome_iff_exists.mp found
  have hindex : t.index = sub.index := by simpa using List.find?_some ht
  rw [subroutine, ht, List.inj_on_of_nodup_map hd (List.mem_of_find?_eq_some ht) h hindex]

namespace Setting

variable {s : Setting} {S : Site → Prop}

/-! ## Lines of a program -/

def Free (placed : List Placement) (size k : Nat) : Prop := k < size ∧ ∀ pl ∈ placed, ¬ pl.Has k

/-- What stands on a line of a program of `size` lines. -/
inductive Part (s : Setting) (S : Site → Prop) (placed : List Placement) (size : Nat) :
    Nat → Line → Prop
  | startup {first : List Line} {k : Nat} {line : Line} : s.startup = .ok first → line ∈ first →
      Free placed size k → Free placed size (k + 1) → Part s S placed size k line
  | skip {k target : Nat} : target < UInt64.size → Free placed size k → Free placed size target →
      Part s S placed size k (jumpTo target)
  | main {lo hi k : Nat} {line : Line} : lo ≤ k → k < hi →
      (∀ j, lo ≤ j → j ≤ hi → Free placed size j) →
      s.LineOf (.program s.map.program) S lo hi line → Part s S placed size k line
  | halt {k : Nat} : Free placed size k → Part s S placed size k (instr .halt [])
  | sub {sub : Subroutine} {pl : Placement} {k : Nat} {line : Line} : sub ∈ s.map.subroutines →
      pl ∈ placed → pl.index = sub.index → s.LineIn S sub pl k line → Part s S placed size k line

/-- How an assembly is laid out, `placed` being where each subroutine is, in order. -/
structure Layout (s : Setting) (S : Site → Prop) (a : Assembly) (placed : List Placement) :
    Prop where
  placements : a.placements = Placements.ofList placed
  indexes : placed.map (·.index) = s.map.subroutines.map (·.index)
  apart : placed.Pairwise fun p q => p.stop ≤ q.start
  inside : ∀ pl ∈ placed, pl.start + 1 < pl.stop ∧ pl.stop < a.lines.length ∧ pl.stop < UInt64.size
  first : Free placed a.lines.length 0
  part : ∀ k line, a.lines[k]? = some line → s.Part S placed a.lines.length k line

theorem Layout.unique {a : Assembly} {placed : List Placement} (h : s.Layout S a placed)
    {p q : Placement} (hp : p ∈ placed) (hq : q ∈ placed) {k : Nat}
    (hpk : p.Has k) (hqk : q.Has k) : p = q := by
  rcases List.mem_iff_getElem.mp hp with ⟨i, hi, rfl⟩
  rcases List.mem_iff_getElem.mp hq with ⟨j, hj, rfl⟩
  have ordered := List.pairwise_iff_getElem.mp h.apart
  obtain ⟨h1, h2⟩ := hpk
  obtain ⟨h3, h4⟩ := hqk
  rcases Nat.lt_trichotomy i j with hij | rfl | hij
  · have := ordered i j hi hj hij
    omega
  · rfl
  · have := ordered j i hj hi hij
    omega

theorem Layout.eq_of_start {a : Assembly} {placed : List Placement} (h : s.Layout S a placed)
    {p q : Placement} (hp : p ∈ placed) (hq : q ∈ placed) (he : p.start = q.start) : p = q := by
  have hp' := h.inside p hp
  have hq' := h.inside q hq
  exact h.unique hp hq (k := p.start) ⟨Nat.le_refl _, by omega⟩ ⟨by omega, by omega⟩

theorem Layout.entry {a : Assembly} {placed : List Placement} (h : s.Layout S a placed)
    {pl : Placement} (hpl : pl ∈ placed) : ∃ sub ∈ s.map.subroutines, pl.index = sub.index ∧
      ∃ line, a.lines[pl.start]? = some line ∧ s.prologue sub = .ok line := by
  have hin := h.inside pl hpl
  have hhas : pl.Has pl.start := ⟨Nat.le_refl _, by omega⟩
  have hlt : pl.start < a.lines.length := by omega
  obtain ⟨line, hline⟩ : ∃ line, a.lines[pl.start]? = some line :=
    ⟨_, List.getElem?_eq_getElem hlt⟩
  cases h.part pl.start line hline with
  | startup _ _ hfree _ => exact absurd hhas (hfree.2 pl hpl)
  | skip _ hfree _ => exact absurd hhas (hfree.2 pl hpl)
  | main h1 h2 hfree _ => exact absurd hhas ((hfree pl.start h1 (by omega)).2 pl hpl)
  | halt hfree => exact absurd hhas (hfree.2 pl hpl)
  | @sub sub pl' _ _ hsub hpl' hindex hin' =>
    obtain rfl := h.unique hpl hpl' hhas (hin'.has (h.inside pl' hpl').1)
    refine ⟨sub, hsub, hindex, line, hline, ?_⟩
    generalize hk : pl.start = k at hin'
    cases hin' with
    | entry hentry => exact hentry
    | body h1 _ _ => omega
    | exit h1 _ => omega

/-- A call of a subroutine that is there goes to the start of one with its index. -/
theorem Layout.start? {a : Assembly} {placed : List Placement} (h : s.Layout S a placed)
    {index : UInt64} {sub : Subroutine} (hs : s.map.subroutine index = .ok sub) :
    ∃ pl ∈ placed, pl.index = index ∧ a.placements.start? index = some pl.start := by
  obtain ⟨hmem, rfl⟩ := MemoryMap.subroutine_ok hs
  have hi : sub.index ∈ placed.map (·.index) := h.indexes ▸ List.mem_map_of_mem hmem
  obtain ⟨p, hp, he⟩ := List.mem_map.mp hi
  obtain ⟨q, hq, hqi, hstart⟩ := Placements.start?_ofList hp
  rw [he] at hqi hstart
  exact ⟨q, hq, hqi, h.placements ▸ hstart⟩

/-- If no two subroutines share an index, the placements are where the subroutines are. -/
theorem Layout.mem_placements {a : Assembly} {placed : List Placement} (h : s.Layout S a placed)
    (hd : (s.map.subroutines.map (·.index)).Nodup) {pl : Placement} :
    pl ∈ a.placements ↔ pl ∈ placed := by
  rw [h.placements]
  rw [← h.indexes] at hd
  exact Placements.mem_ofList hd

/-- **The layout of an assembly.** -/
theorem assemble_layout {a : Assembly} (h : s.assemble = .ok a)
    (hmain : ∀ x ∈ Statement.allSites s.map.program.statements, S x)
    (hsub : ∀ sub ∈ s.map.subroutines, ∀ x ∈ Statement.allSites sub.statements, S x) :
    ∃ placed, s.Layout S a placed := by
  obtain ⟨first, block, placed, main, hfirst, hblock, hm, rfl⟩ := assemble_ok h
  have lines := statements_lines _ hmain hm
  have hpos : 0 < first.length := by
    obtain ⟨base, properties, cell, headers, _, _, rfl⟩ := startup_ok hfirst
    exact Nat.succ_pos _
  have hlen : (first ++ block ++ main ++ [instr .halt []]).length =
      first.length + block.length + main.length + 1 := by
    simp only [List.length_append, List.length_singleton]
  -- what is known of the subroutines, whether there are any or not
  have known : placed.map (·.index) = s.map.subroutines.map (·.index) ∧
      placed.Pairwise (fun p q => p.stop ≤ q.start) ∧
      (∀ pl ∈ placed, first.length < pl.start ∧ pl.start + 1 < pl.stop ∧
        pl.stop ≤ first.length + block.length ∧ pl.stop < UInt64.size) ∧
      ∀ k line, block[k]? = some line →
        (k = 0 ∧ line = jumpTo (first.length + block.length) ∧
          first.length + block.length < UInt64.size) ∨
        ∃ sub ∈ s.map.subroutines, ∃ pl ∈ placed, pl.index = sub.index ∧
          s.LineIn S sub pl (first.length + k) line := by
    rcases subroutineBlock_ok hblock with ⟨hnone, rfl, rfl⟩ | ⟨inner, hne, hplace, rfl⟩
    · rw [hnone]
      exact ⟨rfl, .nil, by simp, by simp⟩
    · obtain ⟨hindexes, hinside, hapart, hsize, hlines⟩ := place_ok hsub hplace
      have hend : first.length + (inner.length + 1) = first.length + 1 + inner.length := by omega
      refine ⟨hindexes, hapart, fun pl hpl => ?_, fun k line hk => ?_⟩
      · have := hinside pl hpl
        rw [List.length_cons]
        omega
      · rw [List.length_cons]
        rcases k with _ | k
        · obtain rfl := Option.some.inj hk
          exact .inl ⟨rfl, by rw [hend], by rw [hend]; exact hsize hne⟩
        · obtain ⟨t, ht, pl, hpl, hi, hin⟩ := hlines k line hk
          refine .inr ⟨t, ht, pl, hpl, hi, ?_⟩
          rwa [show first.length + (k + 1) = first.length + 1 + k by omega]
  obtain ⟨hindexes, hapart, hinside, hlines⟩ := known
  -- lines before and after the subroutines are free
  have free (k : Nat) (hk : k ≤ first.length + block.length + main.length)
      (h : k ≤ first.length ∨ first.length + block.length ≤ k) :
      Free placed (first ++ block ++ main ++ [instr .halt []]).length k := by
    refine ⟨by omega, fun pl hpl => ?_⟩
    have := hinside pl hpl
    unfold Placement.Has
    omega
  refine ⟨placed, rfl, hindexes, hapart, fun pl hpl => ?_, free 0 (by omega) (by omega), ?_⟩
  · have := hinside pl hpl
    show _ ∧ pl.stop < (first ++ block ++ main ++ [instr .halt []]).length ∧ _
    omega
  · intro k line hk
    dsimp only at hk ⊢
    rcases Nat.lt_or_ge k first.length with h1 | h1
    · rw [List.append_assoc, List.append_assoc, List.getElem?_append_left h1] at hk
      exact .startup hfirst (List.mem_of_getElem? hk) (free k (by omega) (by omega))
        (free (k + 1) (by omega) (by omega))
    rcases Nat.lt_or_ge k (first.length + block.length) with h2 | h2
    · rw [List.append_assoc, List.append_assoc, List.getElem?_append_right h1,
        List.getElem?_append_left (by omega)] at hk
      rcases hlines _ line hk with ⟨hz, rfl, hlt⟩ | ⟨sub, hs, pl, hpl, hi, hin⟩
      · exact .skip hlt (free k (by omega) (by omega)) (free _ (by omega) (by omega))
      · rw [show first.length + (k - first.length) = k by omega] at hin
        exact .sub hs hpl hi hin
    · have hbefore : (first ++ block).length = first.length + block.length := List.length_append
      rw [List.append_assoc, List.getElem?_append_right (by omega)] at hk
      rcases Nat.lt_or_ge k (first.length + block.length + main.length) with h3 | h3
      · rw [List.getElem?_append_left (by omega)] at hk
        refine .main (by omega) (by omega) (fun j hj1 hj2 => free j (by omega) (by omega))
          (lines line (List.mem_of_getElem? hk))
      · rw [List.getElem?_append_right (by omega), List.getElem?_singleton] at hk
        split at hk
        · cases hk
          exact .halt (free k (by omega) (by omega))
        · cases hk

end Setting

theorem Program.layout {p : Program} {options : Options} {a : Assembly}
    (h : (Setting.of p options).assemble = .ok a) :
    ∃ placed, (Setting.of p options).Layout (· ∈ p.sites) a placed :=
  Setting.assemble_layout h (fun _ hx => Program.sites_main hx)
    fun _ hsub _ hx => Program.sites_subroutine hsub hx

end TurtleCode
