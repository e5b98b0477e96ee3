import TurtleCode.Proofs.Nesting

/-!
# The places of routines

An assembly shares its lines out among the routines: the lines that run first, a jump, the
subroutines by ascending index and without a gap between them, the main program, and a halt.

* `Placements.Tile`: places that follow one another from one line to another.
* `Setting.Fills`: a subroutine has its prologue, its body and its epilogue on the lines of its
  place.
* `Setting.InTurn.fills`, `Setting.InTurn.tile`: both hold of subroutines in turn.
* `Setting.Arranged`: the lines of a whole assembly, and `routines_arranged`: every assembly is so.
-/

namespace TurtleCode

/-- Places one after another from line `lo` up to, not including, line `hi`: each one has a line at
least, and the next one starts where it stops. -/
inductive Placements.Tile : Nat → Nat → Placements → Prop
  | nil (lo : Nat) : Tile lo lo []
  | cons {pl : Placement} {rest : Placements} {hi : Nat} : pl.start < pl.stop →
      Tile pl.stop hi rest → Tile pl.start hi (pl :: rest)

namespace Setting

/-- The lines of a place are those of a subroutine: its prologue first, its epilogue last, and its
statements between them. -/
structure Fills (s : Setting) (lines : List Line) (sub : Subroutine) (pl : Placement) : Prop where
  index : pl.index = sub.index
  room : pl.start + 1 < pl.stop
  inside : pl.stop ≤ lines.length
  first : ∃ entry, s.prologue sub = .ok entry ∧ lines[pl.start]? = some entry
  last : ∃ exit, s.epilogue sub = .ok exit ∧ lines[pl.stop - 1]? = some exit
  between : s.statements (.subroutine sub) (pl.start + 1) sub.statements =
    .ok (lines.extract (pl.start + 1) (pl.stop - 1))

variable {s : Setting}

theorem subroutineLines_fills {sub : Subroutine} {code : List Line} {before after : List Line}
    (h : s.subroutineLines sub before.length = .ok code) :
    s.Fills (before ++ code ++ after) sub
      ⟨sub.index, before.length, before.length + code.length⟩ := by
  obtain ⟨entry, body, exit, hentry, hbody, hexit, rfl⟩ := subroutineLines_ok h
  have hlength : (entry :: body ++ [exit]).length = body.length + 2 := by simp
  refine ⟨rfl, ?_, ?_, ⟨entry, hentry, ?_⟩, ⟨exit, hexit, ?_⟩, ?_⟩
  · show before.length + 1 < before.length + _
    omega
  · show before.length + _ ≤ _
    simp only [List.length_append]
    omega
  · simp
  · show (before ++ (entry :: body ++ [exit]) ++ after)[before.length + _ - 1]? = _
    have hsplit : before ++ (entry :: body ++ [exit]) ++ after =
        (before ++ entry :: body) ++ exit :: after := by simp
    have hat : before.length + (entry :: body ++ [exit]).length - 1 =
        (before ++ entry :: body).length := by simp
    rw [hsplit, hat, List.getElem?_append_right (Nat.le_refl _), Nat.sub_self]
    rfl
  · show s.statements (.subroutine sub) (before.length + 1) sub.statements = .ok
      ((before ++ (entry :: body ++ [exit]) ++ after).extract (before.length + 1)
        (before.length + (entry :: body ++ [exit]).length - 1))
    have hsplit : before ++ (entry :: body ++ [exit]) ++ after =
        (before ++ [entry]) ++ (body ++ exit :: after) := by simp
    have hstart : before.length + 1 = (before ++ [entry]).length := by simp
    have hcount :
        before.length + (entry :: body ++ [exit]).length - 1 - (before ++ [entry]).length =
        body.length := by
      simp only [List.length_append, List.length_cons, List.length_nil]
      omega
    rw [hbody, hsplit, hstart, List.extract_eq_take_drop, List.drop_left, hcount, List.take_left]

namespace InTurn

variable {start : Nat} {subs : List Subroutine} {inner : List Line} {placed : List Placement}

theorem tile (h : s.InTurn start subs inner placed) :
    Placements.Tile start (start + inner.length) placed := by
  induction h with
  | nil start => exact .nil start
  | @cons start sub rest code lines placed hcode _ ih =>
    obtain ⟨entry, body, exit, _, _, _, rfl⟩ := subroutineLines_ok hcode
    rw [List.length_append, ← Nat.add_assoc]
    have hroom : start < start + (entry :: body ++ [exit]).length := by simp
    exact @Placements.Tile.cons ⟨sub.index, start, _⟩ placed _ hroom ih

theorem fills (h : s.InTurn start subs inner placed) {before : List Line}
    (hstart : start = before.length) (after : List Line) :
    List.Forall₂ (s.Fills (before ++ inner ++ after)) subs placed := by
  induction h generalizing before with
  | nil _ => exact .nil
  | @cons start sub rest code lines placed hcode _ ih =>
    subst hstart
    refine .cons ?_ ?_
    · rw [← List.append_assoc, List.append_assoc (before ++ code)]
      exact subroutineLines_fills hcode
    · rw [← List.append_assoc]
      exact ih List.length_append.symm

end InTurn

/-- The lines of an assembly: those that run first, up to line `first`; a jump to line `main` and
the subroutines, if there are any; from line `main` on the main program; and a halt. -/
structure Arranged (s : Setting) (a : Assembly) (subs : List Subroutine) (first main : Nat) :
    Prop where
  startup : s.startup = .ok (a.lines.take first)
  places : List.Forall₂ (s.Fills a.lines) subs a.placements
  block : subs = [] ∧ main = first ∨
    subs ≠ [] ∧ a.lines[first]? = some (jumpTo main) ∧ a.placements.Tile (first + 1) main
  inside : main < a.lines.length
  program : s.statements (.program s.map.program) main s.map.program.statements =
    .ok (a.lines.extract main (a.lines.length - 1))
  halt : a.lines.getLast? = some (instr .halt [])

theorem Emits.arranged {a : Assembly} {subs : List Subroutine} (h : s.Emits a subs) :
    ∃ first main, s.Arranged a subs first main := by
  obtain ⟨setup, inner, main, hsetup, hturn, hmain, hlines⟩ := h
  generalize hblock :
      (if subs = [] then [] else jumpTo (setup.length + 1 + inner.length) :: inner) = block
    at hmain hlines
  have hall : a.lines = (setup ++ block) ++ (main ++ [instr .halt []]) := by
    rw [hlines, List.append_assoc]
  have hrest : a.lines.length - 1 - (setup ++ block).length = main.length := by
    have hlength : (main ++ [instr .halt []]).length = main.length + 1 := List.length_append
    rw [hall, List.length_append, hlength]
    omega
  have hshared : List.Forall₂ (s.Fills a.lines) subs a.placements ∧
      (subs = [] ∧ (setup ++ block).length = setup.length ∨
        subs ≠ [] ∧ a.lines[setup.length]? = some (jumpTo (setup ++ block).length) ∧
          a.placements.Tile (setup.length + 1) (setup ++ block).length) := by
    by_cases hnone : subs = []
    · rw [if_pos hnone] at hblock
      subst hblock hnone
      obtain ⟨-, hplaced⟩ : inner = [] ∧ a.placements = [] := by
        generalize a.placements = placed at hturn
        cases hturn
        exact ⟨rfl, rfl⟩
      rw [hplaced]
      exact ⟨.nil, .inl ⟨rfl, by rw [List.append_nil]⟩⟩
    · rw [if_neg hnone] at hblock
      have hend : (setup ++ block).length = setup.length + 1 + inner.length := by
        rw [← hblock, List.length_append, List.length_cons]
        omega
      have hsplit : a.lines = (setup ++ [jumpTo (setup ++ block).length]) ++ inner ++
          (main ++ [instr .halt []]) := by
        rw [hall, hend, ← hblock]
        simp
      have hstart : setup.length + 1 = (setup ++ [jumpTo (setup ++ block).length]).length := by simp
      refine ⟨?_, .inr ⟨hnone, ?_, ?_⟩⟩
      · rw [hsplit]
        exact hturn.fills hstart _
      · rw [hsplit]
        simp
      · rw [hend]
        exact hturn.tile
  obtain ⟨hplaces, hjump⟩ := hshared
  refine ⟨setup.length, (setup ++ block).length, ?_, hplaces, hjump, ?_, ?_, ?_⟩
  · rw [hsetup, hall, List.append_assoc, List.take_left]
  · rw [hlines, List.append_assoc, List.length_append]
    simp
  · rw [hmain, List.extract_eq_take_drop, hrest, hall, List.drop_left, List.take_left]
  · rw [hlines, List.getLast?_concat]

end Setting

/-- **Routines are placed exactly.**  Let no two subroutines of a program share an index.  Then its
assembly has a place for each subroutine of the tree, at any depth.  By ascending index the places
lie one after another from the line after the jump up to the main program, and each one holds the
prologue, the body and the epilogue of its subroutine.  The jump goes to the main program; it is
there only if there are subroutines.  A halt comes last. -/
theorem routines_arranged {p : Program} {options : Options} {a : Assembly}
    (hd : ((Subroutine.flattenAll p.subroutines).map (·.index)).Nodup)
    (ha : (Setting.of p options).assemble = .ok a) :
    ∃ (subs : List Subroutine) (first main : Nat), subs.Perm (Subroutine.flattenAll p.subroutines) ∧
      subs.Pairwise (fun x y => x.index < y.index) ∧
      (Setting.of p options).Arranged a subs first main := by
  have hascending := Program.allSubroutines_ascending hd
  obtain ⟨first, main, harranged⟩ := (Setting.emits_of_assemble ha hascending).arranged
  exact ⟨p.allSubroutines, first, main, p.allSubroutines_perm, hascending, harranged⟩

theorem routines_arranged_chain :
    ((Subroutine.flattenAll nestedChain.subroutines).map (·.index)).Nodup ∧
      ∃ a, (Setting.of nestedChain {}).assemble = .ok a ∧
        a.placements = [⟨1, 2, 6⟩, ⟨2, 6, 9⟩, ⟨3, 9, 12⟩] ∧
        ∃ (subs : List Subroutine) (first main : Nat),
          subs.Perm (Subroutine.flattenAll nestedChain.subroutines) ∧
          subs.Pairwise (fun x y => x.index < y.index) ∧
          (Setting.of nestedChain {}).Arranged a subs first main := by
  have hd : ((Subroutine.flattenAll nestedChain.subroutines).map (·.index)).Nodup := by decide
  have hplaces : (Setting.of nestedChain {}).assemble.toOption.map (·.placements) =
      some [⟨1, 2, 6⟩, ⟨2, 6, 9⟩, ⟨3, 9, 12⟩] := by
    rw [Setting.of, nestedChain_map]
    decide +kernel
  obtain ⟨a, ha, hplaced⟩ := Option.map_eq_some_iff.mp hplaces
  have ha := Result.of_toOption ha
  exact ⟨hd, a, ha, hplaced, routines_arranged hd ha⟩

end TurtleCode
