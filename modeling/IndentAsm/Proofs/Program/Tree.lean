import IndentAsm.Assemble
import IndentAsm.Proofs.Parse.Recorded

/-!
# The printed program

The macros of a program are printed in the order of their lines. That is an order because no
two of them are on the same line: each has a heading of its own in the source. So it does not
matter in which order the table of macros has them. They are printed as they were defined, and
the subroutines behind them as they were declared.

**Results.**
* `DistinctLines.of_marks`: the lines of headings are all different.
* `sortedMacros_of_perm`: macros on increasing lines are sorted, whatever their order.
* `tree_of_parse`: a program that was read is printed in the order of its source, whatever the
  order of its table.
-/
namespace IndentAsm

namespace Program

/-- No macro is on the line of another or on that of a subroutine, and the lines of subroutines
increase. -/
structure DistinctLines (p : Program) : Prop where
  macros : (p.macros.values.map Macro.line).Nodup
  apart : ∀ m ∈ p.macros.values, ∀ s ∈ p.subroutines, m.line ≠ s.line
  subroutines : (p.subroutines.map Subroutine.line).Pairwise (· < ·)

/-- The list `macros` has the macros of a program in the order in which they are defined in the
source `tokens`, and the subroutines are declared there in the order in which they stand. -/
structure InOrder (tokens : List Token) (macros : List Macro) (p : Program) : Prop where
  all : macros.Perm p.macros.values
  defined : macros.map (fun m => (m.name, m.line)) = marks true (headings true tokens)
  declared : p.subroutines.map (fun s => (s.name, s.line)) = marks false (headings true tokens)

/-- The program `q` is `p` with its table of macros in another order. -/
structure Reordered (p q : Program) : Prop where
  subroutines : q.subroutines = p.subroutines
  macros : q.macros.entries.Perm p.macros.entries

end Program

/-- Macros, and then subroutines with their instructions, one on a line. -/
def treeOf (macros : List Macro) (subs : List Subroutine) : String :=
  "Program\n" ++ String.join (macros.map fun m => "  " ++ m.text ++ "\n") ++
    String.join (subs.map fun s =>
      "  " ++ s.text ++ "\n" ++ String.join (s.instructions.map fun i => "    " ++ i.text ++ "\n"))

namespace Program

variable {p q : Program}

theorem tree_eq (p : Program) : p.tree = treeOf p.sortedMacros p.subroutines := by
  have hsubs (subs : List Subroutine) :
      String.join ((subs.flatMap fun s => ("  " ++ s.text) :: s.instructions.map fun i =>
        "    " ++ i.text).map (· ++ "\n")) = String.join (subs.map fun s =>
      "  " ++ s.text ++ "\n" ++
        String.join (s.instructions.map fun i => "    " ++ i.text ++ "\n")) := by
    induction subs with
    | nil => rfl
    | cons s subs ih =>
      rw [List.flatMap_cons, List.map_append, String.join_append, ih, List.map_cons,
        String.join_cons, List.map_cons, String.join_cons, List.map_map]
      rfl
  rw [tree, treeLines, treeOf, List.map_cons, String.join_cons, List.map_append,
    String.join_append, hsubs, List.map_map, String.append_assoc]
  rfl

/-- What has the lines of some headings has increasing lines. -/
theorem increasing_of_marks {α : Type} {name : α → String} {line : α → Nat} {xs : List α}
    {isMacro : Bool} {hs : List Heading} (h : hs.Pairwise (·.name.line < ·.name.line))
    (hx : xs.map (fun x => (name x, line x)) = marks isMacro hs) :
    (xs.map line).Pairwise (· < ·) := by
  have hmarks := pairwise_marks h isMacro
  rw [← hx, List.pairwise_map] at hmarks
  exact List.pairwise_map.2 hmarks

theorem DistinctLines.of_marks {hs : List Heading}
    (h : hs.Pairwise (·.name.line < ·.name.line))
    (hm : p.macros.values.map (fun m => (m.name, m.line)) = marks true hs)
    (hsubs : p.subroutines.map (fun s => (s.name, s.line)) = marks false hs) :
    p.DistinctLines where
  macros := (increasing_of_marks h hm).imp Nat.ne_of_lt
  apart m hmem s hsub :=
    line_ne_of_marks h (m.name, m.line) (hm ▸ List.mem_map_of_mem hmem) (s.name, s.line)
      (hsubs ▸ List.mem_map_of_mem hsub)
  subroutines := increasing_of_marks h hsubs

/-- Macros on increasing lines are the sorted ones, whatever order a table has them in. -/
theorem sortedMacros_of_perm {macros : List Macro} (h : (macros.map Macro.line).Pairwise (· < ·))
    (hq : q.macros.values.Perm macros) : q.sortedMacros = macros := by
  have hperm : q.sortedMacros.Perm macros := (List.mergeSort_perm _ _).trans hq
  have hsorted : q.sortedMacros.Pairwise fun m n => decide (m.line ≤ n.line) = true := by
    refine List.pairwise_mergeSort (fun a b c hab hbc => ?_) (fun a b => ?_) _
    · rw [decide_eq_true_iff] at hab hbc ⊢
      exact Nat.le_trans hab hbc
    · rw [Bool.or_eq_true, decide_eq_true_iff, decide_eq_true_iff]
      exact Nat.le_total _ _
  have hlines : macros.Pairwise fun m n => decide (m.line ≤ n.line) = true :=
    (List.pairwise_map.1 h).imp fun hlt => decide_eq_true (Nat.le_of_lt hlt)
  -- two macros on the same line are the same, so the order is antisymmetric
  have hline : ∀ m ∈ macros, ∀ n ∈ macros, m.line = n.line → m = n := fun m hm n hn =>
    List.inj_on_of_nodup_map (h.imp Nat.ne_of_lt) hm hn
  refine hperm.eq_of_pairwise (fun m n hm hn hmn hnm => ?_) hsorted hlines
  rw [decide_eq_true_iff] at hmn hnm
  exact hline m (hperm.mem_iff.1 hm) n hn (Nat.le_antisymm hmn hnm)

end Program

/-- The lines of a program that was read are all different. So it is printed in one way in
whatever order its table has the macros: these come first, as they are defined in the source,
and then the subroutines, as they are declared, with their instructions. -/
theorem tree_of_parse {config : Config} {text : String} {p : Program}
    (h : (parse config text).result = .ok p) :
    p.DistinctLines ∧ ∃ tokens macros, scan text = .ok tokens ∧ p.InOrder tokens macros ∧
      ∀ q, p.Reordered q → q.tree = treeOf macros p.subroutines := by
  obtain ⟨tokens, hscan, hread⟩ := parse_eq_ok_iff.1 h
  obtain ⟨hmacros, hsubs⟩ := Parse.marks_of_result hscan hread
  have hpairs := pairwise_headings hscan
  refine ⟨.of_marks hpairs hmacros.symm hsubs.symm, tokens, p.macros.values, hscan,
    ⟨.refl _, hmacros.symm, hsubs.symm⟩, fun q hq => ?_⟩
  have hsorted : q.sortedMacros = p.macros.values :=
    Program.sortedMacros_of_perm (Program.increasing_of_marks hpairs hmacros.symm)
      (hq.macros.map Prod.snd)
  rw [q.tree_eq, hsorted, hq.subroutines]

/-- Two macros around two subroutines, the first inline and the second a block. -/
def twoMacros : String :=
  "@macro put(n): OUT n\nmain:\n put 7\nlast:\n HLT\n@macro halt:\n HLT"

/-- A table that has the second macro first is printed with the first one first. -/
theorem tree_twoMacros : ∃ p q, (parse {} twoMacros).result = .ok p ∧ p.Reordered q ∧
    q.macros.keys = ["halt", "put"] ∧ q.tree = String.join ["Program\n", "  Macro(put n)\n",
      "  Macro(halt)\n", "  Subroutine(main)\n", "    OUT 7\n", "  Subroutine(last)\n",
      "    HLT\n"] := by
  have heval : (scan twoMacros).toOption.bind (fun tokens =>
      (Parse.State.after 64 9 (.ofTokens tokens)).map fun s =>
        (s.place, s.stream.skipBlankLines.peek.kind, s.subroutines, s.macros.entries)) =
      some (.outside, .eof,
        [⟨"last", 4, [.hlt]⟩, ⟨"main", 2, [.out (.immediate ⟨7, .byte⟩)]⟩],
        [("put", ⟨"put", 1, ["n"], [⟨.operation .out, "OUT", 1⟩, ⟨.identifier, "n", 1⟩]⟩),
          ("halt", ⟨"halt", 6, [], [⟨.operation .hlt, "HLT", 7⟩]⟩)]) := by decide +kernel
  obtain ⟨tokens, hscan, hafter⟩ := scan_of_bind heval
  obtain ⟨s, hs, hv⟩ := Option.map_eq_some_iff.1 hafter
  simp only [Prod.mk.injEq] at hv
  obtain ⟨hplace, hkind, hsubs, hentries⟩ := hv
  have hread : (Parse.ofTokens 64 tokens).result = .ok s.program :=
    (Parse.Finishes.of_reflTransGen (Parse.reflTransGen_of_after hs) (.here hplace hkind)).result_eq
  have hparse : (parse {} twoMacros).result = .ok s.program :=
    parse_eq_ok_iff.2 ⟨tokens, hscan, hread⟩
  have hnodup : (s.macros.entries.reverse.map Prod.fst).Nodup := by
    rw [List.map_reverse, List.nodup_reverse]
    exact s.macros.nodup
  let q : Program := ⟨s.program.subroutines, ⟨s.macros.entries.reverse, hnodup⟩⟩
  have hq : s.program.Reordered q := ⟨rfl, List.reverse_perm _⟩
  obtain ⟨-, _, macros, -, -, htree⟩ := tree_of_parse hparse
  refine ⟨s.program, q, hparse, hq, ?_, ?_⟩
  · simp [q, NameMap.keys, hentries]
  · rw [htree q hq, ← htree s.program ⟨rfl, .refl _⟩]
    simp only [Program.tree, Program.treeLines, Program.sortedMacros, Parse.State.program,
      NameMap.values, hsubs, hentries]
    rw [List.mergeSort_of_pairwise (by decide)]
    decide +kernel

end IndentAsm
