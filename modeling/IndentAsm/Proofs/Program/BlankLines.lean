import IndentAsm.Assemble
import IndentAsm.Proofs.Parse.Padding
import IndentAsm.Proofs.Parse.Step
import IndentAsm.Proofs.Token.Scanned

/-!
# Blank lines do not matter

A blank line may be put in wherever a line starts: in front of the first definition and
between definitions, behind the header of a subroutine or of a macro, between the lines of
a body, and at the end. The image stays the same, and so does an error, which is reported
a line further down if it stands behind the blank line. Neither does a blank line fix the
indent of the blocks, nor has it to have that indent.

**Results.**
* `assemble_blankLine`: assembling with one more blank line.
-/
namespace IndentAsm

def Error.mapLine (f : Nat → Nat) : Error → Error
  | lex e => lex (e.mapLine f)
  | parse e => parse (e.mapLine f)
  | link e => link (e.mapLine f)

namespace Parse

/-- The tokens of a text and those of the text with one more blank line are read alike. -/
theorem matches_ofTokens (limit : Nat) {f : Nat → Nat} {before blank behind : List Token}
    {last : Token} (hblank : Scanner.BlankLine blank)
    (hbreak : ∀ t ∈ before.getLast?, t.kind = .newLine)
    (hlast : (before ++ behind).getLast? = some last) (hk : last.kind = .eof) :
    Matches f (ProgramsMatch f) (ofTokens limit (before ++ behind)).result
      (ofTokens limit (before.map (Token.mapLine f) ++
        (blank ++ behind.map (Token.mapLine f)))).result := by
  refine matches_run limit ⟨⟨true, ?_, fun _ => rfl⟩, rfl, rfl, fun name => rfl, rfl⟩
  exact Stream.padded_ofTokens hblank hbreak hlast hk

end Parse

/-- One more blank line, at the start of a text or behind a line break, leaves the image as
it is. An error stays the same, with every line behind the blank one moved down by one. -/
theorem assemble_blankLine (config : Config) {head line : String} (tail : String)
    (hhead : head = "" ∨ head.toList.getLast? = some '\n') (hline : IsBlankLine line) :
    (assemble config (head ++ line ++ "\n" ++ tail)).result =
      (assemble config (head ++ tail)).result.mapError
        (Error.mapLine (movedDown (head.toList.count '\n'))) := by
  rcases scan_blankLine tail hhead hline with ⟨e, hscan, hscan'⟩ |
    ⟨before, blank, behind, hblank, hbreak, hscan, hscan'⟩
  · simp only [assemble, parse, hscan, hscan']
    rfl
  · obtain ⟨code, last, htokens, hk, -⟩ := scan_eq_ok hscan
    have hlast : (before ++ behind).getLast? = some last := by simp [htokens]
    have hread := Parse.matches_ofTokens config.maxDepth
      (f := movedDown (head.toList.count '\n')) hblank hbreak hlast hk
    simp only [assemble, parse, hscan, hscan']
    generalize (Parse.ofTokens config.maxDepth (before ++ behind)).result = read at hread
    generalize (Parse.ofTokens config.maxDepth _).result = read' at hread
    cases hread with
    | error e => rfl
    | @ok p p' hp =>
      simp only [Except.mapError, link, Program.link_of_mapLine hp]
      cases p.link.result <;> rfl

/-- The line behind a header is blank, with another indent than the body, which has an
error on the line behind that. -/
theorem assemble_blankLine_behindHeader : IsBlankLine "\t\r ; first" ∧
    (assemble {} ("main:\n" ++ "  OUT 300\n")).result =
      .error (.parse (.numberTooLarge .byte ⟨.number, "300", 2⟩)) ∧
    (assemble {} ("main:\n" ++ "\t\r ; first" ++ "\n" ++ "  OUT 300\n")).result =
      .error (.parse (.numberTooLarge .byte ⟨.number, "300", 3⟩)) := by
  have hline : IsBlankLine "\t\r ; first" := by
    refine ⟨['\t', '\r', ' '], "; first".toList, rfl, ?_, Or.inr ⟨_, rfl, ?_⟩⟩
    · simp
    · decide
  have heval : (scan ("main:\n" ++ "  OUT 300\n")).toOption.bind (fun tokens =>
      (Parse.State.after 64 1 (.ofTokens tokens)).bind (Parse.State.error? 64)) =
      some (.numberTooLarge .byte ⟨.number, "300", 2⟩) := by decide +kernel
  obtain ⟨tokens, hscan, hafter⟩ := scan_of_bind heval
  have hread := Parse.error_of_after hafter
  have hplain : (assemble {} ("main:\n" ++ "  OUT 300\n")).result =
      .error (.parse (.numberTooLarge .byte ⟨.number, "300", 2⟩)) := by
    simp only [assemble, parse, hscan, hread, Except.mapError]
  refine ⟨hline, hplain, ?_⟩
  rw [assemble_blankLine {} "  OUT 300\n" (Or.inr (by decide)) hline, hplain]
  rfl

end IndentAsm
