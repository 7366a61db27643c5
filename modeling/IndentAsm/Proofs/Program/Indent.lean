import IndentAsm.Proofs.Parse.Baseline
import IndentAsm.Proofs.Parse.Reindent

/-!
# One indent for the whole text

The first line of a block, be it of a macro or of a subroutine, fixes the indent, and from then
on no other one is accepted: not in the bodies of macros that nobody calls, and not behind an
expansion. Which indent it is does not matter. Blank lines take no part in this, whatever they
are made of.

**Results.**
* `Parse.reindented_ofTokens`: the start of a run, and of the one with another indent.
* `oneIndent_of_scan`: in a text that is read all indents of code are the same, any other one
  gives the same program, and an indent is rejected only where it is not like the first.
-/
namespace IndentAsm

namespace Stream

/-- The end token of a text is no indent. -/
theorem endOf_reindent (indent : String) {code : List Token} {last : Token}
    (hk : last.kind = .eof) :
    endOf (reindent indent (code ++ [last])) = endOf (code ++ [last]) := by
  obtain ⟨front, hfront, -⟩ := reindent_append_suffix indent code [last]
  rw [reindent_of_kind (by simp [hk])] at hfront
  rw [hfront, endOf_of_getLast? List.getLast?_concat hk]
  exact endOf_of_getLast? List.getLast?_concat hk

end Stream

namespace Parse

theorem reindented_ofTokens (indent : String) {text : String} {tokens : List Token}
    (hscan : scan text = .ok tokens) :
    (State.ofTokens tokens).Reindented indent (State.ofTokens (reindent indent tokens)) where
  stream := by
    refine ⟨?_, ?_, rfl, ?_⟩
    · simp [State.ofTokens]
    · simp [State.ofTokens, depths, Function.comp_def]
    · obtain ⟨code, last, rfl, hk, -⟩ := scan_eq_ok hscan
      exact Stream.endOf_reindent indent hk
  place := rfl
  fixed := rfl
  macros _ := rfl
  subroutines := rfl

end Parse

open Parse (ofTokens) in
/-- In a text that is read, all lines of code with an indent have the same one. Any other one in
its place leaves the subroutines as they are, and changes the macros by nothing but the indents in
their bodies. Where an indent is rejected, it stands in front of code and is not the same as the
first one that does. -/
theorem oneIndent_of_scan (limit : Nat) {text : String} {tokens : List Token}
    (hscan : scan text = .ok tokens) :
    (∀ p, (ofTokens limit tokens).result = .ok p →
      (∀ i ∈ codeIndents tokens, ∀ j ∈ codeIndents tokens, i.lexeme = j.lexeme) ∧
      ∀ indent, ∃ p', (ofTokens limit (reindent indent tokens)).result = .ok p' ∧
        p'.subroutines = p.subroutines ∧
        ∀ name, p'.macros.get? name = (p.macros.get? name).map (Macro.reindent indent)) ∧
    ∀ t, (ofTokens limit tokens).result = .error (.invalidIndent t) →
      t ∈ codeIndents tokens ∧
        ∃ first, (codeIndents tokens).head? = some first ∧ t.lexeme ≠ first.lexeme := by
  have hlead := indentsLead_of_scan hscan
  refine ⟨fun p hp => ⟨Parse.lexeme_of_result hscan hp, fun indent => ?_⟩, fun t ht => ?_⟩
  · obtain ⟨p', hp', hsubs, hmacros⟩ := Parse.reindented_finishes (Parse.result_run_iff.1 hp)
      (Parse.inv_ofTokens limit tokens) (Parse.leads_ofTokens hlead)
      (Parse.reindented_ofTokens indent hscan)
    exact ⟨p', hp'.result_eq, hsubs, hmacros⟩
  · exact Parse.mismatch_of_result hlead ht

/-- The macro is never called, and there are blank lines with other indents. Where the body of
the macro has another one as well, it is rejected. -/
theorem oneIndent_uncalledMacro :
    (∃ tokens p p', scan "main:\n \n\tNOP\n@macro stop:\n  \n\tHLT" = .ok tokens ∧
      (Parse.ofTokens 64 tokens).result = .ok p ∧ (codeIndents tokens).map Token.line = [3, 6] ∧
      (∀ i ∈ codeIndents tokens, ∀ j ∈ codeIndents tokens, i.lexeme = j.lexeme) ∧
      (Parse.ofTokens 64 (reindent "    " tokens)).result = .ok p' ∧
      p'.subroutines = p.subroutines ∧
      p'.macros.get? "stop" = (p.macros.get? "stop").map (Macro.reindent "    ")) ∧
    ∃ tokens, scan "main:\n \n\tNOP\n@macro stop:\n\t\n  HLT" = .ok tokens ∧
      (Parse.ofTokens 64 tokens).result = .error (.invalidIndent ⟨.indent, "  ", 6⟩) ∧
      ⟨.indent, "  ", 6⟩ ∈ codeIndents tokens := by
  constructor
  · generalize htext : "main:\n \n\tNOP\n@macro stop:\n  \n\tHLT" = text
    have heval : (scan text).toOption.bind (fun tokens =>
        (Parse.State.after 64 4 (.ofTokens tokens)).map fun s =>
          ((s.place, s.stream.skipBlankLines.peek.kind, s.subroutines),
            (codeIndents tokens).map Token.line)) =
        some ((.outside, .eof, [⟨"main", 1, [.nop]⟩]), [3, 6]) := by
      subst htext
      decide +kernel
    obtain ⟨tokens, hscan, hafter⟩ := scan_of_bind heval
    obtain ⟨s, hs, hlast⟩ := Option.map_eq_some_iff.1 hafter
    obtain ⟨hlast, hlines⟩ := Prod.mk.inj hlast
    obtain ⟨p, hp, -⟩ := Parse.result_of_after (Option.map_eq_some_iff.2 ⟨s, hs, hlast⟩)
    obtain ⟨hsame, hother⟩ := (oneIndent_of_scan 64 hscan).1 p hp
    obtain ⟨p', hp', hsubs, hmacros⟩ := hother "    "
    exact ⟨tokens, p, p', hscan, hp, hlines, hsame, hp', hsubs, hmacros "stop"⟩
  · generalize htext : "main:\n \n\tNOP\n@macro stop:\n\t\n  HLT" = text
    have heval : (scan text).toOption.bind (fun tokens =>
        (Parse.State.after 64 3 (.ofTokens tokens)).bind (Parse.State.error? 64)) =
        some (.invalidIndent ⟨.indent, "  ", 6⟩) := by
      subst htext
      decide +kernel
    obtain ⟨tokens, hscan, hafter⟩ := scan_of_bind heval
    have hread := Parse.error_of_after hafter
    exact ⟨tokens, hscan, hread, ((oneIndent_of_scan 64 hscan).2 _ hread).1⟩

end IndentAsm
