import IndentAsm.Image.Link
import IndentAsm.Parse.Run
import IndentAsm.Token.Scan

/-!
# Assembling

From source text to tokens, from tokens to a program, from a program to its
image. The first stage that fails gives the error.

**Results.**
* `parse_eq_ok_iff`: a text is a program if it has tokens that are one.
-/
namespace IndentAsm

/-- What a caller may choose. -/
structure Config where
  /-- How deep macro calls may be nested inside other expansions. -/
  maxDepth : Nat := 64
  deriving DecidableEq, Repr, Inhabited

def parse (config : Config) (text : String) : Logged (Except Error Program) :=
  match scan text with
  | .error e => ⟨.error (.lex e), []⟩
  | .ok tokens =>
    let read := Parse.ofTokens config.maxDepth tokens
    ⟨read.result.mapError .parse, .scanned tokens.length :: read.log⟩

theorem parse_eq_ok_iff {config : Config} {text : String} {p : Program} :
    (parse config text).result = .ok p ↔ ∃ tokens, scan text = .ok tokens ∧
      (Parse.ofTokens config.maxDepth tokens).result = .ok p := by
  constructor
  · intro h
    unfold parse at h
    split at h
    · cases h
    · rename_i tokens hscan
      refine ⟨tokens, hscan, ?_⟩
      cases hr : (Parse.ofTokens config.maxDepth tokens).result with
      | error e =>
        simp only [hr] at h
        cases h
      | ok q =>
        simp only [hr] at h
        cases h
        rfl
  · rintro ⟨tokens, hscan, hread⟩
    simp only [parse, hscan, hread]
    rfl

def link (p : Program) : Logged (Except Error (List UInt8)) :=
  let linked := p.link
  ⟨linked.result.mapError .link, linked.log⟩

def assemble (config : Config) (text : String) : Logged (Except Error (List UInt8)) :=
  let parsed := parse config text
  match parsed.result with
  | .error e => ⟨.error e, parsed.log⟩
  | .ok p =>
    let linked := link p
    ⟨linked.result, parsed.log ++ linked.log⟩

end IndentAsm
