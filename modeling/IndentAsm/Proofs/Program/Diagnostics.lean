import IndentAsm.Assemble
import IndentAsm.Proofs.Image.Outcome
import IndentAsm.Proofs.Parse.Checked
import IndentAsm.Proofs.Parse.Citation
import IndentAsm.Proofs.Parse.Nesting
import IndentAsm.Proofs.Token.Padding
import IndentAsm.Proofs.Token.Pieces

/-!
# Diagnostics point at the source

Whatever way a token takes through the bodies of macros and their expansions, it is a token
of the text, on its line. So is every token that an error of the reader is about, and every
name that is left for linking.

**Results.**
* `Parse.Drawn.of_reachable`, `Parse.Within.of_reachable`: what the reader sees in a state of
  a run.
* `assemble_eq_error`: the stage that an error comes from.
* `Program.subject_of_link`: an error of linking is about a name of the program.
* `pointsInto_of_assemble`: tokens that are read are tokens of the text, and errors are about
  tokens of the text.
-/
namespace IndentAsm

/-! ## Along a run -/

namespace Parse

variable {limit : Nat} {text : String} {tokens : List Token} {s : State}

/-- What is seen past the end is the end token of the text. -/
theorem endOf_mem_of_scan (h : scan text = .ok tokens) : Stream.endOf tokens ∈ tokens := by
  obtain ⟨code, last, rfl, hk, -⟩ := scan_eq_ok h
  rw [Stream.endOf_of_getLast? List.getLast?_concat hk]
  simp

theorem Drawn.of_reachable (hsign : ∀ t ∈ tokens, Signless t) (h : Reachable limit tokens s) :
    Drawn tokens s := by
  induction h with
  | refl => exact drawn_ofTokens tokens
  | tail _ hs ih => exact drawn_step hsign ih hs

theorem eof_of_reachable (h : Reachable limit tokens s) : s.stream.eof = Stream.endOf tokens := by
  induction h with
  | refl => rfl
  | tail _ hs ih => rw [eof_step hs, ih]

/-- A state of a run on the tokens of a text sees nothing but these. -/
theorem Within.of_reachable (hscan : scan text = .ok tokens) (h : Reachable limit tokens s) :
    Within tokens s.stream where
  tokens := (Drawn.of_reachable (not_plus_of_scan hscan) h).unread
  eof := by
    rw [eof_of_reachable h]
    exact endOf_mem_of_scan hscan

theorem Within.frames {source : List Token} {stream : Stream} (h : Within source stream) :
    ∀ f ∈ stream.frames, f.tokens ⊆ source := by
  intro f hf t ht
  refine h.tokens ?_
  rw [Stream.tokens_eq]
  exact List.mem_flatMap.2 ⟨f, hf, ht⟩

theorem cited_of_result {e : ParseError} (hscan : scan text = .ok tokens)
    (h : (ofTokens limit tokens).result = .error e) : e.CitedIn tokens :=
  cited_run (not_plus_of_scan hscan) (drawn_ofTokens tokens) (endOf_mem_of_scan hscan) h

end Parse

/-! ## Errors of linking -/

theorem Source.Fits.hasWidth {src : Source} (h : src.Fits) : src.HasWidth := by
  cases src with
  | register r => trivial
  | immediate n => exact And.left h

theorem Instruction.Fits.hasWidths {i : Instruction} (h : i.Fits) : i.HasWidths := by
  cases i with
  | lw r n | sw r n =>
    cases n with
    | none => trivial
    | some n => exact And.left h
  | lda a =>
    cases a with
    | immediate n => exact And.left h
    | next | label l => trivial
  | mw r src | add r src | sub r src | push src | tel src | out src => exact Source.Fits.hasWidth h
  | nop | hlt | pop r | jmp l | jo l | jz r l => trivial

/-- An error of linking is about the name of a subroutine, or about a label. -/
theorem Program.subject_of_link {p : Program} {source : List Token} {e : LinkError} (hf : p.Fits)
    (hn : ∀ sub ∈ p.subroutines, sub.NamedIn source) (h : p.link.result = .error e) :
    ⟨.identifier, e.subject, e.line⟩ ∈ source := by
  have hw : p.HasWidths := fun sub hsub i hi => (hf sub hsub i hi).hasWidths
  have mem_subroutines {sub : Subroutine} : sub ∈ p.layout → sub ∈ p.subroutines :=
    p.layout_perm.mem_iff.1
  rcases p.link_cases hw with ⟨sub, ⟨before, behind, hl, -⟩, hr⟩ | ⟨-, l, hl, hr⟩ | ⟨-, -, _, hr, -⟩
  · cases hr.symm.trans h
    exact (hn sub (mem_subroutines (by simp [hl]))).name
  · cases hr.symm.trans h
    obtain ⟨i, hi, hlabel⟩ := List.mem_filterMap.1 hl.mem.1
    obtain ⟨sub, hsub, hi⟩ := List.mem_flatMap.1 hi
    exact (hn sub (mem_subroutines hsub)).labels i hi l hlabel
  · cases hr.symm.trans h

/-! ## Errors of assembling -/

/-- The stage that an error comes from, and what the stages before it gave. -/
theorem assemble_eq_error {config : Config} {text : String} {e : Error}
    (h : (assemble config text).result = .error e) :
    (∃ fault, e = .lex fault ∧ scan text = .error fault) ∨
    ∃ tokens, scan text = .ok tokens ∧
      ((∃ fault, e = .parse fault ∧
        (Parse.ofTokens config.maxDepth tokens).result = .error fault) ∨
      ∃ p fault, e = .link fault ∧ (Parse.ofTokens config.maxDepth tokens).result = .ok p ∧
        p.link.result = .error fault) := by
  unfold assemble parse at h
  cases hscan : scan text with
  | error fault =>
    rw [hscan] at h
    cases h
    exact Or.inl ⟨fault, rfl, rfl⟩
  | ok tokens =>
    refine Or.inr ⟨tokens, rfl, ?_⟩
    rw [hscan] at h
    dsimp only at h
    cases hread : (Parse.ofTokens config.maxDepth tokens).result with
    | error fault =>
      rw [hread] at h
      cases h
      exact Or.inl ⟨fault, rfl, rfl⟩
    | ok p =>
      rw [hread] at h
      cases hlink : p.link.result with
      | ok image =>
        simp only [Except.mapError, link, hlink] at h
        cases h
      | error fault =>
        simp only [Except.mapError, link, hlink] at h
        cases h
        exact Or.inr ⟨p, fault, rfl, rfl, hlink⟩

/-- An error of the reader tells of a token of the text: it has the line of the token, quotes
it and says its kind. A macro that it names as well is called in the text. -/
structure ParseError.PointsInto (text : String) (tokens : List Token) (e : ParseError) : Prop where
  token : e.token ∈ tokens
  quoted : e.token.line = e.line ∧ e.quoteOf e.token = e.subject
  kind : ∀ k ∈ e.kind?, e.token.kind = k
  callee : ∀ name ∈ e.callee?, ∃ t ∈ tokens, t.kind = .identifier ∧ t.lexeme = name.lexeme
  line : 1 ≤ e.line ∧ e.line ≤ 1 + text.toList.count '\n'

/-- An error of linking tells of a name in the text, on its line. -/
structure LinkError.PointsInto (text : String) (tokens : List Token) (e : LinkError) : Prop where
  token : ∃ t ∈ tokens, t.line = e.line ∧ t.lexeme = e.subject ∧ t.kind = .identifier
  line : 1 ≤ e.line ∧ e.line ≤ 1 + text.toList.count '\n'

theorem ParseError.CitedIn.pointsInto {text : String} {tokens : List Token} {e : ParseError}
    (hscan : scan text = .ok tokens) (h : e.CitedIn tokens) : e.PointsInto text tokens where
  token := h.token
  quoted := ⟨e.line_token, e.quoteOf_token⟩
  kind := h.kind
  callee name hname := ⟨name, (h.callee name hname).1, (h.callee name hname).2, rfl⟩
  line := by
    rw [← e.line_token]
    exact line_of_scan hscan e.token h.token

/-- Every token that is read, at any depth of expansion, is a token of the text, and so are
those that the bodies of macros are made of. Every error about the program, when it is read
and when it is linked, points at a token of the text. -/
theorem pointsInto_of_assemble (config : Config) (text : String) :
    (∀ tokens, scan text = .ok tokens → ∀ s, Parse.Reachable config.maxDepth tokens s →
      (∀ key m, s.macros.get? key = some m → m.body ⊆ tokens) ∧
      ∀ taken u, Stream.Reads s.stream taken u →
        (∀ f ∈ u.frames, f.tokens ⊆ tokens) ∧ ∀ n, u.lookahead n ∈ tokens) ∧
    (∀ e, (assemble config text).result = .error (.parse e) →
      ∃ tokens, scan text = .ok tokens ∧ e.PointsInto text tokens) ∧
    ∀ e, (assemble config text).result = .error (.link e) →
      ∃ tokens, scan text = .ok tokens ∧ e.PointsInto text tokens := by
  refine ⟨fun tokens hscan s hs => ⟨?_, fun taken u hr => ?_⟩, fun e he => ?_, fun e he => ?_⟩
  · exact (Parse.Drawn.of_reachable (not_plus_of_scan hscan) hs).bodies
  · have hw := (Parse.Within.of_reachable hscan hs).reads hr
    exact ⟨hw.frames, hw.lookahead⟩
  · obtain ⟨_, ⟨⟩, -⟩ | ⟨tokens, hscan, ⟨_, ⟨⟩, hread⟩ | ⟨_, _, ⟨⟩, -⟩⟩ := assemble_eq_error he
    exact ⟨tokens, hscan, (Parse.cited_of_result hscan hread).pointsInto hscan⟩
  · obtain ⟨_, ⟨⟩, -⟩ | ⟨tokens, hscan, ⟨_, ⟨⟩, -⟩ | ⟨p, _, ⟨⟩, hread, hlink⟩⟩ :=
      assemble_eq_error he
    have hmem := Program.subject_of_link (Parse.checked_of_result hread).fits
      (Parse.namedIn_of_result (not_plus_of_scan hscan) hread) hlink
    exact ⟨tokens, hscan, ⟨_, hmem, rfl, rfl, rfl⟩, line_of_scan hscan _ hmem⟩

/-- A number that is too large for the body of the macro stands in the call. -/
theorem pointsInto_putTooLarge :
    ∃ e, (assemble {} "@macro put(x): OUT x\nmain:\n\tput 300\n").result = .error (.parse e) ∧
      e.line = 3 ∧ e.subject = "300" ∧
      ∃ tokens, scan "@macro put(x): OUT x\nmain:\n\tput 300\n" = .ok tokens ∧
        e.PointsInto "@macro put(x): OUT x\nmain:\n\tput 300\n" tokens := by
  generalize htext : "@macro put(x): OUT x\nmain:\n\tput 300\n" = text
  have heval : (scan text).toOption.bind (fun tokens =>
      (Parse.State.after 64 3 (.ofTokens tokens)).bind (Parse.State.error? 64)) =
      some (.numberTooLarge .byte ⟨.number, "300", 3⟩) := by
    subst htext
    decide +kernel
  obtain ⟨tokens, hscan, hafter⟩ := scan_of_bind heval
  have hread := Parse.error_of_after hafter
  have he : (assemble {} text).result =
      .error (.parse (.numberTooLarge .byte ⟨.number, "300", 3⟩)) := by
    simp only [assemble, parse, hscan, hread, Except.mapError]
  exact ⟨_, he, rfl, rfl, (pointsInto_of_assemble {} text).2.1 _ he⟩

end IndentAsm
