import IndentAsm.Parse.Operand
import IndentAsm.Program.Macro

/-!
# Blocks and macro definitions

The lines of a block start with an indent. The first indent of a file fixes
the one that every line of every block has to repeat; blank lines do not
count. The body of a macro is the rest of the line of its header, or a block,
kept with its line breaks and indents.

**Results.**
* `forward_blockStart`, `forward_blockContinues`, `forward_blockBody`: blocks are
  read from the front of the unread tokens.
* `definition_reads_some`: a definition takes at least one token.
-/
namespace IndentAsm.Parse

open IndentAsm.Stream (Reads)

/-- Checks an indent against the one that is fixed, if one is. -/
def checkIndent (indent : Option String) (t : Token) : Except ParseError Unit :=
  if indent.all (· == t.lexeme) then .ok () else .error (.invalidIndent t)

/-- Reads the indent of the first line of a block. -/
def blockStart (indent : Option String) (s : Stream) : Except ParseError (Token × Stream) := do
  let (t, s) ← s.skipBlankLines.expect .indent
  checkIndent indent t
  return (t, s)

/-- Behind a new line in a block, reads the indent of the next line of the
block, if the block goes on. -/
def blockContinues (indent : Option String) (s : Stream) :
    Except ParseError (Option Token × Stream) :=
  let s := s.skipBlankLines
  if s.check .indent then do
    checkIndent indent s.peek
    return (some s.peek, s.advance.2)
  else .ok (none, s)

theorem forward_blockStart (indent : Option String) : Forward (blockStart indent) := by
  intro s t s' h
  obtain ⟨x, hx⟩ := s.reads_skipBlankLines
  obtain ⟨y, hy⟩ := (Forward.expect .indent).bind
    (fun t => Forward.lift (x := checkIndent indent t) fun _ => Forward.pure t) _ t s' h
  exact ⟨_, hx.trans hy⟩

theorem forward_blockContinues (indent : Option String) : Forward (blockContinues indent) := by
  intro s t s' h
  obtain ⟨x, hx⟩ := s.reads_skipBlankLines
  unfold blockContinues at h
  dsimp only at h
  split at h
  · obtain ⟨-, -, h⟩ := bind_eq_ok.1 h
    cases h
    obtain ⟨y, hy⟩ := s.skipBlankLines.advance_follows
    exact ⟨_, hx.trans hy⟩
  · cases h
    exact ⟨x, hx⟩

/-- Reads the rest of a line behind the tokens in `body`. -/
def inlineBody (s : Stream) (body : Array Token) : List Token × Stream :=
  match _h : s.next? with
  | none => (body.toList, s)
  | some (t, s') => if t.kind.endsLine then (body.toList, s) else inlineBody s' (body.push t)
termination_by s.unread.length
decreasing_by exact Stream.next?_unread_length _h

/-- Reads a block, from behind its first indent, to the end: the tokens of its
lines, with the line breaks between them and the indents that follow these. -/
def blockBody (indent : Option String) (s : Stream) (body : Array Token) :
    Except ParseError (List Token × Stream) :=
  match _h : s.next? with
  | none => .ok (body.toList, s)
  | some (t, s') =>
    if t.kind = .eof then .ok (body.toList, s)
    else if t.kind = .newLine then
      match _hc : blockContinues indent s' with
      | .error e => .error e
      | .ok (none, s'') => .ok (body.toList, s'')
      | .ok (some i, s'') => blockBody indent s'' ((body.push t).push i)
    else blockBody indent s' (body.push t)
termination_by s.unread.length
decreasing_by
  · obtain ⟨_, hr⟩ := forward_blockContinues indent _ _ _ _hc
    exact Nat.lt_of_le_of_lt hr.length_le (Stream.next?_unread_length _h)
  · exact Stream.next?_unread_length _h

/-- Reads identifiers with commas between them, behind those in `names`. -/
def identifiers (s : Stream) (names : Array String) : Except ParseError (List String × Stream) :=
  match _h : s.expect .identifier with
  | .error e => .error e
  | .ok (t, s') =>
    if s'.check .comma then identifiers s'.advance.2 (names.push t.lexeme)
    else .ok ((names.push t.lexeme).toList, s')
termination_by s.unread.length
decreasing_by
  have h1 := Stream.reads_expect (by decide) _h
  obtain ⟨_, h2⟩ := s'.advance_follows
  have := h2.length_le
  rw [h1.unread, List.length_append, List.length_singleton]
  omega

/-- Reads the parameters of a macro, if it has a list of them. -/
def parameters (s : Stream) : Except ParseError (List String × Stream) :=
  if s.check .parenOpen then do
    let s := s.advance.2
    if s.check .parenClose then
      return ([], s.advance.2)
    else
      let (names, s) ← identifiers s #[]
      let (_, s) ← s.expect .parenClose
      return (names, s)
  else .ok ([], s)

/-- Reads the body of a macro. Gives the indent of its block, or that of the
blocks before where the body has none. -/
def macroBody (indent : Option String) (s : Stream) :
    Except ParseError ((List Token × Option String) × Stream) :=
  if s.peek.kind.endsLine then do
    let (t, s) ← blockStart indent s
    let (body, s) ← blockBody (some t.lexeme) s #[]
    return ((body, some t.lexeme), s)
  else
    let found := inlineBody s #[]
    .ok ((found.1, indent), found.2)

/-- Reads what follows the name of a macro that is defined. Gives the macro
and the indent that is fixed. -/
def definitionOf (indent : Option String) (name : Token) (s : Stream) :
    Except ParseError ((Macro × Option String) × Stream) := do
  let (params, s) ← parameters s
  let (_, s) ← s.expect .colon
  let ((body, indent), s) ← macroBody indent s
  return ((⟨name.lexeme, name.line, params, body⟩, indent), s)

def definition (indent : Option String) (s : Stream) :
    Except ParseError ((Macro × Option String) × Stream) := do
  let (_, s) ← s.expect .macroKeyword
  let (name, s) ← s.expect .identifier
  definitionOf indent name s

/-! ## Reading goes forward -/

theorem inlineBody_follows (s : Stream) (body : Array Token) :
    ∃ taken, Reads s taken (inlineBody s body).2 := by
  fun_induction inlineBody s body with
  | case1 s body h => exact ⟨[], Reads.refl s⟩
  | case2 s body t s' h hk => exact ⟨[], Reads.refl s⟩
  | case3 s body t s' h hk ih =>
    obtain ⟨x, hx⟩ := ih
    exact ⟨_, (Stream.reads_next? h).trans hx⟩

theorem forward_blockBody (indent : Option String) (body : Array Token) :
    Forward fun s => blockBody indent s body := by
  intro s tokens s' h
  dsimp only at h
  fun_induction blockBody indent s body with
  | case1 s body hn => cases h; exact ⟨[], Reads.refl _⟩
  | case2 s body t u hn hk => cases h; exact ⟨[], Reads.refl _⟩
  | case3 s body t u hn hk he e hc => cases h
  | case4 s body t u hn hk he v hc =>
    cases h
    obtain ⟨x, hx⟩ := forward_blockContinues indent _ _ _ hc
    exact ⟨_, (Stream.reads_next? hn).trans hx⟩
  | case5 s body t u hn hk he i v hc ih =>
    obtain ⟨x, hx⟩ := forward_blockContinues indent _ _ _ hc
    obtain ⟨y, hy⟩ := ih h
    exact ⟨_, ((Stream.reads_next? hn).trans hx).trans hy⟩
  | case6 s body t u hn hk he ih =>
    obtain ⟨x, hx⟩ := ih h
    exact ⟨_, (Stream.reads_next? hn).trans hx⟩

theorem forward_identifiers (names : Array String) : Forward fun s => identifiers s names := by
  intro s found s' h
  dsimp only at h
  fun_induction identifiers s names with
  | case1 s names e he => cases h
  | case2 s names t u he hc ih =>
    obtain ⟨x, hx⟩ := ih h
    obtain ⟨y, hy⟩ := u.advance_follows
    exact ⟨_, ((Stream.reads_expect (by decide) he).trans hy).trans hx⟩
  | case3 s names t u he hc =>
    cases h
    exact ⟨_, Stream.reads_expect (by decide) he⟩

theorem forward_parameters : Forward parameters := by
  intro s names s' h
  unfold parameters at h
  split at h
  · obtain ⟨x, hx⟩ := s.advance_follows
    dsimp only at h
    split at h
    · cases h
      obtain ⟨y, hy⟩ := s.advance.2.advance_follows
      exact ⟨_, hx.trans hy⟩
    · obtain ⟨y, hy⟩ := (forward_identifiers #[]).bind (fun names =>
        (Forward.expect .parenClose).bind fun _ => Forward.pure names) _ names s' h
      exact ⟨_, hx.trans hy⟩
  · cases h
    exact ⟨[], Reads.refl s⟩

theorem forward_macroBody (indent : Option String) : Forward (macroBody indent) := by
  intro s p s' h
  unfold macroBody at h
  split at h
  · exact (forward_blockStart indent).bind (fun t =>
      (forward_blockBody (some t.lexeme) #[]).bind fun body =>
        Forward.pure (body, some t.lexeme)) s p s' h
  · cases h
    exact inlineBody_follows s #[]

theorem forward_definitionOf (indent : Option String) (name : Token) :
    Forward (definitionOf indent name) :=
  forward_parameters.bind fun params => (Forward.expect .colon).bind fun _ =>
    (forward_macroBody indent).bind fun p =>
      Forward.pure (Macro.mk name.lexeme name.line params p.1, p.2)

theorem definition_reads_some {indent : Option String} {s s' : Stream}
    {p : Macro × Option String} (h : definition indent s = .ok (p, s')) :
    ∃ t taken, Reads s (t :: taken) s' := by
  obtain ⟨⟨t, u⟩, ht, h⟩ := bind_eq_ok.1 h
  have hr := Stream.reads_expect (by decide) ht
  obtain ⟨x, hx⟩ := (Forward.expect .identifier).bind
    (fun name => forward_definitionOf indent name) u p s' h
  exact ⟨_, x, hr.trans hx⟩

end IndentAsm.Parse
