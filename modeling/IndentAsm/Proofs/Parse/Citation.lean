import IndentAsm.Proofs.Parse.Provenance

/-!
# The token an error is about

Every error of the reader is about a token that it stood in front of when it failed, or
just before: that token gives the line of the error and the text it quotes. So a fault in
an expansion is told of a token of the body or of an argument, each on the line it was
written on.

`Blames` says this of a reader, and is closed under reading one thing after another. It also
says which errors the reader has at all (`ParseError.Names`, `ParseError.InLine`). The only error
that names a second token is the one about the end of a call, which also names the macro, and
an indent is at fault only where a line of a block starts.

**Results.**
* `blames_instruction`, `blames_definition`, `blames_arguments`: the readers of which a step is
  made.
* `blames_step`: an error of a step is about a token that the step reads.
* `cited_run`: so an error of a run is about a token of the source.
-/
namespace IndentAsm

namespace ParseError

/-- The token that gives an error its line and what it quotes. -/
def token : ParseError → Token
  | expected _ found | unexpected found | unterminatedCall _ found => found
  | invalidIndent t | invalidNumber t | numberTooLarge _ t | unsupportedInclude t => t
  | macroArity name _ _ | macroDepth name _ | duplicateSubroutine name => name
  | duplicateMacro line name => ⟨.identifier, name, line⟩

/-- The kind that the token at fault is said to have. -/
def kind? : ParseError → Option Token.Kind
  | expected _ found | unexpected found => some found.kind
  | invalidIndent _ => some .indent
  | invalidNumber _ | numberTooLarge .. => some .number
  | unterminatedCall .. => none
  | macroArity .. | macroDepth .. | duplicateSubroutine _ | duplicateMacro .. => some .identifier
  | unsupportedInclude _ => some .includeKeyword

/-- The macro that is named beside the token at fault. -/
def callee? : ParseError → Option Token
  | unterminatedCall name _ => some name
  | _ => none

/-- How an error quotes a token: as a place in the source, an indent in quotation marks, and
a number or a name by its text. -/
def quoteOf : ParseError → Token → String
  | expected .. | unexpected _ | unterminatedCall .. | unsupportedInclude _ => Token.quote
  | invalidIndent _ => fun t => Text.quoted t.lexeme
  | _ => Token.lexeme

theorem line_token (e : ParseError) : e.token.line = e.line := by
  cases e <;> rfl

theorem quoteOf_token (e : ParseError) : e.quoteOf e.token = e.subject := by
  cases e <;> rfl

/-- The macro that an error names is one of some tokens. -/
def Names (names : List Token) (e : ParseError) : Prop := ∀ name ∈ e.callee?, name ∈ names

/-- An error of a line by itself, from behind its indent on. -/
structure InLine (names : List Token) (e : ParseError) : Prop where
  names : e.Names names
  no_indent : ∀ t, e ≠ .invalidIndent t

theorem names_of_callee?_eq_none {names : List Token} {e : ParseError} (h : e.callee? = none) :
    e.Names names := by
  intro name hname
  rw [h] at hname
  cases hname

theorem inLine_expected (names : List Token) (what : Expectation) (t : Token) :
    (expected what t).InLine names :=
  ⟨names_of_callee?_eq_none rfl, nofun⟩

theorem inLine_unterminatedCall (name found : Token) :
    (unterminatedCall name found).InLine [name] :=
  ⟨by simp [Names, callee?], nofun⟩

/-- The error is about one of some tokens, of the kind it says, and the macro that it names
is an identifier among them. -/
structure CitedIn (source : List Token) (e : ParseError) : Prop where
  token : e.token ∈ source
  kind : ∀ k ∈ e.kind?, e.token.kind = k
  callee : ∀ name ∈ e.callee?, name ∈ source ∧ name.kind = .identifier

end ParseError

namespace Parse

open IndentAsm.Stream (Reads)

/-! ## Errors of a reader -/

/-- An error of the sort `E`, about a token in front of which the stream stands, at once or
further on. -/
def Raised (E : ParseError → Prop) (s : Stream) (e : ParseError) : Prop :=
  ∃ taken u, Reads s taken u ∧ e.token = u.peek ∧ (∀ k ∈ e.kind?, u.peek.kind = k) ∧ E e

namespace Raised

variable {E : ParseError → Prop} {s u : Stream} {e : ParseError}

theorem of_reads {taken : List (Token × Nat)} (hr : Reads s taken u) (h : Raised E u e) :
    Raised E s e := by
  obtain ⟨more, v, hv, hrest⟩ := h
  exact ⟨taken ++ more, v, hr.trans hv, hrest⟩

/-- Further on, behind what a reader takes. -/
theorem behind {α : Type} {read : Stream → Except ParseError (α × Stream)} {a : α}
    (hf : Forward read) (hr : read s = .ok (a, u)) (h : Raised E u e) : Raised E s e := by
  obtain ⟨taken, htaken⟩ := hf s a u hr
  exact h.of_reads htaken

theorem skipBlankLines (h : Raised E s.skipBlankLines e) : Raised E s e := by
  obtain ⟨taken, hr⟩ := s.reads_skipBlankLines
  exact h.of_reads hr

theorem advance (h : Raised E s.advance.2 e) : Raised E s e := by
  obtain ⟨taken, hr⟩ := s.advance_follows
  exact h.of_reads hr

/-- An error about the next token. -/
theorem here (ht : e.token = s.peek) (hk : ∀ k ∈ e.kind?, s.peek.kind = k) (he : E e) :
    Raised E s e :=
  ⟨[], s, .refl s, ht, hk, he⟩

theorem expected {names : List Token} (what : Expectation) (s : Stream) :
    Raised (ParseError.InLine names) s (.expected what s.peek) :=
  here rfl (by simp [ParseError.kind?]) (ParseError.inLine_expected names what s.peek)

theorem sort (h : Raised E s e) : E e := by
  obtain ⟨taken, u, -, -, -, he⟩ := h
  exact he

theorem mono {F : ParseError → Prop} (h : Raised E s e) (hEF : ∀ e, E e → F e) : Raised F s e := by
  obtain ⟨taken, u, hr, ht, hk, he⟩ := h
  exact ⟨taken, u, hr, ht, hk, hEF e he⟩

end Raised

/-- A reader whose errors are of the sort `E`, and about what it reads. -/
def Blames {α : Type} (E : ParseError → Prop) (read : Stream → Except ParseError (α × Stream)) :
    Prop :=
  ∀ s e, read s = .error e → Raised E s e

theorem bind_eq_error {α β ε : Type} {x : Except ε α} {f : α → Except ε β} {e : ε} :
    x >>= f = .error e ↔ x = .error e ∨ ∃ a, x = .ok a ∧ f a = .error e := by
  cases x with
  | error e => simp [bind, Except.bind]
  | ok a => simp [bind, Except.bind]

namespace Blames

variable {α β : Type} {E F : ParseError → Prop} {read : Stream → Except ParseError (α × Stream)}

theorem bind {next : α → Stream → Except ParseError (β × Stream)} (h : Blames E read)
    (hf : Forward read) (h' : ∀ a, Blames E (next a)) :
    Blames E fun s => read s >>= fun (a, s) => next a s := by
  intro s e he
  rcases bind_eq_error.1 he with he | ⟨⟨a, u⟩, hr, he⟩
  · exact h s e he
  · exact (h' a u e he).behind hf hr

theorem pure (a : α) :
    Blames E fun s => (return (a, s) : Except ParseError (α × Stream)) := by
  intro s e h
  cases h

theorem map (h : Blames E read) (f : α → β) :
    Blames E fun s => read s >>= fun (a, s) => return (f a, s) := by
  intro s e he
  rcases bind_eq_error.1 he with he | ⟨_, _, ⟨⟩⟩
  exact h s e he

theorem expect {names : List Token} (kind : Token.Kind) :
    Blames (ParseError.InLine names) fun s => s.expect kind := by
  intro s e h
  dsimp only at h
  unfold Stream.expect at h
  split at h
  · cases h
  · cases h
    exact Raised.expected _ s

/-- A reader that stays in a line, among others that do not. -/
theorem names {names : List Token} (h : Blames (ParseError.InLine names) read) :
    Blames (ParseError.Names names) read :=
  fun s e he => (h s e he).mono fun _ hline => hline.names

end Blames

/-! ## Operands -/

theorem blames_number (width : Width) : Blames (ParseError.InLine []) (number width) := by
  intro s e h
  rcases bind_eq_error.1 h with h | ⟨⟨t, u⟩, ht, h⟩
  · exact Blames.expect .number s e h
  · rcases bind_eq_error.1 h with h | ⟨_, _, ⟨⟩⟩
    obtain ⟨rfl, hk⟩ := peek_of_expect ht
    rcases numberOf_eq_error h with rfl | rfl
    · exact .here rfl (by simp [ParseError.kind?, hk])
        ⟨ParseError.names_of_callee?_eq_none rfl, nofun⟩
    · exact .here rfl (by simp [ParseError.kind?, hk])
        ⟨ParseError.names_of_callee?_eq_none rfl, nofun⟩

theorem blames_register : Blames (ParseError.InLine []) register := by
  intro s e h
  unfold register at h
  split at h
  · cases h
  · cases h
    exact .expected _ s

theorem blames_source : Blames (ParseError.InLine []) source := by
  intro s e h
  unfold source at h
  split at h
  · cases h
  · exact (blames_number .byte).map Source.immediate s e h
  · cases h
    exact .expected _ s

theorem blames_label : Blames (ParseError.InLine []) label :=
  (Blames.expect .identifier).map fun t => Label.mk t.lexeme t.line

theorem blames_address : Blames (ParseError.InLine []) address := by
  intro s e h
  unfold address at h
  split at h
  · cases h
  · exact (blames_number .word).map Address.immediate s e h
  · exact blames_label.map Address.label s e h
  · cases h
    exact .expected _ s

theorem blames_target : Blames (ParseError.InLine []) target := by
  intro s e h
  unfold target at h
  split at h
  · exact blames_label.map some s e h
  · cases h

theorem blames_access : Blames (ParseError.InLine []) access := by
  intro s e h
  rcases bind_eq_error.1 h with h | ⟨⟨r, u⟩, hr, h⟩
  · exact blames_register s e h
  · refine Raised.behind forward_register hr ?_
    dsimp only at h
    split at h
    · exact ((blames_number .word).map (fun n => (r, some n)) _ e h).advance
    · cases h

theorem blames_transfer : Blames (ParseError.InLine []) transfer :=
  blames_register.bind forward_register fun r =>
    (Blames.expect .comma).bind (.expect .comma) fun _ => blames_source.map fun src => (r, src)

theorem blames_instruction (op : Mnemonic) : Blames (ParseError.InLine []) (instruction op) := by
  cases op with
  | nop => exact Blames.pure Instruction.nop
  | hlt => exact Blames.pure Instruction.hlt
  | lw => exact blames_access.map fun p => Instruction.lw p.1 p.2
  | sw => exact blames_access.map fun p => Instruction.sw p.1 p.2
  | mw => exact blames_transfer.map fun p => Instruction.mw p.1 p.2
  | add => exact blames_transfer.map fun p => Instruction.add p.1 p.2
  | sub => exact blames_transfer.map fun p => Instruction.sub p.1 p.2
  | push => exact blames_source.map Instruction.push
  | tel => exact blames_source.map Instruction.tel
  | out => exact blames_source.map Instruction.out
  | pop => exact blames_register.map Instruction.pop
  | lda => exact blames_address.map Instruction.lda
  | jmp => exact blames_target.map Instruction.jmp
  | jo => exact blames_target.map Instruction.jo
  | jz => exact blames_register.bind forward_register fun r => blames_target.map (Instruction.jz r)

/-! ## Blocks and definitions -/

theorem checkIndent_eq_error {indent : Option String} {t : Token} {e : ParseError}
    (h : checkIndent indent t = .error e) : e = .invalidIndent t := by
  unfold checkIndent at h
  split at h
  · cases h
  · exact (Except.error.inj h).symm

theorem raised_invalidIndent {s : Stream} (hk : s.peek.kind = .indent) :
    Raised (ParseError.Names []) s (.invalidIndent s.peek) :=
  .here rfl (by simp [ParseError.kind?, hk]) (ParseError.names_of_callee?_eq_none rfl)

theorem blames_blockStart (indent : Option String) :
    Blames (ParseError.Names []) (blockStart indent) := by
  intro s e h
  refine Raised.skipBlankLines ?_
  rcases bind_eq_error.1 h with h | ⟨⟨t, u⟩, ht, h⟩
  · exact (Blames.expect .indent).names _ e h
  · rcases bind_eq_error.1 h with h | ⟨_, _, ⟨⟩⟩
    obtain ⟨rfl, hk⟩ := peek_of_expect ht
    rw [checkIndent_eq_error h]
    exact raised_invalidIndent hk

theorem blames_blockContinues (indent : Option String) :
    Blames (ParseError.Names []) (blockContinues indent) := by
  intro s e h
  refine Raised.skipBlankLines ?_
  unfold blockContinues at h
  dsimp only at h
  split at h
  · rename_i hc
    rcases bind_eq_error.1 h with h | ⟨_, _, ⟨⟩⟩
    rw [checkIndent_eq_error h]
    exact raised_invalidIndent (by simpa [Stream.check] using hc)
  · cases h

theorem blames_blockBody (indent : Option String) (body : Array Token) :
    Blames (ParseError.Names []) fun s => blockBody indent s body := by
  intro s e h
  dsimp only at h
  fun_induction blockBody indent s body with
  | case1 s body hn => cases h
  | case2 s body t u hn hk => cases h
  | case3 s body t u hn hk he e' hc =>
    cases h
    exact (blames_blockContinues indent u e hc).of_reads (Stream.reads_next? hn)
  | case4 s body t u hn hk he v hc => cases h
  | case5 s body t u hn hk he i v hc ih =>
    exact ((ih h).behind (forward_blockContinues indent) hc).of_reads (Stream.reads_next? hn)
  | case6 s body t u hn hk he ih => exact (ih h).of_reads (Stream.reads_next? hn)

theorem blames_identifiers (names : Array String) :
    Blames (ParseError.InLine []) fun s => identifiers s names := by
  intro s e h
  dsimp only at h
  fun_induction identifiers s names with
  | case1 s names e' he =>
    cases h
    exact Blames.expect .identifier s e he
  | case2 s names t u he hc ih => exact (ih h).advance.behind (.expect .identifier) he
  | case3 s names t u he hc => cases h

theorem blames_parameters : Blames (ParseError.InLine []) parameters := by
  intro s e h
  unfold parameters at h
  split at h
  · refine Raised.advance ?_
    dsimp only at h
    split at h
    · cases h
    · exact (blames_identifiers #[]).bind (forward_identifiers #[])
        (fun names => (Blames.expect .parenClose).map fun _ => names) _ e h
  · cases h

theorem blames_macroBody (indent : Option String) :
    Blames (ParseError.Names []) (macroBody indent) := by
  intro s e h
  unfold macroBody at h
  split at h
  · exact (blames_blockStart indent).bind (forward_blockStart indent)
      (fun t => (blames_blockBody (some t.lexeme) #[]).map fun body => (body, some t.lexeme)) s e h
  · cases h

theorem blames_definitionOf (indent : Option String) (name : Token) :
    Blames (ParseError.Names []) (definitionOf indent name) :=
  blames_parameters.names.bind forward_parameters fun params =>
    (Blames.expect .colon).names.bind (.expect .colon) fun _ =>
      (blames_macroBody indent).map fun p => (Macro.mk name.lexeme name.line params p.1, p.2)

theorem blames_definition (indent : Option String) :
    Blames (ParseError.Names []) (definition indent) :=
  (Blames.expect .macroKeyword).names.bind (.expect .macroKeyword) fun _ =>
    (Blames.expect .identifier).names.bind (.expect .identifier) fun name =>
      blames_definitionOf indent name

/-- A macro that is read can be blamed for its name. -/
theorem raised_duplicateMacro {indent indent' : Option String} {s u : Stream} {m : Macro}
    (h : definition indent s = .ok ((m, indent'), u)) :
    Raised (ParseError.Names []) s (.duplicateMacro m.line m.name) := by
  obtain ⟨⟨t, v⟩, ht, h⟩ := bind_eq_ok.1 h
  obtain ⟨⟨name, w⟩, hw, h⟩ := bind_eq_ok.1 h
  obtain ⟨⟨params, x⟩, -, h⟩ := bind_eq_ok.1 h
  obtain ⟨⟨c, y⟩, -, h⟩ := bind_eq_ok.1 h
  obtain ⟨⟨⟨body, indent''⟩, z⟩, -, h⟩ := bind_eq_ok.1 h
  cases h
  obtain ⟨rfl, hk⟩ := peek_of_expect hw
  refine Raised.behind (.expect .macroKeyword) ht (.here ?_ ?_ ?_)
  · rw [ParseError.token, ← hk]
  · simp [ParseError.kind?, hk]
  · exact ParseError.names_of_callee?_eq_none rfl

/-! ## Calls -/

theorem blames_someArguments (name : Token) (args : Array Token) :
    Blames (ParseError.InLine [name]) fun s => someArguments name s args := by
  intro s e h
  dsimp only at h
  fun_induction someArguments name s args with
  | case1 s args ha u found hc ih => exact (ih h).advance.advance
  | case2 s args ha u found hc hl => cases h
  | case3 s args ha u hc hl =>
    cases h
    refine Raised.advance (.here rfl ?_ (ParseError.inLine_unterminatedCall name _))
    simp [ParseError.kind?]
  | case4 s args ha =>
    cases h
    exact .expected _ s

theorem blames_arguments (name : Token) : Blames (ParseError.InLine [name]) (arguments name) := by
  intro s e h
  unfold arguments at h
  split at h
  · cases h
  · exact blames_someArguments name #[] s e h

/-- An error of a call is about its name, or raised by its arguments. -/
theorem raised_of_call {limit : Nat} {macros : NameMap Macro} {s : Stream} {e : ParseError}
    (hk : s.peek.kind = .identifier) (h : call limit macros s.peek s.advance.2 = .error e) :
    Raised (ParseError.InLine [s.peek]) s e := by
  have atName {e : ParseError} (ht : e.token = s.peek) (hkind : e.kind? = some .identifier)
      (he : e.InLine [s.peek]) : Raised (ParseError.InLine [s.peek]) s e :=
    .here ht (by simp [hkind, hk]) he
  rcases bind_eq_error.1 h with h | ⟨⟨args, u⟩, -, h⟩
  · exact (blames_arguments s.peek _ e h).advance
  · dsimp only at h
    split at h
    · cases h
      exact atName rfl (by rw [ParseError.kind?, hk])
        ⟨ParseError.names_of_callee?_eq_none rfl, nofun⟩
    · split at h
      · cases h
        exact atName rfl rfl ⟨ParseError.names_of_callee?_eq_none rfl, nofun⟩
      · split at h
        · cases h
          exact atName rfl rfl ⟨ParseError.names_of_callee?_eq_none rfl, nofun⟩
        · cases h

/-! ## Steps and runs -/

variable {limit : Nat} {source : List Token} {s : State} {e : ParseError}

theorem raised_of_header {stream : Stream} (h : s.header stream = .error e) :
    Raised (ParseError.Names []) stream e := by
  rcases bind_eq_error.1 h with h | ⟨⟨name, u⟩, hn, h⟩
  · exact (Blames.expect .identifier).names stream e h
  rcases bind_eq_error.1 h with h | ⟨⟨colon, v⟩, hc, h⟩
  · exact Raised.behind (.expect .identifier) hn ((Blames.expect .colon).names u e h)
  dsimp only at h
  split at h
  · cases h
    obtain ⟨rfl, hk⟩ := peek_of_expect hn
    exact .here rfl (by simp [ParseError.kind?, hk]) (ParseError.names_of_callee?_eq_none rfl)
  · rcases bind_eq_error.1 h with h | ⟨_, _, ⟨⟩⟩
    exact ((blames_blockStart _ v e h).behind (.expect .colon) hc).behind (.expect .identifier) hn

theorem raised_of_stepOutside (h : s.stepOutside = .error e) :
    Raised (ParseError.Names []) s.stream e := by
  refine Raised.skipBlankLines ?_
  unfold State.stepOutside at h
  dsimp only at h
  split at h
  · cases h
  · rcases bind_eq_error.1 h with h | ⟨⟨⟨m, indent⟩, u⟩, hm, h⟩
    · exact blames_definition _ _ e h
    · rcases bind_eq_error.1 h with h | ⟨_, _, ⟨⟩⟩
      unfold State.define at h
      split at h
      · cases h
        exact raised_duplicateMacro hm
      · cases h
  · rename_i hk
    cases h
    exact .here rfl (by simp [ParseError.kind?, hk]) (ParseError.names_of_callee?_eq_none rfl)
  · rcases bind_eq_error.1 h with h | ⟨_, _, ⟨⟩⟩
    exact raised_of_header h

/-- A name that is next, and may be that of a macro. -/
def calleeNext (s : Stream) : List Token :=
  if s.peek.kind = .identifier then [s.peek] else []

theorem raised_of_stepInside {name : Token} {code : List Instruction}
    (h : s.stepInside limit name code = .error e) :
    Raised (ParseError.Names (calleeNext s.stream)) s.stream e := by
  have names_of_nil {e : ParseError} (he : e.Names []) : e.Names (calleeNext s.stream) :=
    fun name hname => absurd (he name hname) List.not_mem_nil
  have unexpected : Raised (ParseError.Names (calleeNext s.stream)) s.stream
      (.unexpected s.stream.peek) :=
    .here rfl (by simp [ParseError.kind?]) (ParseError.names_of_callee?_eq_none rfl)
  unfold State.stepInside at h
  rw [Stream.fst_advance] at h
  dsimp only at h
  split at h
  · rcases bind_eq_error.1 h with h | ⟨⟨next, u⟩, -, h⟩
    · exact ((blames_blockContinues _ _ e h).advance).mono fun _ => names_of_nil
    · cases next <;> cases h
  · rename_i op hk
    refine Raised.advance ?_
    rcases bind_eq_error.1 h with h | ⟨⟨i, u⟩, hi, h⟩
    · exact (blames_instruction op _ e h).mono fun _ he => names_of_nil he.names
    · dsimp only at h
      split at h
      · cases h
      · cases h
        exact Raised.behind (forward_instruction op) hi
          ((Raised.expected _ u).mono fun _ he => names_of_nil he.names)
  · rename_i hk
    split at h
    · rcases bind_eq_error.1 h with h | ⟨_, _, ⟨⟩⟩
      rw [calleeNext, if_pos hk]
      exact (raised_of_call hk h).mono fun _ he => he.names
    · cases h
      exact unexpected
  · cases h
  · cases h
    exact unexpected

/-- An error of a step is about a token that the step reads, and a macro that it names is
the one whose name is read first. -/
theorem blames_step (h : s.step limit = .error e) :
    Raised (ParseError.Names (calleeNext s.stream)) s.stream e := by
  cases hp : s.place with
  | outside =>
    rw [step_of_outside hp] at h
    refine (raised_of_stepOutside h).mono fun e he name hname => ?_
    exact absurd (he name hname) List.not_mem_nil
  | inside name code =>
    rw [step_of_inside hp] at h
    cases hs : s.stepInside limit name code with
    | error e' =>
      rw [hs] at h
      cases h
      exact raised_of_stepInside hs
    | ok v =>
      rw [hs] at h
      cases h

/-- What the reader can see stands in the source. -/
structure Within (source : List Token) (s : Stream) : Prop where
  tokens : s.tokens ⊆ source
  eof : s.eof ∈ source

theorem Within.reads {u : Stream} {stream : Stream} {taken : List (Token × Nat)}
    (h : Within source stream) (hr : Reads stream taken u) : Within source u where
  tokens := by
    refine List.Subset.trans ?_ h.tokens
    rw [Stream.tokens_of_reads hr]
    exact List.subset_append_right _ _
  eof := hr.eof ▸ h.eof

theorem Within.lookahead {stream : Stream} (h : Within source stream) (n : Nat) :
    stream.lookahead n ∈ source := by
  rw [Stream.lookahead_eq]
  cases hn : stream.unread[n]? with
  | none => exact h.eof
  | some p => exact h.tokens (List.mem_map_of_mem (List.mem_of_getElem? hn))

theorem eof_step {v : State} (hs : Step limit s v) : v.stream.eof = s.stream.eof := by
  obtain ⟨skipped, hskip⟩ := s.stream.reads_skipBlankLines
  cases hs with
  | define place read fresh =>
    obtain ⟨t, taken, hr⟩ := definition_reads_some read
    exact (hskip.trans hr).eof
  | header place ident colon fresh start =>
    obtain ⟨taken, hr⟩ := forward_blockStart _ _ _ _ start
    exact (((hskip.trans (Stream.reads_expect (by decide) ident)).trans
      (Stream.reads_expect (by decide) colon)).trans hr).eof
  | goOn place next kind read | leave place next kind read =>
    obtain ⟨taken, hr⟩ := forward_blockContinues _ _ _ _ read
    exact ((Stream.reads_next? next).trans hr).eof
  | operation place next kind read ends =>
    obtain ⟨taken, hr⟩ := forward_instruction _ _ _ _ read
    exact ((Stream.reads_next? next).trans hr).eof
  | call place next kind read =>
    obtain ⟨m, args, w, -, ha, -, -, rfl, -⟩ := call_eq_ok read
    obtain ⟨taken, hr⟩ := forward_arguments _ _ _ _ ha
    exact ((Stream.reads_next? next).trans hr).eof
  | eof place kind =>
    obtain ⟨taken, hr⟩ := s.stream.advance_follows
    exact hr.eof

theorem Raised.cited {stream : Stream}
    (h : Raised (ParseError.Names (calleeNext stream)) stream e) (hw : Within source stream) :
    e.CitedIn source := by
  obtain ⟨taken, u, hr, ht, hk, hc⟩ := h
  refine ⟨?_, fun k hmem => ?_, fun name hmem => ?_⟩
  · rw [ht]
    exact (hw.reads hr).lookahead 0
  · rw [ht]
    exact hk k hmem
  · have hname := hc name hmem
    unfold calleeNext at hname
    split at hname
    · rename_i hident
      rw [List.mem_singleton.1 hname]
      exact ⟨hw.lookahead 0, hident⟩
    · cases hname

/-- An error of a run is about a token of the source. -/
theorem cited_run (hsign : ∀ t ∈ source, Signless t) (hd : Drawn source s)
    (heof : s.stream.eof ∈ source) (h : (run limit s).result = .error e) : e.CitedIn source := by
  fun_induction run limit s with
  | case1 s e' hs =>
    cases h
    exact (blames_step hs).cited ⟨hd.unread, heof⟩
  | case2 s p hs => cases h
  | case3 s v hs ih =>
    have step := step_eq_running_iff.1 hs
    exact ih (drawn_step hsign hd step) (eof_step step ▸ heof) h

end Parse

end IndentAsm
