import IndentAsm.Proofs.Parse.Baseline
import IndentAsm.Proofs.Parse.CallLine

/-!
# The bodies that are kept

A macro is kept from its definition on, whatever is read behind it. Its body has the shape of
code, which `LineShape` says place by place: something stands on its first line, and each line
break leads to the indent of all blocks and to something behind that. A body on the line of its
header (`Heads`) is the rest of that line, without a line break.

Arguments end no line and are no indents. So a call that is accepted puts in as many tokens as
the body has, with the line breaks and indents where the body has them.

**Results.**
* `headed_definition`: a definition that is read starts with its header, and a body behind
  the colon is the rest of the line.
* `headed_step`: a step keeps the headers of the macros that are kept.
* `kept_of_reachable`: the bodies and their expansions, in every state of every run.
-/
namespace IndentAsm.Parse

open IndentAsm.Stream (ReadsLine lineOf)

/-! ## Line shape -/

/-- Code of one or more lines, from the middle of the first one on, where `indent` is that of
all blocks. -/
structure LineShape (indent : Option String) (ts : List Token) : Prop where
  ne_nil : ts ≠ []
  no_eof : ∀ t ∈ ts, t.kind ≠ .eof
  first : ∀ t ∈ ts.head?, t.kind ≠ .newLine
  last : ∀ t ∈ ts.getLast?, t.kind ≠ .newLine
  /-- A line break has an indent and the start of a line behind it. -/
  breaks : ∀ before t after, ts = before ++ t :: after → t.kind = .newLine →
    ∃ i x rest, after = i :: x :: rest ∧ i.kind = .indent ∧ indent = some i.lexeme ∧
      x.kind ≠ .newLine ∧ x.kind ≠ .eof

section
variable {indent : Option String} {ts : List Token}

theorem Lined.of_append {before after : List Token} (h : Lined indent (before ++ after)) :
    Lined indent after := by
  induction before with
  | nil => exact h
  | cons t before ih => exact ih h.2.2

theorem Shaped.lineShape (h : Shaped indent ts) : LineShape indent ts := by
  obtain ⟨first, us, hts, hfirst⟩ := h.starts
  have hbreaks : ∀ before t after, ts = before ++ t :: after → t.kind = .newLine →
      ∃ i x rest, after = i :: x :: rest ∧ i.kind = .indent ∧ indent = some i.lexeme ∧
        x.kind ≠ .newLine ∧ x.kind ≠ .eof := by
    intro before t after hsplit hk
    have hl := h.lined
    rw [hsplit] at hl
    obtain ⟨i, x, rest, hafter, hi, hindent, hx⟩ := hl.of_append.2.1 hk
    exact ⟨i, x, rest, hafter, hi, hindent, Token.Kind.not_endsLine_iff.1 hx⟩
  refine ⟨by simp [hts], h.lined.no_eof, ?_, ?_, hbreaks⟩
  · intro t ht
    simp only [hts, List.head?_cons, Option.mem_def, Option.some.injEq] at ht
    rw [← ht]
    exact (Token.Kind.not_endsLine_iff.1 hfirst).1
  · -- behind a line break comes another token, so none is the last
    intro t ht hk
    obtain ⟨before, hlast⟩ := List.getLast?_eq_some_iff.1 ht
    obtain ⟨i, x, rest, hafter, -⟩ := hbreaks before t [] hlast hk
    cases hafter

end

/-! ## Headers -/

/-- The tokens start with the header of the macro `m`, and `rest` comes behind its colon. -/
def Heads (m : Macro) (rest ts : List Token) : Prop :=
  ∃ key name colon params, ts = key :: name :: (params ++ colon :: rest) ∧
    key.kind = .macroKeyword ∧ name.kind = .identifier ∧ colon.kind = .colon ∧
    (∀ t ∈ params, t.kind ≠ .colon) ∧
    m.name = name.lexeme ∧ m.line = name.line ∧ m.params = names params

/-- The header of `m` stands in the source. A body that starts on its line ends with it. -/
def HeadedIn (tokens : List Token) (m : Macro) : Prop :=
  ∃ ts rest, ts <:+ tokens ∧ Heads m rest ts ∧
    ∀ t ∈ rest.head?, t.kind.endsLine = false → m.body = lineOf rest

theorem macroBody_of_inline {indent indent' : Option String} {s s' : Stream} {body : List Token}
    (h : macroBody indent s = .ok ((body, indent'), s')) {t : Token} (ht : t ∈ s.tokens.head?)
    (hk : t.kind.endsLine = false) : body = lineOf s.tokens := by
  obtain ⟨ts, hts⟩ := List.head?_eq_some_iff.1 ht
  unfold macroBody at h
  rw [if_neg (by simp [Stream.peek_of_tokens hts, hk])] at h
  cases h
  simp [(inlineBody_eq s #[]).1, Stream.line]

/-- A definition that is read starts with its header. -/
theorem headed_definition {indent indent' : Option String} {s s' : Stream} {m : Macro}
    (h : definition indent s = .ok ((m, indent'), s')) : ∃ rest, Heads m rest s.tokens ∧
      ∀ t ∈ rest.head?, t.kind.endsLine = false → m.body = lineOf rest := by
  obtain ⟨⟨key, a⟩, hkey, h⟩ := bind_eq_ok.1 h
  obtain ⟨⟨name, b⟩, hname, h⟩ := bind_eq_ok.1 h
  obtain ⟨⟨params, c⟩, hparams, h⟩ := bind_eq_ok.1 h
  obtain ⟨⟨colon, u⟩, hcolon, h⟩ := bind_eq_ok.1 h
  obtain ⟨⟨⟨body, indent''⟩, w⟩, hbody, h⟩ := bind_eq_ok.1 h
  cases h
  obtain ⟨hr₁, hkeyk⟩ := readsLine_expect rfl hkey
  obtain ⟨hr₂, hnamek⟩ := readsLine_expect rfl hname
  obtain ⟨ps, hr₃, hpc, rfl⟩ := parameters_eq_ok hparams
  obtain ⟨hr₄, hcolonk⟩ := readsLine_expect rfl hcolon
  have hr : ReadsLine s (key :: name :: (ps ++ [colon])) u := hr₁.trans (hr₂.trans (hr₃.trans hr₄))
  refine ⟨u.tokens, ⟨key, name, colon, ps, ?_, hkeyk, hnamek, hcolonk, hpc, rfl, rfl, rfl⟩, ?_⟩
  · rw [hr.tokens]
    simp
  · intro t ht hk
    exact macroBody_of_inline hbody ht hk

section
variable {limit : Nat} {tokens : List Token} {s v : State}

theorem headed_step (hi : Inv limit tokens s)
    (h : ∀ key m, s.macros.get? key = some m → HeadedIn tokens m) (hs : Step limit s v) :
    ∀ key m, v.macros.get? key = some m → HeadedIn tokens m := by
  cases hs with
  | define place read fresh =>
    intro key m' hm
    rw [NameMap.get?_insert] at hm
    split at hm
    · cases hm
      -- between definitions, what is left is the end of the source
      obtain ⟨rest, hheads, hbody⟩ := headed_definition read
      have hsuffix := (hi.outside place).suffix hi.nested
      rw [Stream.tokens_skipBlankLines] at hheads
      exact ⟨_, rest, (dropBlank_suffix _).trans hsuffix, hheads, hbody⟩
    · exact h key m' hm
  | header place ident colon fresh start => exact h
  | goOn place next kind read => exact h
  | leave place next kind read => exact h
  | operation place next kind read ends => exact h
  | call place next kind read => exact h
  | eof place kind => exact h

theorem headedIn_of_reachable (h : Reachable limit tokens s) :
    ∀ key m, s.macros.get? key = some m → HeadedIn tokens m := by
  induction h with
  | refl =>
    intro key m hm
    simp [State.ofTokens] at hm
  | tail hr hs ih => exact headed_step (inv_of_reachable hr) ih hs

end

/-! ## Expansions -/

/-- The expansion of `m` with some arguments reads like its body. -/
structure ReadsAlike (indent : Option String) (m : Macro) (args : List Token) : Prop where
  length : (m.expand args).length = m.body.length
  shape : LineShape indent (m.expand args)
  /-- Line breaks and indents stand where the body has them. -/
  marks : ∀ kind, kind = .newLine ∨ kind = .indent →
    (m.expand args).map (·.kind == kind) = m.body.map (·.kind == kind)
  /-- Only identifiers that name a parameter are replaced. -/
  differs : ∀ (i : Nat) t t', m.body[i]? = some t → (m.expand args)[i]? = some t' → t' ≠ t →
    t.kind = .identifier ∧ t.lexeme ∈ m.params

theorem marks_expand {m : Macro} {args : List Token}
    (ha : ∀ a ∈ args, isArgument a.kind = true) {kind : Token.Kind}
    (hk : kind = .newLine ∨ kind = .indent) :
    (m.expand args).map (·.kind == kind) = m.body.map (·.kind == kind) := by
  rw [Macro.expand, List.map_map]
  apply List.map_congr_left
  intro t _
  rcases argument?_getD m args t with hkept | ⟨hident, hmem⟩
  · simp [hkept]
  · -- neither an identifier nor an argument is a line break or an indent
    have hends := not_ends_of_isArgument (ha _ hmem)
    have hindent := ne_indent_of_isArgument (ha _ hmem)
    obtain ⟨hnl, -⟩ := Token.Kind.not_endsLine_iff.1 hends
    rcases hk with rfl | rfl <;> simp [hident, hnl, hindent]

theorem differs_expand {m : Macro} {args : List Token}
    (hn : args.length = m.params.length) {i : Nat} {t t' : Token} (ht : m.body[i]? = some t)
    (ht' : (m.expand args)[i]? = some t') (hne : t' ≠ t) :
    t.kind = .identifier ∧ t.lexeme ∈ m.params := by
  rw [Macro.expand, List.getElem?_map, ht, Option.map_some, Option.some.injEq] at ht'
  have hs := substituted_argument? hn t
  rw [ht'] at hs
  cases hs with
  | argument ident param first arg => exact ⟨ident, List.mem_of_getElem? param⟩
  | kept other => exact absurd rfl hne

theorem readsAlike_expand {indent : Option String} {m : Macro} {args : List Token}
    (h : Shaped indent m.body) (ha : ∀ a ∈ args, isArgument a.kind = true)
    (hn : args.length = m.params.length) : ReadsAlike indent m args where
  length := m.length_expand args
  shape := (h.expand fun a hm => not_ends_of_isArgument (ha a hm)).lineShape
  marks _ hk := marks_expand ha hk
  differs _ _ _ ht ht' hne := differs_expand hn ht ht' hne

/-! ## Along every run -/

/-- What holds of a macro `m` that is kept under the name `key` at a state of a run. -/
structure Kept (limit : Nat) (tokens : List Token) (s : State) (key : String) (m : Macro) :
    Prop where
  /-- Its body has the shape of code. -/
  body : LineShape s.indent m.body
  /-- A body on the line of the header is the rest of that line, without a line break. -/
  inline : ∃ ts rest, ts <:+ tokens ∧ Heads m rest ts ∧
    ∀ t ∈ rest.head?, t.kind.endsLine = false →
      m.body = lineOf rest ∧ ∀ x ∈ m.body, x.kind ≠ .newLine
  /-- A call that is accepted puts in an expansion that reads like the body. -/
  expansion : ∀ name u event v, name.lexeme = key → call limit s.macros name u = .ok (event, v) →
    ∃ args w, arguments name u = .ok (args, w) ∧ v = w.insert (m.expand args) ∧
      ReadsAlike s.indent m args

/-- Bodies and expansions keep to their lines in every state of every run. -/
theorem kept_of_reachable {limit : Nat} {tokens : List Token} {s : State} {key : String}
    {m : Macro} (h : Reachable limit tokens s) (stored : s.macros.get? key = some m) :
    Kept limit tokens s key m := by
  have hshape := (inv_of_reachable h).macros key m stored
  refine ⟨hshape.lineShape, ?_, ?_⟩
  · obtain ⟨ts, rest, hsuffix, hheads, hbody⟩ := headedIn_of_reachable h key m stored
    refine ⟨ts, rest, hsuffix, hheads, ?_⟩
    intro t ht hk
    have hline := hbody t ht hk
    refine ⟨hline, ?_⟩
    intro x hx
    rw [hline] at hx
    exact (Token.Kind.not_endsLine_iff.1 (Stream.not_ends_of_mem_lineOf hx)).1
  · intro name u event v hname hcall
    obtain ⟨args, w, hargs, hn, -, hv, -⟩ := (call_eq_ok_iff (hname ▸ stored)).1 hcall
    obtain ⟨-, -, -, harg⟩ := arguments_eq_ok hargs
    exact ⟨args, w, hargs, hv, readsAlike_expand hshape harg hn⟩

/-- A macro of two lines with a blank one between them, and a call of it. -/
def twoLines : List Token :=
  [⟨.macroKeyword, "@macro", 1⟩, ⟨.identifier, "hop", 1⟩, ⟨.parenOpen, "(", 1⟩,
    ⟨.identifier, "x", 1⟩, ⟨.parenClose, ")", 1⟩, ⟨.colon, ":", 1⟩, ⟨.newLine, "\n", 1⟩,
    ⟨.indent, "  ", 2⟩, ⟨.identifier, "x", 2⟩, ⟨.newLine, "\n", 2⟩,
    ⟨.indent, "    ", 3⟩, ⟨.newLine, "\n", 3⟩,
    ⟨.indent, "  ", 4⟩, ⟨.operation .jmp, "JMP", 4⟩, ⟨.identifier, "x", 4⟩, ⟨.newLine, "\n", 4⟩,
    ⟨.identifier, "main", 5⟩, ⟨.colon, ":", 5⟩, ⟨.newLine, "\n", 5⟩,
    ⟨.indent, "  ", 6⟩, ⟨.identifier, "hop", 6⟩, ⟨.identifier, "main", 6⟩, ⟨.newLine, "\n", 6⟩,
    ⟨.eof, "", 7⟩]

/-- The body keeps one line break, with the indent behind it, and so does the expansion. -/
theorem kept_twoLines : ∃ s u event v m, Reachable 64 twoLines s ∧
    s.macros.get? "hop" = some m ∧ s.indent = some "  " ∧
    m.body = [⟨.identifier, "x", 2⟩, ⟨.newLine, "\n", 2⟩, ⟨.indent, "  ", 4⟩,
      ⟨.operation .jmp, "JMP", 4⟩, ⟨.identifier, "x", 4⟩] ∧
    call 64 s.macros ⟨.identifier, "hop", 6⟩ u = .ok (event, v) ∧
    v.tokens = [⟨.identifier, "main", 6⟩, ⟨.newLine, "\n", 2⟩, ⟨.indent, "  ", 4⟩,
      ⟨.operation .jmp, "JMP", 4⟩, ⟨.identifier, "main", 6⟩, ⟨.newLine, "\n", 6⟩, ⟨.eof, "", 7⟩] ∧
    Kept 64 twoLines s "hop" m := by
  have h : (State.after 64 2 (.ofTokens twoLines)).map (fun s =>
      ((s.macros.get? "hop").map Macro.body, s.indent,
        (call 64 s.macros ⟨.identifier, "hop", 6⟩ s.stream.advance.2).toOption.map (·.2.tokens))) =
      some (some [⟨.identifier, "x", 2⟩, ⟨.newLine, "\n", 2⟩, ⟨.indent, "  ", 4⟩,
          ⟨.operation .jmp, "JMP", 4⟩, ⟨.identifier, "x", 4⟩], some "  ",
        some [⟨.identifier, "main", 6⟩, ⟨.newLine, "\n", 2⟩, ⟨.indent, "  ", 4⟩,
          ⟨.operation .jmp, "JMP", 4⟩, ⟨.identifier, "main", 6⟩, ⟨.newLine, "\n", 6⟩,
          ⟨.eof, "", 7⟩]) := by decide +kernel
  obtain ⟨s, hs, hv⟩ := Option.map_eq_some_iff.1 h
  simp only [Prod.mk.injEq] at hv
  obtain ⟨hfound, hindent, hcall⟩ := hv
  obtain ⟨m, stored, hbody⟩ := Option.map_eq_some_iff.1 hfound
  obtain ⟨⟨event, v⟩, hok, htokens⟩ := Option.map_eq_some_iff.1 hcall
  have hread : call 64 s.macros ⟨.identifier, "hop", 6⟩ s.stream.advance.2 = .ok (event, v) := by
    cases hc : call 64 s.macros ⟨.identifier, "hop", 6⟩ s.stream.advance.2 with
    | error e => simp [hc, Except.toOption] at hok
    | ok r =>
      simp only [hc, Except.toOption, Option.some.injEq] at hok
      rw [hok]
  have hr := reachable_of_after hs
  exact ⟨s, _, event, v, m, hr, stored, hindent, hbody, hread, htokens,
    kept_of_reachable hr stored⟩

end IndentAsm.Parse
