import IndentAsm.Proofs.Expansion.Definition
import IndentAsm.Proofs.Parse.Citation
import IndentAsm.Proofs.Token.Indents

/-!
# Indents at line starts, along a run

In the tokens of a text an indent stands at the start of a line only. So it does in the bodies
of macros, which are kept with their line breaks, and in what is left to be read when their
expansions are put in. The line that goes on inside a body has no indent, nor has the header of
a definition.

**Results.**
* `codeIndents_of_readsLine`: reading within a line passes no indent in front of code.
* `definition_cases`: a definition is a line in front of its body, where no indent is at fault.
* `macroBody_leads`: a body that is kept has indents at line starts only.
* `leads_step`, `Leads.of_reachable`: and so has what is left to be read.
-/
namespace IndentAsm.Parse

open IndentAsm.Stream (Reads ReadsLine dropBlank)

variable {limit : Nat} {s v : State}

/-! ## Reading within a line -/

theorem indentsLead_of_expect {start : Bool} {s u : Stream} {t : Token} {kind : Token.Kind}
    (h : IndentsLead start s.tokens) (hk : kind.endsLine = false)
    (hr : s.expect kind = .ok (t, u)) : IndentsLead false u.tokens := by
  obtain ⟨hn, he⟩ := Token.Kind.not_endsLine_iff.1 hk
  obtain ⟨htok, hkind⟩ := Stream.tokens_expect he hr
  rw [htok] at h
  exact h.cons_of_ne (hkind ▸ hn)

theorem codeIndents_of_expect {s u : Stream} {t : Token} {kind : Token.Kind} (hk : kind ≠ .eof)
    (hi : kind ≠ .indent) (hr : s.expect kind = .ok (t, u)) :
    codeIndents u.tokens = codeIndents s.tokens := by
  obtain ⟨htok, hkind⟩ := Stream.tokens_expect hk hr
  rw [htok, codeIndents_of_kind (hkind ▸ hi)]

theorem indentsLead_of_readsLine {s u : Stream} {xs : List Token}
    (h : IndentsLead false s.tokens) (hr : ReadsLine s xs u) : IndentsLead false u.tokens := by
  rw [hr.tokens] at h
  exact h.behind_line hr.not_ends

theorem codeIndents_of_readsLine {s u : Stream} {xs : List Token}
    (h : IndentsLead false s.tokens) (hr : ReadsLine s xs u) :
    codeIndents u.tokens = codeIndents s.tokens := by
  have hline : ∀ x ∈ xs, x.kind ≠ .indent := fun x hx =>
    h.line x (by rw [← Stream.line, hr.line]; exact List.mem_append_left _ hx)
  rw [hr.tokens, codeIndents_append_of_kind hline]

/-- Behind an indent that is left by the blank lines. -/
theorem indentsLead_of_indent {start : Bool} {ts us : List Token} {i : Token}
    (h : IndentsLead start ts) (hd : dropBlank ts = i :: us) (hi : i.kind = .indent) :
    IndentsLead false us := by
  have hsuffix := dropBlank_suffix ts
  rw [hd] at hsuffix
  exact (h.of_suffix hsuffix).cons_of_ne (by simp [hi])

theorem expect_no_indent {s : Stream} {kind : Token.Kind} {e : ParseError}
    (h : s.expect kind = .error e) : ∀ t, e ≠ .invalidIndent t := by
  have hraised : Raised (ParseError.InLine []) s e := Blames.expect kind s e h
  exact hraised.sort.no_indent

/-- What stands in front of the body of a macro is one line: a definition fails there, with no
indent at fault, or is what its body is. -/
theorem definition_cases (indent : Option String) {s : Stream} (h : IndentsLead true s.tokens) :
    (∃ e, definition indent s = .error e ∧ ∀ t, e ≠ .invalidIndent t) ∨
    ∃ (name : Token) (params : List String) (u : Stream), IndentsLead false u.tokens ∧
      codeIndents u.tokens = codeIndents s.tokens ∧
      definition indent s = macroBody indent u >>= fun (p, u) =>
        return ((⟨name.lexeme, name.line, params, p.1⟩, p.2), u) := by
  cases hkey : s.expect .macroKeyword with
  | error e =>
    refine Or.inl ⟨e, ?_, expect_no_indent hkey⟩
    simp only [definition, hkey, bind, Except.bind]
  | ok p =>
  obtain ⟨key, a⟩ := p
  have ha := indentsLead_of_expect h rfl hkey
  cases hname : a.expect .identifier with
  | error e =>
    refine Or.inl ⟨e, ?_, expect_no_indent hname⟩
    simp only [definition, hkey, hname, bind, Except.bind]
  | ok p =>
  obtain ⟨name, b⟩ := p
  have hb := indentsLead_of_expect ha rfl hname
  cases hparams : parameters b with
  | error e =>
    refine Or.inl ⟨e, ?_, (blames_parameters b e hparams).sort.no_indent⟩
    simp only [definition, definitionOf, hkey, hname, hparams, bind, Except.bind]
  | ok p =>
  obtain ⟨params, c⟩ := p
  obtain ⟨xs, hline, -⟩ := parameters_eq_ok hparams
  have hc := indentsLead_of_readsLine hb hline
  cases hcolon : c.expect .colon with
  | error e =>
    refine Or.inl ⟨e, ?_, expect_no_indent hcolon⟩
    simp only [definition, definitionOf, hkey, hname, hparams, hcolon, bind, Except.bind]
  | ok p =>
  obtain ⟨colon, u⟩ := p
  refine Or.inr ⟨name, params, u, indentsLead_of_expect hc rfl hcolon, ?_, ?_⟩
  · rw [codeIndents_of_expect (by decide) (by decide) hcolon, codeIndents_of_readsLine hb hline,
      codeIndents_of_expect (by decide) (by decide) hname,
      codeIndents_of_expect (by decide) (by decide) hkey]
  · simp only [definition, definitionOf, hkey, hname, hparams, hcolon, bind, Except.bind]

/-! ## Indents at line starts, along a run -/

theorem blockBody_leads {indent : Option String} {s s' : Stream} {body : Array Token}
    {ts : List Token} (h : blockBody indent s body = .ok (ts, s'))
    (hs : IndentsLead false s.tokens) :
    ∃ more, ts = body.toList ++ more ∧ IndentsLead false more := by
  fun_induction blockBody indent s body with
  | case1 s body hn => cases h; exact ⟨[], by simp, trivial⟩
  | case2 s body t u hn hk => cases h; exact ⟨[], by simp, trivial⟩
  | case3 s body t u hn hk he e hc => cases h
  | case4 s body t u hn hk he w hc => cases h; exact ⟨[], by simp, trivial⟩
  | case5 s body t u hn hk he i w hc ih =>
    rw [Stream.tokens_of_next? hn] at hs
    obtain ⟨hd, hi, -⟩ := blockContinues_eq_some hc
    obtain ⟨more, rfl, hmore⟩ := ih h (indentsLead_of_indent hs.2 hd hi)
    refine ⟨t :: i :: more, by simp, fun hk => by simp [he] at hk, fun _ => by simp [he], ?_⟩
    rwa [beq_eq_false_iff_ne.2 (by simp [hi])]
  | case6 s body t u hn hk he ih =>
    rw [Stream.tokens_of_next? hn] at hs
    obtain ⟨more, rfl, hmore⟩ := ih h (hs.cons_of_ne he)
    refine ⟨t :: more, by simp, hs.1, ?_⟩
    rwa [beq_eq_false_iff_ne.2 he]

theorem macroBody_leads {indent indent' : Option String} {s s' : Stream} {body : List Token}
    (h : macroBody indent s = .ok ((body, indent'), s')) (hs : IndentsLead false s.tokens) :
    IndentsLead false body := by
  unfold macroBody at h
  split at h
  · obtain ⟨⟨t, u⟩, ht, h⟩ := bind_eq_ok.1 h
    obtain ⟨⟨ts, w⟩, hb, h⟩ := bind_eq_ok.1 h
    cases h
    obtain ⟨hd, hi, -⟩ := blockStart_eq_ok ht
    obtain ⟨more, rfl, hmore⟩ := blockBody_leads hb (indentsLead_of_indent hs hd hi)
    simpa using hmore
  · cases h
    rw [(inlineBody_eq s #[]).1]
    exact IndentsLead.of_kind (by simpa [Stream.line] using hs.line)

/-- The indents of what is left to be read, and of the bodies of macros, are at line starts.
Inside a body the reader has left the start of the line, and an indent is fixed. -/
structure Leads (s : State) : Prop where
  unread : IndentsLead true s.stream.tokens
  inside : s.place ≠ .outside → IndentsLead false s.stream.tokens ∧ s.indent ≠ none
  bodies : ∀ name m, s.macros.get? name = some m → IndentsLead false m.body

theorem leads_ofTokens {tokens : List Token} (h : IndentsLead true tokens) :
    Leads (.ofTokens tokens) where
  unread := by rwa [State.ofTokens, Stream.tokens_ofTokens]
  inside hp := absurd rfl hp
  bodies name m hm := by cases hm

theorem Leads.of_reads (h : Leads s) {taken : List (Token × Nat)} {u : Stream}
    (hr : Reads s.stream taken u) : IndentsLead true u.tokens := by
  have hs := h.unread
  rw [Stream.tokens_of_reads hr] at hs
  exact hs.of_append

theorem Leads.skip (h : Leads s) : IndentsLead true s.stream.skipBlankLines.tokens := by
  obtain ⟨taken, hr⟩ := s.stream.reads_skipBlankLines
  exact h.of_reads hr

/-- Between definitions, behind what was read. -/
theorem Leads.close (h : Leads s) {name : Token} {code : List Instruction} {stream : Stream}
    {taken : List (Token × Nat)} (hr : Reads s.stream taken stream) :
    Leads (s.close name code stream) where
  unread := h.of_reads hr
  inside hp := absurd rfl hp
  bodies := h.bodies

/-- The line that goes on inside a body. -/
theorem Leads.next (h : Leads s) (place : s.place ≠ .outside) {t : Token} {u : Stream}
    (next : s.stream.next? = some (t, u)) (kind : t.kind ≠ .newLine) :
    IndentsLead false u.tokens := by
  have hs := (h.inside place).1
  rw [Stream.tokens_of_next? next] at hs
  exact hs.cons_of_ne kind

theorem leads_step (h : Leads s) (hs : Step limit s v) : Leads v := by
  cases hs with
  | @define m indent stream place read fresh =>
    obtain ⟨skipped, hskip⟩ := s.stream.reads_skipBlankLines
    obtain ⟨t, taken, hr⟩ := definition_reads_some read
    refine ⟨h.of_reads (hskip.trans hr), fun hp => absurd place hp, fun name m' hm => ?_⟩
    rw [NameMap.get?_insert] at hm
    split at hm
    · cases hm
      rcases definition_cases s.indent h.skip with ⟨e, he, -⟩ | ⟨name, params, u, hu, -, heq⟩
      · cases read.symm.trans he
      · obtain ⟨⟨⟨body, indent'⟩, w⟩, hbody, hm⟩ := bind_eq_ok.1 (heq.symm.trans read)
        cases hm
        exact macroBody_leads hbody hu
    · exact h.bodies name m' hm
  | header place ident colon fresh start =>
    have hw := indentsLead_of_expect (indentsLead_of_expect h.skip rfl ident) rfl colon
    obtain ⟨hd, hi, -⟩ := blockStart_eq_ok start
    have hstream := indentsLead_of_indent hw hd hi
    exact ⟨hstream.weaken, fun _ => ⟨hstream, by simp⟩, h.bodies⟩
  | goOn place next kind read =>
    obtain ⟨hd, hi, -⟩ := blockContinues_eq_some read
    have hu := h.of_reads (Stream.reads_next? next)
    have hstream := indentsLead_of_indent hu hd hi
    exact ⟨hstream.weaken, fun _ => ⟨hstream, by simp⟩, h.bodies⟩
  | leave place next kind read =>
    obtain ⟨taken, hr⟩ := forward_blockContinues _ _ _ _ read
    exact h.close ((Stream.reads_next? next).trans hr)
  | @operation name t code op i u stream place next kind read ends =>
    have hu := h.next (by simp [place]) next (by simp [kind])
    obtain ⟨operands, hr, -⟩ := onLine_instruction op u i stream read
    have hstream := indentsLead_of_readsLine hu hr
    exact ⟨hstream.weaken, fun _ => ⟨hstream, (h.inside (by simp [place])).2⟩, h.bodies⟩
  | @call name t code event u stream place next kind read =>
    have hu := h.next (by simp [place]) next (by simp [kind])
    obtain ⟨m, args, w, hm, ha, -, -, rfl, -⟩ := call_eq_ok read
    obtain ⟨hr, -, -, hargs⟩ := arguments_eq_ok ha
    have hstream : IndentsLead false (w.insert (m.expand args)).tokens := by
      rw [tokens_insert]
      exact ((h.bodies _ m hm).expand hargs).append (indentsLead_of_readsLine hu hr)
    exact ⟨hstream.weaken, fun _ => ⟨hstream, (h.inside (by simp [place])).2⟩, h.bodies⟩
  | eof place kind =>
    obtain ⟨taken, hr⟩ := s.stream.advance_follows
    exact h.close hr

theorem Leads.of_reachable {tokens : List Token} (ht : IndentsLead true tokens)
    (h : Reachable limit tokens s) : Leads s := by
  induction h with
  | refl => exact leads_ofTokens ht
  | tail _ hs ih => exact leads_step ih hs

end IndentAsm.Parse
