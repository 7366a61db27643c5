import IndentAsm.Proofs.Parse.Checked
import IndentAsm.Proofs.Parse.Grammar

/-!
# Reading is deriving

Text without macros is read as the program that the grammar derives from its
lines, and only as that one. In the middle of a run, a part of the derivation is
behind the reader: `Rest` says that the lines still to be read have a derivation,
of what the program has more than was read so far. Between definitions that is a
list of subroutines. Inside a body it starts with the rest of one line, which is an
instruction, or nothing where the instruction was just read.

Read backwards along a run, `Rest` grows by what each step takes, from nothing at
the end of the text to all of the program at its start (`Finishes.rest`). Read
forwards, it says which step comes next, so no step fails before the end
(`Rest.result_eq`).

**Results.**
* `Rest.of_step`: if the rest behind a step is derived, so is the rest before it.
* `Rest.step`: if the rest is derived, then there is a step, or the run is over.
* `result_eq_ok_iff_derives`: a text without macros is read as a program exactly if
  the grammar derives it.
-/
namespace IndentAsm.Parse

open IndentAsm.Grammar
open IndentAsm.Stream (Reads ReadsLine dropBlank startsBlank lineOf)

/-- A state of a run on code without macros. -/
structure State.Plain (s : State) : Prop where
  tokens : IndentAsm.Plain s.stream.tokens
  macros : s.macros = .empty

/-- What is left of a line of a body: its instruction, or nothing behind it. -/
inductive RestOfLine : List Token → List Instruction → Prop where
  | done : RestOfLine [] []
  | code {ts : List Token} {i : Instruction} (code : Code ts i) : RestOfLine ts [i]

/-- What is left to be read at a state is derived as what the program `p` has more
than was read so far. -/
inductive Rest (p : Program) (s : State) : Prop where
  | outside {indent : String} {subs : List Subroutine} (place : s.place = .outside)
      (fixed : ∀ i ∈ s.indent, i = indent)
      (derived : Subroutines indent (codeLines s.stream.tokens) subs)
      (program : p.subroutines = s.subroutines.reverse ++ subs)
  | inside {name : Token} {code now more : List Instruction} {indent : String}
      {body rest : List (List Token)} {subs : List Subroutine}
      (place : s.place = .inside name code)
      (fixed : ∀ i ∈ s.indent, i = indent)
      (line : RestOfLine s.stream.line now)
      (behind : codeLines (afterLine s.stream.tokens) = body ++ rest)
      (derived : List.Forall₂ (BodyLine indent) body more)
      (others : Subroutines indent rest subs)
      (program : p.subroutines = s.subroutines.reverse ++
        ⟨name.lexeme, name.line, code.reverse ++ now ++ more⟩ :: subs)

theorem RestOfLine.of_ne_nil {ts : List Token} {now : List Instruction} (h : RestOfLine ts now)
    (hne : ts ≠ []) : ∃ i, Code ts i ∧ now = [i] := by
  cases h with
  | done => exact absurd rfl hne
  | code hc => exact ⟨_, hc, rfl⟩

theorem RestOfLine.of_nil {ts : List Token} {now : List Instruction} (h : RestOfLine ts now)
    (hts : ts = []) : now = [] := by
  subst hts
  cases h with
  | done => rfl
  | code hc => cases hc

variable {limit : Nat} {s v : State} {p : Program}

/-! ## Tokens of a plain state -/

theorem suffix_of_reads {u u' : Stream} {taken : List (Token × Nat)} (h : Reads u taken u') :
    u'.tokens <:+ u.tokens :=
  ⟨_, (Stream.tokens_of_reads h).symm⟩

theorem peek_of_macroless {u : Stream} (h : IndentAsm.Plain u.tokens) :
    u.peek.kind ≠ .macroKeyword := by
  intro hk
  cases hts : u.tokens with
  | nil => rw [Stream.peek_of_tokens_nil hts, u.eof_kind] at hk; cases hk
  | cons t ts =>
    rw [Stream.peek_of_tokens hts] at hk
    exact h.macroless t (by simp [hts]) hk

theorem State.Plain.definition_ne_ok (h : s.Plain) {indent : Option String}
    {found : (Macro × Option String) × Stream} :
    definition indent s.stream.skipBlankLines ≠ .ok found := by
  intro hd
  obtain ⟨⟨t, u⟩, ht, -⟩ := bind_eq_ok.1 hd
  obtain ⟨hp, hk⟩ := peek_of_expect ht
  obtain ⟨x, hx⟩ := s.stream.reads_skipBlankLines
  exact peek_of_macroless (h.tokens.of_suffix (suffix_of_reads hx)) (hp ▸ hk)

theorem State.Plain.call_ne_ok (h : s.Plain) {name : Token} {u : Stream}
    {found : Event × Stream} : call limit s.macros name u ≠ .ok found := by
  intro hc
  obtain ⟨m, -, -, hm, -⟩ := call_eq_ok hc
  rw [h.macros] at hm
  cases hm

/-- On code without macros a step reads on, and there are still no macros. -/
theorem State.Plain.step (h : s.Plain) (hs : Step limit s v) : v.Plain := by
  have reads {v : State} {taken : List (Token × Nat)} (hm : v.macros = s.macros)
      (hr : Reads s.stream taken v.stream) : v.Plain :=
    ⟨h.tokens.of_suffix (suffix_of_reads hr), hm.trans h.macros⟩
  cases hs with
  | define place read fresh => exact absurd read h.definition_ne_ok
  | header place ident colon fresh start =>
    obtain ⟨x, hx⟩ := s.stream.reads_skipBlankLines
    obtain ⟨y, hy⟩ := forward_blockStart _ _ _ _ start
    exact reads rfl (((hx.trans (Stream.reads_expect (by decide) ident)).trans
      (Stream.reads_expect (by decide) colon)).trans hy)
  | goOn place next kind read =>
    obtain ⟨y, hy⟩ := forward_blockContinues _ _ _ _ read
    exact reads rfl ((Stream.reads_next? next).trans hy)
  | leave place next kind read =>
    obtain ⟨y, hy⟩ := forward_blockContinues _ _ _ _ read
    exact reads rfl ((Stream.reads_next? next).trans hy)
  | operation place next kind read ends =>
    obtain ⟨y, hy⟩ := forward_instruction _ _ _ _ read
    exact reads rfl ((Stream.reads_next? next).trans hy)
  | call place next kind read => exact absurd read h.call_ne_ok
  | eof place kind =>
    obtain ⟨y, hy⟩ := s.stream.advance_follows
    exact reads rfl hy

theorem State.Plain.of_next? {t : Token} {u : Stream} (h : s.Plain)
    (next : s.stream.next? = some (t, u)) : IndentAsm.Plain u.tokens :=
  h.tokens.of_suffix (suffix_of_reads (Stream.reads_next? next))

/-- At an end token, nothing else is left. -/
theorem ending_of_peek {u : Stream} (h : IndentAsm.Plain u.tokens) (hp : u.peek.kind = .eof) :
    Ending u.tokens := by
  obtain ⟨b, z, hb, hz, hu⟩ := h.split
  cases b with
  | nil => exact hu ▸ hz
  | cons t ts =>
    rw [Stream.peek_of_tokens hu] at hp
    exact absurd hp (hb.no_eof t List.mem_cons_self)

/-- An instruction that ends its line takes all of it, and nothing behind it. -/
theorem tokens_of_instruction {op : Mnemonic} {u stream : Stream} {i : Instruction}
    (read : instruction op u = .ok (i, stream)) (hl : stream.line = []) :
    stream.tokens = afterLine u.tokens := by
  obtain ⟨ts, hr, -⟩ := onLine_instruction op u i stream read
  have hts : u.line = ts := by rw [hr.line, hl, List.append_nil]
  have htok := hr.tokens
  rw [← hts, Stream.line] at htok
  exact List.append_cancel_left (htok.symm.trans (lineOf_append_afterLine u.tokens).symm)

/-! ## What was read is derived -/

/-- The line of a header ends behind its colon. -/
theorem lineOf_of_blockStart {indent : Option String} {colon t : Token} {u w stream : Stream}
    (hu : IndentAsm.Plain u.tokens) (hcol : u.tokens = colon :: w.tokens)
    (hck : colon.kind = .colon) (start : blockStart indent w = .ok (t, stream)) :
    lineOf w.tokens = [] := by
  obtain ⟨b, z, hb, hz, hbz⟩ := hu.split
  rw [hcol] at hbz
  obtain ⟨b', rfl, hwz⟩ := split_code_cons hz (by simp [hck]) hbz.symm
  obtain ⟨x, c, rfl, hx, -⟩ := newLine_of_blockStart hz hb hck hwz start
  rw [hwz]
  exact Stream.lineOf_cons_of_ends _ (by rw [hx]; rfl)

theorem Rest.of_header {name colon t : Token} {u w stream : Stream} (hp : s.Plain)
    (place : s.place = .outside)
    (ident : s.stream.skipBlankLines.expect .identifier = .ok (name, u))
    (hcolon : u.expect .colon = .ok (colon, w))
    (start : blockStart s.indent w = .ok (t, stream))
    (hr : Rest p { s with stream := stream, place := .inside name [], indent := some t.lexeme }) :
    Rest p s := by
  obtain ⟨hname, hnk⟩ := Stream.tokens_expect (by decide) ident
  obtain ⟨hcol, hck⟩ := Stream.tokens_expect (by decide) hcolon
  obtain ⟨hd, ht, hti⟩ := blockStart_eq_ok start
  rw [Stream.tokens_skipBlankLines] at hname
  have hu : IndentAsm.Plain u.tokens :=
    hp.tokens.codeLines_dropBlank.1.of_suffix (hname ▸ List.suffix_cons name u.tokens)
  have hw : IndentAsm.Plain w.tokens := hu.of_suffix (hcol ▸ List.suffix_cons colon w.tokens)
  have hcode := hp.tokens.codeLines_header (hcol ▸ hname) hnk hck
    (lineOf_of_blockStart hu hcol hck start)
  obtain ⟨hbody, hne⟩ := hw.codeLines_of_dropBlank hd (by rw [ht]; rfl)
  cases hr with
  | outside place' => cases place'
  | inside place' fixed line behind derived others program =>
    cases place'
    obtain ⟨i, hi, rfl⟩ := line.of_ne_nil (hne ht)
    have hindent := fixed t.lexeme rfl
    refine .outside place (fun j hj => (hti j hj).trans hindent) ?_ program
    rw [hcode, hbody, behind]
    exact .cons hnk hck (by simp) (.cons (.mk ht hindent hi) derived) others

/-- At a new line nothing is left of the line before it. -/
theorem restOfLine_of_newLine {t : Token} {u u' : Stream} (next : u.next? = some (t, u'))
    (kind : t.kind = .newLine) :
    RestOfLine u.line [] ∧ codeLines (afterLine u.tokens) = codeLines u'.tokens := by
  have hte : t.kind.endsLine = true := by rw [kind]; rfl
  rw [Stream.line, Stream.tokens_of_next? next, Stream.lineOf_cons_of_ends _ hte,
    afterLine_cons_of_ends _ hte, codeLines_newLine kind]
  exact ⟨.done, rfl⟩

/-- At the end nothing is left at all. -/
theorem restOfLine_of_ending {u : Stream} (h : Ending u.tokens) :
    RestOfLine u.line [] ∧ codeLines (afterLine u.tokens) = [] := by
  have hl : u.line = [] := Stream.line_eq_nil_iff.2 (by rw [h.peek rfl]; rfl)
  rw [hl, afterLine_of_lineOf_nil hl, codeLines_of_ending h]
  exact ⟨.done, rfl⟩

/-- At a mnemonic the rest of the line is read as one instruction, and what is
behind the line stays. -/
theorem line_of_operation {t : Token} {op : Mnemonic} {i : Instruction} {u u' stream : Stream}
    (next : u.next? = some (t, u')) (kind : t.kind = .operation op)
    (read : instruction op u' = .ok (i, stream)) (hl : stream.line = []) :
    u.line = t :: u'.line ∧ afterLine stream.tokens = afterLine u.tokens := by
  have hte : t.kind.endsLine = false := by rw [kind]; rfl
  rw [Stream.line, Stream.tokens_of_next? next, Stream.lineOf_cons_of_not _ hte,
    afterLine_cons_of_not _ hte, afterLine_of_lineOf_nil hl, tokens_of_instruction read hl]
  exact ⟨rfl, rfl⟩

theorem Rest.of_goOn {name t i : Token} {code : List Instruction} {u stream : Stream}
    (hp : s.Plain) (place : s.place = .inside name code) (next : s.stream.next? = some (t, u))
    (kind : t.kind = .newLine) (read : blockContinues s.indent u = .ok (some i, stream))
    (hr : Rest p { s with stream := stream, indent := some i.lexeme }) : Rest p s := by
  obtain ⟨hline, hbehind⟩ := restOfLine_of_newLine next kind
  obtain ⟨hd, hi, hfixed⟩ := blockContinues_eq_some read
  obtain ⟨hcode, hne⟩ := (hp.of_next? next).codeLines_of_dropBlank hd (by rw [hi]; rfl)
  cases hr with
  | outside place' =>
    rw [show s.place = .outside from place'] at place
    cases place
  | inside place' fixed line behind derived others program =>
    obtain ⟨j, hj, rfl⟩ := line.of_ne_nil (hne hi)
    have hindent := fixed i.lexeme rfl
    refine .inside place' (fun k hk => (hfixed k hk).trans hindent) hline ?_
      (.cons (.mk hi hindent hj) derived) others ?_
    · rw [hbehind, hcode, behind]
      rfl
    · simpa using program

theorem Rest.of_leave {name t : Token} {code : List Instruction} {u stream : Stream}
    (hp : s.Plain) (place : s.place = .inside name code) (next : s.stream.next? = some (t, u))
    (kind : t.kind = .newLine) (read : blockContinues s.indent u = .ok (none, stream))
    (hr : Rest p (s.close name code stream)) : Rest p s := by
  obtain ⟨hline, hbehind⟩ := restOfLine_of_newLine next kind
  obtain ⟨hstream, -⟩ := blockContinues_eq_none read
  cases hr with
  | outside place' fixed derived program =>
    refine .inside place fixed hline ?_ .nil derived ?_
    · rw [hbehind, List.nil_append]
      show _ = codeLines stream.tokens
      rw [hstream, (hp.of_next? next).codeLines_dropBlank.2]
    · simpa [State.close] using program
  | inside place' => cases place'

theorem Rest.of_operation {name t : Token} {code : List Instruction} {op : Mnemonic}
    {i : Instruction} {u stream : Stream} (hp : s.Plain) (place : s.place = .inside name code)
    (next : s.stream.next? = some (t, u)) (kind : t.kind = .operation op)
    (read : instruction op u = .ok (i, stream)) (ends : stream.peek.kind.endsLine = true)
    (hr : Rest p { s with stream := stream, place := .inside name (i :: code) }) : Rest p s := by
  have hl := Stream.line_eq_nil_iff.2 ends
  obtain ⟨hline, hafter⟩ := line_of_operation next kind read hl
  have hcode : Code s.stream.line i := by
    rw [hline]
    exact .mk kind
      ((parses_instruction op u i (hp.of_next? next).signless_line).1 ⟨stream, read, hl⟩)
  cases hr with
  | outside place' => cases place'
  | inside place' fixed line behind derived others program =>
    cases place'
    obtain rfl := line.of_nil hl
    refine .inside place fixed (.code hcode) (hafter ▸ behind) derived others ?_
    simpa using program

theorem Rest.of_eof {name : Token} {code : List Instruction} (hp : s.Plain)
    (place : s.place = .inside name code) (kind : s.stream.peek.kind = .eof)
    (hr : Rest p (s.close name code s.stream.advance.2)) : Rest p s := by
  have hend := ending_of_peek hp.tokens kind
  obtain ⟨hline, hbehind⟩ := restOfLine_of_ending hend
  cases hr with
  | outside place' fixed derived program =>
    have hnil : codeLines s.stream.advance.2.tokens = [] := by rw [hend.advance rfl]; rfl
    refine .inside place fixed hline ?_ .nil derived ?_
    · rw [hbehind]
      exact hnil.symm
    · simpa [State.close] using program
  | inside place' => cases place'

/-- What is left before a step is derived if it is after it. -/
theorem Rest.of_step (hp : s.Plain) (hs : Step limit s v) (hr : Rest p v) : Rest p s := by
  cases hs with
  | define place read fresh => exact absurd read hp.definition_ne_ok
  | header place ident colon fresh start => exact .of_header hp place ident colon start hr
  | goOn place next kind read => exact .of_goOn hp place next kind read hr
  | leave place next kind read => exact .of_leave hp place next kind read hr
  | operation place next kind read ends => exact .of_operation hp place next kind read ends hr
  | call place next kind read => exact absurd read hp.call_ne_ok
  | eof place kind => exact .of_eof hp place kind hr

/-- So all that a run reads is derived as the program it ends with. -/
theorem Finishes.rest (h : Finishes limit s p) (hp : s.Plain) : Rest p s ∧ p.macros = .empty := by
  induction h with
  | @here s place kind =>
    refine ⟨?_, hp.macros⟩
    have hskip : s.stream.skipBlankLines.tokens = dropBlank s.stream.tokens :=
      Stream.tokens_skipBlankLines s.stream
    have hend := ending_of_peek (hskip ▸ hp.tokens.codeLines_dropBlank.1) kind
    have hnil : codeLines s.stream.tokens = [] := by
      rw [← hp.tokens.codeLines_dropBlank.2, ← hskip, codeLines_of_ending hend]
    -- a text without bodies fixes no indent, and any will do
    have hderived : Subroutines (s.indent.getD "") (codeLines s.stream.tokens) [] := by
      rw [hnil]
      exact .nil
    refine .outside place (fun i hi => ?_) hderived (List.append_nil _).symm
    rw [show s.indent = some i from hi]
    rfl
  | later step _ ih =>
    obtain ⟨hr, hm⟩ := ih (hp.step step)
    exact ⟨hr.of_step hp step, hm⟩

/-! ## What is derived is read -/

/-- The names of a program are new where they come up. -/
theorem fresh_of_nodup {sub : Subroutine} {before subs : List Subroutine}
    (distinct : (p.subroutines.map Subroutine.name).Nodup)
    (program : p.subroutines = before.reverse ++ sub :: subs) :
    before.any (·.name == sub.name) = false := by
  rw [program, List.map_append, List.nodup_append] at distinct
  rw [List.any_eq_false]
  intro other hm heq
  refine distinct.2.2 other.name ?_ sub.name (by simp) (by simpa using heq)
  exact List.mem_map_of_mem (List.mem_reverse.2 hm)

/-- Between definitions, the derivation is at its end, or a header can be read. -/
theorem Rest.exists_step_outside {indent : String} {subs : List Subroutine} (hp : s.Plain)
    (place : s.place = .outside) (fixed : ∀ i ∈ s.indent, i = indent)
    (derived : Subroutines indent (codeLines s.stream.tokens) subs)
    (program : p.subroutines = s.subroutines.reverse ++ subs)
    (distinct : (p.subroutines.map Subroutine.name).Nodup) :
    (s.stream.skipBlankLines.peek.kind = .eof ∧ subs = []) ∨ ∃ v, Step limit s v ∧ Rest p v := by
  generalize hls : codeLines s.stream.tokens = ls at derived
  cases derived with
  | nil =>
    have hend := hp.tokens.ending_of_codeLines hls
    exact Or.inl ⟨hend.peek (Stream.tokens_skipBlankLines _), rfl⟩
  | @cons name colon body rest code subs ident kind body_ne derived others =>
    obtain ⟨w, hdrop, hafter⟩ := hp.tokens.header_of_codeLines hls kind
    have hw : IndentAsm.Plain w := hp.tokens.codeLines_dropBlank.1.of_suffix
      (hdrop ▸ (List.suffix_cons colon w).trans (List.suffix_cons name _))
    cases derived with
    | nil => exact absurd rfl body_ne
    | cons first more =>
      cases first with
      | @mk t ts i indented same hcode =>
        obtain ⟨vs, hdrop', rfl, hbehind⟩ := hw.dropBlank_of_codeLines hafter
        rw [← Stream.tokens_skipBlankLines] at hdrop
        obtain ⟨u₁, h₁, ht₁⟩ := Stream.expect_of_tokens hdrop
        obtain ⟨u₂, h₂, ht₂⟩ := Stream.expect_of_tokens ht₁
        rw [ident] at h₁
        rw [kind] at h₂
        obtain ⟨u₃, h₃, ht₃⟩ := blockStart_of_tokens (ht₂ ▸ hdrop') indented
          fun j hj => (fixed j hj).trans same.symm
        refine Or.inr ⟨_, .header place h₁ h₂ (fresh_of_nodup distinct program) h₃, ?_⟩
        have hl : u₃.line = lineOf vs := by rw [Stream.line, ht₃]
        refine .inside rfl ?_ (.code (hl ▸ hcode)) ?_ more others program
        · intro j hj
          cases hj
          exact same
        · show codeLines (afterLine u₃.tokens) = _
          rw [ht₃]
          exact hbehind

/-- Behind a line of a body, the next one can be read, or the body is left. -/
theorem Rest.exists_step_newLine {name t : Token} {code more : List Instruction} {indent : String}
    {body rest : List (List Token)} {subs : List Subroutine} {u : Stream} (hp : s.Plain)
    (place : s.place = .inside name code) (fixed : ∀ i ∈ s.indent, i = indent)
    (next : s.stream.next? = some (t, u)) (kind : t.kind = .newLine)
    (behind : codeLines u.tokens = body ++ rest)
    (derived : List.Forall₂ (BodyLine indent) body more) (others : Subroutines indent rest subs)
    (program : p.subroutines = s.subroutines.reverse ++
      ⟨name.lexeme, name.line, code.reverse ++ more⟩ :: subs) :
    ∃ v, Step limit s v ∧ Rest p v := by
  have hu := hp.of_next? next
  cases derived with
  | cons first more =>
    cases first with
    | @mk i ts _ indented same hcode =>
      obtain ⟨us, hdrop, rfl, hbehind⟩ := hu.dropBlank_of_codeLines behind
      obtain ⟨stream, read, hstream⟩ := blockContinues_of_indent hdrop indented
        fun j hj => (fixed j hj).trans same.symm
      have hl : stream.line = lineOf us := by rw [Stream.line, hstream]
      refine ⟨_, .goOn place next kind read, ?_⟩
      refine .inside place ?_ (.code (hl ▸ hcode)) ?_ more others (by simpa using program)
      · intro j hj
        cases hj
        exact same
      · show codeLines (afterLine stream.tokens) = _
        rw [hstream]
        exact hbehind
  | nil =>
    rw [List.nil_append] at behind
    -- the lines that follow start with a header, if there are any
    have hhead : ∀ x ∈ (dropBlank u.tokens).head?, x.kind ≠ .indent := by
      intro x hx
      generalize hls : codeLines u.tokens = ls at behind
      subst behind
      cases others with
      | nil =>
        have hend := (hu.ending_of_codeLines hls).head
        rw [show (dropBlank u.tokens).head? = some x from hx] at hend
        intro hi
        simp [hi, Token.Kind.endsLine] at hend
      | cons ident =>
        obtain ⟨us, hdrop, -, -⟩ := hu.dropBlank_of_codeLines hls
        rw [hdrop] at hx
        cases hx
        rw [ident]
        decide
    obtain ⟨stream, read, hstream⟩ := blockContinues_of_not_indent s.indent hhead
    refine ⟨_, .leave place next kind read, ?_⟩
    refine .outside rfl fixed ?_ (by simpa [State.close] using program)
    show Subroutines indent (codeLines stream.tokens) _
    rw [hstream, hu.codeLines_dropBlank.2, behind]
    exact others

/-- Inside a body, what comes next can be read. -/
theorem Rest.exists_step_inside {name : Token} {code now more : List Instruction} {indent : String}
    {body rest : List (List Token)} {subs : List Subroutine} (hp : s.Plain)
    (place : s.place = .inside name code) (fixed : ∀ i ∈ s.indent, i = indent)
    (line : RestOfLine s.stream.line now)
    (behind : codeLines (afterLine s.stream.tokens) = body ++ rest)
    (derived : List.Forall₂ (BodyLine indent) body more) (others : Subroutines indent rest subs)
    (program : p.subroutines = s.subroutines.reverse ++
      ⟨name.lexeme, name.line, code.reverse ++ now ++ more⟩ :: subs) :
    ∃ v, Step limit s v ∧ Rest p v := by
  generalize hl : s.stream.line = l at line
  cases line with
  | @code _ i hcode =>
    cases hcode with
    | @mk t op ts _ mnemonic operands =>
      obtain ⟨rfl, rfl⟩ := Stream.of_line_cons hl
      have hnext := (Stream.next?_of_not_ends (s := s.stream) (by rw [mnemonic]; rfl)).1
      obtain ⟨stream, read, hnil⟩ :=
        (parses_instruction op _ i (hp.of_next? hnext).signless_line).2 operands
      have hafter := (line_of_operation hnext mnemonic read hnil).2
      have hdone : RestOfLine stream.line [] := by
        rw [hnil]
        exact .done
      refine ⟨_, .operation place hnext mnemonic read (Stream.line_eq_nil_iff.1 hnil), ?_⟩
      refine .inside rfl fixed hdone ?_ derived others (by simpa using program)
      show codeLines (afterLine stream.tokens) = _
      rw [hafter, behind]
  | done =>
    rcases Token.Kind.endsLine_iff.1 (Stream.line_eq_nil_iff.1 hl) with hk | hk
    · rw [← Stream.fst_advance] at hk
      have hnext := next?_of_kind hk (by decide)
      rw [(restOfLine_of_newLine hnext hk).2] at behind
      exact exists_step_newLine hp place fixed hnext hk behind derived others
        (by simpa using program)
    · have hend := ending_of_peek hp.tokens hk
      rw [(restOfLine_of_ending hend).2] at behind
      obtain ⟨rfl, rfl⟩ := List.append_eq_nil_iff.1 behind.symm
      cases derived
      refine ⟨_, .eof place hk, .outside rfl fixed ?_ (by simpa [State.close] using program)⟩
      show Subroutines indent (codeLines s.stream.advance.2.tokens) _
      rw [hend.advance rfl]
      exact others

/-- So a step never fails where the rest is derived. -/
theorem Rest.step (hp : s.Plain) (hr : Rest p s)
    (distinct : (p.subroutines.map Subroutine.name).Nodup) (macros : p.macros = .empty) :
    s.step limit = .ok (.finished p) ∨ ∃ v, Step limit s v ∧ Rest p v := by
  cases hr with
  | outside place fixed derived program =>
    rcases exists_step_outside hp place fixed derived program distinct with ⟨hk, rfl⟩ | hv
    · refine Or.inl (step_eq_finished_iff.2 ⟨place, hk, ?_⟩)
      obtain ⟨subs, ms⟩ := p
      rw [State.program, hp.macros, ← macros, ← List.append_nil s.subroutines.reverse, ← program]
    · exact Or.inr hv
  | inside place fixed line behind derived others program =>
    exact Or.inr (exists_step_inside hp place fixed line behind derived others program)

/-- And a run ends with the program that is derived. -/
theorem Rest.result_eq (hp : s.Plain) (hr : Rest p s)
    (distinct : (p.subroutines.map Subroutine.name).Nodup) (macros : p.macros = .empty) :
    (run limit s).result = .ok p := by
  have hstep {s : State} (hp : s.Plain) (hr : Rest p s) :
      s.step limit = .ok (.finished p) ∨ ∃ v, s.step limit = .ok (.running v) ∧ Rest p v := by
    rcases hr.step hp distinct macros with h | ⟨v, hv, hr⟩
    · exact Or.inl h
    · exact Or.inr ⟨v, hv.eq_running, hr⟩
  fun_induction run limit s with
  | case1 s e hs =>
    rcases hstep hp hr with h | ⟨v, h, -⟩ <;> rw [hs] at h <;> cases h
  | case2 s q hs =>
    rcases hstep hp hr with h | ⟨v, h, -⟩ <;> rw [hs] at h <;> cases h
    rfl
  | case3 s v hs ih =>
    rcases hstep hp hr with h | ⟨w, h, hw⟩ <;> rw [hs] at h <;> cases h
    exact ih (hp.step (step_eq_running_iff.1 hs)) hw

/-! ## Whole texts -/

/-- Text without macros that was scanned is plain at the start of its run. -/
theorem plain_ofTokens {text : String} {tokens : List Token} (hscan : scan text = .ok tokens)
    (hfree : ∀ t ∈ tokens, t.kind ≠ .macroKeyword) : (State.ofTokens tokens).Plain := by
  refine ⟨?_, rfl⟩
  rw [State.ofTokens, Stream.tokens_ofTokens]
  refine ⟨?_, hfree, not_plus_of_scan hscan⟩
  obtain ⟨code, last, rfl, hl, hc⟩ := scan_eq_ok hscan
  exact ⟨code, [last], hc, Or.inr ⟨last, hl, rfl⟩, rfl⟩

/-- At the start, all of the program is left. -/
theorem rest_ofTokens_iff {tokens : List Token} :
    Rest p (.ofTokens tokens) ↔ ∃ indent, Subroutines indent (codeLines tokens) p.subroutines := by
  have htok : (State.ofTokens tokens).stream.tokens = tokens := Stream.tokens_ofTokens tokens
  constructor
  · intro hr
    cases hr with
    | outside place fixed derived program =>
      rw [htok] at derived
      rw [State.ofTokens, List.reverse_nil, List.nil_append] at program
      exact ⟨_, program ▸ derived⟩
    | inside place => cases place
  · rintro ⟨indent, derived⟩
    rw [← htok] at derived
    exact .outside rfl (fun i hi => by cases hi) derived rfl

/-- Text without macros is read as a program exactly if the grammar derives it from
the lines, whatever the limit. -/
theorem result_eq_ok_iff_derives {text : String} {tokens : List Token}
    (hscan : scan text = .ok tokens) (hfree : ∀ t ∈ tokens, t.kind ≠ .macroKeyword) (limit : Nat)
    (p : Program) : (ofTokens limit tokens).result = .ok p ↔ Derives (codeLines tokens) p := by
  have hp := plain_ofTokens hscan hfree
  constructor
  · intro h
    obtain ⟨hr, hm⟩ := (result_run_iff.1 h).rest hp
    exact ⟨rest_ofTokens_iff.1 hr, (checked_of_result h).distinct, hm⟩
  · rintro ⟨hs, distinct, macros⟩
    exact (rest_ofTokens_iff.2 hs).result_eq hp distinct macros

/-- A program with a blank line, a comment and no line break at its end. -/
def countDown : String :=
  "main:\n  MW A, 0x1_f\n\n    ; forever\n  JZ A main"

/-- Its lines are a header and two instructions, and so it is read. -/
theorem result_countDown : ∃ tokens, scan countDown = .ok tokens ∧
    (codeLines tokens).map (·.map Token.lexeme) =
      [["main", ":"], ["  ", "MW", "A", ",", "0x1_f"], ["  ", "JZ", "A", "main"]] ∧
    (ofTokens 0 tokens).result = .ok ⟨[⟨"main", 1,
      [.mw .a (.immediate ⟨0x1F, .byte⟩), .jz .a (some ⟨"main", 5⟩)]⟩], .empty⟩ := by
  have hscan : scan countDown = .ok
      [⟨.identifier, "main", 1⟩, ⟨.colon, ":", 1⟩, ⟨.newLine, "\n", 1⟩, ⟨.indent, "  ", 2⟩,
        ⟨.operation .mw, "MW", 2⟩, ⟨.register .a, "A", 2⟩, ⟨.comma, ",", 2⟩,
        ⟨.number, "0x1_f", 2⟩, ⟨.newLine, "\n", 2⟩, ⟨.newLine, "\n", 3⟩, ⟨.indent, "    ", 4⟩,
        ⟨.newLine, "\n", 4⟩, ⟨.indent, "  ", 5⟩, ⟨.operation .jz, "JZ", 5⟩,
        ⟨.register .a, "A", 5⟩, ⟨.identifier, "main", 5⟩, ⟨.eof, "", 5⟩] := by decide +kernel
  refine ⟨_, hscan, by decide, (result_eq_ok_iff_derives hscan (by decide) 0 _).2 ?_⟩
  have hnumber : Literal.Denotes "0x1_f" 31 :=
    ⟨['0', 'x'], 16, ['1', 'f'], [1, 15], .hexadecimal (Or.inl rfl), by decide, by decide,
      .cons ⟨by decide, by decide⟩ (.cons ⟨by decide, by decide⟩ .nil), by decide⟩
  have hmove : BodyLine "  " [⟨.indent, "  ", 2⟩, ⟨.operation .mw, "MW", 2⟩, ⟨.register .a, "A", 2⟩,
      ⟨.comma, ",", 2⟩, ⟨.number, "0x1_f", 2⟩] (.mw .a (.immediate ⟨0x1F, .byte⟩)) :=
    .mk rfl rfl (.mk rfl ⟨(.a, .immediate ⟨0x1F, .byte⟩),
      .mk rfl rfl (.immediate ⟨rfl, hnumber, by decide⟩), rfl⟩)
  have hjump : BodyLine "  " [⟨.indent, "  ", 5⟩, ⟨.operation .jz, "JZ", 5⟩, ⟨.register .a, "A", 5⟩,
      ⟨.identifier, "main", 5⟩] (.jz .a (some ⟨"main", 5⟩)) :=
    .mk rfl rfl (.mk rfl ⟨(.a, some ⟨"main", 5⟩), .mk rfl (.present ⟨rfl, rfl⟩), rfl⟩)
  refine ⟨⟨"  ", ?_⟩, by decide, rfl⟩
  exact .cons rfl rfl (by simp) (.cons hmove (.cons hjump .nil)) .nil

end IndentAsm.Parse
