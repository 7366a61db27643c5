import IndentAsm.Proofs.Parse.Baseline
import IndentAsm.Proofs.Token.Headings

/-!
# Headings along a run

A definition that is read has its name from the first heading that is left, and reading it
leads to the start of a line: an inline body is read to the end of its line, a block to the
next line without an indent. What is put in for a call has no heading. So the macros and the
subroutines that a program has are those of the headings, one for each and in their order.

**Results.**
* `headings_of_definition`: a macro definition takes one heading.
* `recorded_step`: the headings that a step passes are recorded.
* `marks_of_result`: a program has the names and lines of the headings.
-/
namespace IndentAsm.Parse

open IndentAsm.Stream (ReadsLine dropBlank)

variable {limit : Nat} {source : List Token} {s v : State}

/-! ## Definitions -/

theorem headings_of_readsLine {s u : Stream} {xs : List Token} (h : ReadsLine s xs u) :
    headings false s.tokens = headings false u.tokens := by
  rw [h.tokens, headings_append h.not_ends]

/-- A block has no heading, and behind it a line starts. -/
theorem headings_of_blockBody {indent : Option String} {s s' : Stream} {body : Array Token}
    {ts : List Token} (h : blockBody indent s body = .ok (ts, s')) :
    headings false s.tokens = headings true s'.tokens := by
  fun_induction blockBody indent s body with
  | case1 s body hn =>
    cases h
    rw [Stream.tokens, Stream.next?_eq_none_iff.1 hn]
    rfl
  | case2 s body t u hn hk =>
    cases h
    exact headings_of_ends (by simp [Stream.tokens_of_next? hn, hk, Token.Kind.endsLine]) false
  | case3 s body t u hn hk he e hc => cases h
  | case4 s body t u hn hk he w hc =>
    cases h
    rw [Stream.tokens_of_next? hn, headings_newLine he, (blockContinues_eq_none hc).1,
      headings_dropBlank]
  | case5 s body t u hn hk he i w hc ih =>
    obtain ⟨hd, hi, -⟩ := blockContinues_eq_some hc
    rw [Stream.tokens_of_next? hn, headings_newLine he, headings_of_indent hd hi, ih h]
  | case6 s body t u hn hk he ih => rw [Stream.tokens_of_next? hn, headings_inLine he, ih h]

/-- Nor has the body of a macro, be it inline or a block. -/
theorem headings_of_macroBody {indent indent' : Option String} {s s' : Stream}
    {body : List Token} (h : macroBody indent s = .ok ((body, indent'), s')) :
    headings false s.tokens = headings true s'.tokens := by
  unfold macroBody at h
  split at h
  · obtain ⟨⟨t, u⟩, ht, h⟩ := bind_eq_ok.1 h
    obtain ⟨⟨ts, w⟩, hb, h⟩ := bind_eq_ok.1 h
    cases h
    obtain ⟨hd, hi, -⟩ := blockStart_eq_ok ht
    rw [headings_of_indent hd hi, headings_of_blockBody hb]
  · cases h
    have hr := (inlineBody_eq s #[]).2
    have hends : (inlineBody s #[]).2.line = [] := by simpa using hr.line
    rw [headings_of_readsLine hr]
    refine headings_of_ends ?_ false
    rw [← Stream.endsLine_peek]
    exact Stream.line_eq_nil_iff.1 hends

/-- A macro definition takes one heading, which has its name, and leads to the start of a
line. -/
theorem headings_of_definition {indent indent' : Option String} {s s' : Stream} {m : Macro}
    (h : definition indent s = .ok ((m, indent'), s')) :
    ∃ name : Token, headings true s.tokens = ⟨name, true⟩ :: headings true s'.tokens ∧
      m.name = name.lexeme ∧ m.line = name.line := by
  obtain ⟨⟨key, a⟩, hkey, h⟩ := bind_eq_ok.1 h
  obtain ⟨⟨name, b⟩, hname, h⟩ := bind_eq_ok.1 h
  obtain ⟨⟨params, c⟩, hparams, h⟩ := bind_eq_ok.1 h
  obtain ⟨⟨colon, u⟩, hcolon, h⟩ := bind_eq_ok.1 h
  obtain ⟨⟨⟨body, indent''⟩, w⟩, hbody, h⟩ := bind_eq_ok.1 h
  cases h
  refine ⟨name, ?_, rfl, rfl⟩
  obtain ⟨htok, hkind⟩ := Stream.tokens_expect (by decide) hkey
  obtain ⟨htok', -⟩ := Stream.tokens_expect (by decide) hname
  obtain ⟨xs, hline, -⟩ := parameters_eq_ok hparams
  rw [htok, htok', headings_keyword hkind, ← htok',
    headings_of_readsLine (readsLine_expect rfl hname).1, headings_of_readsLine hline,
    headings_of_readsLine (readsLine_expect rfl hcolon).1, headings_of_macroBody hbody]

/-! ## Along a run -/

/-- The headings that are left. Inside a body the start of the line was passed. -/
def State.ahead (s : State) : List Heading :=
  match s.place with
  | .outside => headings true s.stream.tokens
  | .inside _ _ => headings false s.stream.tokens

/-- The names and lines of the subroutines up to the one that is being read. -/
def State.begun (s : State) : List (String × Nat) :=
  s.subroutines.reverse.map (fun sub => (sub.name, sub.line)) ++
    match s.place with
    | .outside => []
    | .inside name _ => [(name.lexeme, name.line)]

/-- The headings of the source are those that were recorded, and those that are left. -/
structure Recorded (source : List Token) (s : State) : Prop where
  macros : marks true (headings true source) =
    s.macros.values.map (fun m => (m.name, m.line)) ++ marks true s.ahead
  subroutines : marks false (headings true source) = s.begun ++ marks false s.ahead

theorem ahead_outside (h : s.place = .outside) : s.ahead = headings true s.stream.tokens := by
  simp only [State.ahead, h]

theorem ahead_inside {name : Token} {code : List Instruction} (h : s.place = .inside name code) :
    s.ahead = headings false s.stream.tokens := by
  simp only [State.ahead, h]

theorem begun_close {name : Token} {code : List Instruction} (h : s.place = .inside name code)
    (stream : Stream) : (s.close name code stream).begun = s.begun := by
  simp [State.begun, State.close, h]

theorem recorded_ofTokens (tokens : List Token) : Recorded tokens (.ofTokens tokens) where
  macros := by rw [ahead_outside rfl, State.ofTokens, Stream.tokens_ofTokens]; rfl
  subroutines := by rw [ahead_outside rfl, State.ofTokens, Stream.tokens_ofTokens]; rfl

/-- A step that passes no heading. -/
theorem Recorded.keep (h : Recorded source s) (hm : v.macros = s.macros)
    (hb : v.begun = s.begun) (ha : v.ahead = s.ahead) : Recorded source v where
  macros := by rw [hm, ha]; exact h.macros
  subroutines := by rw [hb, ha]; exact h.subroutines

theorem Recorded.define (h : Recorded source s) (hp : s.place = .outside) {m : Macro}
    {indent : Option String} {stream : Stream}
    (read : definition s.indent s.stream.skipBlankLines = .ok ((m, indent), stream))
    (fresh : s.macros.contains m.name = false) (log : List Event) :
    Recorded source { s with
      stream := stream, indent := indent, macros := s.macros.insert m.name m, log := log } := by
  obtain ⟨name, hhead, hname, hline⟩ := headings_of_definition read
  rw [Stream.tokens_skipBlankLines, headings_dropBlank] at hhead
  have hmacros := h.macros
  have hsubs := h.subroutines
  rw [ahead_outside hp, hhead] at hmacros hsubs
  refine ⟨?_, ?_⟩
  · rw [hmacros, NameMap.values_insert fresh]
    simp [marks, State.ahead, hp, hname, hline]
  · rw [hsubs]
    simp [marks, State.ahead, State.begun, hp]

theorem Recorded.header (h : Recorded source s) (hp : s.place = .outside)
    {name colon t : Token} {u w stream : Stream}
    (ident : s.stream.skipBlankLines.expect .identifier = .ok (name, u))
    (hcolon : u.expect .colon = .ok (colon, w))
    (start : blockStart s.indent w = .ok (t, stream)) :
    Recorded source
      { s with stream := stream, place := .inside name [], indent := some t.lexeme } := by
  obtain ⟨htok, hkind⟩ := Stream.tokens_expect (by decide) ident
  obtain ⟨hd, hi, -⟩ := blockStart_eq_ok start
  have hhead : s.ahead = ⟨name, false⟩ :: headings false stream.tokens := by
    rw [ahead_outside hp, ← headings_dropBlank, ← Stream.tokens_skipBlankLines, htok,
      headings_name hkind, headings_of_readsLine (readsLine_expect rfl hcolon).1,
      headings_of_indent hd hi]
  have hmacros := h.macros
  have hsubs := h.subroutines
  rw [hhead] at hmacros hsubs
  refine ⟨?_, ?_⟩
  · rw [hmacros]
    simp [marks, State.ahead]
  · rw [hsubs]
    simp [marks, State.ahead, State.begun, hp]

/-- Behind the end token there is nothing in the source, and it stands nowhere else. -/
theorem tokens_behind_eof {code : List Token} {last : Token}
    (hcode : ∀ x ∈ code, x.kind ≠ .eof) (hi : Inv limit (code ++ [last]) s) {t : Token}
    {u : Stream} (next : s.stream.next? = some (t, u)) (kind : t.kind = .eof) : u.tokens = [] := by
  obtain ⟨ts, below, hu, hnest⟩ := hi.next? next
  generalize u.depth = d at hu hnest
  cases hnest with
  | source suffix =>
    rw [Stream.tokens_eq, hu, eq_singleton_of_eof hcode kind suffix]
    rfl
  | expansion lined ends below => exact absurd kind lined.1

theorem ahead_of_eof {code : List Token} {last : Token} (hcode : ∀ x ∈ code, x.kind ≠ .eof)
    (hi : Inv limit (code ++ [last]) s) {name : Token} {instructions : List Instruction}
    (place : s.place = .inside name instructions) (kind : s.stream.peek.kind = .eof) :
    headings true s.stream.advance.2.tokens = s.ahead := by
  rw [ahead_inside place]
  cases hn : s.stream.next? with
  | none =>
    have hnil := Stream.next?_eq_none_iff.1 hn
    rw [Stream.advance_of_unread_nil hnil, Stream.tokens, hnil]
    rfl
  | some p =>
    obtain ⟨t, u⟩ := p
    rw [Stream.peek_of_tokens (Stream.tokens_of_next? hn)] at kind
    rw [advance_of_next? hn, Stream.tokens_of_next? hn, tokens_behind_eof hcode hi hn kind]
    rfl

/-- The headings that a step passes are recorded. -/
theorem recorded_step {code : List Token} {last : Token} (hcode : ∀ x ∈ code, x.kind ≠ .eof)
    (hi : Inv limit (code ++ [last]) s) (h : Recorded (code ++ [last]) s)
    (hs : Step limit s v) : Recorded (code ++ [last]) v := by
  cases hs with
  | define place read fresh => exact h.define place read fresh _
  | header place ident colon fresh start => exact h.header place ident colon start
  | @goOn name t i code u stream place next kind read =>
    obtain ⟨hd, hindent, -⟩ := blockContinues_eq_some read
    refine h.keep rfl rfl ?_
    have hahead : headings false stream.tokens = s.ahead := by
      rw [ahead_inside place, Stream.tokens_of_next? next, headings_newLine kind,
        headings_of_indent hd hindent]
    simpa only [State.ahead, place] using hahead
  | @leave name t code u stream place next kind read =>
    refine h.keep rfl (begun_close place _) ?_
    show headings true stream.tokens = s.ahead
    rw [ahead_inside place, Stream.tokens_of_next? next, headings_newLine kind,
      (blockContinues_eq_none read).1, headings_dropBlank]
  | @operation name t code op i u stream place next kind read ends =>
    obtain ⟨operands, hr, -⟩ := onLine_instruction op u i stream read
    refine h.keep rfl (by simp [State.begun, place]) ?_
    show headings false stream.tokens = s.ahead
    rw [ahead_inside place, Stream.tokens_of_next? next, headings_inLine (by simp [kind]),
      headings_of_readsLine hr]
  | @call name t code event u stream place next kind read =>
    obtain ⟨m, args, w, ts, below, -, ha, -, -, -, -, -, -, rfl, hshape, -⟩ :=
      call_in_frame hi next read
    refine h.keep rfl rfl ?_
    -- every line break that is put in has an indent behind it, and so no heading
    have hahead : headings false (w.insert (m.expand args)).tokens = s.ahead := by
      rw [ahead_inside place, Stream.tokens_of_next? next, headings_inLine (by simp [kind]),
        headings_of_readsLine (arguments_eq_ok ha).1, tokens_insert, headings_lined hshape.lined]
    simpa only [State.ahead, place] using hahead
  | eof place kind => exact h.keep rfl (begun_close place _) (ahead_of_eof hcode hi place kind)

theorem Recorded.of_reachable {code : List Token} {last : Token}
    (hcode : ∀ x ∈ code, x.kind ≠ .eof) (h : Reachable limit (code ++ [last]) s) :
    Recorded (code ++ [last]) s := by
  induction h with
  | refl => exact recorded_ofTokens _
  | tail hr hs ih => exact recorded_step hcode (inv_of_reachable hr) ih hs

/-- A program has the names and lines of the headings of its source, in their order. -/
theorem marks_of_result {text : String} {tokens : List Token} {p : Program}
    (hscan : scan text = .ok tokens) (h : (ofTokens limit tokens).result = .ok p) :
    marks true (headings true tokens) = p.macros.values.map (fun m => (m.name, m.line)) ∧
      marks false (headings true tokens) = p.subroutines.map fun sub => (sub.name, sub.line) := by
  obtain ⟨n, s, hs, hstop, -⟩ := exists_last limit (.ofTokens tokens)
  rw [show (run limit (.ofTokens tokens)).result = .ok p from h] at hstop
  obtain ⟨place, kind, rfl⟩ := step_eq_finished_iff.1 hstop
  have hr := reachable_of_after hs
  obtain ⟨code, last, rfl, -, hcode⟩ := scan_eq_ok hscan
  have hrec := Recorded.of_reachable hcode.no_eof hr
  have hnone : s.ahead = [] := by
    rw [ahead_outside place, ← headings_dropBlank]
    rcases ending_of_finished hcode.no_eof hr place kind with htok | ⟨t, hk, htok⟩
    · rw [htok]
      rfl
    · rw [htok, headings_cons (by simp [hk]) (by simp [hk])]
      rfl
  have hmacros := hrec.macros
  have hsubs := hrec.subroutines
  rw [hnone] at hmacros hsubs
  refine ⟨?_, ?_⟩
  · simpa [marks, State.program] using hmacros
  · simpa [marks, State.begun, State.program, place] using hsubs

end IndentAsm.Parse
