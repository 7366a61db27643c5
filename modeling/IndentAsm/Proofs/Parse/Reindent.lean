import IndentAsm.Proofs.Parse.LineStarts
import IndentAsm.Proofs.Parse.Nesting
import IndentAsm.Proofs.Parse.Padding

/-!
# Another indent makes no difference

With another indent in front of all code, a program is read as before. The run on the tokens
is followed by one on the tokens with the new indent, step by step: what is left to be read
is the same but for the indents (`Stream.Reindented`), where an indent is fixed the new one is,
and the bodies of macros have the new one as well (`State.Reindented`). Within a line nothing
has changed, and an indent that is compared has code behind it, so it is the new one.

**Results.**
* `onLine_parameters`, `onLine_arguments`: the readers that stay in a line, besides those of
  operands.
* `Stream.Reindented.reads`: what is left behind the same number of tokens.
* `reindented_onLine`, `reindented_definition`, `reindented_call`: the readers of which a step is
  made.
* `reindented_step`, `reindented_finishes`: so every step is taken on both sides, and a run that
  ends with a program does so on both sides.
-/
namespace IndentAsm

open IndentAsm.Stream (Reads ReadsLine dropBlank lineOf)

/-! ## Readers that stay in a line -/

namespace Parse

/-- Taking a token that ends no line, on two streams with the same line. -/
theorem advance_congr {s e : Stream} (he : e.line = s.line) (h : s.peek.kind.endsLine = false) :
    e.peek = s.peek ∧ ReadsLine e [s.peek] e.advance.2 ∧ e.advance.2.line = s.advance.2.line := by
  have hpeek := Stream.peek_congr he h
  have hr : ReadsLine e [s.peek] e.advance.2 := by
    rw [← hpeek]
    exact .advance (hpeek ▸ h)
  exact ⟨hpeek, hr, line_congr he (.advance h) hr⟩

theorem not_ends_of_check {s : Stream} {kind : Token.Kind} (hk : kind.endsLine = false)
    (h : s.check kind = true) : s.peek.kind.endsLine = false := by
  rw [Stream.check, beq_iff_eq] at h
  rw [h, hk]

theorem onLine_identifiers (names : Array String) : OnLine fun s => identifiers s names := by
  intro s found s' h
  dsimp only at h
  fun_induction identifiers s names with
  | case1 s names e he => cases h
  | case2 s names t u hident hc ih =>
    obtain ⟨xs, hx, hxe⟩ := OnLine.expect .identifier rfl s t u hident
    have hcomma := not_ends_of_check rfl hc
    obtain ⟨ys, hy, hye⟩ := ih h
    refine ⟨xs ++ [u.peek] ++ ys, (hx.trans (.advance hcomma)).trans hy, fun e he => ?_⟩
    obtain ⟨f, hf, hef⟩ := hxe e he
    have hline := line_congr he hx hef
    obtain ⟨-, hfg, hline'⟩ := advance_congr hline hcomma
    obtain ⟨e', hr, hge⟩ := hye f.advance.2 hline'
    refine ⟨e', ?_, (hef.trans hfg).trans hge⟩
    dsimp only
    rw [identifiers_of_ok hf, if_pos ((Stream.check_congr hline rfl).trans hc)]
    exact hr
  | case3 s names t u hident hc =>
    simp only [Except.ok.injEq, Prod.mk.injEq] at h
    obtain ⟨rfl, rfl⟩ := h
    obtain ⟨xs, hx, hxe⟩ := OnLine.expect .identifier rfl s t u hident
    refine ⟨xs, hx, fun e he => ?_⟩
    obtain ⟨f, hf, hef⟩ := hxe e he
    refine ⟨f, ?_, hef⟩
    dsimp only
    rw [identifiers_of_ok hf, if_neg]
    rwa [Stream.check_congr (line_congr he hx hef) rfl]

/-- Where a parenthesis is next, taking a token is reading it. -/
theorem parameters_eq : parameters = fun s =>
    if s.check .parenOpen then
      s.expect .parenOpen >>= fun (_, s) =>
        if s.check .parenClose then s.expect .parenClose >>= fun (_, s) => return ([], s)
        else identifiers s #[] >>= fun (names, s) =>
          s.expect .parenClose >>= fun (_, s) => return (names, s)
    else return ([], s) := by
  funext s
  unfold parameters
  cases hopen : s.check .parenOpen with
  | false => rfl
  | true =>
    simp only [Stream.expect, hopen, if_true]
    show (if s.advance.2.check .parenClose = true then _ else _) =
      (if s.advance.2.check .parenClose = true then _ else _)
    cases hclose : s.advance.2.check .parenClose with
    | false => rfl
    | true => rfl

theorem onLine_parameters : OnLine parameters := by
  rw [parameters_eq]
  have inside := OnLine.ite .parenClose rfl ((OnLine.expect .parenClose rfl).map fun _ => [])
    ((onLine_identifiers #[]).bind fun names =>
      (OnLine.expect .parenClose rfl).map fun _ => names)
  exact OnLine.ite .parenOpen rfl ((OnLine.expect .parenOpen rfl).bind fun _ => inside)
    (OnLine.pure [])

theorem onLine_someArguments (name : Token) (args : Array Token) :
    OnLine fun s => someArguments name s args := by
  intro s found s' h
  dsimp only at h
  fun_induction someArguments name s args with
  | case1 s args ha u found' hc ih =>
    have hs := not_ends_of_isArgument ha
    have hcomma := not_ends_of_check rfl hc
    obtain ⟨xs, hx, hxe⟩ := ih h
    refine ⟨[s.peek] ++ [u.peek] ++ xs, ((ReadsLine.advance hs).trans (.advance hcomma)).trans hx,
      fun e he => ?_⟩
    obtain ⟨hpeek, hef, hline⟩ := advance_congr he hs
    obtain ⟨-, hfg, hline'⟩ := advance_congr hline hcomma
    obtain ⟨e', hr, hge⟩ := hxe _ hline'
    refine ⟨e', ?_, (hef.trans hfg).trans hge⟩
    dsimp only
    rw [someArguments_eq, hpeek, if_pos ha, if_pos ((Stream.check_congr hline rfl).trans hc)]
    exact hr
  | case2 s args ha u found' hc hl =>
    simp only [Except.ok.injEq, Prod.mk.injEq] at h
    obtain ⟨rfl, rfl⟩ := h
    have hs := not_ends_of_isArgument ha
    refine ⟨[s.peek], .advance hs, fun e he => ?_⟩
    obtain ⟨hpeek, hef, hline⟩ := advance_congr he hs
    have hends : e.advance.2.peek.kind.endsLine = true := by
      rw [← Stream.line_eq_nil_iff, hline]
      exact Stream.line_eq_nil_iff.2 hl
    refine ⟨e.advance.2, ?_, hef⟩
    dsimp only
    rw [someArguments_eq, hpeek, if_pos ha, if_neg, if_pos hends]
    rwa [Stream.check_congr hline rfl]
  | case3 => cases h
  | case4 => cases h

theorem onLine_arguments (name : Token) : OnLine (arguments name) := by
  intro s args s' h
  unfold arguments at h
  split at h
  · rename_i hends
    cases h
    refine ⟨[], .refl s, fun e he => ⟨e, ?_, .refl e⟩⟩
    have hends' : e.peek.kind.endsLine = true := by
      rw [← Stream.line_eq_nil_iff, he]
      exact Stream.line_eq_nil_iff.2 hends
    rw [arguments, if_pos hends']
  · rename_i hne
    obtain ⟨ts, hts, hte⟩ := onLine_someArguments name #[] s args s' h
    refine ⟨ts, hts, fun e he => ?_⟩
    obtain ⟨e', hr, hre⟩ := hte e he
    refine ⟨e', ?_, hre⟩
    rw [arguments, Stream.peek_congr he (by simpa using hne), if_neg hne]
    exact hr

end Parse

/-! ## Macros and streams -/

namespace Macro

def reindent (indent : String) (m : Macro) : Macro :=
  { m with body := m.body.map (Token.reindent indent) }

theorem expand_reindent (indent : String) (m : Macro) (args : List Token) :
    (m.reindent indent).expand (args.map (Token.reindent indent)) =
      (m.expand args).map (Token.reindent indent) := by
  refine expand_map Token.kind_reindent (fun t hk => ?_) m (m.reindent indent) rfl rfl args
  rw [Token.reindent_of_kind (by simp [hk])]

end Macro

namespace Stream

/-- What is left of some tokens, and what is left of them with another indent. -/
structure Reindented (indent : String) (s s' : Stream) : Prop where
  tokens : s'.tokens = reindent indent s.tokens
  depths : Parse.depths s' = Parse.depths s
  depth : s'.depth = s.depth
  eof : s'.eof = s.eof

namespace Reindented

variable {indent : String} {s s' : Stream}

theorem length (h : Reindented indent s s') : s'.tokens.length = s.tokens.length := by
  rw [h.tokens, length_reindent]

/-- Behind as many tokens the same is left. -/
theorem reads (h : Reindented indent s s') {u u' : Stream} {taken taken' : List (Token × Nat)}
    (hr : Reads s taken u) (hr' : Reads s' taken' u') (hlen : u'.tokens.length = u.tokens.length) :
    Reindented indent u u' := by
  have htok := h.tokens
  have hdepths := h.depths
  rw [tokens_of_reads hr, tokens_of_reads hr'] at htok
  rw [Parse.depths_of_reads hr, Parse.depths_of_reads hr'] at hdepths
  obtain ⟨front, hfront, -⟩ := reindent_append_suffix indent (taken.map Prod.fst) u.tokens
  rw [hfront] at htok
  have hsplit := List.append_inj' hdepths (by simpa [Parse.depths, Stream.tokens] using hlen)
  refine ⟨(List.append_inj' htok (by simpa using hlen)).2, hsplit.2, ?_, ?_⟩
  · rw [hr.depth, hr'.depth, h.depth, ← List.getLast?_map, ← List.getLast?_map, hsplit.1]
  · rw [hr.eof, hr'.eof, h.eof]

/-- A line is the same, once its indent is taken. -/
theorem line (h : Reindented indent s s') (hs : IndentsLead false s.tokens) : s'.line = s.line := by
  rw [Stream.line, h.tokens, lineOf_reindent hs]
  rfl

theorem readsLine (h : Reindented indent s s') {u u' : Stream} {xs : List Token}
    (hr : ReadsLine s xs u) (hr' : ReadsLine s' xs u') : Reindented indent u u' := by
  have hlen := h.length
  rw [hr.tokens, hr'.tokens, List.length_append, List.length_append] at hlen
  obtain ⟨taken, htaken, -⟩ := hr
  obtain ⟨taken', htaken', -⟩ := hr'
  exact h.reads htaken htaken' (by omega)

theorem next? (h : Reindented indent s s') {t : Token} {u : Stream} (hn : s.next? = some (t, u))
    (hk : t.kind ≠ .indent) : ∃ u', s'.next? = some (t, u') ∧ Reindented indent u u' := by
  have htok := h.tokens
  rw [tokens_of_next? hn, reindent_of_kind hk] at htok
  obtain ⟨u', hn', hu'⟩ := next?_of_tokens htok
  exact ⟨u', hn', h.reads (reads_next? hn) (reads_next? hn') (by rw [hu', length_reindent])⟩

theorem next?_none (h : Reindented indent s s') (hn : s.next? = none) : s'.next? = none := by
  have hnil : s.tokens = [] := by simpa [Stream.tokens] using next?_eq_none_iff.1 hn
  have htok := h.tokens
  rw [hnil] at htok
  exact next?_eq_none_iff.2 (by simpa [Stream.tokens, reindent] using htok)

theorem peek_kind (h : Reindented indent s s') : s'.peek.kind = s.peek.kind := by
  have hhead := head_reindent indent s.tokens
  rw [← h.tokens] at hhead
  cases hts : s.tokens with
  | nil =>
    have hts' : s'.tokens = [] := by rw [h.tokens, hts]; rfl
    rw [peek_of_tokens_nil hts, peek_of_tokens_nil hts', h.eof]
  | cons t ts =>
    obtain ⟨t', ts', hts'⟩ : ∃ t' ts', s'.tokens = t' :: ts' :=
      ⟨_, _, by rw [h.tokens, hts, reindent]⟩
    rw [hts, hts'] at hhead
    rw [peek_of_tokens hts, peek_of_tokens hts']
    exact Option.some.inj hhead

theorem skipBlankLines (h : Reindented indent s s') :
    Reindented indent s.skipBlankLines s'.skipBlankLines := by
  obtain ⟨taken, hr⟩ := s.reads_skipBlankLines
  obtain ⟨taken', hr'⟩ := s'.reads_skipBlankLines
  refine h.reads hr hr' ?_
  rw [tokens_skipBlankLines, tokens_skipBlankLines, h.tokens, dropBlank_reindent, length_reindent]

theorem advance (h : Reindented indent s s') (hk : s.peek.kind = .eof) :
    Reindented indent s.advance.2 s'.advance.2 := by
  cases hn : s.next? with
  | none =>
    have hn' := h.next?_none hn
    rw [advance_of_unread_nil (next?_eq_none_iff.1 hn),
      advance_of_unread_nil (next?_eq_none_iff.1 hn')]
    exact h
  | some p =>
    obtain ⟨t, u⟩ := p
    rw [peek_of_tokens (tokens_of_next? hn)] at hk
    obtain ⟨u', hn', hu⟩ := h.next? hn (by simp [hk])
    rw [Parse.advance_of_next? hn, Parse.advance_of_next? hn']
    exact hu

/-- Code is put in with the new indent. -/
theorem insert (h : Reindented indent s s') {ts : List Token}
    (hts : reindent indent (ts ++ s.tokens) =
      ts.map (Token.reindent indent) ++ reindent indent s.tokens) :
    Reindented indent (s.insert ts) (s'.insert (ts.map (Token.reindent indent))) where
  tokens := by rw [Parse.tokens_insert, Parse.tokens_insert, h.tokens, hts]
  depths := by
    have hdepths := h.depths
    simp only [Parse.depths] at hdepths
    simp [Parse.depths, h.depth, hdepths, Function.comp_def]
  depth := h.depth
  eof := h.eof

end Reindented

end Stream

namespace Parse

variable {indent : String} {s s' : Stream}

/-! ## Readers -/

/-- A line is read as before. -/
theorem reindented_onLine {α : Type} {read : Stream → Except ParseError (α × Stream)}
    (hread : OnLine read) (h : s.Reindented indent s') (hs : IndentsLead false s.tokens) {a : α}
    {u : Stream} (hr : read s = .ok (a, u)) : ∃ u', read s' = .ok (a, u') ∧
      u.Reindented indent u' ∧ IndentsLead false u.tokens := by
  obtain ⟨ts, hline, hcongr⟩ := hread s a u hr
  obtain ⟨u', hr', hline'⟩ := hcongr s' (h.line hs)
  exact ⟨u', hr', h.readsLine hline hline', indentsLead_of_readsLine hs hline⟩

theorem reindented_expect {start : Bool} {kind : Token.Kind} (h : s.Reindented indent s')
    (hs : IndentsLead start s.tokens) (hk : kind.endsLine = false) (hi : kind ≠ .indent)
    {t : Token} {u : Stream} (hr : s.expect kind = .ok (t, u)) :
    ∃ u', s'.expect kind = .ok (t, u') ∧ u.Reindented indent u' ∧ IndentsLead false u.tokens := by
  obtain ⟨htok, hkind⟩ := Stream.tokens_expect (Token.Kind.not_endsLine_iff.1 hk).2 hr
  refine reindented_onLine (OnLine.expect kind hk) h (hs.of_head ?_) hr
  rw [htok]
  simpa [hkind] using hi

/-- A line of a block starts with the new indent. -/
theorem reindented_dropBlank (h : s.Reindented indent s') {i : Token} {ts : List Token}
    (hd : dropBlank s.tokens = i :: ts) (hi : i.kind = .indent) :
    dropBlank s'.tokens = i.reindent indent :: reindent indent ts := by
  rw [h.tokens, dropBlank_reindent, hd, reindent_of_isCodeIndent (isCodeIndent_of_dropBlank hd hi)]

theorem lexeme_reindent {i : Token} (hi : i.kind = .indent) :
    (i.reindent indent).lexeme = indent := by
  rw [Token.reindent, if_pos hi]

/-- The new indent is the one that is fixed, where one is. -/
theorem lexeme_of_fixed (k : Option String) {i : Token} (hi : i.kind = .indent) :
    ∀ j ∈ k.map fun _ => indent, j = (i.reindent indent).lexeme := by
  intro j hj
  obtain ⟨_, -, rfl⟩ := Option.map_eq_some_iff.1 hj
  exact (lexeme_reindent hi).symm

theorem reindented_blockStart (h : s.Reindented indent s') {k : Option String} {t : Token}
    {u : Stream} (hr : blockStart k s = .ok (t, u)) :
    ∃ u', blockStart (k.map fun _ => indent) s' = .ok (t.reindent indent, u') ∧
      u.Reindented indent u' := by
  obtain ⟨hd, hi, -⟩ := blockStart_eq_ok hr
  obtain ⟨u', hr', hu'⟩ := blockStart_of_tokens (reindented_dropBlank h hd hi) (by simpa using hi)
    (lexeme_of_fixed k hi)
  obtain ⟨taken, htaken⟩ := forward_blockStart _ _ _ _ hr
  obtain ⟨taken', htaken'⟩ := forward_blockStart _ _ _ _ hr'
  exact ⟨u', hr', h.reads htaken htaken' (by rw [hu', length_reindent])⟩

theorem reindented_blockContinues (h : s.Reindented indent s') {k : Option String}
    {next : Option Token} {u : Stream} (hr : blockContinues k s = .ok (next, u)) :
    ∃ u', blockContinues (k.map fun _ => indent) s' = .ok (next.map (Token.reindent indent), u') ∧
      u.Reindented indent u' := by
  obtain ⟨taken, htaken⟩ := forward_blockContinues _ _ _ _ hr
  cases next with
  | some i =>
    obtain ⟨hd, hi, -⟩ := blockContinues_eq_some hr
    obtain ⟨u', hr', hu'⟩ := blockContinues_of_indent (reindented_dropBlank h hd hi)
      (by simpa using hi) (lexeme_of_fixed k hi)
    obtain ⟨taken', htaken'⟩ := forward_blockContinues _ _ _ _ hr'
    exact ⟨u', hr', h.reads htaken htaken' (by rw [hu', length_reindent])⟩
  | none =>
    obtain ⟨hu, hne⟩ := blockContinues_eq_none hr
    have hd : dropBlank s'.tokens = reindent indent u.tokens := by
      rw [h.tokens, dropBlank_reindent, hu]
    have hne' : ∀ t ∈ (dropBlank s'.tokens).head?, t.kind ≠ .indent := by
      intro t ht hk
      have hhead := head_reindent indent u.tokens
      rw [← hd, ht] at hhead
      obtain ⟨x, hx, hxk⟩ := Option.map_eq_some_iff.1 hhead.symm
      exact hne x hx (hxk.trans hk)
    obtain ⟨u', hr', hu'⟩ := blockContinues_of_not_indent (k.map fun _ => indent) hne'
    obtain ⟨taken', htaken'⟩ := forward_blockContinues _ _ _ _ hr'
    exact ⟨u', hr', h.reads htaken htaken' (by rw [hu', hd, length_reindent])⟩

theorem reindented_blockBody (h : s.Reindented indent s') (hs : IndentsLead false s.tokens)
    {k : String} {body : Array Token} {ts : List Token} {u : Stream}
    (hr : blockBody (some k) s body = .ok (ts, u)) :
    ∃ u', blockBody (some indent) s' (body.map (Token.reindent indent)) =
      .ok (ts.map (Token.reindent indent), u') ∧ u.Reindented indent u' := by
  fun_induction blockBody (some k) s body generalizing s' with
  | case1 s body hn =>
    cases hr
    exact ⟨s', by rw [blockBody_of_none (h.next?_none hn), Array.toList_map], h⟩
  | case2 s body t u hn hk =>
    cases hr
    obtain ⟨u', hn', -⟩ := h.next? hn (by simp [hk])
    exact ⟨s', by rw [blockBody_of_some hn', if_pos hk, Array.toList_map], h⟩
  | case3 s body t u hn hk he e hc => cases hr
  | case4 s body t u hn hk he w hc =>
    cases hr
    obtain ⟨u', hn', hu⟩ := h.next? hn (by simp [he])
    obtain ⟨w', hc', hw⟩ := reindented_blockContinues hu hc
    refine ⟨w', ?_, hw⟩
    rw [blockBody_of_some hn', if_neg hk, if_pos he]
    exact bind_eq_ok.2 ⟨_, hc', by rw [Array.toList_map]; rfl⟩
  | case5 s body t u hn hk he i w hc ih =>
    rw [Stream.tokens_of_next? hn] at hs
    obtain ⟨u', hn', hu⟩ := h.next? hn (by simp [he])
    obtain ⟨w', hc', hw⟩ := reindented_blockContinues hu hc
    obtain ⟨hd, hi, -⟩ := blockContinues_eq_some hc
    obtain ⟨x, hx, hwx⟩ := ih hw (indentsLead_of_indent hs.2 hd hi) hr
    refine ⟨x, ?_, hwx⟩
    rw [Array.map_push, Array.map_push, Token.reindent_of_kind (by simp [he])] at hx
    rw [blockBody_of_some hn', if_neg hk, if_pos he]
    exact bind_eq_ok.2 ⟨_, hc', hx⟩
  | case6 s body t u hn hk he ih =>
    rw [Stream.tokens_of_next? hn] at hs
    have hne : t.kind ≠ .indent := fun hi => by simpa using hs.1 hi
    obtain ⟨u', hn', hu⟩ := h.next? hn hne
    obtain ⟨x, hx, hux⟩ := ih hu (hs.cons_of_ne he) hr
    refine ⟨x, ?_, hux⟩
    rw [Array.map_push, Token.reindent_of_kind hne] at hx
    rw [blockBody_of_some hn', if_neg hk, if_neg he]
    exact hx

/-- The rest of a line, taken as a body. -/
theorem reindented_inlineBody (h : s.Reindented indent s') (hs : IndentsLead false s.tokens) :
    (inlineBody s' #[]).1 = (inlineBody s #[]).1.map (Token.reindent indent) ∧
      (inlineBody s #[]).2.Reindented indent (inlineBody s' #[]).2 := by
  obtain ⟨hbody, hline⟩ := inlineBody_eq s #[]
  obtain ⟨hbody', hline'⟩ := inlineBody_eq s' #[]
  rw [h.line hs] at hbody' hline'
  refine ⟨?_, h.readsLine hline hline'⟩
  rw [hbody, hbody', List.map_append, Stream.line, map_reindent_of_kind hs.line]
  rfl

theorem reindented_macroBody (h : s.Reindented indent s') (hs : IndentsLead false s.tokens)
    {k k' : Option String} {body : List Token} {u : Stream}
    (hr : macroBody k s = .ok ((body, k'), u)) :
    ∃ u', macroBody (k.map fun _ => indent) s' =
      .ok ((body.map (Token.reindent indent), k'.map fun _ => indent), u') ∧
      u.Reindented indent u' := by
  unfold macroBody at hr ⊢
  rw [h.peek_kind]
  split at hr
  · rename_i hends
    rw [if_pos hends]
    obtain ⟨⟨t, w⟩, ht, hr⟩ := bind_eq_ok.1 hr
    obtain ⟨⟨ts, x⟩, hb, hr⟩ := bind_eq_ok.1 hr
    cases hr
    obtain ⟨hd, hi, -⟩ := blockStart_eq_ok ht
    obtain ⟨w', ht', hw⟩ := reindented_blockStart h ht
    obtain ⟨x', hb', hx⟩ := reindented_blockBody hw (indentsLead_of_indent hs hd hi) hb
    rw [Array.map_empty] at hb'
    refine ⟨x', bind_eq_ok.2 ⟨_, ht', ?_⟩, hx⟩
    dsimp only
    rw [lexeme_reindent hi]
    exact bind_eq_ok.2 ⟨_, hb', rfl⟩
  · rename_i hends
    rw [if_neg hends]
    cases hr
    obtain ⟨hbody, hu⟩ := reindented_inlineBody h hs
    exact ⟨_, by dsimp only; rw [hbody], hu⟩

theorem reindented_definition (h : s.Reindented indent s') (hs : IndentsLead true s.tokens)
    {k k' : Option String} {m : Macro} {u : Stream} (hr : definition k s = .ok ((m, k'), u)) :
    ∃ u', definition (k.map fun _ => indent) s' =
      .ok ((m.reindent indent, k'.map fun _ => indent), u') ∧ u.Reindented indent u' := by
  obtain ⟨⟨t, a⟩, ht, hr⟩ := bind_eq_ok.1 hr
  obtain ⟨⟨name, b⟩, hname, hr⟩ := bind_eq_ok.1 hr
  obtain ⟨⟨params, c⟩, hparams, hr⟩ := bind_eq_ok.1 hr
  obtain ⟨⟨colon, d⟩, hcolon, hr⟩ := bind_eq_ok.1 hr
  obtain ⟨⟨⟨body, k''⟩, w⟩, hbody, hr⟩ := bind_eq_ok.1 hr
  cases hr
  obtain ⟨a', ht', ha, hsa⟩ := reindented_expect h hs rfl (by decide) ht
  obtain ⟨b', hname', hb, hsb⟩ := reindented_expect ha hsa rfl (by decide) hname
  obtain ⟨c', hparams', hc, hsc⟩ := reindented_onLine onLine_parameters hb hsb hparams
  obtain ⟨d', hcolon', hd, hsd⟩ := reindented_expect hc hsc rfl (by decide) hcolon
  obtain ⟨u', hbody', hu⟩ := reindented_macroBody hd hsd hbody
  refine ⟨u', ?_, hu⟩
  exact bind_eq_ok.2 ⟨_, ht', bind_eq_ok.2 ⟨_, hname', bind_eq_ok.2 ⟨_, hparams',
    bind_eq_ok.2 ⟨_, hcolon', bind_eq_ok.2 ⟨_, hbody', rfl⟩⟩⟩⟩⟩

/-! ## Steps and runs -/

/-- Macros with the same names, and another indent in their bodies. -/
def MacrosReindented (indent : String) (macros macros' : NameMap Macro) : Prop :=
  ∀ name, macros'.get? name = (macros.get? name).map (Macro.reindent indent)

theorem MacrosReindented.contains {macros macros' : NameMap Macro}
    (h : MacrosReindented indent macros macros') (name : String) :
    macros'.contains name = macros.contains name := by
  rw [NameMap.contains, NameMap.contains, h, Option.isSome_map]

theorem MacrosReindented.insert {macros macros' : NameMap Macro}
    (h : MacrosReindented indent macros macros') (m : Macro) :
    MacrosReindented indent (macros.insert m.name m)
      (macros'.insert m.name (m.reindent indent)) := by
  intro name
  rw [NameMap.get?_insert, NameMap.get?_insert, h]
  split <;> rfl

/-- A call leaves the expansion with the new indent. -/
theorem reindented_call {limit : Nat} {fixed : Option String} {macros macros' : NameMap Macro}
    (hm : MacrosReindented indent macros macros')
    (hshape : ∀ name m, macros.get? name = some m → Shaped fixed m.body)
    (hlead : ∀ name m, macros.get? name = some m → IndentsLead false m.body)
    (h : s.Reindented indent s') (hs : IndentsLead false s.tokens) {name : Token} {e : Event}
    {u : Stream} (hr : call limit macros name s = .ok (e, u)) :
    ∃ u', call limit macros' name s' = .ok (e, u') ∧ u.Reindented indent u' := by
  obtain ⟨m, args, w, hget, ha, hlen, hd, rfl, rfl⟩ := call_eq_ok hr
  obtain ⟨w', ha', hw, -⟩ := reindented_onLine (onLine_arguments name) h hs ha
  obtain ⟨-, -, -, hargs⟩ := arguments_eq_ok ha
  have hbody := (hlead _ m hget).expand hargs
  have hcode := (hshape _ m hget).expand fun a ham => not_ends_of_isArgument (hargs a ham)
  have hfirst : ∀ x us, m.expand args = x :: us → x.kind = .indent →
      isCodeIndent x (us ++ w.tokens) = true := by
    intro x us hx hk
    rw [hx] at hbody
    simpa using hbody.1 hk
  refine ⟨w'.insert ((m.expand args).map (Token.reindent indent)), ?_,
    hw.insert (reindent_append hcode.lined hbody w.tokens hfirst)⟩
  have hexpand : (m.reindent indent).expand args = (m.expand args).map (Token.reindent indent) := by
    rw [← Macro.expand_reindent,
      map_reindent_of_kind fun a ham => ne_indent_of_isArgument (hargs a ham)]
  refine bind_eq_ok.2 ⟨_, ha', ?_⟩
  dsimp only
  rw [hm, hget, Option.map_some]
  show (if args.length ≠ m.params.length then _ else _) = _
  rw [if_neg (by simpa using hlen), h.depth, if_neg (by omega), hexpand, List.length_map]
  rfl

/-- A state of a run, and one of the run on the tokens with another indent. -/
structure State.Reindented (indent : String) (s s' : State) : Prop where
  stream : s.stream.Reindented indent s'.stream
  place : s'.place = s.place
  fixed : s'.indent = s.indent.map fun _ => indent
  macros : MacrosReindented indent s.macros s'.macros
  subroutines : s'.subroutines = s.subroutines

variable {limit : Nat} {source : List Token}

theorem State.Reindented.close {s s' : State} (h : s.Reindented indent s') (name : Token)
    (code : List Instruction) {stream stream' : Stream} (hs : stream.Reindented indent stream') :
    (s.close name code stream).Reindented indent (s'.close name code stream') where
  stream := hs
  place := rfl
  fixed := h.fixed
  macros := h.macros
  subroutines := congrArg (_ :: ·) h.subroutines

/-- A step is taken with the other indent as well. -/
theorem reindented_step {s s' v : State} (hi : Inv limit source s) (hl : Leads s)
    (h : s.Reindented indent s') (hs : Step limit s v) :
    ∃ v', Step limit s' v' ∧ v.Reindented indent v' := by
  have hskip := h.stream.skipBlankLines
  cases hs with
  | @define m k stream place read fresh =>
    obtain ⟨stream', read', hstream⟩ := reindented_definition hskip hl.skip read
    rw [← h.fixed] at read'
    refine ⟨_, .define (h.place.trans place) read' ?_, hstream, h.place, rfl, h.macros.insert m,
      h.subroutines⟩
    exact (h.macros.contains m.name).trans fresh
  | @header name colon t u w stream place ident colon fresh start =>
    obtain ⟨u', ident', hu, hlu⟩ := reindented_expect hskip hl.skip rfl (by decide) ident
    obtain ⟨w', colon', hw, -⟩ := reindented_expect hu hlu rfl (by decide) colon
    obtain ⟨stream', start', hstream⟩ := reindented_blockStart hw start
    obtain ⟨-, hk, -⟩ := blockStart_eq_ok start
    rw [← h.fixed] at start'
    refine ⟨_, .header (h.place.trans place) ident' colon' ?_ start', hstream, rfl, ?_, h.macros,
      h.subroutines⟩
    · rw [h.subroutines]
      exact fresh
    · rw [lexeme_reindent hk]
      rfl
  | @goOn name t i code u stream place next kind read =>
    obtain ⟨u', next', hu⟩ := h.stream.next? next (by simp [kind])
    obtain ⟨stream', read', hstream⟩ := reindented_blockContinues hu read
    obtain ⟨-, hk, -⟩ := blockContinues_eq_some read
    rw [← h.fixed] at read'
    refine ⟨_, .goOn (h.place.trans place) next' kind read', hstream, h.place, ?_, h.macros,
      h.subroutines⟩
    rw [lexeme_reindent hk]
    rfl
  | @leave name t code u stream place next kind read =>
    obtain ⟨u', next', hu⟩ := h.stream.next? next (by simp [kind])
    obtain ⟨stream', read', hstream⟩ := reindented_blockContinues hu read
    rw [← h.fixed] at read'
    exact ⟨_, .leave (h.place.trans place) next' kind read', h.close name code hstream⟩
  | @operation name t code op i u stream place next kind read ends =>
    obtain ⟨u', next', hu⟩ := h.stream.next? next (by simp [kind])
    have hlu := hl.next (by simp [place]) next (by simp [kind])
    obtain ⟨stream', read', hstream, -⟩ := reindented_onLine (onLine_instruction op) hu hlu read
    refine ⟨_, .operation (h.place.trans place) next' kind read' ?_, hstream, rfl, h.fixed,
      h.macros, h.subroutines⟩
    rw [hstream.peek_kind]
    exact ends
  | @call name t code event u stream place next kind read =>
    obtain ⟨u', next', hu⟩ := h.stream.next? next (by simp [kind])
    have hlu := hl.next (by simp [place]) next (by simp [kind])
    obtain ⟨stream', read', hstream⟩ := reindented_call h.macros hi.macros hl.bodies hu hlu read
    exact ⟨_, .call (h.place.trans place) next' kind read', hstream, h.place, h.fixed, h.macros,
      h.subroutines⟩
  | @eof name code place kind =>
    have hkind : s'.stream.peek.kind = .eof := h.stream.peek_kind.trans kind
    exact ⟨_, .eof (h.place.trans place) hkind, h.close name code (h.stream.advance kind)⟩

/-- A run that ends with a program does so with the other indent as well. -/
theorem reindented_finishes {s s' : State} {p : Program} (hf : Finishes limit s p)
    (hi : Inv limit source s) (hl : Leads s) (h : s.Reindented indent s') :
    ∃ p', Finishes limit s' p' ∧ p'.subroutines = p.subroutines ∧
      MacrosReindented indent p.macros p'.macros := by
  induction hf generalizing s' with
  | @here s place kind =>
    have hkind : s'.stream.skipBlankLines.peek.kind = .eof :=
      h.stream.skipBlankLines.peek_kind.trans kind
    refine ⟨s'.program, .here (h.place.trans place) hkind, ?_, h.macros⟩
    show s'.subroutines.reverse = s.subroutines.reverse
    rw [h.subroutines]
  | later step _ ih =>
    obtain ⟨v', step', hv⟩ := reindented_step hi hl h step
    obtain ⟨p', hp', hsame⟩ := ih (inv_step hi step) (leads_step hl step) hv
    exact ⟨p', .later step' hp', hsame⟩

end Parse

end IndentAsm
