import IndentAsm.Proofs.Parse.LineStarts
import IndentAsm.Proofs.Parse.Nesting

/-!
# One indent for the whole program

The first indent in front of code fixes the one of all blocks, of subroutines and of macros,
called or not. Every other one is compared with it when it is read. Those that come from
an expansion were compared before, when the body of the macro was read, so that a mismatch
is always found in the source.

**Results.**
* `passes_step`: an indent that a step leaves behind is the one that is fixed then.
* `governed_step`: so the indent that is fixed is the first one in front of code, and all
  those that were left behind are the same.
* `mismatch_of_step`: an indent is at fault in the source only, and is not the one that is fixed.
* `ending_of_finished`: a run that finishes has read all of its source.
* `lexeme_of_result`, `mismatch_of_result`: what this means where a run ends, with a program
  or with a mismatch.
-/
namespace IndentAsm.Parse

open IndentAsm.Stream (Reads ReadsLine dropBlank)

variable {limit : Nat} {source : List Token} {s v : State}

/-! ## Indents that are left behind -/

/-- What becomes of the indents in front of code when some tokens were left to be read, with the
indent `k` fixed, and then others are, with the indent `k'` fixed. -/
inductive Passes (k : Option String) (ts : List Token) : Option String → List Token → Prop where
  /-- None is left behind. -/
  | kept {us : List Token} (same : codeIndents us = codeIndents ts) : Passes k ts k us
  /-- None is left behind, and code is put in. -/
  | inserted {us : List Token} (fixed : k ≠ none) (keeps : codeIndents ts ⊆ codeIndents us) :
      Passes k ts k us
  /-- The first of them is left behind, and others that are the same. -/
  | block {i : Token} {rest us : List Token} (first : codeIndents ts = i :: rest)
      (agrees : ∀ j ∈ k, j = i.lexeme)
      (same : ∀ x ∈ rest, x ∈ codeIndents us ∨ x.lexeme = i.lexeme) :
      Passes k ts (some i.lexeme) us

/-- What stands in front of the first indent makes no difference. -/
theorem Passes.congr {k k' : Option String} {ts us vs : List Token} (h : Passes k us k' vs)
    (hcode : codeIndents us = codeIndents ts) : Passes k ts k' vs := by
  cases h with
  | kept same => exact .kept (same.trans hcode)
  | inserted fixed keeps => exact .inserted fixed (hcode ▸ keeps)
  | block first agrees same => exact .block (hcode.symm.trans first) agrees same

/-- The rest of a block has the indent that is fixed. -/
theorem blockBody_passes {indent : String} {s s' : Stream} {body : Array Token} {ts : List Token}
    (h : blockBody (some indent) s body = .ok (ts, s')) (hs : IndentsLead false s.tokens) :
    ∀ x ∈ codeIndents s.tokens, x ∈ codeIndents s'.tokens ∨ x.lexeme = indent := by
  fun_induction blockBody (some indent) s body with
  | case1 s body hn => cases h; exact fun x hx => Or.inl hx
  | case2 s body t u hn hk => cases h; exact fun x hx => Or.inl hx
  | case3 s body t u hn hk he e hc => cases h
  | case4 s body t u hn hk he w hc =>
    cases h
    rw [Stream.tokens_of_next? hn, codeIndents_of_kind (by simp [he]),
      (blockContinues_eq_none hc).1, codeIndents_dropBlank]
    exact fun x hx => Or.inl hx
  | case5 s body t u hn hk he i w hc ih =>
    rw [Stream.tokens_of_next? hn] at hs ⊢
    obtain ⟨hd, hi, hlex⟩ := blockContinues_eq_some hc
    rw [codeIndents_of_kind (by simp [he]), codeIndents_of_indent hd hi, List.forall_mem_cons]
    exact ⟨Or.inr (hlex indent rfl).symm, ih h (indentsLead_of_indent hs.2 hd hi)⟩
  | case6 s body t u hn hk he ih =>
    rw [Stream.tokens_of_next? hn] at hs ⊢
    have hne : t.kind ≠ .indent := fun hi => by simpa using hs.1 hi
    rw [codeIndents_of_kind hne]
    exact ih h (hs.cons_of_ne he)

theorem macroBody_passes {indent indent' : Option String} {s s' : Stream} {body : List Token}
    (h : macroBody indent s = .ok ((body, indent'), s')) (hs : IndentsLead false s.tokens) :
    Passes indent s.tokens indent' s'.tokens := by
  unfold macroBody at h
  split at h
  · obtain ⟨⟨t, u⟩, ht, h⟩ := bind_eq_ok.1 h
    obtain ⟨⟨ts, w⟩, hb, h⟩ := bind_eq_ok.1 h
    cases h
    obtain ⟨hd, hi, hlex⟩ := blockStart_eq_ok ht
    exact .block (codeIndents_of_indent hd hi) hlex
      (blockBody_passes hb (indentsLead_of_indent hs hd hi))
  · cases h
    exact .kept (codeIndents_of_readsLine hs (inlineBody_eq s #[]).2)

theorem definition_passes {indent indent' : Option String} {s s' : Stream} {m : Macro}
    (h : definition indent s = .ok ((m, indent'), s')) (hs : IndentsLead true s.tokens) :
    Passes indent s.tokens indent' s'.tokens := by
  rcases definition_cases indent hs with ⟨e, he, -⟩ | ⟨name, params, u, hu, hcode, heq⟩
  · cases h.symm.trans he
  · obtain ⟨⟨⟨body, indent''⟩, w⟩, hbody, hm⟩ := bind_eq_ok.1 (heq.symm.trans h)
    cases hm
    exact (macroBody_passes hbody hu).congr hcode

/-- An indent that a step leaves behind is the one that is fixed then. -/
theorem passes_step (hl : Leads s) (hs : Step limit s v) :
    Passes s.indent s.stream.tokens v.indent v.stream.tokens := by
  have skipped : codeIndents s.stream.skipBlankLines.tokens = codeIndents s.stream.tokens := by
    rw [Stream.tokens_skipBlankLines, codeIndents_dropBlank]
  have behind {t : Token} {u : Stream} (next : s.stream.next? = some (t, u))
      (kind : t.kind ≠ .indent) : codeIndents u.tokens = codeIndents s.stream.tokens := by
    rw [Stream.tokens_of_next? next, codeIndents_of_kind kind]
  cases hs with
  | define place read fresh => exact (definition_passes read hl.skip).congr skipped
  | @header name colon t u w stream place ident colon fresh start =>
    obtain ⟨hd, hi, hlex⟩ := blockStart_eq_ok start
    refine .block ?_ hlex fun x hx => Or.inl hx
    rw [← skipped, ← codeIndents_of_expect (by decide) (by decide) ident,
      ← codeIndents_of_expect (by decide) (by decide) colon, codeIndents_of_indent hd hi]
  | goOn place next kind read =>
    obtain ⟨hd, hi, hlex⟩ := blockContinues_eq_some read
    refine .block ?_ hlex fun x hx => Or.inl hx
    rw [← behind next (by simp [kind]), codeIndents_of_indent hd hi]
  | @leave name t code u stream place next kind read =>
    refine .kept ?_
    show codeIndents stream.tokens = codeIndents s.stream.tokens
    rw [(blockContinues_eq_none read).1, codeIndents_dropBlank, behind next (by simp [kind])]
  | @operation name t code op i u stream place next kind read ends =>
    obtain ⟨operands, hr, -⟩ := onLine_instruction op u i stream read
    have hu := hl.next (by simp [place]) next (by simp [kind])
    exact .kept ((codeIndents_of_readsLine hu hr).trans (behind next (by simp [kind])))
  | @call name t code event u stream place next kind read =>
    obtain ⟨m, args, w, -, ha, -, -, rfl, -⟩ := call_eq_ok read
    have hu := hl.next (by simp [place]) next (by simp [kind])
    have hw := codeIndents_of_readsLine hu (arguments_eq_ok ha).1
    refine .inserted (hl.inside (by simp [place])).2 ?_
    show codeIndents s.stream.tokens ⊆ codeIndents (w.insert (m.expand args)).tokens
    rw [← behind next (by simp [kind]), ← hw, tokens_insert]
    exact (codeIndents_suffix _ _).subset
  | eof place kind =>
    refine .kept ?_
    show codeIndents s.stream.advance.2.tokens = codeIndents s.stream.tokens
    cases hn : s.stream.next? with
    | none => rw [Stream.advance_of_unread_nil (Stream.next?_eq_none_iff.1 hn)]
    | some p =>
      obtain ⟨t, u⟩ := p
      rw [Stream.peek_of_tokens (Stream.tokens_of_next? hn)] at kind
      rw [advance_of_next? hn]
      exact behind hn (by simp [kind])

/-- The indents in front of code that were left behind are all the one that is fixed, which is
the first of them. As long as none is fixed, none was left behind. -/
structure Governed (source : List Token) (s : State) : Prop where
  passed : ∀ i ∈ codeIndents source, i ∈ codeIndents s.stream.tokens ∨ s.indent = some i.lexeme
  first : ∀ j ∈ s.indent, ∃ i ∈ (codeIndents source).head?, i.lexeme = j
  unset : s.indent = none → codeIndents s.stream.tokens = codeIndents source

theorem governed_ofTokens (tokens : List Token) : Governed tokens (.ofTokens tokens) where
  passed i hi := Or.inl (by rwa [State.ofTokens, Stream.tokens_ofTokens])
  first j hj := by cases hj
  unset _ := by rw [State.ofTokens, Stream.tokens_ofTokens]

theorem governed_step (hl : Leads s) (h : Governed source s) (hs : Step limit s v) :
    Governed source v := by
  have hpass := passes_step hl hs
  generalize hk : v.indent = k at hpass
  cases hpass with
  | kept same =>
    refine ⟨?_, ?_, ?_⟩
    · rw [hk, same]
      exact h.passed
    · rw [hk]
      exact h.first
    · rw [hk, same]
      exact h.unset
  | inserted fixed keeps =>
    refine ⟨fun i hi => ?_, ?_, fun hn => absurd (hk.symm.trans hn) fixed⟩
    · rw [hk]
      exact (h.passed i hi).imp (@keeps i) id
    · rw [hk]
      exact h.first
  | @block i rest _ first agrees same =>
    refine ⟨fun x hx => ?_, fun j hj => ?_, fun hn => by cases hk.symm.trans hn⟩
    · rw [hk]
      rcases h.passed x hx with hmem | hfix
      · rw [first, List.mem_cons] at hmem
        rcases hmem with rfl | hmem
        · exact Or.inr rfl
        · exact (same x hmem).imp id fun hx => by rw [hx]
      · exact Or.inr (by rw [agrees _ hfix])
    · cases hk.symm.trans hj
      cases hs : s.indent with
      | none => exact ⟨i, by rw [← h.unset hs, first]; rfl, rfl⟩
      | some j =>
        obtain ⟨f, hf, hlex⟩ := h.first j hs
        exact ⟨f, hf, hlex.trans (agrees j hs)⟩

theorem Governed.of_reachable {tokens : List Token} (ht : IndentsLead true tokens)
    (h : Reachable limit tokens s) : Governed tokens s := by
  induction h with
  | refl => exact governed_ofTokens tokens
  | tail hr hs ih => exact governed_step (Leads.of_reachable ht hr) ih hs

/-! ## Mismatches -/

/-- An indent in front of code that is not the one that is fixed, or that is to be fixed by
the first of some tokens. -/
structure Mismatch (k : Option String) (ts : List Token) (t : Token) : Prop where
  mem : t ∈ codeIndents ts
  differs : ∃ j ∈ k.or ((codeIndents ts).head?.map Token.lexeme), t.lexeme ≠ j

theorem Mismatch.congr {k : Option String} {ts us : List Token} {t : Token}
    (h : Mismatch k ts t) (hcode : codeIndents ts = codeIndents us) : Mismatch k us t :=
  ⟨hcode ▸ h.mem, hcode ▸ h.differs⟩

theorem differs_of_checkIndent {k : Option String} {i t : Token}
    (h : checkIndent k i = .error (.invalidIndent t)) : t = i ∧ ∃ j ∈ k, t.lexeme ≠ j := by
  unfold checkIndent at h
  split at h
  · cases h
  · rename_i hne
    cases h
    cases k with
    | none => simp at hne
    | some j => exact ⟨rfl, j, rfl, fun h => hne (by simp [h])⟩

/-- An indent that is left by the blank lines, and fails. -/
theorem mismatch_of_checkIndent {k : Option String} {ts us : List Token} {i t : Token}
    (hd : dropBlank ts = i :: us) (hi : i.kind = .indent)
    (h : checkIndent k i = .error (.invalidIndent t)) : Mismatch k ts t := by
  obtain ⟨rfl, j, hj, hne⟩ := differs_of_checkIndent h
  refine ⟨?_, j, ?_, hne⟩
  · rw [codeIndents_of_indent hd hi]
    exact List.mem_cons_self
  · rw [hj]
    rfl

theorem mismatch_of_blockStart {k : Option String} {s : Stream} {t : Token}
    (h : blockStart k s = .error (.invalidIndent t)) : Mismatch k s.tokens t := by
  rcases bind_eq_error.1 h with h | ⟨⟨i, u⟩, hi, h⟩
  · exact absurd rfl (expect_no_indent h t)
  · rcases bind_eq_error.1 h with h | ⟨_, _, ⟨⟩⟩
    obtain ⟨htok, hk⟩ := Stream.tokens_expect (by decide) hi
    rw [Stream.tokens_skipBlankLines] at htok
    exact mismatch_of_checkIndent htok hk h

theorem mismatch_of_blockContinues {k : Option String} {s : Stream} {t : Token}
    (h : blockContinues k s = .error (.invalidIndent t)) : Mismatch k s.tokens t := by
  unfold blockContinues at h
  dsimp only at h
  split at h
  · rename_i hc
    rcases bind_eq_error.1 h with h | ⟨_, _, ⟨⟩⟩
    have hk : s.skipBlankLines.peek.kind = .indent := by simpa [Stream.check] using hc
    have htok := (ReadsLine.advance (s := s.skipBlankLines) (by rw [hk]; rfl)).tokens
    rw [Stream.tokens_skipBlankLines] at htok
    exact mismatch_of_checkIndent htok hk h
  · cases h

theorem mismatch_of_blockBody {indent : String} {s : Stream} {body : Array Token} {t : Token}
    (h : blockBody (some indent) s body = .error (.invalidIndent t)) :
    t ∈ codeIndents s.tokens ∧ t.lexeme ≠ indent := by
  have behind {s u : Stream} {taken : List (Token × Nat)} (hr : Reads s taken u)
      (hmem : t ∈ codeIndents u.tokens) : t ∈ codeIndents s.tokens := by
    rw [Stream.tokens_of_reads hr]
    exact (codeIndents_suffix _ _).subset hmem
  fun_induction blockBody (some indent) s body with
  | case1 s body hn => cases h
  | case2 s body x u hn hk => cases h
  | case3 s body x u hn hk he e hc =>
    cases h
    obtain ⟨hmem, j, hj, hne⟩ := mismatch_of_blockContinues hc
    cases hj
    exact ⟨behind (Stream.reads_next? hn) hmem, hne⟩
  | case4 s body x u hn hk he w hc => cases h
  | case5 s body x u hn hk he i w hc ih =>
    obtain ⟨taken, hr⟩ := forward_blockContinues _ _ _ _ hc
    exact ⟨behind ((Stream.reads_next? hn).trans hr) (ih h).1, (ih h).2⟩
  | case6 s body x u hn hk he ih => exact ⟨behind (Stream.reads_next? hn) (ih h).1, (ih h).2⟩

theorem mismatch_of_macroBody {k : Option String} {s : Stream} {t : Token}
    (h : macroBody k s = .error (.invalidIndent t)) : Mismatch k s.tokens t := by
  unfold macroBody at h
  split at h
  · rcases bind_eq_error.1 h with h | ⟨⟨i, u⟩, hi, h⟩
    · exact mismatch_of_blockStart h
    · rcases bind_eq_error.1 h with h | ⟨_, _, ⟨⟩⟩
      -- the block itself starts with the indent that all its lines have to repeat
      obtain ⟨hmem, hne⟩ := mismatch_of_blockBody h
      obtain ⟨hd, hk, hlex⟩ := blockStart_eq_ok hi
      have hcode := codeIndents_of_indent hd hk
      refine ⟨hcode ▸ List.mem_cons_of_mem i hmem, i.lexeme, ?_, hne⟩
      cases k with
      | none => rw [hcode]; rfl
      | some j => rw [hlex j rfl]; rfl
  · cases h

theorem mismatch_of_definition {k : Option String} {s : Stream} {t : Token}
    (hs : IndentsLead true s.tokens) (h : definition k s = .error (.invalidIndent t)) :
    Mismatch k s.tokens t := by
  rcases definition_cases k hs with ⟨e, he, hne⟩ | ⟨name, params, u, -, hcode, heq⟩
  · cases h.symm.trans he
    exact absurd rfl (hne t)
  · rcases bind_eq_error.1 (heq.symm.trans h) with h | ⟨_, _, ⟨⟩⟩
    exact (mismatch_of_macroBody h).congr hcode

theorem mismatch_of_header {stream : Stream} {t : Token}
    (h : s.header stream = .error (.invalidIndent t)) : Mismatch s.indent stream.tokens t := by
  rcases bind_eq_error.1 h with h | ⟨⟨name, u⟩, hname, h⟩
  · exact absurd rfl (expect_no_indent h t)
  rcases bind_eq_error.1 h with h | ⟨⟨colon, w⟩, hcolon, h⟩
  · exact absurd rfl (expect_no_indent h t)
  dsimp only at h
  split at h
  · cases h
  · rcases bind_eq_error.1 h with h | ⟨_, _, ⟨⟩⟩
    refine (mismatch_of_blockStart h).congr ?_
    rw [codeIndents_of_expect (by decide) (by decide) hcolon,
      codeIndents_of_expect (by decide) (by decide) hname]

theorem mismatch_of_stepOutside {t : Token} (hl : Leads s)
    (h : s.stepOutside = .error (.invalidIndent t)) : Mismatch s.indent s.stream.tokens t := by
  suffices hskip : Mismatch s.indent s.stream.skipBlankLines.tokens t from
    hskip.congr (by rw [Stream.tokens_skipBlankLines, codeIndents_dropBlank])
  unfold State.stepOutside at h
  dsimp only at h
  split at h
  · cases h
  · rcases bind_eq_error.1 h with h | ⟨⟨⟨m, indent⟩, u⟩, -, h⟩
    · exact mismatch_of_definition hl.skip h
    · rcases bind_eq_error.1 h with h | ⟨_, _, ⟨⟩⟩
      unfold State.define at h
      split at h <;> cases h
  · cases h
  · rcases bind_eq_error.1 h with h | ⟨_, _, ⟨⟩⟩
    exact mismatch_of_header h

/-- Inside a body an indent is at fault behind a line break only. -/
theorem mismatch_of_stepInside {name t : Token} {code : List Instruction}
    (h : s.stepInside limit name code = .error (.invalidIndent t)) :
    ∃ x u, s.stream.next? = some (x, u) ∧ x.kind = .newLine ∧
      blockContinues s.indent u = .error (.invalidIndent t) := by
  unfold State.stepInside at h
  dsimp only at h
  split at h
  · rename_i hk
    refine ⟨_, _, next?_of_kind hk (by simp), hk, ?_⟩
    rcases bind_eq_error.1 h with h | ⟨⟨next, u⟩, -, h⟩
    · exact h
    · cases next <;> cases h
  · rename_i op hk
    rcases bind_eq_error.1 h with h | ⟨⟨i, u⟩, -, h⟩
    · exact absurd rfl ((blames_instruction op _ _ h).sort.no_indent t)
    · dsimp only at h
      split at h <;> cases h
  · rename_i hk
    split at h
    · rcases bind_eq_error.1 h with h | ⟨_, _, ⟨⟩⟩
      rw [Stream.fst_advance] at hk h
      exact absurd rfl ((raised_of_call hk h).sort.no_indent t)
    · cases h
  · cases h
  · cases h

/-! ## Where a run ends -/

/-- What is left where no expansion is. -/
theorem AtSource.suffix {indent : Option String} {stream : Stream} (h : AtSource stream)
    (hn : Nested indent source stream.frames) : stream.tokens <:+ source := by
  obtain ⟨ts, hsuffix, hunread⟩ := h.unread_eq hn
  have htok : stream.tokens = ts := by simp [Stream.tokens, hunread, Function.comp_def]
  rwa [htok]

/-- The end token comes last. -/
theorem eq_singleton_of_eof {code ts : List Token} {last t : Token}
    (hcode : ∀ x ∈ code, x.kind ≠ .eof) (ht : t.kind = .eof) (h : t :: ts <:+ code ++ [last]) :
    ts = [] := by
  obtain ⟨before, hb⟩ := h
  rcases List.append_eq_append_iff.1 hb with ⟨c, rfl, hc⟩ | ⟨c, rfl, hc⟩
  · cases c with
    | nil => exact (List.cons.inj hc).2
    | cons x c =>
      rw [List.cons_append, List.cons.injEq] at hc
      exact absurd (hc.1 ▸ ht) (hcode x (by simp))
  · cases c with
    | nil => exact (List.cons.inj hc.symm).2
    | cons x c => simp at hc

/-- Where a run finishes, nothing is left but blank lines and the end token. -/
theorem ending_of_finished {code : List Token} {last : Token}
    (hcode : ∀ x ∈ code, x.kind ≠ .eof) (h : Reachable limit (code ++ [last]) s)
    (place : s.place = .outside) (kind : s.stream.skipBlankLines.peek.kind = .eof) :
    Ending (dropBlank s.stream.tokens) := by
  have hi := inv_of_reachable h
  have hsuffix := (dropBlank_suffix _).trans ((hi.outside place).suffix hi.nested)
  rw [← Stream.tokens_skipBlankLines] at hsuffix ⊢
  cases htok : s.stream.skipBlankLines.tokens with
  | nil => exact Or.inl rfl
  | cons t ts =>
    rw [Stream.peek_of_tokens htok] at kind
    rw [htok] at hsuffix
    rw [eq_singleton_of_eof hcode kind hsuffix]
    exact Or.inr ⟨t, kind, rfl⟩

/-- All indents in front of code are the same in a program that is read. -/
theorem lexeme_of_result {text : String} {tokens : List Token} {p : Program}
    (hscan : scan text = .ok tokens) (h : (ofTokens limit tokens).result = .ok p) :
    ∀ i ∈ codeIndents tokens, ∀ j ∈ codeIndents tokens, i.lexeme = j.lexeme := by
  obtain ⟨n, s, hs, hstop, -⟩ := exists_last limit (.ofTokens tokens)
  rw [show (run limit (.ofTokens tokens)).result = .ok p from h] at hstop
  obtain ⟨place, kind, -⟩ := step_eq_finished_iff.1 hstop
  have hr := reachable_of_after hs
  have hg := Governed.of_reachable (indentsLead_of_scan hscan) hr
  have hnone : codeIndents s.stream.tokens = [] := by
    obtain ⟨code, last, rfl, -, hcode⟩ := scan_eq_ok hscan
    rw [← codeIndents_dropBlank]
    rcases ending_of_finished hcode.no_eof hr place kind with htok | ⟨t, hk, htok⟩
    · rw [htok]
      rfl
    · rw [htok, codeIndents_of_kind (by simp [hk])]
      rfl
  have hfixed : ∀ i ∈ codeIndents tokens, s.indent = some i.lexeme := by
    intro i hi
    refine (hg.passed i hi).resolve_left ?_
    simp [hnone]
  intro i hi j hj
  exact Option.some.inj ((hfixed i hi).symm.trans (hfixed j hj))

/-- What a mismatch at a state of a run means for the source. -/
theorem Governed.differs (h : Governed source s) {t : Token}
    (hm : Mismatch s.indent s.stream.tokens t) :
    ∃ first ∈ (codeIndents source).head?, t.lexeme ≠ first.lexeme := by
  obtain ⟨-, j, hj, hne⟩ := hm
  cases hs : s.indent with
  | none =>
    rw [hs, h.unset hs] at hj
    obtain ⟨first, hfirst, rfl⟩ := Option.map_eq_some_iff.1 hj
    exact ⟨first, hfirst, hne⟩
  | some k =>
    rw [hs] at hj
    cases hj
    obtain ⟨first, hfirst, rfl⟩ := h.first _ hs
    exact ⟨first, hfirst, hne⟩

theorem mismatch_of_step (hi : Inv limit source s) (hl : Leads s) (hg : Governed source s)
    {t : Token} (h : s.step limit = .error (.invalidIndent t)) :
    t ∈ codeIndents source ∧ ∃ first ∈ (codeIndents source).head?, t.lexeme ≠ first.lexeme := by
  have mem_source {ts : List Token} (hts : ts <:+ source) (hmem : t ∈ codeIndents ts) :
      t ∈ codeIndents source := by
    obtain ⟨before, rfl⟩ := hts
    exact (codeIndents_suffix before ts).subset hmem
  cases hp : s.place with
  | outside =>
    rw [step_of_outside hp] at h
    have hm := mismatch_of_stepOutside hl h
    exact ⟨mem_source ((hi.outside hp).suffix hi.nested) hm.mem, hg.differs hm⟩
  | inside name code =>
    rw [step_of_inside hp] at h
    have hin : s.stepInside limit name code = .error (.invalidIndent t) := by
      cases hs : s.stepInside limit name code <;> simp_all [Except.map]
    obtain ⟨x, u, next, kind, hcont⟩ := mismatch_of_stepInside hin
    have hm := mismatch_of_blockContinues hcont
    have hsame : codeIndents u.tokens = codeIndents s.stream.tokens := by
      rw [Stream.tokens_of_next? next, codeIndents_of_kind (by simp [kind])]
    rcases hi.source_or_code next with hsrc | ⟨ts, rest, hlined, hu⟩
    · have hsuffix := hsrc.suffix (hi.nested.reads (Stream.reads_next? next))
      exact ⟨mem_source hsuffix hm.mem, hg.differs (hm.congr hsame)⟩
    · -- in an expansion the next line has the indent that is fixed
      obtain ⟨i, y, ys, rfl, hik, hfix, hy⟩ := hlined.2.1 kind
      have hd : dropBlank u.tokens = i :: y :: (ys ++ rest) := by
        rw [hu]
        exact Stream.dropBlank_of_not (Stream.startsBlank_of_not_ends _ hik hy)
      have hsame : ∀ j ∈ s.indent, j = i.lexeme := by simp [hfix]
      obtain ⟨_, hok, -⟩ := blockContinues_of_indent hd hik hsame
      cases hok.symm.trans hcont

/-- An indent is at fault only if it stands in front of code in the source, and is not the
same as the first one that does. -/
theorem mismatch_of_result {tokens : List Token} {t : Token} (ht : IndentsLead true tokens)
    (h : (ofTokens limit tokens).result = .error (.invalidIndent t)) :
    t ∈ codeIndents tokens ∧ ∃ first ∈ (codeIndents tokens).head?, t.lexeme ≠ first.lexeme := by
  obtain ⟨n, s, hs, hstop, -⟩ := exists_last limit (.ofTokens tokens)
  rw [show (run limit (.ofTokens tokens)).result = .error (.invalidIndent t) from h] at hstop
  have hr := reachable_of_after hs
  exact mismatch_of_step (inv_of_reachable hr) (Leads.of_reachable ht hr)
    (Governed.of_reachable ht hr) hstop

end IndentAsm.Parse
