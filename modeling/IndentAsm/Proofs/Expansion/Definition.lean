import IndentAsm.Proofs.Expansion.Lines
import IndentAsm.Proofs.Token.Scanned

/-!
# A definition that is read is the one that its lines say

The reader takes a macro definition from the stream token by token;
`macroOf` finds it by its lines. On scanned code both give the same macro, and
the reader goes on where the block of the definition ends.

**Results.**
* `parameters_eq_ok`: the parameters are the identifiers of their list.
* `blockBody_eq_ok`: the body that is kept is the text of its block.
* `definition_eq_ok`: a definition that is read is `macroOf` its lines.
-/
namespace IndentAsm.Parse

open IndentAsm.Stream (Reads ReadsLine dropBlank startsBlank)

/-! ## The header -/

theorem readsLine_expect {s s' : Stream} {kind : Token.Kind} {t : Token}
    (hk : kind.endsLine = false) (h : s.expect kind = .ok (t, s')) :
    ReadsLine s [t] s' ∧ t.kind = kind := by
  have hkind := (Stream.expect_eq_ok h).2
  obtain ⟨-, hne⟩ := Token.Kind.not_endsLine_iff.1 hk
  refine ⟨⟨_, Stream.reads_expect hne h, rfl, fun u hu => ?_⟩, hkind⟩
  rw [List.mem_singleton.1 hu, hkind, hk]

theorem readsLine_check {s : Stream} {kind : Token.Kind} (hk : kind.endsLine = false)
    (h : s.check kind = true) : ReadsLine s [s.peek] s.advance.2 ∧ s.peek.kind = kind := by
  have hp : s.peek.kind = kind := by simpa [Stream.check] using h
  exact ⟨ReadsLine.advance (hp ▸ hk), hp⟩

theorem names_append (ts us : List Token) : names (ts ++ us) = names ts ++ names us := by
  simp [names]

theorem names_of_kind {t : Token} (h : t.kind = .identifier) : names [t] = [t.lexeme] := by
  simp [names, h]

theorem names_of_ne {t : Token} (h : t.kind ≠ .identifier) : names [t] = [] := by
  simp [names, h]

/-- Tokens of a line that are read as a list of names. -/
def ListsNames (s : Stream) (found : List String) (s' : Stream) : Prop :=
  ∃ ts, ReadsLine s ts s' ∧ (∀ t ∈ ts, t.kind ≠ .colon) ∧ found = names ts

theorem ListsNames.trans {s t u : Stream} {a b : List String} (h : ListsNames s a t)
    (h' : ListsNames t b u) : ListsNames s (a ++ b) u := by
  obtain ⟨xs, hx, hxc, rfl⟩ := h
  obtain ⟨ys, hy, hyc, rfl⟩ := h'
  refine ⟨xs ++ ys, hx.trans hy, fun t ht => ?_, (names_append xs ys).symm⟩
  rcases List.mem_append.1 ht with ht | ht
  · exact hxc t ht
  · exact hyc t ht

theorem ListsNames.single {s s' : Stream} {t : Token} (h : ReadsLine s [t] s')
    (hc : t.kind ≠ .colon) : ListsNames s (names [t]) s' :=
  ⟨[t], h, by simpa using hc, rfl⟩

theorem identifiers_eq_ok {s s' : Stream} {before : Array String} {found : List String}
    (h : identifiers s before = .ok (found, s')) :
    ∃ more, found = before.toList ++ more ∧ ListsNames s more s' := by
  fun_induction identifiers s before with
  | case1 s before e he => cases h
  | case2 s before t u he hc ih =>
    obtain ⟨more, rfl, hm⟩ := ih h
    obtain ⟨ht, htk⟩ := readsLine_expect rfl he
    obtain ⟨hcomma, hck⟩ := readsLine_check rfl hc
    have hlist := ((ListsNames.single ht (by simp [htk])).trans
      (ListsNames.single hcomma (by simp [hck]))).trans hm
    rw [names_of_kind htk, names_of_ne (by simp [hck])] at hlist
    exact ⟨t.lexeme :: more, by simp, hlist⟩
  | case3 s before t u he hc =>
    cases h
    obtain ⟨ht, htk⟩ := readsLine_expect rfl he
    have hlist := ListsNames.single ht (by simp [htk])
    rw [names_of_kind htk] at hlist
    exact ⟨[t.lexeme], by simp, hlist⟩

/-- The parameters are the identifiers up to the colon. -/
theorem parameters_eq_ok {s s' : Stream} {params : List String}
    (h : parameters s = .ok (params, s')) : ListsNames s params s' := by
  unfold parameters at h
  split at h
  · rename_i hopen
    obtain ⟨ho, hok⟩ := readsLine_check rfl hopen
    have hpar := ListsNames.single ho (by simp [hok])
    rw [names_of_ne (by simp [hok])] at hpar
    dsimp only at h
    split at h
    · rename_i hclose
      cases h
      obtain ⟨hc, hck⟩ := readsLine_check rfl hclose
      have hend := ListsNames.single hc (by simp [hck])
      rw [names_of_ne (by simp [hck])] at hend
      exact hpar.trans hend
    · obtain ⟨⟨found, u⟩, hi, h⟩ := bind_eq_ok.1 h
      obtain ⟨⟨t, v⟩, hc, h⟩ := bind_eq_ok.1 h
      cases h
      obtain ⟨more, hmore, hm⟩ := identifiers_eq_ok hi
      obtain ⟨hct, hck⟩ := readsLine_expect rfl hc
      have hend := ListsNames.single hct (by simp [hck])
      rw [names_of_ne (by simp [hck])] at hend
      have hall := (hpar.trans hm).trans hend
      rw [List.append_nil, List.nil_append] at hall
      have hfound : found = more := by simpa using hmore
      rwa [hfound]
  · cases h
    exact ⟨[], .refl s, by simp, rfl⟩

/-! ## The body -/

/-- Tokens read before the end token belong to the code in front of it. -/
theorem split_code {xs rest b z : List Token} (hz : Ending z) (hx : ∀ t ∈ xs, t.kind ≠ .eof)
    (h : b ++ z = xs ++ rest) : ∃ b', b = xs ++ b' ∧ rest = b' ++ z := by
  rcases List.append_eq_append_iff.1 h with ⟨c, rfl, hc⟩ | ⟨c, rfl, hc⟩
  · rcases hz with rfl | ⟨e, he, rfl⟩
    · obtain ⟨rfl, rfl⟩ := List.append_eq_nil_iff.1 hc.symm
      exact ⟨[], by simp, rfl⟩
    · cases c with
      | nil => exact ⟨[], by simp, hc.symm⟩
      | cons x xs =>
        rw [List.cons_append, List.cons.injEq] at hc
        exact absurd (hc.1 ▸ he) (hx x (by simp))
  · exact ⟨c, rfl, hc⟩

/-- The same for a single token. -/
theorem split_code_cons {t : Token} {rest b z : List Token} (hz : Ending z) (ht : t.kind ≠ .eof)
    (h : b ++ z = t :: rest) : ∃ b', b = t :: b' ∧ rest = b' ++ z := by
  have hx : ∀ x ∈ [t], x.kind ≠ .eof := by simpa using ht
  exact split_code hz hx h

/-- The text of a block from the middle of its first line on. -/
def blockText : List Line → List Token
  | [] => []
  | l :: ls => l.tokens ++ blockTokens l.stop.toList ls

theorem blockText_addToken (t : Token) (ls : List Line) :
    blockText (addToken t ls) = t :: blockText ls := by
  cases ls <;> rfl

theorem blockTokens_dropWhile (stop : List Token) (ls : List Line) :
    blockTokens stop (ls.dropWhile Line.isBlank) = blockTokens stop ls := by
  induction ls with
  | nil => rfl
  | cons l ls ih =>
    rw [List.dropWhile_cons]
    split
    · rename_i hb
      rw [ih, blockTokens, Line.isHeader_of_isBlank hb, hb]
      rfl
    · rfl

/-- A block goes on with an indent that has something behind it. -/
theorem blockTokens_indent (stop : List Token) {i t : Token} {ts : List Token}
    (hi : i.kind = .indent) (ht : t.kind.endsLine = false) :
    blockTokens stop (lines (i :: t :: ts)) = stop ++ i :: blockText (lines (t :: ts)) := by
  obtain ⟨hn, -⟩ := Token.Kind.not_endsLine_iff.1 ht
  obtain ⟨xs, stop', ls, hl⟩ := exists_lines_cons hn ts
  rw [lines_cons (by simp [hi]), hl, addToken, blockTokens, Line.isHeader_of_kind hi,
    Line.isBlank_of_kind hi]
  simp [blockText]

/-- It ends in front of a header. -/
theorem blockTokens_header (stop : List Token) {ls : List Line}
    (h : ∀ l ∈ ls.head?, l.isHeader = true) : blockTokens stop ls = [] := by
  cases ls with
  | nil => rfl
  | cons l ls => rw [blockTokens, if_pos (h l rfl)]

/-- In a macro, the rest of an indented line is dropped with it. -/
theorem expandLines_indent (n : Nat) (macros : NameMap Macro) {i : Token} (hi : i.kind = .indent)
    (ts : List Token) : expandLines n macros true (lines (i :: ts)) =
      expandLines n macros true (lines ts).tail := by
  rw [lines_cons (by simp [hi])]
  cases lines ts with
  | nil => exact expandLines_inMacro (Line.isHeader_of_kind hi _ _)
  | cons l ls => exact expandLines_inMacro (Line.isHeader_of_kind hi _ _)

/-- The body that is kept is the text of its block, and reading it leads to the
next header. -/
theorem blockBody_eq_ok {indent : String} {s s' : Stream} {body : Array Token}
    {ts b z : List Token} (hz : Ending z) (hb : ∀ t ∈ b, t.kind ≠ .eof)
    (hs : s.tokens = b ++ z) (h : blockBody (some indent) s body = .ok (ts, s')) :
    ts = body.toList ++ blockText (lines b) ∧ ∃ b', b' <:+ b ∧ s'.tokens = b' ++ z ∧
      ∀ n macros, expandLines n macros true (lines b).tail =
        expandLines n macros true (lines b') := by
  fun_induction blockBody (some indent) s body generalizing b with
  | case1 s body hn =>
    cases h
    have hnil : s'.tokens = [] := by rw [Stream.tokens, Stream.next?_eq_none_iff.1 hn]; rfl
    obtain ⟨rfl, rfl⟩ := List.append_eq_nil_iff.1 (hs.symm.trans hnil)
    exact ⟨by simp [blockText], [], List.suffix_refl _, hnil, fun _ _ => rfl⟩
  | case2 s body t u hn hk =>
    cases h
    cases b with
    | nil => exact ⟨by simp [blockText], [], List.suffix_refl _, hs, fun _ _ => rfl⟩
    | cons x xs =>
      rw [Stream.tokens_of_next? hn, List.cons_append, List.cons.injEq] at hs
      exact absurd (hs.1 ▸ hk) (hb x List.mem_cons_self)
  | case3 s body t u hn hk he e hc => cases h
  | case4 s body t u hn hk he v hc =>
    cases h
    rw [Stream.tokens_of_next? hn] at hs
    obtain ⟨c, rfl, hu⟩ := split_code_cons hz hk hs.symm
    have hce : ∀ t ∈ c, t.kind ≠ .eof := fun x hx => hb x (List.mem_cons_of_mem _ hx)
    obtain ⟨b', hsuf, hd, hl⟩ := dropBlank_eq hz hce
    obtain ⟨hv, hni⟩ := blockContinues_eq_none hc
    rw [hu, hd] at hv
    have hstart := Stream.startsBlank_dropBlank (c ++ z)
    rw [hd] at hstart
    have hh := isHeader_head_lines hz hstart fun x hx => hni x (by
      rw [hv, List.head?_append, hx]; rfl)
    refine ⟨?_, b', hsuf.trans (List.suffix_cons t c), hv, fun n macros => ?_⟩
    · rw [lines_newLine he, blockText, ← blockTokens_dropWhile, ← hl, blockTokens_header _ hh]
      simp
    · rw [lines_newLine he, List.tail_cons, hl, expandLines_dropWhile]
  | case5 s body t u hn hk he i v hc ih =>
    rw [Stream.tokens_of_next? hn] at hs
    obtain ⟨c, rfl, hu⟩ := split_code_cons hz hk hs.symm
    have hce : ∀ t ∈ c, t.kind ≠ .eof := fun x hx => hb x (List.mem_cons_of_mem _ hx)
    obtain ⟨c', hsuf, hd, hl⟩ := dropBlank_eq hz hce
    obtain ⟨hv, hi, -⟩ := blockContinues_eq_some hc
    rw [hu, hd] at hv
    obtain ⟨d, rfl, hvd⟩ := split_code_cons hz (by simp [hi]) hv
    have hstart := Stream.startsBlank_dropBlank (c ++ z)
    rw [hd] at hstart
    obtain ⟨x, xs, rfl, hx⟩ := (cases_not_startsBlank hz hstart).2 hi
    have hsuf' := (List.suffix_cons i (x :: xs)).trans hsuf
    obtain ⟨rfl, b', hbd, hs', hexp⟩ := ih (fun y hy => hce y (hsuf'.subset hy)) hvd h
    refine ⟨?_, b', (hbd.trans hsuf').trans (List.suffix_cons t c), hs', fun n macros => ?_⟩
    · rw [lines_newLine he, blockText, ← blockTokens_dropWhile, ← hl]
      simp [blockTokens_indent [t] hi hx]
    · rw [lines_newLine he, List.tail_cons, ← expandLines_dropWhile, ← hl, ← hexp,
        expandLines_indent n macros hi]
  | case6 s body t u hn hk he ih =>
    rw [Stream.tokens_of_next? hn] at hs
    obtain ⟨c, rfl, hu⟩ := split_code_cons hz hk hs.symm
    obtain ⟨rfl, b', hsuf, hs', hexp⟩ := ih (fun x hx => hb x (List.mem_cons_of_mem _ hx)) hu h
    rw [lines_cons he, blockText_addToken]
    refine ⟨by simp, b', hsuf.trans (List.suffix_cons t c), hs', fun n macros => ?_⟩
    rw [← hexp]
    cases lines c <;> rfl

/-! ## The definition -/

/-- A line up to its end, and the lines behind it. -/
theorem exists_lines_append {xs ts : List Token} (hx : ∀ t ∈ xs, t.kind ≠ .newLine)
    (hne : xs ≠ []) (ht : ∀ t ∈ ts.head?, t.kind = .newLine) : ∃ stop ls,
      lines (xs ++ ts) = ⟨xs, stop⟩ :: ls ∧
      ls.dropWhile Line.isBlank = (lines ts).dropWhile Line.isBlank := by
  cases ts with
  | nil => exact ⟨none, [], by rw [List.append_nil, lines_of_no_newLine hx hne], rfl⟩
  | cons n us =>
    have hn := ht n rfl
    refine ⟨some n, lines us, lines_append_newLine hx hn us, ?_⟩
    rw [lines_newLine hn]
    rfl

theorem macroOf_eq {kw name colon : Token} {params rest : List Token}
    (hp : ∀ t ∈ params, t.kind ≠ .colon) (hc : colon.kind = .colon) (stop : Option Token)
    (ls : List Line) : macroOf ⟨kw :: name :: (params ++ colon :: rest), stop⟩ ls =
      ⟨name.lexeme, name.line, names params,
        if rest.isEmpty then (blockTokens [] ls).drop 1 else rest⟩ := by
  have htake : (params ++ colon :: rest).takeWhile (·.kind != .colon) = params := by
    rw [List.takeWhile_append_of_pos (by simpa using hp)]
    simp [hc]
  have hdrop : (params ++ colon :: rest).dropWhile (·.kind != .colon) = colon :: rest := by
    rw [List.dropWhile_append_of_pos (by simpa using hp)]
    simp [hc]
  simp only [macroOf, List.drop_succ_cons, List.drop_zero, htake, hdrop]
  rfl

/-- Behind the tokens of the current line, code goes on with a new line. -/
theorem split_line {s : Stream} {b z : List Token} (hz : Ending z) (hb : ∀ t ∈ b, t.kind ≠ .eof)
    (hs : s.tokens = b ++ z) : ∃ c, b = s.line ++ c ∧ ∀ t ∈ c.head?, t.kind = .newLine := by
  rw [Stream.line, hs]
  clear hs
  induction b with
  | nil =>
    refine ⟨[], ?_, by simp⟩
    rcases hz with rfl | ⟨e, he, rfl⟩
    · rfl
    · rw [List.nil_append, Stream.lineOf_cons_of_ends [] (by rw [he]; rfl)]
      rfl
  | cons t ts ih =>
    rw [List.cons_append]
    cases ht : t.kind.endsLine with
    | true =>
      refine ⟨t :: ts, by rw [Stream.lineOf_cons_of_ends _ ht]; rfl, fun x hx => ?_⟩
      cases hx
      exact newLine_of_endsLine (hb t List.mem_cons_self) ht
    | false =>
      obtain ⟨c, hc, hn⟩ := ih fun x hx => hb x (List.mem_cons_of_mem _ hx)
      refine ⟨c, ?_, hn⟩
      rw [Stream.lineOf_cons_of_not _ ht, List.cons_append, ← hc]

/-- The body of a macro is the rest of the line of its header, or the block
behind it. -/
theorem macroBody_eq_ok {indent indent' : Option String} {s s' : Stream} {body : List Token}
    {b z : List Token} (hz : Ending z) (hb : ∀ t ∈ b, t.kind ≠ .eof) (hs : s.tokens = b ++ z)
    (h : macroBody indent s = .ok ((body, indent'), s')) : ∃ rest c b', b = rest ++ c ∧
      (∀ t ∈ rest, t.kind ≠ .newLine) ∧ (∀ t ∈ c.head?, t.kind = .newLine) ∧ b' <:+ c ∧
      s'.tokens = b' ++ z ∧ ∀ ls, ls.dropWhile Line.isBlank = (lines c).dropWhile Line.isBlank →
        (body = if rest.isEmpty then (blockTokens [] ls).drop 1 else rest) ∧
        ∀ n macros, expandLines n macros true ls = expandLines n macros true (lines b') := by
  obtain ⟨c, rfl, hc⟩ := split_line hz hb hs
  have hrest : ∀ t ∈ s.line, t.kind ≠ .newLine := fun t ht =>
    (Token.Kind.not_endsLine_iff.1 (Stream.not_ends_of_mem_lineOf ht)).1
  unfold macroBody at h
  split at h
  · rename_i hp
    have hl := Stream.line_eq_nil_iff.2 hp
    obtain ⟨⟨i, u⟩, hi, h⟩ := bind_eq_ok.1 h
    obtain ⟨⟨ts, v⟩, hbody, h⟩ := bind_eq_ok.1 h
    cases h
    rw [hl, List.nil_append] at hs hb
    obtain ⟨c', hsuf, hd, hlc⟩ := dropBlank_eq hz hb
    obtain ⟨hdi, hik, -⟩ := blockStart_eq_ok hi
    rw [hs, hd] at hdi
    obtain ⟨d, rfl, hu⟩ := split_code_cons hz (by simp [hik]) hdi
    have hstart := Stream.startsBlank_dropBlank (c ++ z)
    rw [hd] at hstart
    obtain ⟨x, xs, rfl, hx⟩ := (cases_not_startsBlank hz hstart).2 hik
    have hsuf' := (List.suffix_cons i (x :: xs)).trans hsuf
    obtain ⟨rfl, b', hbd, hs', hexp⟩ :=
      blockBody_eq_ok hz (fun y hy => hb y (hsuf'.subset hy)) hu hbody
    refine ⟨s.line, c, b', rfl, hrest, hc, hbd.trans hsuf', hs',
      fun ls hls => ⟨?_, fun n macros => ?_⟩⟩
    · rw [hl, ← blockTokens_dropWhile, hls, ← hlc, blockTokens_indent [] hik hx]
      simp
    · rw [← expandLines_dropWhile, hls, ← hlc, expandLines_indent n macros hik, hexp]
  · rename_i hp
    cases h
    obtain ⟨hbody, hr⟩ := inlineBody_eq s #[]
    have htok := hr.tokens
    rw [hs, List.append_assoc] at htok
    refine ⟨s.line, c, c, rfl, hrest, hc, List.suffix_refl c,
      (List.append_cancel_left htok).symm, fun ls hls => ⟨?_, fun n macros => ?_⟩⟩
    · have hne : s.line ≠ [] := fun hl => hp (Stream.line_eq_nil_iff.1 hl)
      simp [hbody, hne]
    · rw [← expandLines_dropWhile, hls, expandLines_dropWhile]

/-- A definition that is read is the one that its lines say. Behind it, the
reader is in front of the next header, as far as lines of a macro count. -/
theorem definition_eq_ok {indent indent' : Option String} {s s' : Stream} {m : Macro}
    {b z : List Token} (hz : Ending z) (hb : ∀ t ∈ b, t.kind ≠ .eof) (hs : s.tokens = b ++ z)
    (h : definition indent s = .ok ((m, indent'), s')) : ∃ l ls b', lines b = l :: ls ∧
      l.isHeader = true ∧ l.isDefinition = true ∧ m = macroOf l ls ∧ b' <:+ b ∧
      s'.tokens = b' ++ z ∧
      ∀ n macros, expandLines n macros true ls = expandLines n macros true (lines b') := by
  obtain ⟨⟨kw, s₁⟩, hkw, h⟩ := bind_eq_ok.1 h
  obtain ⟨⟨name, s₂⟩, hname, h⟩ := bind_eq_ok.1 h
  obtain ⟨⟨params, s₃⟩, hparams, h⟩ := bind_eq_ok.1 h
  obtain ⟨⟨colon, w⟩, hcolon, h⟩ := bind_eq_ok.1 h
  obtain ⟨⟨⟨body, indent''⟩, u⟩, hbody, h⟩ := bind_eq_ok.1 h
  cases h
  obtain ⟨hr₁, hkwk⟩ := readsLine_expect rfl hkw
  obtain ⟨hr₂, -⟩ := readsLine_expect rfl hname
  obtain ⟨ps, hr₃, hpc, rfl⟩ := parameters_eq_ok hparams
  obtain ⟨hr₄, hck⟩ := readsLine_expect rfl hcolon
  have hr : ReadsLine s (kw :: name :: (ps ++ [colon])) w := hr₁.trans (hr₂.trans (hr₃.trans hr₄))
  have hends := hr.not_ends
  obtain ⟨c, rfl, hw⟩ := split_code hz (fun t ht => (Token.Kind.not_endsLine_iff.1 (hends t ht)).2)
    (hs.symm.trans hr.tokens)
  obtain ⟨rest, d, b', rfl, hrest, hd, hsuf, hs', hls⟩ :=
    macroBody_eq_ok hz (fun t ht => hb t (List.mem_append_right _ ht)) hw hbody
  have hb' : kw :: name :: (ps ++ [colon]) ++ (rest ++ d) =
      kw :: name :: (ps ++ colon :: rest) ++ d := by simp
  have hx : ∀ t ∈ kw :: name :: (ps ++ colon :: rest), t.kind ≠ .newLine := by
    intro t ht
    have ht' : t ∈ kw :: name :: (ps ++ [colon]) ∨ t ∈ rest := by
      simp only [List.mem_cons, List.mem_append, List.not_mem_nil, or_false] at ht ⊢
      tauto
    rcases ht' with ht | ht
    · exact (Token.Kind.not_endsLine_iff.1 (hends t ht)).1
    · exact hrest t ht
  obtain ⟨stop, ls, hl, hdrop⟩ := exists_lines_append hx (by simp) hd
  obtain ⟨hbod, hexp⟩ := hls ls hdrop
  refine ⟨_, ls, b', by rw [hb', hl], Line.isHeader_of_ne (by simp [hkwk]) _ _, ?_, ?_, ?_,
    hs', hexp⟩
  · simp [Line.isDefinition, hkwk]
  · rw [macroOf_eq hpc hck, hbod]
  · exact hsuf.trans (by rw [hb']; exact List.suffix_append _ d)

/-! ## Headers of subroutines -/

/-- Behind the colon of a header, the line ends: no indent stands there. -/
theorem newLine_of_blockStart {indent : Option String} {u stream : Stream} {colon t : Token}
    {b z : List Token} (hz : Ending z) (hb : Scanned (colon :: b)) (hc : colon.kind = .colon)
    (hu : u.tokens = b ++ z) (start : blockStart indent u = .ok (t, stream)) :
    ∃ x c, b = x :: c ∧ x.kind = .newLine ∧ dropBlank (c ++ z) = t :: stream.tokens := by
  obtain ⟨hd, ht, -⟩ := blockStart_eq_ok start
  rw [hu] at hd
  cases b with
  | nil =>
    rw [List.nil_append, hz.dropBlank] at hd
    have hend := hz.head
    rw [hd] at hend
    simp [ht, Token.Kind.endsLine] at hend
  | cons x c =>
    have hxi := hb.not_indent (by simp [hc])
    have hx : x.kind = .newLine := by
      cases hs : startsBlank (x :: c ++ z) with
      | false =>
        rw [Stream.dropBlank_of_not hs, List.cons_append, List.cons.injEq] at hd
        exact absurd (hd.1 ▸ ht) hxi
      | true =>
        rcases cases_startsBlank hb.tail.no_eof hs with hn | ⟨hi, -⟩
        · exact hn
        · exact absurd hi hxi
    rw [List.cons_append, Stream.dropBlank_newLine hx] at hd
    exact ⟨x, c, rfl, hx, hd⟩

end IndentAsm.Parse
