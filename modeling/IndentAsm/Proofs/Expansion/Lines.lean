import IndentAsm.NameMap
import IndentAsm.Proofs.Parse.Shape

/-!
# Expanding macros line by line

What a program with macros stands for can be said without reading it: split its
tokens into lines, delete the lines of every macro definition, and put in the
place of each call in a body what it expands to, calls in the result included.
`expandMacros` is this rewriting. Nothing in it checks anything; on a program
that the reader accepts, it gives one without macros.

A call is a line of code that starts with the name of a macro defined above
it. Its arguments are the other tokens of the line but the commas. How deep
calls are followed is bounded by a number, so that a macro that calls itself
does no harm.

**Results.**
* `lines_append_newLine`, `lines_of_no_newLine`: how tokens split into lines.
* `dropBlank_eq`: skipping blank lines drops the lines that are blank.
* `Rewrites`: what the rewriting of code and of a whole program have in common.
* `expandLine_starts`: no line of code is rewritten to nothing.
-/
namespace IndentAsm

open IndentAsm.Stream (dropBlank startsBlank)

/-- The tokens of a line, and the new line behind them, if there is one. -/
structure Line where
  tokens : List Token
  stop : Option Token
  deriving DecidableEq, Repr, Inhabited

/-- Puts a token in front of the first of some lines. -/
def addToken (t : Token) : List Line → List Line
  | [] => [⟨[t], none⟩]
  | l :: ls => ⟨t :: l.tokens, l.stop⟩ :: ls

def lines : List Token → List Line
  | [] => []
  | t :: ts => if t.kind = .newLine then ⟨[], some t⟩ :: lines ts else addToken t (lines ts)

namespace Line

def indent (l : Line) : List Token :=
  match l.tokens with
  | [] => []
  | t :: _ => if t.kind = .indent then [t] else []

def content (l : Line) : List Token :=
  match l.tokens with
  | [] => []
  | t :: ts => if t.kind = .indent then ts else t :: ts

/-- Nothing but an indent stands on the line. -/
def isBlank (l : Line) : Bool := l.content.isEmpty

/-- Something stands on the line without an indent. Such a line belongs to no
block. -/
def isHeader (l : Line) : Bool := l.indent.isEmpty && !l.content.isEmpty

/-- A macro definition starts with the line. -/
def isDefinition (l : Line) : Bool := l.tokens.head?.any (·.kind = .macroKeyword)

/-- The line with its content rewritten. -/
def rewrite (f : List Token → List Token) (l : Line) : List Token :=
  l.indent ++ f l.content ++ l.stop.toList

end Line

/-- The lines of a block with their indents, up to the next header. Blank lines
are left out, and so is the last line break; `stop` comes before all. -/
def blockTokens (stop : List Token) : List Line → List Token
  | [] => []
  | l :: ls =>
    if l.isHeader then []
    else if l.isBlank then blockTokens stop ls
    else stop ++ l.tokens ++ blockTokens l.stop.toList ls

/-- The names of the identifiers among some tokens. -/
def names (ts : List Token) : List String :=
  (ts.filter (·.kind == .identifier)).map (·.lexeme)

/-- The macro defined by a line that starts with the keyword and a name, with
the lines `ls` behind it. Its parameters are the identifiers before the colon,
and its body is the rest of the line, or the block behind it. -/
def macroOf (l : Line) (ls : List Line) : Macro :=
  let name := (l.tokens[1]?).getD default
  let header := l.tokens.drop 2
  let body := (header.dropWhile (·.kind != .colon)).drop 1
  { name := name.lexeme
    line := name.line
    params := names (header.takeWhile (·.kind != .colon))
    body := if body.isEmpty then (blockTokens [] ls).drop 1 else body }

/-- Rewrites lines of which the first starts behind its indent: that one by
`f`, and those behind it by `g`. -/
def rewriteLines (f : List Token → List Token) (g : List Line → List Token) :
    List Line → List Token
  | [] => []
  | l :: ls => f l.tokens ++ l.stop.toList ++ g ls

/-- Rewrites lines of code one by one. -/
def rewriteAll (f : List Token → List Token) (ls : List Line) : List Token :=
  ls.flatMap (Line.rewrite f)

/-- Expands a line of code, following calls `n` deep. -/
def expandLine (macros : NameMap Macro) : Nat → List Token → List Token
  | 0, ts => ts
  | _ + 1, [] => []
  | n + 1, t :: ts =>
    match (if t.kind = .identifier then macros.get? t.lexeme else none) with
    | some m =>
      rewriteLines (expandLine macros n) (rewriteAll (expandLine macros n))
        (lines (m.expand (ts.filter (·.kind != .comma))))
    | none => t :: ts

/-- Expands the lines of a program behind the definitions of `macros`. Lines of
blocks are dropped as long as `inMacro` says that they belong to a macro. -/
def expandLines (n : Nat) : NameMap Macro → Bool → List Line → List Token
  | _, _, [] => []
  | macros, inMacro, l :: ls =>
    if l.isHeader then
      if l.isDefinition then
        expandLines n (macros.insert (macroOf l ls).name (macroOf l ls)) true ls
      else l.tokens ++ l.stop.toList ++ expandLines n macros false ls
    else if inMacro then expandLines n macros true ls
    else l.rewrite (expandLine macros n) ++ expandLines n macros false ls

/-- A program without its macros: the lines before the end token expanded, and
the end token. -/
def expandMacros (n : Nat) (tokens : List Token) : List Token :=
  expandLines n .empty false (lines (tokens.takeWhile (·.kind != .eof))) ++
    tokens.dropWhile (·.kind != .eof)

/-! ## Splitting into lines -/

@[simp] theorem lines_nil : lines [] = [] := rfl

theorem lines_newLine {t : Token} (h : t.kind = .newLine) (ts : List Token) :
    lines (t :: ts) = ⟨[], some t⟩ :: lines ts := by
  rw [lines, if_pos h]

theorem lines_cons {t : Token} (h : t.kind ≠ .newLine) (ts : List Token) :
    lines (t :: ts) = addToken t (lines ts) := by
  rw [lines, if_neg h]

/-- A line goes up to its new line. -/
theorem lines_append_newLine {xs : List Token} (h : ∀ t ∈ xs, t.kind ≠ .newLine) {n : Token}
    (hn : n.kind = .newLine) (ts : List Token) :
    lines (xs ++ n :: ts) = ⟨xs, some n⟩ :: lines ts := by
  induction xs with
  | nil => exact lines_newLine hn ts
  | cons x xs ih =>
    rw [List.cons_append, lines_cons (h x List.mem_cons_self),
      ih fun t ht => h t (List.mem_cons_of_mem _ ht)]
    rfl

theorem lines_of_no_newLine {xs : List Token} (h : ∀ t ∈ xs, t.kind ≠ .newLine) (hne : xs ≠ []) :
    lines xs = [⟨xs, none⟩] := by
  induction xs with
  | nil => exact absurd rfl hne
  | cons x xs ih =>
    rw [lines_cons (h x List.mem_cons_self)]
    cases xs with
    | nil => rfl
    | cons y ys => rw [ih (fun t ht => h t (List.mem_cons_of_mem _ ht)) (by simp)]; rfl

/-- The tokens of a line are tokens of the text, and no new lines. -/
theorem mem_of_mem_lines {ts : List Token} {l : Line} (hl : l ∈ lines ts) {t : Token}
    (ht : t ∈ l.tokens) : t ∈ ts ∧ t.kind ≠ .newLine := by
  induction ts generalizing l with
  | nil => cases hl
  | cons x xs ih =>
    by_cases hx : x.kind = .newLine
    · rw [lines_newLine hx] at hl
      rcases List.mem_cons.1 hl with rfl | hl
      · cases ht
      · exact ⟨List.mem_cons_of_mem _ (ih hl ht).1, (ih hl ht).2⟩
    · rw [lines_cons hx] at hl
      cases hls : lines xs with
      | nil =>
        rw [hls, addToken, List.mem_singleton] at hl
        subst hl
        rw [List.mem_singleton] at ht
        exact ⟨by simp [ht], ht ▸ hx⟩
      | cons m ms =>
        rw [hls, addToken] at hl
        rw [hls] at ih
        rcases List.mem_cons.1 hl with rfl | hl
        · rcases List.mem_cons.1 ht with rfl | ht
          · exact ⟨List.mem_cons_self, hx⟩
          · have := ih List.mem_cons_self ht
            exact ⟨List.mem_cons_of_mem _ this.1, this.2⟩
        · have := ih (List.mem_cons_of_mem _ hl) ht
          exact ⟨List.mem_cons_of_mem _ this.1, this.2⟩

/-- A token that is no new line starts the first line. -/
theorem exists_lines_cons {t : Token} (h : t.kind ≠ .newLine) (ts : List Token) :
    ∃ xs stop ls, lines (t :: ts) = ⟨t :: xs, stop⟩ :: ls := by
  rw [lines_cons h]
  cases lines ts with
  | nil => exact ⟨[], none, [], rfl⟩
  | cons l ls => exact ⟨l.tokens, l.stop, ls, rfl⟩

namespace Line

theorem indent_of_kind {i : Token} (h : i.kind = .indent) (ts : List Token) (stop : Option Token) :
    indent ⟨i :: ts, stop⟩ = [i] := if_pos h

theorem content_of_kind {i : Token} (h : i.kind = .indent) (ts : List Token)
    (stop : Option Token) : content ⟨i :: ts, stop⟩ = ts := if_pos h

theorem indent_of_ne {t : Token} (h : t.kind ≠ .indent) (ts : List Token) (stop : Option Token) :
    indent ⟨t :: ts, stop⟩ = [] := if_neg h

theorem content_of_ne {t : Token} (h : t.kind ≠ .indent) (ts : List Token) (stop : Option Token) :
    content ⟨t :: ts, stop⟩ = t :: ts := if_neg h

theorem isBlank_of_kind {i : Token} (h : i.kind = .indent) (ts : List Token)
    (stop : Option Token) : isBlank ⟨i :: ts, stop⟩ = ts.isEmpty := by
  rw [isBlank, content_of_kind h]

theorem isBlank_of_ne {t : Token} (h : t.kind ≠ .indent) (ts : List Token)
    (stop : Option Token) : isBlank ⟨t :: ts, stop⟩ = false := by
  rw [isBlank, content_of_ne h]; rfl

theorem isHeader_of_ne {t : Token} (h : t.kind ≠ .indent) (ts : List Token)
    (stop : Option Token) : isHeader ⟨t :: ts, stop⟩ = true := by
  rw [isHeader, indent_of_ne h, content_of_ne h]; rfl

theorem isHeader_of_kind {i : Token} (h : i.kind = .indent) (ts : List Token)
    (stop : Option Token) : isHeader ⟨i :: ts, stop⟩ = false := by
  rw [isHeader, indent_of_kind h]; rfl

theorem isHeader_of_isBlank {l : Line} (h : l.isBlank = true) : l.isHeader = false := by
  rw [isBlank] at h
  rw [isHeader, h]
  exact Bool.and_false _

end Line

/-! ## Blank lines -/

/-- What stands behind code: an end token, or nothing once that was read. -/
def Ending (z : List Token) : Prop := z = [] ∨ ∃ e, e.kind = .eof ∧ z = [e]

theorem Ending.startsBlank {z : List Token} (h : Ending z) : startsBlank z = false := by
  rcases h with rfl | ⟨e, he, rfl⟩
  · rfl
  · exact Stream.startsBlank_of_kind [] (by simp [he]) (by simp [he])

theorem Ending.dropBlank {z : List Token} (h : Ending z) : dropBlank z = z :=
  Stream.dropBlank_of_not h.startsBlank

theorem Ending.head {z : List Token} (h : Ending z) :
    z.head?.all (·.kind.endsLine) = true := by
  rcases h with rfl | ⟨e, he, rfl⟩
  · rfl
  · simp [he, Token.Kind.endsLine]

theorem Ending.peek {z : List Token} (h : Ending z) {s : Stream} (hs : s.tokens = z) :
    s.peek.kind = .eof := by
  rcases h with rfl | ⟨e, he, rfl⟩
  · rw [Stream.peek_of_tokens_nil hs, s.eof_kind]
  · rw [Stream.peek_of_tokens hs, he]

/-- Nothing is left behind the end token. -/
theorem Ending.advance {z : List Token} (h : Ending z) {s : Stream} (hs : s.tokens = z) :
    s.advance.2.tokens = [] := by
  rcases h with rfl | ⟨e, he, rfl⟩
  · rw [Stream.advance_of_unread_nil (List.map_eq_nil_iff.1 hs)]
    exact hs
  · obtain ⟨u, hu, htu⟩ := Stream.next?_of_tokens hs
    rw [Stream.advance, hu]
    exact htu

/-- In code, only new lines end a line. -/
theorem newLine_of_endsLine {t : Token} (ht : t.kind ≠ .eof) (h : t.kind.endsLine = true) :
    t.kind = .newLine := by
  rcases Token.Kind.endsLine_iff.1 h with h | h
  · exact h
  · exact absurd h ht

/-- Where tokens start blank, a blank line or the indent of one is in front. -/
theorem cases_startsBlank {t : Token} {ts z : List Token} (hb : ∀ x ∈ t :: ts, x.kind ≠ .eof)
    (h : startsBlank (t :: ts ++ z) = true) :
    t.kind = .newLine ∨ t.kind = .indent ∧ (ts = [] ∨ ∃ n us, n.kind = .newLine ∧ ts = n :: us) := by
  simp only [startsBlank, List.cons_append, Bool.or_eq_true, beq_iff_eq, Bool.and_eq_true] at h
  rcases h with h | ⟨hi, he⟩
  · exact Or.inl h
  · refine Or.inr ⟨hi, ?_⟩
    cases ts with
    | nil => exact Or.inl rfl
    | cons n us =>
      have hn : n.kind.endsLine = true := by simpa using he
      exact Or.inr ⟨n, us, newLine_of_endsLine (hb n (by simp)) hn, rfl⟩

/-- Where they do not, the first line is a header, or goes on behind its
indent. -/
theorem cases_not_startsBlank {t : Token} {ts z : List Token} (hz : Ending z)
    (h : startsBlank (t :: ts ++ z) = false) : t.kind ≠ .newLine ∧
      (t.kind = .indent → ∃ u us, ts = u :: us ∧ u.kind.endsLine = false) := by
  refine ⟨fun hn => by simp [startsBlank, hn] at h, fun hi => ?_⟩
  rw [List.cons_append] at h
  obtain ⟨u, us, hu, hue⟩ := Stream.not_ends_of_not_startsBlank hi h
  cases ts with
  | nil =>
    have hz' := hz.head
    rw [← List.nil_append z, hu] at hz'
    simp [hue] at hz'
  | cons x xs =>
    rw [List.cons_append, List.cons.injEq] at hu
    exact ⟨x, xs, rfl, hu.1 ▸ hue⟩

/-- A line that does not start blank is not blank. -/
theorem dropWhile_isBlank_of_not {b z : List Token} (hz : Ending z)
    (h : startsBlank (b ++ z) = false) : (lines b).dropWhile Line.isBlank = lines b := by
  cases b with
  | nil => rfl
  | cons t ts =>
    obtain ⟨hn, hi⟩ := cases_not_startsBlank hz h
    by_cases hk : t.kind = .indent
    · obtain ⟨u, us, rfl, hu⟩ := hi hk
      obtain ⟨hun, -⟩ := Token.Kind.not_endsLine_iff.1 hu
      obtain ⟨xs, stop, ls, hl⟩ := exists_lines_cons hun us
      rw [lines_cons hn, hl, addToken, List.dropWhile_cons, Line.isBlank_of_kind hk]
      rfl
    · obtain ⟨xs, stop, ls, hl⟩ := exists_lines_cons hn ts
      rw [hl, List.dropWhile_cons, Line.isBlank_of_ne hk]
      rfl

/-- Skipping blank lines drops the lines that are blank. -/
theorem dropBlank_eq {b z : List Token} (hz : Ending z) (hb : ∀ t ∈ b, t.kind ≠ .eof) :
    ∃ b', b' <:+ b ∧ dropBlank (b ++ z) = b' ++ z ∧
      lines b' = (lines b).dropWhile Line.isBlank := by
  induction b with
  | nil => exact ⟨[], List.suffix_refl _, hz.dropBlank, rfl⟩
  | cons t ts ih =>
    obtain ⟨b', hs, hd, hl⟩ := ih fun x hx => hb x (List.mem_cons_of_mem _ hx)
    cases h : startsBlank (t :: ts ++ z) with
    | false =>
      exact ⟨t :: ts, List.suffix_refl _, Stream.dropBlank_of_not h,
        (dropWhile_isBlank_of_not hz h).symm⟩
    | true =>
      refine ⟨b', hs.trans (List.suffix_cons t ts), (Stream.dropBlank_of_startsBlank h).trans hd, ?_⟩
      rw [hl]
      rcases cases_startsBlank hb h with hn | ⟨hi, rfl | ⟨n, us, hn, rfl⟩⟩
      · rw [lines_newLine hn]; rfl
      · rw [lines_cons (t := t) (by simp [hi]), lines_nil, addToken, List.dropWhile_cons,
          Line.isBlank_of_kind hi]
        rfl
      · rw [lines_cons (t := t) (by simp [hi]), lines_newLine hn, addToken, List.dropWhile_cons,
          List.dropWhile_cons, Line.isBlank_of_kind hi]
        rfl

/-! ## Rewriting lines of a block -/

/-- `g` rewrites the lines of a block one by one, their content by `f`. -/
structure Rewrites (f : List Token → List Token) (g : List Line → List Token) : Prop where
  empty : f [] = []
  nil : g [] = []
  block : ∀ l ls, l.isHeader = false → g (l :: ls) = l.rewrite f ++ g ls

namespace Rewrites

variable {f : List Token → List Token} {g : List Line → List Token}

theorem all (h : f [] = []) : Rewrites f (rewriteAll f) :=
  ⟨h, rfl, fun _ _ _ => List.flatMap_cons⟩

theorem newLine (h : Rewrites f g) {n : Token} (hn : n.kind = .newLine) (ts : List Token) :
    rewriteLines f g (lines (n :: ts)) = n :: g (lines ts) := by
  rw [lines_newLine hn, rewriteLines, h.empty]; rfl

/-- A line break in front of a block stays. -/
theorem newLine' (h : Rewrites f g) {n : Token} (hn : n.kind = .newLine) (ts : List Token) :
    g (lines (n :: ts)) = n :: g (lines ts) := by
  rw [lines_newLine hn, h.block _ _ rfl]
  exact congrArg (· ++ [n] ++ g (lines ts)) h.empty

/-- So does the indent of a line. -/
theorem indent (h : Rewrites f g) {i : Token} (hi : i.kind = .indent) (ts : List Token) :
    g (lines (i :: ts)) = i :: rewriteLines f g (lines ts) := by
  rw [lines_cons (by simp [hi])]
  cases lines ts with
  | nil =>
    rw [addToken, h.block _ _ (Line.isHeader_of_kind hi _ _), Line.rewrite,
      Line.indent_of_kind hi, Line.content_of_kind hi, h.empty, h.nil]
    rfl
  | cons l ls =>
    rw [addToken, h.block _ _ (Line.isHeader_of_kind hi _ _), Line.rewrite,
      Line.indent_of_kind hi, Line.content_of_kind hi, rewriteLines]
    simp

/-- The tokens of a line are rewritten together, and what follows them by
itself. -/
theorem append (h : Rewrites f g) {xs ts : List Token} (hx : ∀ t ∈ xs, t.kind ≠ .newLine)
    (ht : ∀ t ∈ ts.head?, t.kind = .newLine) :
    rewriteLines f g (lines (xs ++ ts)) = f xs ++ rewriteLines f g (lines ts) := by
  cases ts with
  | nil =>
    rw [List.append_nil, lines_nil, rewriteLines, List.append_nil]
    by_cases hne : xs = []
    · rw [hne, h.empty]; rfl
    · rw [lines_of_no_newLine hx hne, rewriteLines, h.nil]
      simp
  | cons n us =>
    have hn := ht n rfl
    rw [h.newLine hn, lines_append_newLine hx hn, rewriteLines]
    simp

/-- Blank lines are kept, and skipping them again changes nothing. -/
theorem dropBlank_dropWhile (h : Rewrites f g) {b z : List Token} (hz : Ending z)
    (hb : ∀ t ∈ b, t.kind ≠ .eof) :
    dropBlank (g (lines b) ++ z) = dropBlank (g ((lines b).dropWhile Line.isBlank) ++ z) := by
  induction b with
  | nil => rfl
  | cons t ts ih =>
    have ih := ih fun x hx => hb x (List.mem_cons_of_mem _ hx)
    cases hs : startsBlank (t :: ts ++ z) with
    | false => rw [dropWhile_isBlank_of_not hz hs]
    | true =>
      rcases cases_startsBlank hb hs with hn | ⟨hi, rfl | ⟨n, us, hn, rfl⟩⟩
      · rw [h.newLine' hn, List.cons_append, Stream.dropBlank_newLine hn, ih, lines_newLine hn]
        rfl
      · have hstart : startsBlank (t :: z) = true := by
          simp only [startsBlank, hi, hz.head]; rfl
        rw [h.indent hi, lines_nil, rewriteLines, List.cons_append, List.nil_append,
          Stream.dropBlank_of_startsBlank hstart, lines_cons (by simp [hi]), lines_nil, addToken,
          List.dropWhile_cons, Line.isBlank_of_kind hi, List.isEmpty_nil, if_pos rfl,
          List.dropWhile_nil, h.nil]
        rfl
      · have hstart : startsBlank (t :: n :: (g (lines us) ++ z)) = true := by
          simp [startsBlank, hi, hn, Token.Kind.endsLine]
        rw [h.newLine' hn, List.cons_append] at ih
        rw [h.indent hi, h.newLine hn, List.cons_append, List.cons_append,
          Stream.dropBlank_of_startsBlank hstart, ih, lines_cons (t := t) (by simp [hi]),
          lines_newLine hn, addToken, List.dropWhile_cons, List.dropWhile_cons,
          Line.isBlank_of_kind hi]
        rfl

end Rewrites

/-! ## Expanding a line -/

@[simp] theorem expandLine_nil (macros : NameMap Macro) (n : Nat) :
    expandLine macros n [] = [] := by
  cases n <;> rfl

/-- A line that starts with no identifier is no call. -/
theorem expandLine_of_kind (macros : NameMap Macro) (n : Nat) {t : Token} (ts : List Token)
    (h : t.kind ≠ .identifier) : expandLine macros n (t :: ts) = t :: ts := by
  cases n with
  | zero => rfl
  | succ n => rw [expandLine, if_neg h]

theorem expandLine_call {macros : NameMap Macro} {m : Macro} (n : Nat) {t : Token}
    (ts : List Token) (h : t.kind = .identifier) (hm : macros.get? t.lexeme = some m) :
    expandLine macros (n + 1) (t :: ts) =
      rewriteLines (expandLine macros n) (rewriteAll (expandLine macros n))
        (lines (m.expand (ts.filter (·.kind != .comma)))) := by
  rw [expandLine, if_pos h, hm]

/-- In code without end tokens, the tokens of a line end no line. -/
theorem not_ends_of_mem_lines {ts : List Token} (h : ∀ t ∈ ts, t.kind ≠ .eof) {l : Line}
    (hl : l ∈ lines ts) : ∀ t ∈ l.tokens, t.kind.endsLine = false := by
  intro t ht
  obtain ⟨hmem, hn⟩ := mem_of_mem_lines hl ht
  exact Token.Kind.not_endsLine_iff.2 ⟨hn, h t hmem⟩

/-- Code from the middle of a line on is rewritten to something that does not
start with a line end, if its first line is. -/
theorem rewriteLines_starts {f : List Token → List Token}
    (hf : ∀ t ts, (∀ x ∈ t :: ts, x.kind.endsLine = false) →
      ∃ u us, f (t :: ts) = u :: us ∧ u.kind.endsLine = false)
    (g : List Line → List Token) {t : Token} {ts : List Token}
    (h : ∀ x ∈ t :: ts, x.kind ≠ .eof) (ht : t.kind.endsLine = false) :
    ∃ u us, rewriteLines f g (lines (t :: ts)) = u :: us ∧ u.kind.endsLine = false := by
  obtain ⟨hn, -⟩ := Token.Kind.not_endsLine_iff.1 ht
  obtain ⟨xs, stop, ls, hl⟩ := exists_lines_cons hn ts
  have hfirst : Line.mk (t :: xs) stop ∈ lines (t :: ts) := by rw [hl]; simp
  obtain ⟨u, us, hu, hue⟩ := hf t xs (not_ends_of_mem_lines h hfirst)
  rw [hl, rewriteLines, hu]
  exact ⟨u, us ++ stop.toList ++ g ls, by simp, hue⟩

/-- A line of code is never rewritten to nothing, and never to something that
starts with a line end. -/
theorem expandLine_starts {macros : NameMap Macro}
    (hm : ∀ name m, macros.get? name = some m → ∃ indent, Parse.Shaped indent m.body) (n : Nat)
    {t : Token} {ts : List Token} (h : ∀ x ∈ t :: ts, x.kind.endsLine = false) :
    ∃ u us, expandLine macros n (t :: ts) = u :: us ∧ u.kind.endsLine = false := by
  induction n generalizing t ts with
  | zero => exact ⟨t, ts, rfl, h t List.mem_cons_self⟩
  | succ n ih =>
    by_cases hk : t.kind = .identifier
    · cases hg : macros.get? t.lexeme with
      | none =>
        rw [expandLine, if_pos hk, hg]
        exact ⟨t, ts, rfl, h t List.mem_cons_self⟩
      | some m =>
        rw [expandLine_call n ts hk hg]
        obtain ⟨indent, hshape⟩ := hm _ m hg
        have hargs : ∀ a ∈ ts.filter (·.kind != .comma), a.kind.endsLine = false :=
          fun a ha => h a (List.mem_cons_of_mem _ (List.mem_filter.1 ha).1)
        have hexp := hshape.expand hargs
        obtain ⟨y, ys, hy, hye⟩ := hexp.starts
        rw [hy] at hexp ⊢
        exact rewriteLines_starts (fun _ _ hx => ih hx) _ hexp.lined.no_eof hye
    · rw [expandLine_of_kind macros _ ts hk]
      exact ⟨t, ts, rfl, h t List.mem_cons_self⟩

/-! ## Expanding a program -/

section Program

variable {n : Nat} {macros : NameMap Macro} {l : Line} {ls : List Line} {b b' z : List Token}

theorem expandLines_header (hh : l.isHeader = true) (hd : l.isDefinition = false)
    (inMacro : Bool) : expandLines n macros inMacro (l :: ls) =
      l.tokens ++ l.stop.toList ++ expandLines n macros false ls := by
  rw [expandLines, if_pos hh, hd]; rfl

theorem expandLines_definition (hh : l.isHeader = true) (hd : l.isDefinition = true)
    (inMacro : Bool) : expandLines n macros inMacro (l :: ls) =
      expandLines n (macros.insert (macroOf l ls).name (macroOf l ls)) true ls := by
  rw [expandLines, if_pos hh, if_pos hd]

theorem expandLines_inMacro (hh : l.isHeader = false) :
    expandLines n macros true (l :: ls) = expandLines n macros true ls := by
  rw [expandLines, hh]; rfl

/-- At a header it makes no difference where the lines before it belonged. -/
theorem expandLines_of_isHeader (h : ∀ l ∈ ls.head?, l.isHeader = true) :
    expandLines n macros false ls = expandLines n macros true ls := by
  cases ls with
  | nil => rfl
  | cons l ls =>
    have hh := h l rfl
    cases hd : l.isDefinition with
    | true => rw [expandLines_definition hh hd, expandLines_definition hh hd]
    | false => rw [expandLines_header hh hd, expandLines_header hh hd]

theorem rewrites_expandLines (n : Nat) (macros : NameMap Macro) :
    Rewrites (expandLine macros n) (expandLines n macros false) where
  empty := expandLine_nil macros n
  nil := rfl
  block := fun l ls hh => by rw [expandLines, hh]; rfl

theorem expandLines_dropWhile (n : Nat) (macros : NameMap Macro) (ls : List Line) :
    expandLines n macros true (ls.dropWhile Line.isBlank) = expandLines n macros true ls := by
  induction ls with
  | nil => rfl
  | cons l ls ih =>
    rw [List.dropWhile_cons]
    split
    · rename_i hb
      rw [ih, expandLines_inMacro (Line.isHeader_of_isBlank hb)]
    · rfl

/-- What a macro leaves behind itself starts with a header or an end. -/
theorem head_expandLines (hz : Ending z) (hl : ∀ l ∈ ls, ∀ t ∈ l.tokens, t.kind ≠ .newLine) :
    ∀ t ∈ (expandLines n macros true ls ++ z).head?, t.kind ≠ .newLine ∧ t.kind ≠ .indent := by
  induction ls generalizing macros with
  | nil =>
    intro t ht
    rcases hz with rfl | ⟨e, he, rfl⟩
    · cases ht
    · cases ht
      simp [he]
  | cons l ls ih =>
    have hls : ∀ m ∈ ls, ∀ t ∈ m.tokens, t.kind ≠ .newLine :=
      fun m hm => hl m (List.mem_cons_of_mem _ hm)
    cases hh : l.isHeader with
    | false => rw [expandLines_inMacro hh]; exact ih hls
    | true =>
      cases hd : l.isDefinition with
      | true => rw [expandLines_definition hh hd]; exact ih hls
      | false =>
        rw [expandLines_header hh hd]
        obtain ⟨tokens, stop⟩ := l
        cases tokens with
        | nil => cases hh
        | cons x xs =>
          intro t ht
          cases ht
          refine ⟨hl _ List.mem_cons_self x List.mem_cons_self, fun hi => ?_⟩
          rw [Line.isHeader_of_kind hi] at hh
          cases hh

theorem startsBlank_of_head {ts : List Token}
    (h : ∀ t ∈ ts.head?, t.kind ≠ .newLine ∧ t.kind ≠ .indent) : startsBlank ts = false := by
  cases ts with
  | nil => rfl
  | cons t ts => exact Stream.startsBlank_of_kind ts (h t rfl).1 (h t rfl).2

/-- A line that starts with no indent is a header. -/
theorem isHeader_head_lines (hz : Ending z) (h : startsBlank (b ++ z) = false)
    (hi : ∀ t ∈ b.head?, t.kind ≠ .indent) : ∀ l ∈ (lines b).head?, l.isHeader = true := by
  intro l hl
  cases b with
  | nil => cases hl
  | cons t ts =>
    obtain ⟨xs, stop, ls, he⟩ := exists_lines_cons (cases_not_startsBlank hz h).1 ts
    rw [he] at hl
    cases hl
    exact Line.isHeader_of_ne (hi t rfl) xs stop

/-- A program that does not start blank is not expanded to one that does. -/
theorem startsBlank_expandLines (hz : Ending z) (hb : ∀ t ∈ b, t.kind ≠ .eof)
    (hm : ∀ name m, macros.get? name = some m → ∃ indent, Parse.Shaped indent m.body)
    (h : startsBlank (b ++ z) = false) :
    startsBlank (expandLines n macros false (lines b) ++ z) = false := by
  cases b with
  | nil => exact hz.startsBlank
  | cons t ts =>
    obtain ⟨hn, hi⟩ := cases_not_startsBlank hz h
    by_cases hk : t.kind = .indent
    · obtain ⟨u, us, rfl, hu⟩ := hi hk
      obtain ⟨v, vs, hv, hve⟩ := rewriteLines_starts (fun _ _ hx => expandLine_starts hm n hx)
        (expandLines n macros false) (fun x hx => hb x (List.mem_cons_of_mem _ hx)) hu
      rw [(rewrites_expandLines n macros).indent hk, hv]
      exact Stream.startsBlank_of_not_ends _ hk hve
    · have hh := isHeader_head_lines hz h fun x hx => by cases hx; exact hk
      rw [expandLines_of_isHeader hh]
      exact startsBlank_of_head (head_expandLines hz fun l hl x hx => (mem_of_mem_lines hl hx).2)

/-- Skipping blank lines before and after expanding is the same. -/
theorem dropBlank_expandLines (hz : Ending z) (hb : ∀ t ∈ b, t.kind ≠ .eof)
    (hm : ∀ name m, macros.get? name = some m → ∃ indent, Parse.Shaped indent m.body)
    (h : dropBlank (b ++ z) = b' ++ z) :
    dropBlank (expandLines n macros false (lines b) ++ z) =
      expandLines n macros false (lines b') ++ z := by
  obtain ⟨c, hs, hd, hl⟩ := dropBlank_eq hz hb
  obtain rfl : c = b' := List.append_cancel_right (hd.symm.trans h)
  have hstart := Stream.startsBlank_dropBlank (b ++ z)
  rw [h] at hstart
  rw [(rewrites_expandLines n macros).dropBlank_dropWhile hz hb, ← hl]
  exact Stream.dropBlank_of_not
    (startsBlank_expandLines hz (fun t ht => hb t (hs.subset ht)) hm hstart)

/-- In front of something that is no block, skipping blank lines leads to the
next header, past all macros. -/
theorem dropBlank_expandLines_of_not_indent (hz : Ending z) (hb : ∀ t ∈ b, t.kind ≠ .eof)
    (hm : ∀ name m, macros.get? name = some m → ∃ indent, Parse.Shaped indent m.body)
    (h : ∀ t ∈ (dropBlank (b ++ z)).head?, t.kind ≠ .indent) :
    dropBlank (expandLines n macros false (lines b) ++ z) =
      expandLines n macros true (lines b) ++ z := by
  obtain ⟨b', hs, hd, hl⟩ := dropBlank_eq hz hb
  have hstart := Stream.startsBlank_dropBlank (b ++ z)
  rw [hd] at hstart h
  have hh := isHeader_head_lines hz hstart fun t ht => h t (by rw [List.head?_append, ht]; rfl)
  rw [dropBlank_expandLines hz hb hm hd, expandLines_of_isHeader hh, hl, expandLines_dropWhile]

end Program

end IndentAsm
