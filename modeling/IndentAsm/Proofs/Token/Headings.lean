import Mathlib.Data.List.Nodup
import IndentAsm.Proofs.Parse.Shape
import IndentAsm.Proofs.Token.Pieces

/-!
# Headings

A definition starts with a line that starts with its name, or with the keyword and a name. The
lines of a block start with an indent, and blank lines with nothing else, so the headings of
some tokens (`headings`) are found without reading the definitions.

Every line break of a text leads to the next line (`OnLines`). A line has one heading at most,
so the lines of the headings increase.

**Results.**
* `headings_dropBlank`, `headings_of_indent`: blank lines and lines of a block have no heading.
* `headings_lined`: code that is put in has no heading.
* `onLines_of_scan`: tokens of a text are numbered line by line.
* `pairwise_headings`, `pairwise_marks`, `line_ne_of_marks`: no two headings are on the same
  line.
-/
namespace IndentAsm

open IndentAsm.Stream (dropBlank startsBlank)

/-- The name of a definition where it starts. -/
structure Heading where
  name : Token
  isMacro : Bool
  deriving DecidableEq, Repr

/-- The heading of a line that starts with `t`. -/
def headingAt? (t : Token) (behind : List Token) : Option Heading :=
  if t.kind = .macroKeyword then behind.head?.map (⟨·, true⟩)
  else if t.kind = .identifier then some ⟨t, false⟩
  else none

/-- The headings of some tokens, in order. The first token is at the start of a line where
`start` says so. -/
def headings (start : Bool) : List Token → List Heading
  | [] => []
  | t :: ts =>
    (if start then headingAt? t ts else none).toList ++ headings (t.kind == .newLine) ts

/-- The names and lines of those headings that are of macros, or of those that are not. -/
def marks (isMacro : Bool) (hs : List Heading) : List (String × Nat) :=
  (hs.filter (·.isMacro == isMacro)).map fun h => (h.name.lexeme, h.name.line)

/-! ## Lines with a heading -/

theorem headings_keyword {key : Token} (h : key.kind = .macroKeyword) (name : Token)
    (ts : List Token) :
    headings true (key :: name :: ts) = ⟨name, true⟩ :: headings false (name :: ts) := by
  rw [headings, headingAt?, h]
  rfl

theorem headings_name {name : Token} (h : name.kind = .identifier) (ts : List Token) :
    headings true (name :: ts) = ⟨name, false⟩ :: headings false ts := by
  rw [headings, headingAt?, h]
  rfl

/-! ## Lines without a heading -/

theorem headingAt?_of_kind {t : Token} (hm : t.kind ≠ .macroKeyword) (hi : t.kind ≠ .identifier)
    (behind : List Token) : headingAt? t behind = none := by
  rw [headingAt?, if_neg hm, if_neg hi]

/-- A token that starts no definition. -/
theorem headings_cons {t : Token} (hm : t.kind ≠ .macroKeyword) (hi : t.kind ≠ .identifier)
    (start : Bool) (ts : List Token) :
    headings start (t :: ts) = headings (t.kind == .newLine) ts := by
  rw [headings, headingAt?_of_kind hm hi, ite_self]
  rfl

theorem headings_newLine {t : Token} (h : t.kind = .newLine) (start : Bool) (ts : List Token) :
    headings start (t :: ts) = headings true ts := by
  rw [headings_cons (by simp [h]) (by simp [h]), h]
  rfl

theorem headings_indent {i : Token} (h : i.kind = .indent) (start : Bool) (ts : List Token) :
    headings start (i :: ts) = headings false ts := by
  rw [headings_cons (by simp [h]) (by simp [h]), h]
  rfl

/-- Inside a line there is no heading. -/
theorem headings_inLine {t : Token} (h : t.kind ≠ .newLine) (ts : List Token) :
    headings false (t :: ts) = headings false ts := by
  rw [headings, beq_eq_false_iff_ne.2 h]
  rfl

theorem headings_append {xs : List Token} (h : ∀ x ∈ xs, x.kind.endsLine = false)
    (ys : List Token) : headings false (xs ++ ys) = headings false ys := by
  induction xs with
  | nil => rfl
  | cons x xs ih =>
    rw [List.forall_mem_cons] at h
    rw [List.cons_append, headings_inLine (Token.Kind.not_endsLine_iff.1 h.1).1, ih h.2]

theorem ne_heading_of_endsLine {kind : Token.Kind} (h : kind.endsLine = true) :
    kind ≠ .macroKeyword ∧ kind ≠ .identifier := by
  constructor <;> (rintro rfl; cases h)

/-- In front of a line end it makes no difference where the line starts. -/
theorem headings_of_ends {ts : List Token} (h : ts.head?.all (·.kind.endsLine) = true)
    (start : Bool) : headings start ts = headings true ts := by
  cases ts with
  | nil => rfl
  | cons t ts =>
    obtain ⟨hm, hi⟩ := ne_heading_of_endsLine h
    rw [headings_cons hm hi, headings_cons hm hi]

/-- A blank line has no heading, wherever it starts. -/
theorem headings_of_startsBlank {t : Token} {ts : List Token}
    (h : startsBlank (t :: ts) = true) (start : Bool) :
    headings start (t :: ts) = headings true ts := by
  rw [startsBlank, Bool.or_eq_true, Bool.and_eq_true, beq_iff_eq, beq_iff_eq] at h
  rcases h with hn | ⟨hi, hends⟩
  · exact headings_newLine hn start ts
  · rw [headings_indent hi, headings_of_ends hends]

theorem headings_dropBlank (ts : List Token) :
    headings true (dropBlank ts) = headings true ts := by
  induction ts with
  | nil => rfl
  | cons t ts ih =>
    cases h : startsBlank (t :: ts) with
    | false => rw [Stream.dropBlank_of_not h]
    | true => rw [Stream.dropBlank_of_startsBlank h, ih, headings_of_startsBlank h]

/-- Neither has the line of a block that blank lines lead to. -/
theorem headings_of_indent {ts us : List Token} {i : Token} (h : dropBlank ts = i :: us)
    (hi : i.kind = .indent) (start : Bool) : headings start ts = headings false us := by
  cases ts with
  | nil => cases h
  | cons t ts =>
    cases hb : startsBlank (t :: ts) with
    | false =>
      rw [Stream.dropBlank_of_not hb] at h
      rw [h, headings_indent hi]
    | true =>
      rw [headings_of_startsBlank hb, ← headings_dropBlank, ← Stream.dropBlank_of_startsBlank hb, h,
        headings_indent hi]

/-- Code that goes on over line breaks has no heading behind them. -/
theorem headings_lined {indent : Option String} {xs : List Token} (h : Parse.Lined indent xs)
    (ys : List Token) : headings false (xs ++ ys) = headings false ys := by
  induction xs with
  | nil => rfl
  | cons x xs ih =>
    obtain ⟨-, hbreak, htail⟩ := h
    rw [← ih htail, List.cons_append]
    by_cases hx : x.kind = .newLine
    · obtain ⟨i, u, us, rfl, hi, -, -⟩ := hbreak hx
      rw [headings_newLine hx, List.cons_append, headings_indent hi, headings_indent hi]
    · exact headings_inLine hx _

/-! ## Lines of headings -/

/-- Tokens are numbered line by line, from `line` on. -/
def OnLines (line : Nat) : List Token → Prop
  | [] => True
  | t :: ts => t.line = line ∧ OnLines (if t.kind = .newLine then line + 1 else line) ts

theorem Scanner.onLines_of_items {text : List Char} {line : Nat} {start : Bool}
    {tokens : List Token} (h : (Scanner.mk text line start false).items.mapM id = .ok tokens) :
    OnLines line tokens := by
  induction hn : text.length using Nat.strongRecOn generalizing text line start tokens with
  | ind n ih =>
    cases hg : skipGap start false text with
    | nil =>
      rw [items_of_skipGap_nil rfl hg] at h
      cases h
      exact ⟨rfl, trivial⟩
    | cons c cs =>
      rw [items_of_skipGap_cons hg] at h
      obtain ⟨t, ts, ht, hts, rfl⟩ := mapM_cons_eq_ok h
      have hline := itemLine_splitItem line c cs
      rw [ht] at hline
      refine ⟨hline, ?_⟩
      simp only [newLine_iff_of_splitItem ht]
      exact ih _ (hn ▸ length_of_skipGap_cons hg line) hts rfl

/-- The tokens of a text are numbered line by line. -/
theorem onLines_of_scan {text : String} {tokens : List Token} (h : scan text = .ok tokens) :
    OnLines 1 tokens :=
  Scanner.onLines_of_items h

/-- The heading of a line is on this line. -/
theorem OnLines.headingAt? {line : Nat} {t : Token} {ts : List Token} (h : OnLines line (t :: ts)) :
    ∀ x ∈ headingAt? t ts, x.name.line = line := by
  intro x hx
  unfold IndentAsm.headingAt? at hx
  split at hx
  · rename_i hm
    have hts := h.2
    rw [if_neg (by simp [hm])] at hts
    cases ts with
    | nil => cases hx
    | cons u us =>
      cases hx
      exact hts.1
  · split at hx
    · cases hx
      exact h.1
    · cases hx

/-- Headings are on later and later lines, and behind the first line if its start was passed. -/
theorem OnLines.headings {line : Nat} {ts : List Token} (h : OnLines line ts) (start : Bool) :
    (∀ x ∈ headings start ts, line ≤ x.name.line ∧ (start = false → line < x.name.line)) ∧
      (headings start ts).Pairwise (·.name.line < ·.name.line) := by
  induction ts generalizing line start with
  | nil => exact ⟨by simp [IndentAsm.headings], .nil⟩
  | cons t ts ih =>
    obtain ⟨hbound, hpairs⟩ := ih h.2 (t.kind == .newLine)
    have hbehind : ∀ x ∈ IndentAsm.headings (t.kind == .newLine) ts, line < x.name.line := by
      intro x hx
      obtain ⟨hle, hlt⟩ := hbound x hx
      by_cases hn : t.kind = .newLine
      · rw [if_pos hn] at hle
        exact hle
      · rw [if_neg hn] at hlt
        exact hlt (beq_eq_false_iff_ne.2 hn)
    have hfirst : ∀ x ∈ if start then IndentAsm.headingAt? t ts else none,
        x.name.line = line ∧ start = true := by
      intro x hx
      split at hx
      · rename_i hs
        exact ⟨h.headingAt? x hx, hs⟩
      · cases hx
    refine ⟨fun x hx => ?_, ?_⟩
    · rcases List.mem_append.1 hx with hx | hx
      · obtain ⟨hl, hs⟩ := hfirst x (Option.mem_toList.1 hx)
        exact ⟨hl.ge, fun hf => by simp [hs] at hf⟩
      · exact ⟨(hbehind x hx).le, fun _ => hbehind x hx⟩
    · refine List.pairwise_append.2 ⟨?_, hpairs, fun x hx y hy => ?_⟩
      · generalize (if start then IndentAsm.headingAt? t ts else none) = first
        cases first <;> simp
      · rw [(hfirst x (Option.mem_toList.1 hx)).1]
        exact hbehind y hy

/-- No two headings of a text are on the same line. -/
theorem pairwise_headings {text : String} {tokens : List Token} (h : scan text = .ok tokens) :
    (headings true tokens).Pairwise (·.name.line < ·.name.line) :=
  ((onLines_of_scan h).headings true).2

theorem pairwise_marks {hs : List Heading} (h : hs.Pairwise (·.name.line < ·.name.line))
    (isMacro : Bool) : (marks isMacro hs).Pairwise (·.2 < ·.2) :=
  List.pairwise_map.2 (h.filter _)

/-- A macro and a subroutine are not on the same line. -/
theorem line_ne_of_marks {hs : List Heading} (h : hs.Pairwise (·.name.line < ·.name.line)) :
    ∀ a ∈ marks true hs, ∀ b ∈ marks false hs, a.2 ≠ b.2 := by
  intro a ha b hb hline
  obtain ⟨x, hx, rfl⟩ := List.mem_map.1 ha
  obtain ⟨y, hy, rfl⟩ := List.mem_map.1 hb
  rw [List.mem_filter, beq_iff_eq] at hx hy
  have hnodup : (hs.map (·.name.line)).Nodup := List.pairwise_map.2 (h.imp Nat.ne_of_lt)
  have hxy : x = y := List.inj_on_of_nodup_map hnodup hx.1 hy.1 hline
  rw [← hxy, hx.2] at hy
  cases hy.2

end IndentAsm
