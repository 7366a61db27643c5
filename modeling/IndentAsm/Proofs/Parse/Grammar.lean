import IndentAsm.Proofs.Expansion.Definition
import IndentAsm.Proofs.Parse.Checked
import IndentAsm.Proofs.Parse.Operands
import IndentAsm.Proofs.Token.Scanned

/-!
# The grammar of programs without macros

A program is a list of lines. Blank lines do not count, wherever they stand, and
neither does what follows the first end token (`codeLines`). The lines that are
left are those of the subroutines: a header with the name, and a body of lines with
one instruction each, all of them with the same indent. No two subroutines have the
same name (`Derives`).

The grammar knows whole lines, and the reader skips blank lines where it comes to
them, with a token or two of lookahead. The lemmas here say what one skip has to do
with the lines: it leaves them as they are, and stops in front of the first.

**Results.**
* `Plain.codeLines_dropBlank`: skipping blank lines leaves the lines of a program.
* `Plain.codeLines_of_dropBlank`, `Plain.dropBlank_of_codeLines`: the first line
  starts where skipping stops.
-/
namespace IndentAsm

namespace Grammar

/-- The lines before the end token that are not blank, as their tokens. -/
def codeLines (tokens : List Token) : List (List Token) :=
  ((lines (tokens.takeWhile (·.kind != .eof))).filter (!·.isBlank)).map Line.tokens

/-- An instruction: its mnemonic, and the operands that go with it. -/
inductive Code : List Token → Instruction → Prop where
  | mk {t : Token} {op : Mnemonic} {ts : List Token} {i : Instruction}
      (mnemonic : t.kind = .operation op) (operands : Operands op ts i) : Code (t :: ts) i

/-- A line of a body: the indent, and one instruction. -/
inductive BodyLine (indent : String) : List Token → Instruction → Prop where
  | mk {t : Token} {ts : List Token} {i : Instruction} (kind : t.kind = .indent)
      (same : t.lexeme = indent) (code : Code ts i) : BodyLine indent (t :: ts) i

/-- The lines of subroutines, one after another: each is a line with its name and
a colon, and a body of at least one line. All bodies have the same indent. -/
inductive Subroutines (indent : String) : List (List Token) → List Subroutine → Prop where
  | nil : Subroutines indent [] []
  | cons {name colon : Token} {body rest : List (List Token)} {code : List Instruction}
      {subs : List Subroutine} (ident : name.kind = .identifier) (kind : colon.kind = .colon)
      (body_ne : body ≠ []) (derived : List.Forall₂ (BodyLine indent) body code)
      (others : Subroutines indent rest subs) :
      Subroutines indent ([name, colon] :: (body ++ rest))
        (⟨name.lexeme, name.line, code⟩ :: subs)

/-- The program that lines are derived as. -/
structure Derives (ls : List (List Token)) (p : Program) : Prop where
  subroutines : ∃ indent, Subroutines indent ls p.subroutines
  distinct : (p.subroutines.map Subroutine.name).Nodup
  macros : p.macros = .empty

end Grammar

open IndentAsm.Stream (dropBlank startsBlank lineOf)
open IndentAsm.Grammar

/-! ## The lines of a program -/

/-- The tokens from the end of the first line on. -/
def afterLine (ts : List Token) : List Token := ts.dropWhile fun t => !t.kind.endsLine

theorem lineOf_append_afterLine (ts : List Token) : lineOf ts ++ afterLine ts = ts :=
  List.takeWhile_append_dropWhile

theorem afterLine_of_lineOf_nil {ts : List Token} (h : lineOf ts = []) : afterLine ts = ts := by
  have hs := lineOf_append_afterLine ts
  rwa [h, List.nil_append] at hs

theorem afterLine_cons_of_not {t : Token} (ts : List Token) (h : t.kind.endsLine = false) :
    afterLine (t :: ts) = afterLine ts := by
  simp [afterLine, h]

theorem afterLine_cons_of_ends {t : Token} (ts : List Token) (h : t.kind.endsLine = true) :
    afterLine (t :: ts) = t :: ts := by
  simp [afterLine, h]

theorem head_afterLine (ts : List Token) : ∀ t ∈ (afterLine ts).head?, t.kind.endsLine = true := by
  intro t ht
  have := List.head?_dropWhile_not (fun t : Token => !t.kind.endsLine) ts
  rw [show (ts.dropWhile fun t => !t.kind.endsLine).head? = some t from ht] at this
  simpa using this

/-- The tokens of lines that are not blank. -/
theorem codeLines_append {b z : List Token} (hb : ∀ t ∈ b, t.kind ≠ .eof) (hz : Ending z) :
    codeLines (b ++ z) = ((lines b).filter (!·.isBlank)).map Line.tokens := by
  have hz' : z.takeWhile (·.kind != .eof) = [] := by
    rcases hz with rfl | ⟨e, he, rfl⟩
    · rfl
    · simp [he]
  rw [codeLines, List.takeWhile_append_of_pos (by simpa using hb), hz', List.append_nil]

theorem codeLines_of_ending {z : List Token} (hz : Ending z) : codeLines z = [] := by
  have h := codeLines_append (b := []) (by simp) hz
  simpa using h

theorem codeLines_newLine {n : Token} (hn : n.kind = .newLine) (ts : List Token) :
    codeLines (n :: ts) = codeLines ts := by
  have htake : (n :: ts).takeWhile (·.kind != .eof) = n :: ts.takeWhile (·.kind != .eof) := by
    simp [hn]
  rw [codeLines, htake, lines_newLine hn]
  rfl

/-- Code as the grammar knows it: scanned, without macros, and without signs. -/
structure Plain (ts : List Token) : Prop where
  split : ∃ b z, Scanned b ∧ Ending z ∧ ts = b ++ z
  macroless : ∀ t ∈ ts, t.kind ≠ .macroKeyword
  signless : ∀ t ∈ ts, Parse.Signless t

theorem Ending.of_suffix {z us : List Token} (hz : Ending z) (h : us <:+ z) : Ending us := by
  rcases hz with rfl | ⟨e, he, rfl⟩
  · exact Or.inl (List.suffix_nil.1 h)
  · rcases List.suffix_cons_iff.1 h with rfl | h
    · exact Or.inr ⟨e, he, rfl⟩
    · exact Or.inl (List.suffix_nil.1 h)

theorem Plain.of_suffix {ts us : List Token} (h : Plain ts) (hs : us <:+ ts) : Plain us := by
  refine ⟨?_, fun t ht => h.macroless t (hs.subset ht), fun t ht => h.signless t (hs.subset ht)⟩
  obtain ⟨b, z, hb, hz, rfl⟩ := h.split
  obtain ⟨xs, hxs⟩ := hs
  rcases List.append_eq_append_iff.1 hxs with ⟨c, rfl, hc⟩ | ⟨c, rfl, hc⟩
  · exact ⟨c, z, hb.of_append, hz, hc⟩
  · exact ⟨[], us, Scanned.nil, hz.of_suffix ⟨c, hc.symm⟩, rfl⟩

theorem Plain.signless_line {u : Stream} (h : Plain u.tokens) :
    ∀ t ∈ u.line, Parse.Signless t :=
  fun t ht => h.signless t ((List.takeWhile_sublist _).subset ht)

/-- Blank lines in front make no difference. -/
theorem filter_dropWhile_isBlank (ls : List Line) :
    (ls.dropWhile Line.isBlank).filter (!·.isBlank) = ls.filter (!·.isBlank) := by
  induction ls with
  | nil => rfl
  | cons l ls ih =>
    cases h : l.isBlank with
    | true => rw [List.dropWhile_cons_of_pos h, ih, List.filter_cons_of_neg (by simp [h])]
    | false => rw [List.dropWhile_cons_of_neg (by simp [h])]

theorem Plain.codeLines_dropBlank {ts : List Token} (h : Plain ts) :
    Plain (dropBlank ts) ∧ codeLines (dropBlank ts) = codeLines ts := by
  obtain ⟨b, z, hb, hz, rfl⟩ := h.split
  obtain ⟨b', hsuf, hd, hl⟩ := dropBlank_eq hz hb.no_eof
  rw [hd]
  constructor
  · obtain ⟨xs, rfl⟩ := hsuf
    exact h.of_suffix ⟨xs, by rw [List.append_assoc]⟩
  · rw [codeLines_append (hb.of_suffix hsuf).no_eof hz, codeLines_append hb.no_eof hz, hl,
      filter_dropWhile_isBlank]

/-- A line that is not blank, and the lines behind it. -/
theorem codeLines_line {xs d z : List Token} (hz : Ending z)
    (hx : ∀ t ∈ xs, t.kind.endsLine = false) (hne : xs ≠ [])
    (hblank : ∀ stop, Line.isBlank ⟨xs, stop⟩ = false) (hd : ∀ t ∈ d, t.kind ≠ .eof)
    (hdn : ∀ t ∈ d.head?, t.kind = .newLine) :
    codeLines (xs ++ d ++ z) = xs :: codeLines (d ++ z) := by
  have hxd : ∀ t ∈ xs ++ d, t.kind ≠ .eof := by
    intro t ht
    rcases List.mem_append.1 ht with ht | ht
    · exact (Token.Kind.not_endsLine_iff.1 (hx t ht)).2
    · exact hd t ht
  obtain ⟨stop, ls, hlines, hls⟩ := Parse.exists_lines_append
    (fun t ht => (Token.Kind.not_endsLine_iff.1 (hx t ht)).1) hne hdn
  rw [codeLines_append hxd hz, codeLines_append hd hz, hlines,
    List.filter_cons_of_pos (by simp [hblank stop]), List.map_cons, ← filter_dropWhile_isBlank ls,
    hls, filter_dropWhile_isBlank]

/-- Code that does not start with a blank line is at its end, or starts with the
first of its lines. -/
theorem Plain.cases_of_not_startsBlank {ts : List Token} (h : Plain ts)
    (hs : startsBlank ts = false) :
    (Ending ts ∧ codeLines ts = []) ∨
    ∃ t us, ts = t :: us ∧ t.kind.endsLine = false ∧ (t.kind = .indent → lineOf us ≠ []) ∧
      codeLines ts = (t :: lineOf us) :: codeLines (afterLine us) := by
  obtain ⟨b, z, hb, hz, rfl⟩ := h.split
  cases b with
  | nil => exact Or.inl ⟨hz, codeLines_of_ending hz⟩
  | cons t c =>
    obtain ⟨hn, hi⟩ := cases_not_startsBlank hz hs
    have ht := Token.Kind.not_endsLine_iff.2 ⟨hn, hb.no_eof t List.mem_cons_self⟩
    have hline : ∀ x ∈ lineOf (c ++ z), x.kind.endsLine = false :=
      fun x hx => Stream.not_ends_of_mem_lineOf hx
    have hindent : t.kind = .indent → lineOf (c ++ z) ≠ [] := by
      intro hk
      obtain ⟨u, us, rfl, hu⟩ := hi hk
      rw [List.cons_append, Stream.lineOf_cons_of_not _ hu]
      simp
    -- the line ends within the code, at a new line, or with it
    obtain ⟨d, hc, hafter⟩ := Parse.split_code hz
      (fun x hx => (Token.Kind.not_endsLine_iff.1 (hline x hx)).2)
      (lineOf_append_afterLine (c ++ z)).symm
    have hd : ∀ x ∈ d, x.kind ≠ .eof := by
      intro x hx
      refine hb.no_eof x ?_
      rw [hc]
      exact List.mem_cons_of_mem _ (List.mem_append_right _ hx)
    have hdn : ∀ x ∈ d.head?, x.kind = .newLine := by
      intro x hx
      refine newLine_of_endsLine (hd x (List.mem_of_mem_head? hx)) (head_afterLine (c ++ z) x ?_)
      rw [hafter, List.head?_append, hx]
      rfl
    have hblank (stop : Option Token) : Line.isBlank ⟨t :: lineOf (c ++ z), stop⟩ = false := by
      by_cases hk : t.kind = .indent
      · rw [Line.isBlank_of_kind hk, List.isEmpty_eq_false_iff]
        exact hindent hk
      · exact Line.isBlank_of_ne hk _ _
    refine Or.inr ⟨t, c ++ z, rfl, ht, hindent, ?_⟩
    have hsplit : t :: c ++ z = t :: lineOf (c ++ z) ++ d ++ z := by
      rw [List.cons_append, List.cons_append, ← hc, List.cons_append]
    rw [hsplit, hafter]
    exact codeLines_line hz (List.forall_mem_cons.2 ⟨ht, hline⟩) (by simp) hblank hd hdn

/-- Skipping blank lines leaves the end, or the first line that is not blank. -/
theorem Plain.dropBlank_cases {ts : List Token} (h : Plain ts) :
    (Ending (dropBlank ts) ∧ codeLines ts = []) ∨
    ∃ t us, dropBlank ts = t :: us ∧ t.kind.endsLine = false ∧
      (t.kind = .indent → lineOf us ≠ []) ∧
      codeLines ts = (t :: lineOf us) :: codeLines (afterLine us) := by
  obtain ⟨hplain, hcode⟩ := h.codeLines_dropBlank
  rw [← hcode]
  exact hplain.cases_of_not_startsBlank (Stream.startsBlank_dropBlank ts)

/-- The first line is the one in front of which blank lines were skipped. -/
theorem Plain.codeLines_of_dropBlank {ts us : List Token} {t : Token} (h : Plain ts)
    (hd : dropBlank ts = t :: us) (ht : t.kind.endsLine = false) :
    codeLines ts = (t :: lineOf us) :: codeLines (afterLine us) ∧
      (t.kind = .indent → lineOf us ≠ []) := by
  rcases h.dropBlank_cases with ⟨he, -⟩ | ⟨t', us', hd', -, hi, hc⟩
  · have hh := he.head
    rw [hd] at hh
    simp [ht] at hh
  · rw [hd, List.cons.injEq] at hd'
    obtain ⟨rfl, rfl⟩ := hd'
    exact ⟨hc, hi⟩

/-- In front of the first line, only blank lines are skipped. -/
theorem Plain.dropBlank_of_codeLines {ts l : List Token} {t : Token} {rest : List (List Token)}
    (h : Plain ts) (hc : codeLines ts = (t :: l) :: rest) :
    ∃ us, dropBlank ts = t :: us ∧ lineOf us = l ∧ codeLines (afterLine us) = rest := by
  rcases h.dropBlank_cases with ⟨-, hn⟩ | ⟨t', us, hd, -, -, hc'⟩
  · rw [hc] at hn
    cases hn
  · rw [hc, List.cons.injEq, List.cons.injEq] at hc'
    obtain ⟨⟨rfl, rfl⟩, rfl⟩ := hc'
    exact ⟨us, hd, rfl, rfl⟩

/-- A header, and the lines behind it. -/
theorem Plain.codeLines_header {ts w : List Token} {name colon : Token} (h : Plain ts)
    (hd : dropBlank ts = name :: colon :: w) (hname : name.kind = .identifier)
    (hcolon : colon.kind = .colon) (hw : lineOf w = []) :
    codeLines ts = [name, colon] :: codeLines w := by
  have hce : colon.kind.endsLine = false := by rw [hcolon]; rfl
  rw [(h.codeLines_of_dropBlank hd (by rw [hname]; rfl)).1, Stream.lineOf_cons_of_not _ hce,
    afterLine_cons_of_not _ hce, hw, afterLine_of_lineOf_nil hw]

theorem Plain.header_of_codeLines {ts : List Token} {name colon : Token}
    {rest : List (List Token)} (h : Plain ts) (hc : codeLines ts = [name, colon] :: rest)
    (hcolon : colon.kind = .colon) :
    ∃ w, dropBlank ts = name :: colon :: w ∧ codeLines w = rest := by
  obtain ⟨us, hdrop, hline, hafter⟩ := h.dropBlank_of_codeLines hc
  obtain ⟨w, rfl⟩ : ∃ w, us = colon :: w := by
    rw [← lineOf_append_afterLine us, hline]
    exact ⟨_, rfl⟩
  have hce : colon.kind.endsLine = false := by rw [hcolon]; rfl
  rw [Stream.lineOf_cons_of_not _ hce, List.cons.injEq] at hline
  rw [afterLine_cons_of_not _ hce, afterLine_of_lineOf_nil hline.2] at hafter
  exact ⟨w, hdrop, hafter⟩

theorem Plain.ending_of_codeLines {ts : List Token} (h : Plain ts) (hc : codeLines ts = []) :
    Ending (dropBlank ts) := by
  rcases h.dropBlank_cases with ⟨he, -⟩ | ⟨t, us, -, -, -, hc'⟩
  · exact he
  · rw [hc] at hc'
    cases hc'

end IndentAsm
