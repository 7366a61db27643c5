import Mathlib.Data.List.TakeWhile
import IndentAsm.Assemble
import IndentAsm.Proofs.Image.Renumber
import IndentAsm.Proofs.Parse.Bodies
import IndentAsm.Proofs.Parse.Derivation
import IndentAsm.Proofs.Token.Lexeme

/-!
# Listings

The listing of a program is the text of its subroutines: a line for each name, and an
indented line for each instruction. Nothing is left in it of macros, comments and blank
lines, numbers are in decimal, and blocks have one indent.

Printing, scanning and reading are independent of each other, and meet in the tokens of a
line (`Row`). An instruction is printed as its mnemonic and its operands, with spaces
where they would join; these tokens are scanned again, each where it stands, and the
grammar derives the instruction from them.

**Results.**
* `Number.denotes_text`: a number that is printed denotes its value.
* `Instruction.derived_operands`: the operands that are printed are those of the
  instruction.
* `Rows.exists_written`: lines that are put together are scanned to the tokens on them.
* `parse_listing`: the listing of a program that is read is read as the same program, up
  to lines.
-/
namespace IndentAsm

open IndentAsm.Grammar
open IndentAsm.Scanner (IsLexeme Written)

/-- The lines of a subroutine: its name, and each instruction behind four spaces. -/
def Subroutine.lines (s : Subroutine) : List String :=
  (s.name ++ ":") :: s.instructions.map fun i => "    " ++ i.text

def Program.listing (p : Program) : String :=
  String.join ((p.subroutines.flatMap Subroutine.lines).map (· ++ "\n"))

/-! ## Operands as tokens -/

def Register.token (line : Nat) (r : Register) : Token := ⟨.register r, r.name, line⟩

def Number.token (line : Nat) (n : Number) : Token := ⟨.number, n.text, line⟩

def Label.token (line : Nat) (l : Label) : Token := ⟨.identifier, l.name, line⟩

def Source.token (line : Nat) : Source → Token
  | register r => r.token line
  | immediate n => n.token line

def Address.token (line : Nat) : Address → Token
  | next => ⟨.nextAddr, "NextAddr", line⟩
  | immediate n => n.token line
  | label l => l.token line

/-- The operands of an instruction as they are written on a line. -/
def Instruction.operands (line : Nat) : Instruction → List Token
  | nop | hlt | jmp none | jo none => []
  | pop r | lw r none | sw r none | jz r none => [r.token line]
  | lw r (some n) | sw r (some n) => [r.token line, ⟨.comma, ",", line⟩, n.token line]
  | mw r src | add r src | sub r src => [r.token line, ⟨.comma, ",", line⟩, src.token line]
  | push src | tel src | out src => [src.token line]
  | lda address => [address.token line]
  | jmp (some l) | jo (some l) => [l.token line]
  | jz r (some l) => [r.token line, l.token line]

/-- An operand as it is written behind others, with a space in front of all but
commas. -/
def Token.spaced (t : Token) : List Char :=
  if t.kind = .comma then t.lexeme.toList else ' ' :: t.lexeme.toList

theorem Instruction.toList_text (i : Instruction) (line : Nat) :
    i.text.toList = i.operation.name.toList ++ (i.operands line).flatMap Token.spaced := by
  have number (n : Number) : (n.token line).spaced = ' ' :: n.text.toList := rfl
  have register (r : Register) : (r.token line).spaced = ' ' :: r.name.toList := rfl
  have label (l : Label) : (l.token line).spaced = ' ' :: l.name.toList := rfl
  have source (src : Source) : (src.token line).spaced = ' ' :: src.text.toList := by
    cases src <;> rfl
  have address (a : Address) : (a.token line).spaced = ' ' :: a.text.toList := by
    cases a <;> rfl
  have comma : Token.spaced ⟨.comma, ",", line⟩ = [','] := by simp [Token.spaced]
  cases i with
  | lw r a | sw r a =>
    cases a <;> simp [text, operands, number, register, comma]
  | jmp target | jo target => cases target <;> simp [text, operands, label]
  | jz r target => cases target <;> simp [text, operands, register, label]
  | nop | hlt => simp [text, operands]
  | pop r => simp [text, operands, register]
  | mw r src | add r src | sub r src => simp [text, operands, register, comma, source]
  | push src | tel src | out src => simp [text, operands, source]
  | lda a => simp [text, operands, address]

/-! ## Numbers in decimal -/

/-- The digits that are printed denote the number they were printed for. -/
theorem Literal.exists_digits (n : Nat) : ∃ ds,
    List.Forall₂ (IsDigit 10) (Nat.toDigits 10 n) ds ∧ n = Nat.ofDigits 10 ds.reverse := by
  induction n using Nat.strongRecOn with
  | ind n ih =>
    by_cases hn : n < 10
    · rw [Nat.toDigits_of_lt_base hn]
      exact ⟨[n], .cons ⟨hn, Or.inl rfl⟩ .nil, by simp⟩
    · obtain ⟨ds, hds, hval⟩ := ih (n / 10) (by omega)
      rw [Nat.toDigits_of_base_le (by decide) (by omega)]
      refine ⟨ds ++ [n % 10], ?_, ?_⟩
      · exact List.rel_append hds (.cons ⟨by omega, Or.inl rfl⟩ .nil)
      · rw [List.reverse_append, List.reverse_singleton, List.singleton_append, Nat.ofDigits_cons,
          ← hval]
        omega

theorem Number.toList_text (n : Number) : n.text.toList = Nat.toDigits 10 n.value.toNat := by
  rw [Number.text, Nat.toString_eq_repr, Nat.repr_eq_ofList_toDigits, String.toList_ofList]

theorem Number.isDigit_of_mem_text (n : Number) : ∀ c ∈ n.text.toList, c.isDigit = true := by
  intro c hc
  rw [n.toList_text] at hc
  exact Nat.isDigit_of_mem_toDigits (by decide) (by decide) hc

theorem Number.denotes_text (n : Number) : Literal.Denotes n.text n.value.toNat := by
  obtain ⟨ds, hds, hval⟩ := Literal.exists_digits n.value.toNat
  have hfilter : n.text.toList.filter (· != '_') = n.text.toList := by
    rw [List.filter_eq_self]
    intro c hc
    have hd := n.isDigit_of_mem_text c hc
    rw [bne_iff_ne]
    rintro rfl
    cases hd
  refine ⟨[], 10, _, ds, .decimal, ?_, Nat.toDigits_ne_nil, hds, hval⟩
  rw [hfilter, n.toList_text, List.nil_append]

/-- Decimal digits are one number, since no mark of a base is among them. -/
theorem isLexeme_digits {c : Char} {cs : List Char} (h : ∀ d ∈ c :: cs, d.isDigit = true) :
    IsLexeme .number (c :: cs) := by
  have hc := h c List.mem_cons_self
  have hne {d e : Char} (hd : d.isDigit = true) (he : e.isDigit = false) : d ≠ e := by
    rintro rfl
    rw [hd] at he
    cases he
  have hrun : cs.takeWhile (fun d => d.isDigit || d == '_') = cs ∧
      cs.dropWhile (fun d => d.isDigit || d == '_') = [] := by
    have hall : ∀ d ∈ cs, (d.isDigit || d == '_') = true := fun d hd => by
      rw [h d (List.mem_cons_of_mem _ hd), Bool.true_or]
    exact ⟨List.takeWhile_eq_self_iff.2 hall, List.dropWhile_eq_nil_iff.2 hall⟩
  have hbase : Scanner.splitBase cs = ([], cs) := by
    cases cs with
    | nil => rfl
    | cons d ds =>
      have hd := h d (by simp)
      simp [Scanner.splitBase, hne hd (e := 'x') rfl, hne hd (e := 'X') rfl, hne hd (e := 'b') rfl,
        hne hd (e := 'B') rfl]
  refine ⟨c, cs, rfl, fun line => ?_⟩
  have hsingle : Scanner.single? c = none := by
    simp [Scanner.single?, hne hc (e := ',') rfl, hne hc (e := ':') rfl, hne hc (e := '(') rfl,
      hne hc (e := ')') rfl, hne hc (e := '\n') rfl]
  have hblank : Scanner.isBlank c = false := by
    simp [Scanner.isBlank, hne hc (e := ' ') rfl, hne hc (e := '\t') rfl]
  have hnumber : Scanner.splitNumber c cs = (cs, []) := by
    simp only [Scanner.splitNumber, hbase, ite_self, hrun, List.nil_append]
  simp only [Scanner.splitItem, hsingle, hblank, hc, hnumber, Bool.false_eq_true, if_false, if_true]

theorem Number.isLexeme_text (n : Number) : IsLexeme .number n.text.toList := by
  obtain ⟨c, cs, hcs⟩ : ∃ c cs, n.text.toList = c :: cs := by
    refine List.exists_cons_of_ne_nil ?_
    rw [n.toList_text]
    exact Nat.toDigits_ne_nil
  have hdigit := n.isDigit_of_mem_text
  rw [hcs] at hdigit ⊢
  exact isLexeme_digits hdigit

/-! ## Tokens of a listing -/

/-- The kinds of token that stand in a listing behind the indent of a line. -/
def Token.Kind.isPrinted : Token.Kind → Bool
  | identifier | number | comma | colon | nextAddr | operation _ | register _ => true
  | _ => false

structure Token.Printed (line : Nat) (t : Token) : Prop where
  line : t.line = line
  lexeme : IsLexeme t.kind t.lexeme.toList
  kind : t.kind.isPrinted = true
  comma : t.kind = .comma → t.lexeme = ","

theorem Token.Kind.ne_of_isPrinted {kind : Token.Kind} (h : kind.isPrinted = true) :
    kind.endsLine = false ∧ kind ≠ .indent ∧ kind ≠ .macroKeyword := by
  cases kind <;> simp_all [isPrinted, endsLine]

theorem printed_of_ne {kind : Token.Kind} {lexeme : String} (h : IsLexeme kind lexeme.toList)
    (hk : kind.isPrinted = true) (hc : kind ≠ .comma) (line : Nat) :
    Token.Printed line ⟨kind, lexeme, line⟩ :=
  ⟨rfl, h, hk, fun he => absurd he hc⟩

/-- A fixed text is a lexeme if its characters are split off whole. -/
theorem isLexeme_of_text {kind : Token.Kind} {text : String} (c : Char) (cs : List Char)
    (h : (Scanner.splitItem 0 c cs).1 = .ok ⟨kind, text, 0⟩) : IsLexeme kind text.toList :=
  Scanner.isLexeme_of_splitItem h

theorem Register.isLexeme_name (r : Register) : IsLexeme (.register r) r.name.toList :=
  isLexeme_of_text (r.name.toList.headD ' ') r.name.toList.tail (by cases r <;> rfl)

theorem Mnemonic.isLexeme_name (op : Mnemonic) : IsLexeme (.operation op) op.name.toList :=
  isLexeme_of_text (op.name.toList.headD ' ') op.name.toList.tail (by cases op <;> rfl)

theorem isLexeme_nextAddr : IsLexeme .nextAddr "NextAddr".toList :=
  isLexeme_of_text 'N' "extAddr".toList rfl

theorem printed_comma (line : Nat) : Token.Printed line ⟨.comma, ",", line⟩ :=
  ⟨rfl, isLexeme_of_text ',' [] rfl, rfl, fun _ => rfl⟩

/-- The names that an instruction refers to are identifiers. -/
def Instruction.Named (i : Instruction) : Prop :=
  ∀ l ∈ i.label?, IsLexeme .identifier l.name.toList

theorem Instruction.printed_operands {i : Instruction} (h : i.Named) (line : Nat) :
    ∀ t ∈ i.operands line, t.Printed line := by
  have register (r : Register) : (r.token line).Printed line :=
    printed_of_ne r.isLexeme_name rfl (by simp) line
  have number (n : Number) : (n.token line).Printed line :=
    printed_of_ne n.isLexeme_text rfl (by simp) line
  have label {l : Label} (hl : IsLexeme .identifier l.name.toList) : (l.token line).Printed line :=
    printed_of_ne hl rfl (by simp) line
  have source (src : Source) : (src.token line).Printed line := by
    cases src with
    | register r => exact register r
    | immediate n => exact number n
  cases i with
  | nop | hlt => simp [operands]
  | pop r => simpa [operands] using register r
  | lw r a | sw r a => 
    cases a with
    | none => simpa [operands] using register r
    | some n => simpa [operands] using ⟨register r, printed_comma line, number n⟩
  | mw r src | add r src | sub r src =>
    simpa [operands] using ⟨register r, printed_comma line, source src⟩
  | push src | tel src | out src => simpa [operands] using source src
  | lda a =>
    cases a with
    | next => simpa [operands, Address.token] using printed_of_ne isLexeme_nextAddr rfl (by simp) line
    | immediate n => simpa [operands, Address.token] using number n
    | label l => simpa [operands, Address.token] using label (h l rfl)
  | jmp target | jo target =>
    cases target with
    | none => simp [operands]
    | some l => simpa [operands] using label (h l rfl)
  | jz r target =>
    cases target with
    | none => simpa [operands] using register r
    | some l => simpa [operands] using ⟨register r, label (h l rfl)⟩

/-- The operands that are printed are those of the instruction, with its labels on the
line of the listing. -/
theorem Instruction.derived_operands {i : Instruction} (h : i.Fits) (line : Nat) :
    Operands i.operation (i.operands line) (i.mapLine fun _ => line) := by
  have number {width : Width} {n : Number} (hn : n.Fits width) :
      NumberOperand width (n.token line) n := ⟨rfl, n.denotes_text, hn⟩
  have source {src : Source} (hs : src.Fits) : SourceOperand (src.token line) src := by
    cases src with
    | register r => exact .register rfl
    | immediate n => exact .immediate (number hs)
  cases i with
  | nop | hlt => exact ⟨(), rfl, rfl⟩
  | pop r => exact ⟨r, ⟨_, rfl, rfl⟩, rfl⟩
  | lw r a | sw r a =>
    cases a with
    | none => exact ⟨(r, none), .bare rfl, rfl⟩
    | some n => exact ⟨(r, some n), .direct rfl rfl (number h), rfl⟩
  | mw r src | add r src | sub r src => exact ⟨(r, src), .mk rfl rfl (source h), rfl⟩
  | push src | tel src | out src => exact ⟨src, ⟨_, rfl, source h⟩, rfl⟩
  | lda a =>
    cases a with
    | next => exact ⟨.next, ⟨_, rfl, .next rfl⟩, rfl⟩
    | immediate n => exact ⟨.immediate n, ⟨_, rfl, .immediate (number h)⟩, rfl⟩
    | label l => exact ⟨.label ⟨l.name, line⟩, ⟨_, rfl, .label ⟨rfl, rfl⟩⟩, rfl⟩
  | jmp target | jo target =>
    cases target with
    | none => exact ⟨none, .absent, rfl⟩
    | some l => exact ⟨some ⟨l.name, line⟩, .present ⟨rfl, rfl⟩, rfl⟩
  | jz r target =>
    cases target with
    | none => exact ⟨(r, none), .mk rfl .absent, rfl⟩
    | some l => exact ⟨(r, some ⟨l.name, line⟩), .mk rfl (.present ⟨rfl, rfl⟩), rfl⟩

/-! ## Lines of a listing -/

/-- Behind a token comes a space, a comma or the end of the line. -/
theorem not_wordPart_head {line : Nat} {ts : List Token} (h : ∀ t ∈ ts, t.Printed line)
    (rest : List Char) : ∀ d ∈ (ts.flatMap Token.spaced ++ '\n' :: rest).head?,
      Scanner.isWordPart d = false := by
  intro d hd
  cases ts with
  | nil =>
    cases hd
    rfl
  | cons t ts =>
    by_cases hc : t.kind = .comma
    · simp [Token.spaced, hc, (h t List.mem_cons_self).comma hc] at hd
      subst hd
      rfl
    · simp [Token.spaced, hc] at hd
      subst hd
      rfl

theorem written_token {line : Nat} {t : Token} (ht : t.Printed line) {rest : List Char}
    {us : List Token} (hrest : ∀ d ∈ rest.head?, Scanner.isWordPart d = false) {start : Bool}
    (h : Written false line rest us) : Written start line (t.lexeme.toList ++ rest) (t :: us) := by
  obtain ⟨hends, hindent, -⟩ := Token.Kind.ne_of_isPrinted ht.kind
  obtain ⟨rfl, hlex, -, -⟩ := ht
  refine .token hlex ?_ (fun hi => absurd hi hindent) ?_ h
  · exact (Token.Kind.not_endsLine_iff.1 hends).1
  · exact fun c hc d hd => hlex.not_joins hindent (hrest d hd) c hc

theorem written_operands {line : Nat} {ts us : List Token} {rest : List Char}
    (hts : ∀ t ∈ ts, t.Printed line) (h : Written false line ('\n' :: rest) us) :
    Written false line (ts.flatMap Token.spaced ++ '\n' :: rest) (ts ++ us) := by
  induction ts with
  | nil => exact h
  | cons t ts ih =>
    obtain ⟨ht, hts⟩ := List.forall_mem_cons.1 hts
    have hword : Written false line
        (t.lexeme.toList ++ (ts.flatMap Token.spaced ++ '\n' :: rest)) (t :: (ts ++ us)) :=
      written_token ht (not_wordPart_head hts rest) (ih hts)
    rw [List.flatMap_cons, List.append_assoc, Token.spaced]
    split
    · exact hword
    · exact .space hword

/-- A line of text and the tokens on it, which are not only an indent. -/
structure Row (line : Nat) (text : String) (ts : List Token) : Prop where
  written : ∀ {rest us}, Written true (line + 1) rest us →
    Written true line (text.toList ++ '\n' :: rest) (ts ++ ⟨.newLine, "\n", line⟩ :: us)
  ends : ∀ t ∈ ts, t.kind.endsLine = false
  macroless : ∀ t ∈ ts, t.kind ≠ .macroKeyword
  not_blank : ∀ stop, Line.isBlank ⟨ts, stop⟩ = false

/-- A line of tokens that are printed, of which the first may be an indent. -/
theorem row_of_printed {line : Nat} {text : String} {t u : Token} {ts : List Token}
    (ht : t.kind.endsLine = false ∧ t.kind ≠ .macroKeyword) (hts : ∀ x ∈ u :: ts, x.Printed line)
    (written : ∀ {rest us}, Written true (line + 1) rest us → Written true line
      (text.toList ++ '\n' :: rest) (t :: u :: ts ++ ⟨.newLine, "\n", line⟩ :: us)) :
    Row line text (t :: u :: ts) where
  written := written
  ends := List.forall_mem_cons.2 ⟨ht.1, fun x hx => (Token.Kind.ne_of_isPrinted (hts x hx).kind).1⟩
  macroless :=
    List.forall_mem_cons.2 ⟨ht.2, fun x hx => (Token.Kind.ne_of_isPrinted (hts x hx).kind).2.2⟩
  not_blank stop := by
    by_cases hk : t.kind = .indent
    · rw [Line.isBlank_of_kind hk]
      rfl
    · exact Line.isBlank_of_ne hk _ _

theorem row_header {name : String} (h : IsLexeme .identifier name.toList) (line : Nat) :
    Row line (name ++ ":") [⟨.identifier, name, line⟩, ⟨.colon, ":", line⟩] := by
  have hname := printed_of_ne h rfl (by simp) line
  have hcolon : Token.Printed line ⟨.colon, ":", line⟩ :=
    printed_of_ne (isLexeme_of_text ':' [] rfl) rfl (by simp) line
  refine row_of_printed ⟨rfl, by simp⟩ (by simpa using hcolon) fun {rest us} hrest => ?_
  have htext : (name ++ ":").toList ++ '\n' :: rest =
      name.toList ++ (":".toList ++ '\n' :: rest) := by simp
  rw [htext]
  refine written_token hname (by simp [Scanner.isWordPart]) ?_
  exact written_token hcolon (by simp [Scanner.isWordPart]) (.newLine hrest)

theorem row_instruction {i : Instruction} (h : i.Named) (line : Nat) :
    Row line ("    " ++ i.text) (⟨.indent, "    ", line⟩ ::
      ⟨.operation i.operation, i.operation.name, line⟩ :: i.operands line) := by
  have hop := printed_of_ne i.operation.isLexeme_name rfl (by simp) line
  have hoperands := i.printed_operands h line
  have hindent : IsLexeme .indent "    ".toList := isLexeme_of_text ' ' "   ".toList rfl
  refine row_of_printed ⟨rfl, by simp⟩ (List.forall_mem_cons.2 ⟨hop, hoperands⟩)
    fun {rest us} hrest => ?_
  have htext : ("    " ++ i.text).toList ++ '\n' :: rest = "    ".toList ++
      (i.operation.name.toList ++ ((i.operands line).flatMap Token.spaced ++ '\n' :: rest)) := by
    rw [String.toList_append, i.toList_text line, List.append_assoc, List.append_assoc]
  rw [htext]
  refine .token (t := ⟨.indent, "    ", line⟩) hindent (by simp) (fun _ => rfl) ?_ ?_
  · cases i.operation <;> simp [Mnemonic.name, Scanner.joins, Scanner.isBlank]
  · exact written_token hop (not_wordPart_head hoperands rest)
      (written_operands hoperands (.newLine hrest))

/-- Lines of text and the tokens on each. -/
inductive Rows : Nat → List String → List (List Token) → Prop where
  | nil (line : Nat) : Rows line [] []
  | cons {line : Nat} {text : String} {ts : List Token} {texts : List String}
      {tss : List (List Token)} (row : Row line text ts) (rest : Rows (line + 1) texts tss) :
      Rows line (text :: texts) (ts :: tss)

theorem Rows.append {line : Nat} {texts texts' : List String} {tss tss' : List (List Token)}
    (h : Rows line texts tss) (h' : Rows (line + texts.length) texts' tss') :
    Rows line (texts ++ texts') (tss ++ tss') := by
  induction h with
  | nil line => exact h'
  | @cons line text ts texts tss row rest ih =>
    refine .cons row (ih ?_)
    rw [List.length_cons] at h'
    rwa [Nat.add_right_comm]

/-- Lines of text put together are scanned to the tokens on them, which have these
lines again. -/
theorem Rows.exists_written {line : Nat} {texts : List String} {tss : List (List Token)}
    (h : Rows line texts tss) : ∃ code last, last.kind = .eof ∧
      Written true line (String.join (texts.map (· ++ "\n"))).toList (code ++ [last]) ∧
      (∀ t ∈ code, t.kind ≠ .eof ∧ t.kind ≠ .macroKeyword) ∧ codeLines (code ++ [last]) = tss := by
  induction h with
  | nil line =>
    refine ⟨[], ⟨.eof, "", line⟩, rfl, .eof true line, by simp, ?_⟩
    exact codeLines_of_ending (Or.inr ⟨_, rfl, rfl⟩)
  | @cons line text ts texts tss row rest ih =>
    obtain ⟨code, last, hlast, hwritten, hcode, hlines⟩ := ih
    have hending : Ending [last] := Or.inr ⟨last, hlast, rfl⟩
    refine ⟨ts ++ ⟨.newLine, "\n", line⟩ :: code, last, hlast, ?_, ?_, ?_⟩
    · have htext : (String.join ((text :: texts).map (· ++ "\n"))).toList =
          text.toList ++ '\n' :: (String.join (texts.map (· ++ "\n"))).toList := by simp
      rw [htext, List.append_assoc]
      exact row.written hwritten
    · intro t ht
      rcases List.mem_append.1 ht with ht | ht
      · exact ⟨(Token.Kind.not_endsLine_iff.1 (row.ends t ht)).2, row.macroless t ht⟩
      · rcases List.mem_cons.1 ht with rfl | ht
        · simp
        · exact hcode t ht
    · have hne : ts ≠ [] := by
        rintro rfl
        cases row.not_blank none
      rw [codeLines_line hending row.ends hne row.not_blank, List.cons_append,
        codeLines_newLine rfl, hlines]
      · intro t ht
        rcases List.mem_cons.1 ht with rfl | ht
        · simp
        · exact (hcode t ht).1
      · simp

/-! ## Whole listings -/

/-- The instructions of a body are printed on lines from which they are derived, with
labels on the lines where they are printed. -/
theorem exists_rows_code {code : List Instruction} (hfits : ∀ i ∈ code, i.Fits)
    (hnamed : ∀ i ∈ code, i.Named) (line : Nat) : ∃ tss code',
      Rows line (code.map fun i => "    " ++ i.text) tss ∧
      List.Forall₂ (BodyLine "    ") tss code' ∧
      code'.map (·.mapLine fun _ => 0) = code.map (·.mapLine fun _ => 0) := by
  induction code generalizing line with
  | nil => exact ⟨[], [], .nil line, .nil, rfl⟩
  | cons i code ih =>
    obtain ⟨hi, hfits⟩ := List.forall_mem_cons.1 hfits
    obtain ⟨hi', hnamed⟩ := List.forall_mem_cons.1 hnamed
    obtain ⟨tss, code', hrows, hderived, hcode⟩ := ih hfits hnamed (line + 1)
    refine ⟨_ :: tss, i.mapLine (fun _ => line) :: code', .cons (row_instruction hi' line) hrows,
      .cons (.mk rfl rfl (.mk rfl (i.derived_operands hi line))) hderived, ?_⟩
    rw [List.map_cons, List.map_cons, hcode, Instruction.mapLine_mapLine]
    rfl

/-- What a subroutine needs to be printed so that it reads back. -/
structure Subroutine.Printable (s : Subroutine) : Prop where
  filled : s.instructions ≠ []
  name : IsLexeme .identifier s.name.toList
  fits : ∀ i ∈ s.instructions, i.Fits
  named : ∀ i ∈ s.instructions, i.Named

theorem exists_rows {subs : List Subroutine} (h : ∀ s ∈ subs, s.Printable) (line : Nat) :
    ∃ tss subs', Rows line (subs.flatMap Subroutine.lines) tss ∧
      Subroutines "    " tss subs' ∧
      subs'.map (·.mapLine fun _ => 0) = subs.map (·.mapLine fun _ => 0) := by
  induction subs generalizing line with
  | nil => exact ⟨[], [], .nil line, .nil, rfl⟩
  | cons s subs ih =>
    obtain ⟨hs, h⟩ := List.forall_mem_cons.1 h
    obtain ⟨body, code, hbody, hderived, hcode⟩ := exists_rows_code hs.fits hs.named (line + 1)
    obtain ⟨tss, subs', hrows, hsubs, hmap⟩ :=
      ih h (line + (s.lines).length)
    have hne : body ≠ [] := by
      rintro rfl
      cases hderived
      exact hs.filled (by simpa using hcode)
    refine ⟨_, ⟨s.name, line, code⟩ :: subs', (Rows.cons (row_header hs.name line) hbody).append hrows,
      .cons rfl rfl hne hderived hsubs, ?_⟩
    rw [List.map_cons, List.map_cons, hmap]
    simp [Subroutine.mapLine, hcode]

/-- A program that is read can be printed. -/
theorem printable_of_parse {config : Config} {text : String} {p : Program}
    (h : (parse config text).result = .ok p) :
    (∀ s ∈ p.subroutines, s.Printable) ∧ (p.subroutines.map Subroutine.name).Nodup := by
  obtain ⟨tokens, hscan, hread⟩ := parse_eq_ok_iff.1 h
  have hchecked := Parse.checked_of_result hread
  have hnamed := Parse.namedIn_of_result (not_plus_of_scan hscan) hread
  have hlexeme (name : String) (line : Nat) (hm : ⟨.identifier, name, line⟩ ∈ tokens) :
      IsLexeme .identifier name.toList :=
    isLexeme_of_scan hscan ⟨.identifier, name, line⟩ hm (by simp)
  refine ⟨fun s hs => ⟨Parse.filled_of_result hread s hs, ?_, hchecked.fits s hs, ?_⟩,
    hchecked.distinct⟩
  · exact hlexeme _ _ (hnamed s hs).name
  · exact fun i hi l hl => hlexeme _ _ ((hnamed s hs).labels i hi l hl)

/-- The listing of a program that is read is read as a program with the same subroutines,
up to the lines of their names and labels, and without macros. So it is linked to the
same image, or fails with the same error up to its line. -/
theorem parse_listing {config : Config} {text : String} {p : Program}
    (h : (parse config text).result = .ok p) (config' : Config) :
    ∃ q, (parse config' p.listing).result = .ok q ∧ q.macros = .empty ∧
      q.subroutines.map (·.mapLine fun _ => 0) = p.subroutines.map (·.mapLine fun _ => 0) ∧
      q.link.result.mapError (·.mapLine fun _ => 0) =
        p.link.result.mapError (·.mapLine fun _ => 0) := by
  obtain ⟨hprintable, hdistinct⟩ := printable_of_parse h
  obtain ⟨tss, subs, hrows, hderived, hsubs⟩ := exists_rows hprintable 1
  obtain ⟨code, last, hlast, hwritten, hcode, hlines⟩ := hrows.exists_written
  have hscan : scan p.listing = .ok (code ++ [last]) := scan_of_written hwritten
  have hmacroless : ∀ t ∈ code ++ [last], t.kind ≠ .macroKeyword := by
    intro t ht
    rcases List.mem_append.1 ht with ht | ht
    · exact (hcode t ht).2
    · rw [List.mem_singleton.1 ht, hlast]
      simp
  have hnames : subs.map Subroutine.name = p.subroutines.map Subroutine.name := by
    simpa [Function.comp_def] using congrArg (List.map Subroutine.name) hsubs
  have hread : (Parse.ofTokens config'.maxDepth (code ++ [last])).result = .ok ⟨subs, .empty⟩ := by
    refine Parse.Rest.result_eq (Parse.plain_ofTokens hscan hmacroless) ?_ (hnames ▸ hdistinct) rfl
    exact Parse.rest_ofTokens_iff.2 ⟨"    ", hlines ▸ hderived⟩
  refine ⟨⟨subs, .empty⟩, ?_, rfl, hsubs, ?_⟩
  · simp only [parse, hscan, hread, Except.mapError]
  · have hq := Program.link_of_mapLine (p := ⟨subs, .empty⟩)
      (q := ⟨subs.map (·.mapLine fun _ => 0), .empty⟩) rfl
    have hp := Program.link_of_mapLine (p := p)
      (q := ⟨subs.map (·.mapLine fun _ => 0), .empty⟩) hsubs
    rw [← hq, hp]

/-- A program with a macro, a comment, and a number in another base. -/
def putText : String :=
  "@macro put(n, r): MW r, n\n\n; forever\nmain:\n\tput 0x1_F, A\n\tJZ A main\n"

/-- Its listing has none of these, and is read as the same program. -/
theorem parse_listing_putText : ∃ p, (parse {} putText).result = .ok p ∧
    p.listing = "main:\n    MW A, 31\n    JZ A main\n" ∧
    ∃ q, (parse ⟨0⟩ p.listing).result = .ok q ∧ q.macros = .empty ∧
      q.subroutines.map (·.mapLine fun _ => 0) =
        [⟨"main", 0, [.mw .a (.immediate ⟨31, .byte⟩), .jz .a (some ⟨"main", 0⟩)]⟩] := by
  have heval : (scan putText).toOption.bind (fun tokens =>
      (Parse.State.after 64 7 (.ofTokens tokens)).map
        fun s => (s.place, s.stream.skipBlankLines.peek.kind, s.subroutines)) =
      some (.outside, .eof,
        [⟨"main", 4, [.mw .a (.immediate ⟨31, .byte⟩), .jz .a (some ⟨"main", 6⟩)]⟩]) := by decide +kernel
  obtain ⟨tokens, hscan, hafter⟩ := scan_of_bind heval
  obtain ⟨p, hread, hsubs⟩ := Parse.result_of_after hafter
  have hparse : (parse {} putText).result = .ok p := by
    simp only [parse, hscan, hread, Except.mapError]
  obtain ⟨q, hq, hmacros, hmap, -⟩ := parse_listing hparse ⟨0⟩
  refine ⟨p, hparse, ?_, q, hq, hmacros, ?_⟩
  · rw [Program.listing, hsubs]
    decide +kernel
  · rw [hmap, hsubs]
    rfl

end IndentAsm
