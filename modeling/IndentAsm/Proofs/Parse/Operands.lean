import IndentAsm.Proofs.Parse.Line
import IndentAsm.Proofs.Parse.Literal

/-!
# The operands of each instruction

`Grammar.Operands` says which tokens may follow a mnemonic on its line, and
which instruction they make with it. It is a table with a row for each mnemonic;
the few forms that operands have are written out token by token.

The readers take their operands off a stream and leave the rest. Where nothing
is left of the line, they have read exactly what the grammar allows (`Parses`).
The sign that a number may have in front of its digits is in no number that is
scanned, and not in the grammar, so all of this is about tokens without it
(`Signless`).

**Results.**
* `TakesOne.bind`, `Parses.optional`: how readers are put together, and with them
  the forms.
* `parses_instruction`: the operands of an instruction are read from a line
  exactly if the grammar gives them.
-/
namespace IndentAsm

namespace Grammar

/-! ## Operands that are one token -/

def RegisterOperand (t : Token) (r : Register) : Prop :=
  t.kind = .register r

/-- A number whose width holds the value it denotes. -/
structure NumberOperand (width : Width) (t : Token) (n : Number) : Prop where
  kind : t.kind = .number
  denotes : Literal.Denotes t.lexeme n.value.toNat
  fits : n.Fits width

/-- A name, on the line where it stands. -/
def LabelOperand (t : Token) (l : Label) : Prop :=
  t.kind = .identifier ∧ l = ⟨t.lexeme, t.line⟩

inductive SourceOperand (t : Token) : Source → Prop where
  | register {r : Register} (operand : RegisterOperand t r) : SourceOperand t (.register r)
  | immediate {n : Number} (operand : NumberOperand .byte t n) : SourceOperand t (.immediate n)

inductive AddressOperand (t : Token) : Address → Prop where
  | next (kind : t.kind = .nextAddr) : AddressOperand t .next
  | immediate {n : Number} (operand : NumberOperand .word t n) : AddressOperand t (.immediate n)
  | label {l : Label} (operand : LabelOperand t l) : AddressOperand t (.label l)

/-! ## The forms of the operands -/

def Nothing (ts : List Token) (_ : Unit) : Prop := ts = []

def Single {α : Type} (operand : Token → α → Prop) (ts : List Token) (a : α) : Prop :=
  ∃ t, ts = [t] ∧ operand t a

inductive Transfer : List Token → Register × Source → Prop where
  | mk {t comma u : Token} {r : Register} {src : Source} (reg : RegisterOperand t r)
      (kind : comma.kind = .comma) (source : SourceOperand u src) :
      Transfer [t, comma, u] (r, src)

inductive Access : List Token → Register × Option Number → Prop where
  | bare {t : Token} {r : Register} (reg : RegisterOperand t r) : Access [t] (r, none)
  | direct {t comma u : Token} {r : Register} {n : Number} (reg : RegisterOperand t r)
      (kind : comma.kind = .comma) (address : NumberOperand .word u n) :
      Access [t, comma, u] (r, some n)

inductive Target : List Token → Option Label → Prop where
  | absent : Target [] none
  | present {t : Token} {l : Label} (label : LabelOperand t l) : Target [t] (some l)

inductive Branch : List Token → Register × Option Label → Prop where
  | mk {t : Token} {r : Register} {ts : List Token} {target : Option Label}
      (reg : RegisterOperand t r) (rest : Target ts target) : Branch (t :: ts) (r, target)

/-- The instruction made of operands of a form. -/
def Makes {α : Type} (form : List Token → α → Prop) (make : α → Instruction) (ts : List Token)
    (i : Instruction) : Prop :=
  ∃ a, form ts a ∧ i = make a

/-- The operands that follow each mnemonic, and the instruction they make. -/
def Operands : Mnemonic → List Token → Instruction → Prop
  | .nop => Makes Nothing fun _ => .nop
  | .hlt => Makes Nothing fun _ => .hlt
  | .pop => Makes (Single RegisterOperand) .pop
  | .push => Makes (Single SourceOperand) .push
  | .out => Makes (Single SourceOperand) .out
  | .tel => Makes (Single SourceOperand) .tel
  | .add => Makes Transfer fun p => .add p.1 p.2
  | .sub => Makes Transfer fun p => .sub p.1 p.2
  | .mw => Makes Transfer fun p => .mw p.1 p.2
  | .lw => Makes Access fun p => .lw p.1 p.2
  | .sw => Makes Access fun p => .sw p.1 p.2
  | .lda => Makes (Single AddressOperand) .lda
  | .jmp => Makes Target .jmp
  | .jo => Makes Target .jo
  | .jz => Makes Branch fun p => .jz p.1 p.2

end Grammar

namespace Stream

theorem expect_eq_ok_iff {s s' : Stream} {kind : Token.Kind} {t : Token} :
    s.expect kind = .ok (t, s') ↔ s.peek = t ∧ s.advance.2 = s' ∧ t.kind = kind := by
  constructor
  · intro h
    obtain ⟨ha, hk⟩ := expect_eq_ok h
    exact ⟨by rw [← fst_advance, ha], by rw [ha], hk⟩
  · rintro ⟨rfl, rfl, hk⟩
    have hc : s.check kind = true := by rw [check, hk, beq_self_eq_true]
    rw [expect, if_pos hc, ← fst_advance]

/-- Asking for a kind looks at the first token of the current line. -/
theorem check_eq_any {s : Stream} {kind : Token.Kind} (hk : kind.endsLine = false) :
    s.check kind = s.line.head?.any (·.kind == kind) := by
  cases hl : s.line with
  | nil =>
    rw [check, List.head?_nil, Option.any_none, beq_eq_false_iff_ne]
    rintro rfl
    rw [line_eq_nil_iff, hk] at hl
    cases hl
  | cons t ts =>
    rw [check, (of_line_cons hl).1]
    rfl

end Stream

namespace Parse

open IndentAsm.Grammar

/-- A number has no sign. -/
def Signless (t : Token) : Prop :=
  t.kind = .number → '+' ∉ t.lexeme.toList

/-- A reader of one token of the line, which is as `P` says. -/
structure TakesOne {α : Type} (read : Stream → Except ParseError (α × Stream))
    (P : Token → α → Prop) : Prop where
  not_ends : ∀ {t a}, P t a → t.kind.endsLine = false
  eq_ok_iff : ∀ {s a s'}, Signless s.peek →
    (read s = .ok (a, s') ↔ P s.peek a ∧ s.advance.2 = s')

/-- A reader that takes the rest of the line exactly if it has the form `G`. -/
def Parses {α : Type} (read : Stream → Except ParseError (α × Stream))
    (G : List Token → α → Prop) : Prop :=
  ∀ s a, (∀ t ∈ s.line, Signless t) →
    ((∃ s', read s = .ok (a, s') ∧ s'.line = []) ↔ G s.line a)

variable {α β : Type} {read : Stream → Except ParseError (α × Stream)} {P : Token → α → Prop}
  {G : List Token → α → Prop}

theorem signless_peek {s : Stream} (h : ∀ t ∈ s.line, Signless t) :
    Signless s.peek := by
  intro hk
  have hl := (Stream.next?_of_not_ends (s := s) (by rw [hk]; rfl)).2
  exact h s.peek (by rw [hl]; exact List.mem_cons_self) hk

/-! ## Readers put together -/

namespace TakesOne

theorem of_iff {Q : Token → α → Prop} (h : TakesOne read P) (hi : ∀ t a, P t a ↔ Q t a) :
    TakesOne read Q where
  not_ends hq := h.not_ends ((hi _ _).2 hq)
  eq_ok_iff hs := (h.eq_ok_iff hs).trans (and_congr_left' (hi _ _))

theorem eq_ok_iff_of_eq (h : TakesOne read P) {s s' : Stream} {a : α}
    {x : Except ParseError (α × Stream)} (hs : Signless s.peek) (hx : x = read s) :
    x = .ok (a, s') ↔ P s.peek a ∧ s.advance.2 = s' := by
  rw [hx]
  exact h.eq_ok_iff hs

theorem map (h : TakesOne read P) (f : α → β) :
    TakesOne (fun s => read s >>= fun (a, s) => return (f a, s))
      fun t b => ∃ a, P t a ∧ b = f a where
  not_ends := by
    rintro t b ⟨a, hp, -⟩
    exact h.not_ends hp
  eq_ok_iff := by
    intro s b s' hs
    constructor
    · intro hb
      obtain ⟨⟨a, u⟩, hr, hn⟩ := bind_eq_ok.1 hb
      cases hn
      obtain ⟨hp, ha⟩ := (h.eq_ok_iff hs).1 hr
      exact ⟨⟨a, hp, rfl⟩, ha⟩
    · rintro ⟨⟨a, hp, rfl⟩, ha⟩
      exact bind_eq_ok.2 ⟨(a, s'), (h.eq_ok_iff hs).2 ⟨hp, ha⟩, rfl⟩

theorem expect (kind : Token.Kind) (hk : kind.endsLine = false) :
    TakesOne (fun s => s.expect kind) fun t a => t.kind = kind ∧ a = t where
  not_ends ht := ht.1 ▸ hk
  eq_ok_iff := by
    intro s a s' _
    rw [Stream.expect_eq_ok_iff]
    constructor
    · rintro ⟨rfl, ha, hkind⟩
      exact ⟨⟨hkind, rfl⟩, ha⟩
    · rintro ⟨⟨hkind, rfl⟩, ha⟩
      exact ⟨rfl, ha, hkind⟩

/-- One token, and then what is read behind it. -/
theorem bind {next : α → Stream → Except ParseError (β × Stream)}
    {H : α → List Token → β → Prop} (h : TakesOne read P) (h' : ∀ a, Parses (next a) (H a)) :
    Parses (fun s => read s >>= fun (a, s) => next a s)
      fun ts b => ∃ t us a, ts = t :: us ∧ P t a ∧ H a us b := by
  intro s b hs
  have hpeek := signless_peek hs
  constructor
  · rintro ⟨s', hb, hl⟩
    obtain ⟨⟨a, u⟩, hr, hn⟩ := bind_eq_ok.1 hb
    obtain ⟨hp, rfl⟩ := (h.eq_ok_iff hpeek).1 hr
    have hline := (Stream.next?_of_not_ends (h.not_ends hp)).2
    rw [hline] at hs ⊢
    exact ⟨_, _, a, rfl, hp,
      (h' a _ b fun t ht => hs t (List.mem_cons_of_mem _ ht)).1 ⟨s', hn, hl⟩⟩
  · rintro ⟨t, us, a, hts, hp, hrest⟩
    obtain ⟨rfl, rfl⟩ := Stream.of_line_cons hts
    rw [hts] at hs
    obtain ⟨s', hn, hl⟩ := (h' a _ b fun t ht => hs t (List.mem_cons_of_mem _ ht)).2 hrest
    exact ⟨s', bind_eq_ok.2 ⟨(a, _), (h.eq_ok_iff hpeek).2 ⟨hp, rfl⟩, hn⟩, hl⟩

end TakesOne

namespace Parses

theorem of_iff {H : List Token → α → Prop} (h : Parses read G) (hi : ∀ ts a, G ts a ↔ H ts a) :
    Parses read H :=
  fun s a hs => (h s a hs).trans (hi s.line a)

theorem pure (a : α) : Parses (fun s => (return (a, s) : Except ParseError (α × Stream)))
    fun ts b => ts = [] ∧ b = a := by
  intro s b hs
  constructor
  · rintro ⟨s', h, hl⟩
    cases h
    exact ⟨hl, rfl⟩
  · rintro ⟨hl, rfl⟩
    exact ⟨s, rfl, hl⟩

theorem map (h : Parses read G) (f : α → β) :
    Parses (fun s => read s >>= fun (a, s) => return (f a, s))
      fun ts b => ∃ a, G ts a ∧ b = f a := by
  intro s b hs
  constructor
  · rintro ⟨s', hb, hl⟩
    obtain ⟨⟨a, u⟩, hr, hn⟩ := bind_eq_ok.1 hb
    cases hn
    exact ⟨a, (h s a hs).1 ⟨s', hr, hl⟩, rfl⟩
  · rintro ⟨a, ha, rfl⟩
    obtain ⟨s', hr, hl⟩ := (h s a hs).2 ha
    exact ⟨s', bind_eq_ok.2 ⟨(a, s'), hr, rfl⟩, hl⟩

/-- A reader that goes on only where the next token is of a kind, which every
line it reads starts with. -/
theorem optional (kind : Token.Kind) (hk : kind.endsLine = false) (h : Parses read G)
    (hG : ∀ {ts a}, G ts a → ts.head?.any (·.kind == kind) = true) (b : α) :
    Parses (fun s => if s.check kind then read s else return (b, s))
      fun ts a => G ts a ∨ ts = [] ∧ a = b := by
  intro s a hs
  dsimp only
  cases hc : s.check kind with
  | true =>
    rw [Stream.check_eq_any hk] at hc
    have hne : s.line ≠ [] := by
      intro hnil
      rw [hnil] at hc
      cases hc
    simpa [hne] using h s a hs
  | false =>
    rw [Stream.check_eq_any hk] at hc
    have hG' : ¬ G s.line a := by
      intro hg
      rw [hG hg] at hc
      cases hc
    simpa [hG'] using Parses.pure b s a hs

end Parses

/-- A reader of one token takes the rest of a line that has no other. -/
theorem TakesOne.parses (h : TakesOne read P) : Parses read (Single P) := by
  intro s a hs
  have hpeek := signless_peek hs
  constructor
  · rintro ⟨s', hr, hl⟩
    obtain ⟨hp, rfl⟩ := (h.eq_ok_iff hpeek).1 hr
    exact ⟨s.peek, by rw [(Stream.next?_of_not_ends (h.not_ends hp)).2, hl], hp⟩
  · rintro ⟨t, ht, hp⟩
    obtain ⟨rfl, hl⟩ := Stream.of_line_cons ht
    exact ⟨_, (h.eq_ok_iff hpeek).2 ⟨hp, rfl⟩, hl⟩

/-! ## The readers of one token -/

theorem takesOne_number (width : Width) : TakesOne (number width) (NumberOperand width) where
  not_ends h := by rw [h.kind]; rfl
  eq_ok_iff := by
    intro s n s' hs
    constructor
    · intro h
      obtain ⟨⟨t, u⟩, he, h⟩ := bind_eq_ok.1 h
      obtain ⟨m, hm, h⟩ := bind_eq_ok.1 h
      cases h
      obtain ⟨rfl, ha, hk⟩ := Stream.expect_eq_ok_iff.1 he
      obtain ⟨hd, hf⟩ := (numberOf_eq_ok_iff_denotes (hs hk)).1 hm
      exact ⟨⟨hk, hd, hf⟩, ha⟩
    · rintro ⟨⟨hk, hd, hf⟩, ha⟩
      have hm := (numberOf_eq_ok_iff_denotes (hs hk)).2 ⟨hd, hf⟩
      exact bind_eq_ok.2 ⟨(s.peek, s'), Stream.expect_eq_ok_iff.2 ⟨rfl, ha, hk⟩,
        bind_eq_ok.2 ⟨n, hm, rfl⟩⟩

theorem takesOne_register : TakesOne register RegisterOperand where
  not_ends h := by rw [h]; rfl
  eq_ok_iff := by
    intro s r s' _
    unfold register RegisterOperand
    split
    · rename_i r' hk
      simp [hk]
    · rename_i hk
      simp only [reduceCtorEq, false_iff, not_and]
      exact fun h => absurd h (hk r)

theorem takesOne_label : TakesOne label LabelOperand := by
  refine ((TakesOne.expect .identifier rfl).map
    fun t => Label.mk t.lexeme t.line).of_iff fun t l => ?_
  constructor
  · rintro ⟨_, ⟨hk, rfl⟩, hl⟩
    exact ⟨hk, hl⟩
  · rintro ⟨hk, hl⟩
    exact ⟨t, ⟨hk, rfl⟩, hl⟩

theorem takesOne_source : TakesOne source SourceOperand where
  not_ends h := by
    cases h with
    | register operand => exact takesOne_register.not_ends operand
    | immediate operand => exact (takesOne_number .byte).not_ends operand
  eq_ok_iff := by
    intro s src s' hs
    cases hk : s.peek.kind with
    | register r =>
      rw [(takesOne_register.map Source.register).eq_ok_iff_of_eq hs
        (by simp only [source, register, hk]; rfl)]
      refine and_congr_left' ⟨?_, ?_⟩
      · rintro ⟨r, hr, rfl⟩
        exact .register hr
      · rintro (hr | hn)
        · exact ⟨_, hr, rfl⟩
        · cases hk.symm.trans hn.kind
    | number =>
      rw [((takesOne_number .byte).map Source.immediate).eq_ok_iff_of_eq hs
        (by simp only [source, hk])]
      refine and_congr_left' ⟨?_, ?_⟩
      · rintro ⟨n, hn, rfl⟩
        exact .immediate hn
      · rintro (hr | hn)
        · cases hk.symm.trans hr
        · exact ⟨_, hn, rfl⟩
    | _ =>
      simp only [source, hk, reduceCtorEq, false_iff, not_and]
      rintro (hr | hn)
      · cases hk.symm.trans hr
      · cases hk.symm.trans hn.kind

theorem takesOne_address : TakesOne address AddressOperand where
  not_ends h := by
    cases h with
    | next kind => rw [kind]; rfl
    | immediate operand => exact (takesOne_number .word).not_ends operand
    | label operand => exact takesOne_label.not_ends operand
  eq_ok_iff := by
    intro s a s' hs
    cases hk : s.peek.kind with
    | nextAddr =>
      have he : address s = .ok (.next, s.advance.2) := by simp only [address, hk]
      rw [he, Except.ok.injEq, Prod.mk.injEq]
      refine and_congr_left' ⟨?_, ?_⟩
      · rintro rfl
        exact .next hk
      · rintro (_ | hn | hl)
        · rfl
        · cases hk.symm.trans hn.kind
        · cases hk.symm.trans hl.1
    | number =>
      rw [((takesOne_number .word).map Address.immediate).eq_ok_iff_of_eq hs
        (by simp only [address, hk])]
      refine and_congr_left' ⟨?_, ?_⟩
      · rintro ⟨n, hn, rfl⟩
        exact .immediate hn
      · rintro (hx | hn | hl)
        · cases hk.symm.trans hx
        · exact ⟨_, hn, rfl⟩
        · cases hk.symm.trans hl.1
    | identifier =>
      rw [(takesOne_label.map Address.label).eq_ok_iff_of_eq hs (by simp only [address, hk])]
      refine and_congr_left' ⟨?_, ?_⟩
      · rintro ⟨l, hl, rfl⟩
        exact .label hl
      · rintro (hx | hn | hl)
        · cases hk.symm.trans hx
        · cases hk.symm.trans hn.kind
        · exact ⟨_, hl, rfl⟩
    | _ =>
      simp only [address, hk, reduceCtorEq, false_iff, not_and]
      rintro (hx | hn | hl)
      · cases hk.symm.trans hx
      · cases hk.symm.trans hn.kind
      · cases hk.symm.trans hl.1

/-! ## The forms -/

theorem parses_target : Parses target Target := by
  refine (Parses.optional .identifier rfl (takesOne_label.map some).parses ?_ none).of_iff
    fun ts l => ?_
  · rintro ts l ⟨t, rfl, l, ⟨hk, -⟩, -⟩
    simp [hk]
  · constructor
    · rintro (⟨t, rfl, l, hl, rfl⟩ | ⟨rfl, rfl⟩)
      · exact .present hl
      · exact .absent
    · rintro (_ | hl)
      · exact Or.inr ⟨rfl, rfl⟩
      · exact Or.inl ⟨_, rfl, _, hl, rfl⟩

theorem parses_transfer : Parses transfer Transfer := by
  refine (takesOne_register.bind fun r => (TakesOne.expect .comma rfl).bind fun _ =>
    (takesOne_source.map fun src => (r, src)).parses).of_iff fun ts p => ?_
  constructor
  · rintro ⟨t, _, r, rfl, hr, c, _, _, rfl, ⟨hc, -⟩, u, rfl, src, hs, rfl⟩
    exact .mk hr hc hs
  · rintro ⟨hr, hc, hs⟩
    exact ⟨_, _, _, rfl, hr, _, _, _, rfl, ⟨hc, rfl⟩, _, rfl, _, hs, rfl⟩

theorem parses_access : Parses access Access := by
  rw [access_eq]
  refine (takesOne_register.bind fun r => Parses.optional .comma rfl
    ((TakesOne.expect .comma rfl).bind fun _ =>
      ((takesOne_number .word).map fun n => (r, some n)).parses) ?_ (r, none)).of_iff fun ts p => ?_
  · rintro ts p ⟨c, us, _, rfl, ⟨hc, -⟩, -⟩
    simp [hc]
  · constructor
    · rintro ⟨t, _, r, rfl, hr, ⟨c, _, _, rfl, ⟨hc, -⟩, u, rfl, n, hn, rfl⟩ | ⟨rfl, rfl⟩⟩
      · exact .direct hr hc hn
      · exact .bare hr
    · rintro (hr | ⟨hr, hc, hn⟩)
      · exact ⟨_, _, _, rfl, hr, Or.inr ⟨rfl, rfl⟩⟩
      · exact ⟨_, _, _, rfl, hr, Or.inl ⟨_, _, _, rfl, ⟨hc, rfl⟩, _, rfl, _, hn, rfl⟩⟩

/-- The operands of an instruction are read from a line exactly if the grammar
gives them. -/
theorem parses_instruction (op : Mnemonic) : Parses (instruction op) (Operands op) := by
  have nothing : Parses (fun s => (return ((), s) : Except ParseError (Unit × Stream))) Nothing :=
    (Parses.pure ()).of_iff fun ts _ => and_iff_left rfl
  cases op with
  | nop => exact nothing.map fun _ => Instruction.nop
  | hlt => exact nothing.map fun _ => Instruction.hlt
  | lw => exact parses_access.map fun p => Instruction.lw p.1 p.2
  | sw => exact parses_access.map fun p => Instruction.sw p.1 p.2
  | mw => exact parses_transfer.map fun p => Instruction.mw p.1 p.2
  | add => exact parses_transfer.map fun p => Instruction.add p.1 p.2
  | sub => exact parses_transfer.map fun p => Instruction.sub p.1 p.2
  | push => exact takesOne_source.parses.map Instruction.push
  | tel => exact takesOne_source.parses.map Instruction.tel
  | out => exact takesOne_source.parses.map Instruction.out
  | pop => exact takesOne_register.parses.map Instruction.pop
  | lda => exact takesOne_address.parses.map Instruction.lda
  | jmp => exact parses_target.map Instruction.jmp
  | jo => exact parses_target.map Instruction.jo
  | jz =>
    refine (takesOne_register.bind fun r =>
      parses_target.map (Instruction.jz r)).of_iff fun ts i => ?_
    constructor
    · rintro ⟨t, us, r, rfl, hr, l, hl, rfl⟩
      exact ⟨(r, l), .mk hr hl, rfl⟩
    · rintro ⟨_, ⟨hr, hl⟩, rfl⟩
      exact ⟨_, _, _, rfl, hr, _, hl, rfl⟩

end Parse

end IndentAsm
