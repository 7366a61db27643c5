import IndentAsm.Proofs.Parse.Literal
import IndentAsm.Proofs.Token.Pieces

/-!
# Numbers with a value and without

A number that is scanned falls into one of three classes, told by its digits alone
(`numeral`): it has a value that its width holds, it is malformed, or it is too large. A
digit that the base does not have makes a number malformed only if it is met in time, which
is before the digits in front of it have outgrown 32 bits. So a number can be too large and
hold a wrong digit as well, and is then reported as too large.

**Results.**
* `splitBase_filter`, `denotes_iff`: the digits and the base are those of `numeral`.
* `readDigits_eq_malformed_iff`: which digit ends the reading as a wrong one.
* `value_eq_malformed_iff`: the malformed numbers.
* `readAs_of_scan`: what reading a scanned number gives, in all three classes.
-/
namespace IndentAsm

namespace Literal

def isBinaryMarked (text : List Char) : Bool :=
  ['0', 'b'].isPrefixOf text || ['0', 'B'].isPrefixOf text

/-- The base of a number and its digits: the text without underscores, and then without the
mark of its base. -/
def numeral (lexeme : String) : Nat × List Char :=
  let text := lexeme.toList.filter (· != '_')
  if Scanner.isHexMarked text then (16, text.drop 2)
  else if isBinaryMarked text then (2, text.drop 2)
  else (10, text)

/-- The digits have a value in positional notation. -/
def Amounts (base : Nat) (digits : List Char) (v : Nat) : Prop :=
  ∃ ds, List.Forall₂ (IsDigit base) digits ds ∧ v = Nat.ofDigits base ds.reverse

/-- The digits are some, and have a value up to `max`. -/
def HasValue (base : Nat) (digits : List Char) (max : Nat) : Prop :=
  digits ≠ [] ∧ ∃ v, Amounts base digits v ∧ v ≤ max

/-- There is no digit, or one that the base does not have, behind digits of the base with a
value of 32 bits. -/
def Malformed (base : Nat) (digits : List Char) : Prop :=
  digits = [] ∨ ∃ before c after v, digits = before ++ c :: after ∧ (∀ d, ¬ IsDigit base c d) ∧
    Amounts base before v ∧ v < 0x100000000

/-! ## The digits of a number -/

theorem isPrefixOf_mark_iff {x : Char} {text : List Char} :
    ['0', x].isPrefixOf text = true ↔ ∃ rest, text = '0' :: x :: rest := by
  rw [List.isPrefixOf_iff_prefix]
  constructor
  · rintro ⟨rest, rfl⟩
    exact ⟨rest, rfl⟩
  · rintro ⟨rest, rfl⟩
    exact ⟨rest, rfl⟩

theorem isHexMarked_iff {text : List Char} : Scanner.isHexMarked text = true ↔
    ∃ c rest, text = '0' :: c :: rest ∧ (c = 'x' ∨ c = 'X') := by
  simp only [Scanner.isHexMarked, Bool.or_eq_true, isPrefixOf_mark_iff]
  constructor
  · rintro (⟨rest, rfl⟩ | ⟨rest, rfl⟩)
    · exact ⟨'x', rest, rfl, Or.inl rfl⟩
    · exact ⟨'X', rest, rfl, Or.inr rfl⟩
  · rintro ⟨c, rest, rfl, rfl | rfl⟩
    · exact Or.inl ⟨rest, rfl⟩
    · exact Or.inr ⟨rest, rfl⟩

theorem isBinaryMarked_iff {text : List Char} : isBinaryMarked text = true ↔
    ∃ c rest, text = '0' :: c :: rest ∧ (c = 'b' ∨ c = 'B') := by
  simp only [isBinaryMarked, Bool.or_eq_true, isPrefixOf_mark_iff]
  constructor
  · rintro (⟨rest, rfl⟩ | ⟨rest, rfl⟩)
    · exact ⟨'b', rest, rfl, Or.inl rfl⟩
    · exact ⟨'B', rest, rfl, Or.inr rfl⟩
  · rintro ⟨c, rest, rfl, rfl | rfl⟩
    · exact Or.inl ⟨rest, rfl⟩
    · exact Or.inr ⟨rest, rfl⟩

theorem splitBase_filter (lexeme : String) :
    splitBase (lexeme.toList.filter (· != '_')) = numeral lexeme := by
  unfold numeral
  dsimp only
  generalize lexeme.toList.filter (· != '_') = text
  by_cases hhex : Scanner.isHexMarked text = true
  · rw [if_pos hhex]
    obtain ⟨c, rest, rfl, hc⟩ := isHexMarked_iff.1 hhex
    simp [splitBase, hc]
  · rw [if_neg hhex]
    have hx {c : Char} {rest : List Char} (heq : text = '0' :: c :: rest) : ¬(c = 'x' ∨ c = 'X') :=
      fun hc => hhex (isHexMarked_iff.2 ⟨c, rest, heq, hc⟩)
    by_cases hbin : isBinaryMarked text = true
    · rw [if_pos hbin]
      obtain ⟨c, rest, rfl, hc⟩ := isBinaryMarked_iff.1 hbin
      simp [splitBase, hx rfl, hc]
    · rw [if_neg hbin]
      have hb {c : Char} {rest : List Char} (heq : text = '0' :: c :: rest) :
          ¬(c = 'b' ∨ c = 'B') := fun hc => hbin (isBinaryMarked_iff.2 ⟨c, rest, heq, hc⟩)
      unfold splitBase
      split
      · rw [if_neg (hx rfl), if_neg (hb rfl)]
      · rfl

/-- A text denotes the value of its digits. -/
theorem denotes_iff {lexeme : String} {v : Nat} :
    Denotes lexeme v ↔ (numeral lexeme).2 ≠ [] ∧ Amounts (numeral lexeme).1 (numeral lexeme).2 v := by
  constructor
  · rintro ⟨mark, base, cs, ds, hm, hcs, hne, hds, hv⟩
    have hnum := splitBase_of_mark hm hds
    rw [← hcs, splitBase_filter] at hnum
    rw [hnum]
    exact ⟨hne, ds, hds, hv⟩
  · rintro ⟨hne, ds, hds, hv⟩
    obtain ⟨mark, hm, hcs⟩ := mark_splitBase (lexeme.toList.filter (· != '_'))
    rw [splitBase_filter] at hm hcs
    exact ⟨mark, _, _, ds, hm, hcs, hne, hds, hv⟩

/-! ## The digit at fault -/

/-- Reading ends at a wrong digit exactly if the digits in front of it are read. -/
theorem readDigits_eq_malformed_iff {base : Nat} (hb : 0 < base) (hb' : base ≤ 16) {acc : Nat}
    {cs : List Char} (ha : acc < bound) : readDigits base acc cs = .error .malformed ↔
      ∃ before c after ds, cs = before ++ c :: after ∧ (∀ d, ¬ IsDigit base c d) ∧
        List.Forall₂ (IsDigit base) before ds ∧ valueFrom base acc ds < bound := by
  induction cs generalizing acc with
  | nil =>
    constructor
    · rintro ⟨⟩
    · rintro ⟨before, c, after, ds, hcs, -⟩
      simp at hcs
  | cons c cs ih =>
    rw [readDigits]
    cases hd : digit? base c with
    | none =>
      have hc : ∀ d, ¬ IsDigit base c d := by
        intro d hdigit
        rw [(digit?_eq_some_iff hb').2 hdigit] at hd
        cases hd
      exact ⟨fun _ => ⟨[], c, cs, [], rfl, hc, .nil, ha⟩, fun _ => rfl⟩
    | some d =>
      have hdigit := (digit?_eq_some_iff hb').1 hd
      dsimp only
      constructor
      · intro h
        split at h
        · rename_i hlt
          obtain ⟨before, x, after, ds, rfl, hx, hds, hv⟩ := (ih hlt).1 h
          exact ⟨c :: before, x, after, d :: ds, rfl, hx, .cons hdigit hds, hv⟩
        · cases h
      · rintro ⟨before, x, after, ds, hcs, hx, hds, hv⟩
        cases hds with
        | nil =>
          -- the first digit is a right one
          cases hcs
          exact absurd hdigit (hx d)
        | @cons c' d' before ds hc' hds =>
          cases hcs
          have hdd : d' = d := by
            have hsome := (digit?_eq_some_iff hb').2 hc'
            rw [hd] at hsome
            exact (Option.some.inj hsome).symm
          subst hdd
          have hlt : acc * base + d' < bound := by
            refine Nat.lt_of_le_of_lt ?_ hv
            exact le_valueFrom hb (acc * base + d') ds
          rw [if_pos hlt]
          exact (ih hlt).2 ⟨before, x, after, ds, rfl, hx, hds, hv⟩

/-- The value of a text without a sign is that of its digits. -/
theorem value_eq {lexeme : String} (hp : '+' ∉ lexeme.toList) :
    value lexeme = if (numeral lexeme).2 = [] then .error .malformed
      else readDigits (numeral lexeme).1 0 (numeral lexeme).2 := by
  obtain ⟨mark, -, hcs⟩ := mark_splitBase (lexeme.toList.filter (· != '_'))
  rw [splitBase_filter] at hcs
  have hplus : '+' ∉ (numeral lexeme).2 := by
    intro hmem
    have hall : '+' ∈ lexeme.toList.filter (· != '_') := hcs ▸ List.mem_append_right mark hmem
    exact hp (List.mem_of_mem_filter hall)
  unfold value
  dsimp only
  rw [splitBase_filter, dropPlus_of_not_mem hplus]
  split
  · rename_i hnil
    rw [if_pos hnil]
  · rename_i hne
    rw [if_neg hne]

theorem base_numeral (lexeme : String) :
    0 < (numeral lexeme).1 ∧ (numeral lexeme).1 ≤ 16 := by
  obtain ⟨mark, hm, -⟩ := mark_splitBase (lexeme.toList.filter (· != '_'))
  rw [splitBase_filter] at hm
  exact ⟨hm.base_pos, hm.base_le⟩

theorem value_eq_malformed_iff {lexeme : String} (hp : '+' ∉ lexeme.toList) :
    value lexeme = .error .malformed ↔ Malformed (numeral lexeme).1 (numeral lexeme).2 := by
  obtain ⟨hb, hb'⟩ := base_numeral lexeme
  rw [value_eq hp, Malformed]
  split
  · rename_i hnil
    simp [hnil]
  · rename_i hne
    rw [readDigits_eq_malformed_iff hb hb' (by decide)]
    constructor
    · rintro ⟨before, c, after, ds, hcs, hc, hds, hv⟩
      exact Or.inr ⟨before, c, after, _, hcs, hc, ⟨ds, hds, rfl⟩, (valueFrom_zero _ ds) ▸ hv⟩
    · rintro (hnil | ⟨before, c, after, v, hcs, hc, ⟨ds, hds, rfl⟩, hv⟩)
      · exact absurd hnil hne
      · exact ⟨before, c, after, ds, hcs, hc, hds, (valueFrom_zero _ ds).symm ▸ hv⟩

end Literal

namespace Parse

open IndentAsm.Literal (numeral Amounts HasValue Malformed)

theorem numberOf_eq_invalid_iff (width : Width) {t : Token} (hp : '+' ∉ t.lexeme.toList) :
    numberOf width t = .error (.invalidNumber t) ↔
      Malformed (numeral t.lexeme).1 (numeral t.lexeme).2 := by
  rw [← Literal.value_eq_malformed_iff hp]
  unfold numberOf
  split
  · rename_i hv
    simp [hv]
  · rename_i hv
    simp [hv]
  · rename_i v hv
    split <;> simp [hv]

/-- A number is read exactly if its digits have a value that the width holds. -/
theorem exists_numberOf_iff {width : Width} {t : Token} (hp : '+' ∉ t.lexeme.toList) :
    (∃ n, numberOf width t = .ok n) ↔
      HasValue (numeral t.lexeme).1 (numeral t.lexeme).2 width.max := by
  constructor
  · rintro ⟨n, hn⟩
    obtain ⟨hd, -, hle⟩ := (numberOf_eq_ok_iff_denotes hp).1 hn
    obtain ⟨hne, hv⟩ := Literal.denotes_iff.1 hd
    exact ⟨hne, _, hv, hle⟩
  · rintro ⟨hne, v, hv, hle⟩
    have hval : v.toUInt16.toNat = v :=
      UInt16.toNat_ofNat_of_lt' (Nat.lt_of_le_of_lt (hle.trans width.max_le) (by decide))
    refine ⟨⟨v.toUInt16, width⟩, (numberOf_eq_ok_iff_denotes hp).2 ⟨?_, rfl, hval.symm ▸ hle⟩⟩
    exact Literal.denotes_iff.2 ⟨hne, hval.symm ▸ hv⟩

/-- A number that is neither read nor malformed is too large. -/
theorem numberOf_eq_tooLarge_iff {width : Width} {t : Token} :
    numberOf width t = .error (.numberTooLarge width t) ↔
      ¬ (∃ n, numberOf width t = .ok n) ∧ ¬ numberOf width t = .error (.invalidNumber t) := by
  cases hn : numberOf width t with
  | ok n => simp
  | error e => rcases numberOf_eq_error hn with rfl | rfl <;> simp

/-- What is read where the token `t` with some digits is next. -/
structure ReadAs (width : Width) (s : Stream) (t : Token) (base : Nat) (digits : List Char) :
    Prop where
  /-- A number is read exactly if the digits have a value that the width holds. -/
  accepted : (∃ n s', number width s = .ok (n, s')) ↔ HasValue base digits width.max
  /-- The number has this value, and is one token. -/
  value : ∀ n s', number width s = .ok (n, s') →
    Amounts base digits n.value.toNat ∧ n.width = width ∧ s' = s.advance.2
  malformed : number width s = .error (.invalidNumber t) ↔ Malformed base digits
  /-- All other numbers are too large. -/
  tooLarge : number width s = .error (.numberTooLarge width t) ↔
    ¬ HasValue base digits width.max ∧ ¬ Malformed base digits

theorem number_of_peek {s : Stream} (hk : s.peek.kind = .number) (width : Width) :
    number width s = (numberOf width s.peek).map fun n => (n, s.advance.2) := by
  have hexpect : s.expect .number = .ok (s.peek, s.advance.2) := by
    rw [Stream.expect, Stream.check, hk, ← Stream.fst_advance]
    rfl
  rw [number, hexpect]
  cases hn : numberOf width s.peek with
  | error e => simp [bind, Except.bind, hn, Except.map]
  | ok n => simp [bind, Except.bind, hn, Except.map, pure, Except.pure]

/-- Wherever a number of a text is read, its digits decide what it is. -/
theorem readAs_of_scan {text : String} {tokens : List Token} (h : scan text = .ok tokens)
    {t : Token} (ht : t ∈ tokens) (hk : t.kind = .number) (width : Width) {s : Stream}
    (hs : s.peek = t) : ReadAs width s t (numeral t.lexeme).1 (numeral t.lexeme).2 := by
  subst hs
  have hp := not_plus_of_scan h _ ht hk
  have hread := number_of_peek hk width
  have herror (e : ParseError) :
      number width s = .error e ↔ numberOf width s.peek = .error e := by
    rw [hread]
    cases numberOf width s.peek <;> simp [Except.map]
  have hok (n : Number) (s' : Stream) : number width s = .ok (n, s') ↔
      numberOf width s.peek = .ok n ∧ s' = s.advance.2 := by
    rw [hread]
    cases numberOf width s.peek <;> simp [Except.map, eq_comm]
  refine ⟨?_, fun n s' hn => ?_, ?_, ?_⟩
  · rw [← exists_numberOf_iff hp]
    simp only [hok, exists_and_left, exists_eq, and_true]
  · obtain ⟨hnum, hs'⟩ := (hok n s').1 hn
    obtain ⟨hd, hw, -⟩ := (numberOf_eq_ok_iff_denotes hp).1 hnum
    exact ⟨(Literal.denotes_iff.1 hd).2, hw, hs'⟩
  · rw [herror]
    exact numberOf_eq_invalid_iff width hp
  · rw [herror, ← exists_numberOf_iff hp, ← numberOf_eq_invalid_iff width hp]
    exact numberOf_eq_tooLarge_iff

/-- The greatest byte, in a spelling with a mark, underscores and both cases. -/
def greatestByte : Token := ⟨.number, "0X_00_fF", 1⟩

/-- A binary number with a digit 2, behind digits that have outgrown 32 bits. -/
def lateFault : Token := ⟨.number, "0b1_00000000_00000000_00000000_00000000_2", 1⟩

/-- The first has a value, and the second is too large and not malformed. -/
theorem readAs_greatestByte_lateFault :
    scan "0X_00_fF,0b1_00000000_00000000_00000000_00000000_2" =
      .ok [greatestByte, ⟨.comma, ",", 1⟩, lateFault, ⟨.eof, "", 1⟩] ∧
    (∃ s, number .byte (.ofTokens [greatestByte]) = .ok (⟨255, .byte⟩, s)) ∧
    Amounts 16 ['0', '0', 'f', 'F'] 255 ∧
    number .word (.ofTokens [lateFault]) = .error (.numberTooLarge .word lateFault) ∧
    ¬ Malformed 2 (numeral lateFault.lexeme).2 := by
  have hscan : scan "0X_00_fF,0b1_00000000_00000000_00000000_00000000_2" =
      .ok [greatestByte, ⟨.comma, ",", 1⟩, lateFault, ⟨.eof, "", 1⟩] := by decide +kernel
  have hbyte : number .byte (.ofTokens [greatestByte]) =
      .ok (⟨255, .byte⟩, (Stream.ofTokens [greatestByte]).advance.2) := by decide
  have hlate : number .word (.ofTokens [lateFault]) =
      .error (.numberTooLarge .word lateFault) := by decide
  have hread := readAs_of_scan hscan (t := greatestByte) (by simp) rfl .byte
    (s := .ofTokens [greatestByte]) rfl
  have hfault := readAs_of_scan hscan (t := lateFault) (by simp) rfl .word
    (s := .ofTokens [lateFault]) rfl
  exact ⟨hscan, ⟨_, hbyte⟩, (hread.value _ _ hbyte).1, hlate, (hfault.tooLarge.1 hlate).2⟩

end Parse

end IndentAsm
