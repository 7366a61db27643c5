import Mathlib.Data.List.Forall2
import Mathlib.Data.Nat.Digits.Defs
import IndentAsm.Parse.Operand
import IndentAsm.Proofs.Image.Resolved

/-!
# What a number denotes

A number denotes a value by the rules of positional notation: leave out the
underscores, take off the mark of the base, and read what is left as digits of
that base, of which there is at least one. `Denotes` says so of the whole text;
reading goes from left to right and gives up at the first digit that makes the
value too large.

**Results.**
* `digit?_eq_some_iff`: a character is a digit of a base in either case.
* `readDigits_eq_ok_iff`: digits are read exactly if their value is below the
  bound.
* `numberOf_eq_ok_iff_denotes`: a token stands for a number exactly if it denotes
  its value and the width holds it.
-/
namespace IndentAsm

namespace Literal

inductive Mark : List Char → Nat → Prop where
  | decimal : Mark [] 10
  | hexadecimal {x : Char} (letter : x = 'x' ∨ x = 'X') : Mark ['0', x] 16
  | binary {b : Char} (letter : b = 'b' ∨ b = 'B') : Mark ['0', b] 2

/-- A character is the digit `d` of a base, as a small or a capital letter. -/
def IsDigit (base : Nat) (c : Char) (d : Nat) : Prop :=
  d < base ∧ (c = Nat.digitChar d ∨ c = (Nat.digitChar d).toUpper)

def Denotes (lexeme : String) (v : Nat) : Prop :=
  ∃ mark base cs ds, Mark mark base ∧ lexeme.toList.filter (· != '_') = mark ++ cs ∧ cs ≠ [] ∧
    List.Forall₂ (IsDigit base) cs ds ∧ v = Nat.ofDigits base ds.reverse

theorem Mark.base_pos {mark : List Char} {base : Nat} (h : Mark mark base) : 0 < base := by
  cases h <;> decide

theorem Mark.base_le {mark : List Char} {base : Nat} (h : Mark mark base) : base ≤ 16 := by
  cases h <;> decide

/-! ## Digits -/

theorem hexValue?_digitChar : ∀ d, d < 16 →
    hexValue? (Nat.digitChar d) = some d ∧ hexValue? (Nat.digitChar d).toUpper = some d := by
  decide

theorem toNat_lt_of_hexValue? {c : Char} {d : Nat} (h : hexValue? c = some d) : c.toNat < 128 := by
  have bound {z : Char} (hc : c ≤ z) (hz : z.toNat < 128) : c.toNat < 128 :=
    Nat.lt_of_le_of_lt (UInt32.le_iff_toNat_le.1 (Char.le_def.1 hc)) hz
  unfold hexValue? at h
  split at h
  · rename_i hd
    exact Nat.lt_of_le_of_lt (Char.isDigit_iff_toNat.1 hd).2 (by decide)
  · split at h
    · rename_i hc
      exact bound hc.2 (by decide)
    · split at h
      · rename_i hc
        exact bound hc.2 (by decide)
      · cases h

theorem digit_of_hexValue? {c : Char} {d : Nat} (h : hexValue? c = some d) :
    c = Nat.digitChar d ∨ c = (Nat.digitChar d).toUpper := by
  -- all digits are ASCII characters, and these are few
  have few : ∀ n, n < 128 → ∀ d ∈ hexValue? (Char.ofNat n),
      Char.ofNat n = Nat.digitChar d ∨ Char.ofNat n = (Nat.digitChar d).toUpper := by decide
  have hc := few c.toNat (toNat_lt_of_hexValue? h)
  rw [Char.ofNat_toNat] at hc
  exact hc d h

theorem digit?_eq_some_iff {base d : Nat} {c : Char} (hb : base ≤ 16) :
    digit? base c = some d ↔ IsDigit base c d := by
  simp only [digit?, Option.filter_eq_some_iff, decide_eq_true_eq]
  constructor
  · rintro ⟨hc, hd⟩
    exact ⟨hd, digit_of_hexValue? hc⟩
  · rintro ⟨hd, hc⟩
    obtain ⟨hl, hu⟩ := hexValue?_digitChar d (Nat.lt_of_lt_of_le hd hb)
    rcases hc with rfl | rfl
    · exact ⟨hl, hd⟩
    · exact ⟨hu, hd⟩

/-- The value of digits behind others of value `acc`. -/
def valueFrom (base acc : Nat) (ds : List Nat) : Nat :=
  ds.foldl (fun acc d => acc * base + d) acc

theorem valueFrom_zero (base : Nat) (ds : List Nat) :
    valueFrom base 0 ds = Nat.ofDigits base ds.reverse := by
  rw [Nat.ofDigits_eq_foldr, List.foldr_reverse, valueFrom]
  congr
  funext acc d
  rw [Nat.mul_comm, Nat.add_comm]
  rfl

theorem le_valueFrom {base : Nat} (hb : 0 < base) (acc : Nat) (ds : List Nat) :
    acc ≤ valueFrom base acc ds := by
  induction ds generalizing acc with
  | nil => exact Nat.le_refl acc
  | cons d ds ih =>
    calc acc ≤ acc * base := Nat.le_mul_of_pos_right acc hb
      _ ≤ acc * base + d := Nat.le_add_right _ d
      _ ≤ valueFrom base acc (d :: ds) := ih _

/-- Since more digits make no value smaller, it is enough that the last one is
below the bound. -/
theorem readDigits_eq_ok_iff {base : Nat} (hb : 0 < base) (hb' : base ≤ 16) {acc v : Nat}
    {cs : List Char} (ha : acc < bound) : readDigits base acc cs = .ok v ↔
      ∃ ds, List.Forall₂ (IsDigit base) cs ds ∧ v = valueFrom base acc ds ∧ v < bound := by
  induction cs generalizing acc with
  | nil =>
    constructor
    · intro h
      cases h
      exact ⟨[], .nil, rfl, ha⟩
    · rintro ⟨ds, hds, rfl, -⟩
      cases hds
      rfl
  | cons c cs ih =>
    rw [readDigits]
    constructor
    · intro h
      split at h
      · cases h
      · rename_i d hd
        split at h
        · rename_i hlt
          obtain ⟨ds, hds, hv, hvb⟩ := (ih hlt).1 h
          exact ⟨d :: ds, .cons ((digit?_eq_some_iff hb').1 hd) hds, hv, hvb⟩
        · cases h
    · rintro ⟨_, hall, hv, hvb⟩
      obtain ⟨d, ds, hd, hds, rfl⟩ := List.forall₂_cons_left_iff.1 hall
      have hlt : acc * base + d < bound := by
        refine Nat.lt_of_le_of_lt ?_ hvb
        rw [hv]
        exact le_valueFrom hb (acc * base + d) ds
      rw [(digit?_eq_some_iff hb').2 hd]
      simp only [hlt, if_true]
      exact (ih hlt).2 ⟨ds, hds, hv, hvb⟩

/-! ## Marks -/

theorem mark_splitBase (cs : List Char) :
    ∃ mark, Mark mark (splitBase cs).1 ∧ cs = mark ++ (splitBase cs).2 := by
  unfold splitBase
  split
  · split
    · rename_i h
      exact ⟨_, .hexadecimal h, rfl⟩
    · split
      · rename_i h
        exact ⟨_, .binary h, rfl⟩
      · exact ⟨[], .decimal, rfl⟩
  · exact ⟨[], .decimal, rfl⟩

/-- Decimal digits are not taken for a mark. -/
theorem splitBase_of_mark {mark cs : List Char} {base : Nat} {ds : List Nat} (h : Mark mark base)
    (hd : List.Forall₂ (IsDigit base) cs ds) : splitBase (mark ++ cs) = (base, cs) := by
  cases h with
  | hexadecimal hx => simp [splitBase, hx]
  | binary hb => rcases hb with rfl | rfl <;> simp [splitBase]
  | decimal =>
    rw [List.nil_append]
    unfold splitBase
    split
    · rename_i c rest
      obtain ⟨_, _, -, hrest, -⟩ := List.forall₂_cons_left_iff.1 hd
      obtain ⟨e, _, he, -, -⟩ := List.forall₂_cons_left_iff.1 hrest
      have hc := (digit?_eq_some_iff (by decide)).2 he
      have hx : ¬(c = 'x' ∨ c = 'X') := by rintro (rfl | rfl) <;> cases hc
      have hb : ¬(c = 'b' ∨ c = 'B') := by rintro (rfl | rfl) <;> cases hc
      rw [if_neg hx, if_neg hb]
    · rfl

/-! ## Numbers -/

theorem dropPlus_of_not_mem {cs : List Char} (h : '+' ∉ cs) : dropPlus cs = cs := by
  unfold dropPlus
  split
  · simp at h
  · rfl

/-- A text without a sign has a value exactly if it denotes one below the
bound. -/
theorem value_eq_ok_iff {lexeme : String} {v : Nat} (hp : '+' ∉ lexeme.toList) :
    value lexeme = .ok v ↔ Denotes lexeme v ∧ v < bound := by
  obtain ⟨mark, hm, hcs⟩ := mark_splitBase (lexeme.toList.filter (· != '_'))
  have hplus : '+' ∉ (splitBase (lexeme.toList.filter (· != '_'))).2 := by
    intro hmem
    have hall : '+' ∈ lexeme.toList.filter (· != '_') := hcs ▸ List.mem_append_right mark hmem
    exact hp (List.mem_of_mem_filter hall)
  unfold value
  dsimp only
  rw [dropPlus_of_not_mem hplus]
  constructor
  · intro h
    split at h
    · cases h
    · rename_i hne
      obtain ⟨ds, hds, hv, hvb⟩ :=
        (readDigits_eq_ok_iff hm.base_pos hm.base_le (by decide)).1 h
      exact ⟨⟨mark, _, _, ds, hm, hcs, hne, hds, hv.trans (valueFrom_zero _ ds)⟩, hvb⟩
  · rintro ⟨⟨mark', base, cs, ds, hm', hcs', hne, hds, hv⟩, hvb⟩
    rw [hcs', splitBase_of_mark hm' hds]
    split
    · rename_i hnil
      exact absurd hnil hne
    · exact (readDigits_eq_ok_iff hm'.base_pos hm'.base_le (by decide)).2
        ⟨ds, hds, hv.trans (valueFrom_zero _ ds).symm, hvb⟩

end Literal

namespace Parse

/-- A token stands for a number exactly if its text has the value of the number,
and the width holds it. -/
theorem numberOf_eq_ok_iff {width : Width} {t : Token} {n : Number} :
    numberOf width t = .ok n ↔ Literal.value t.lexeme = .ok n.value.toNat ∧ n.Fits width := by
  unfold numberOf
  constructor
  · intro h
    split at h
    · cases h
    · cases h
    · rename_i v hv
      split at h
      · rename_i hle
        cases h
        have hval : v.toUInt16.toNat = v :=
          UInt16.toNat_ofNat_of_lt' (Nat.lt_of_le_of_lt (hle.trans width.max_le) (by decide))
        exact ⟨hval.symm ▸ hv, rfl, hval.symm ▸ hle⟩
      · cases h
  · rintro ⟨hv, rfl, hle⟩
    rw [hv]
    simp only [hle, if_true]
    exact congrArg (fun value => Except.ok (Number.mk value n.width)) UInt16.ofNat_toNat

theorem numberOf_eq_error {width : Width} {t : Token} {e : ParseError}
    (h : numberOf width t = .error e) : e = .invalidNumber t ∨ e = .numberTooLarge width t := by
  unfold numberOf at h
  split at h
  · exact Or.inl (Except.error.inj h).symm
  · exact Or.inr (Except.error.inj h).symm
  · split at h
    · cases h
    · exact Or.inr (Except.error.inj h).symm

/-- The numbers that a token without a sign stands for, by what it denotes. -/
theorem numberOf_eq_ok_iff_denotes {width : Width} {t : Token} {n : Number}
    (hp : '+' ∉ t.lexeme.toList) :
    numberOf width t = .ok n ↔ Literal.Denotes t.lexeme n.value.toNat ∧ n.Fits width := by
  rw [numberOf_eq_ok_iff, Literal.value_eq_ok_iff hp]
  constructor
  · rintro ⟨⟨hd, -⟩, hf⟩
    exact ⟨hd, hf⟩
  · rintro ⟨hd, hf⟩
    have hlt : n.value.toNat < Literal.bound := Nat.lt_trans n.value.toNat_lt (by decide)
    exact ⟨⟨hd, hlt⟩, hf⟩

end Parse

end IndentAsm
