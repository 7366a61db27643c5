import IndentAsm.Proofs.Image.Placement

/-!
# How linking ends

Linking fails for two reasons. The first pass refuses code that outgrows the
addresses, and does so before any label is looked at. The second pass refuses a label
that names no subroutine, and comes to the labels in the order of the image, which is
not that of the source where `main` is declared late. Nothing else goes wrong.

Neither pass looks at the values of numbers, so all that is asked of a program here is
that each number has the width of its place. Names may be given to several
subroutines.

**Results.**
* `placeFrom_cases`: the first pass ends at the first subroutine whose end is no
  address, or gives the end of the last.
* `emit_cases`: the second pass ends at the first label without an address, or writes
  as many bytes as the sizes say.
* `link_outcome`: which of the three ends linking comes to, and where.
-/
namespace IndentAsm

/-! ## Numbers of the right width -/

/-- The number in a source operand has the width of a byte. -/
def Source.HasWidth : Source → Prop
  | register _ => True
  | immediate n => n.width = .byte

instance (src : Source) : Decidable src.HasWidth :=
  match src with
  | .register _ => inferInstanceAs (Decidable True)
  | .immediate n => inferInstanceAs (Decidable (n.width = .byte))

/-- Every number in an instruction has the width of its place, whatever its value. -/
def Instruction.HasWidths : Instruction → Prop
  | lw _ (some n) | sw _ (some n) | lda (.immediate n) => n.width = .word
  | mw _ src | add _ src | sub _ src | push src | tel src | out src => src.HasWidth
  | _ => True

instance : (i : Instruction) → Decidable i.HasWidths
  | .lw _ (some n) | .sw _ (some n) | .lda (.immediate n) =>
    inferInstanceAs (Decidable (n.width = .word))
  | .mw _ src | .add _ src | .sub _ src | .push src | .tel src | .out src =>
    inferInstanceAs (Decidable src.HasWidth)
  | .lw _ none | .sw _ none | .lda .next | .lda (.label _) | .nop | .hlt | .pop _ | .jmp _
  | .jo _ | .jz .. => inferInstanceAs (Decidable True)

namespace Program

def HasWidths (p : Program) : Prop :=
  ∀ s ∈ p.subroutines, ∀ i ∈ s.instructions, i.HasWidths

instance (p : Program) : Decidable p.HasWidths :=
  inferInstanceAs (Decidable (∀ s ∈ p.subroutines, ∀ i ∈ s.instructions, i.HasWidths))

/-! ## Where linking fails -/

/-- A subroutine with which the code outgrows the addresses: those before it end at
an address, and it does not. -/
def OverflowsAt (p : Program) (s : Subroutine) : Prop :=
  ∃ before after, p.layout = before ++ s :: after ∧ totalSize before ≤ lastAddress ∧
    lastAddress < totalSize before + s.size

def Defines (p : Program) (name : String) : Prop :=
  ∃ s ∈ p.subroutines, s.name = name

end Program

/-- The labels of code, in order. -/
def labelsOf (code : List Instruction) : List Label := code.filterMap Instruction.label?

/-- The first label of code that is not as `Known` says of its name. -/
def FirstUnknown (Known : String → Prop) (code : List Instruction) (l : Label) : Prop :=
  ∃ before after, labelsOf code = before ++ l :: after ∧ (∀ l' ∈ before, Known l'.name) ∧
    ¬ Known l.name

theorem FirstUnknown.mem {Known : String → Prop} {code : List Instruction} {l : Label}
    (h : FirstUnknown Known code l) : l ∈ labelsOf code ∧ ¬ Known l.name := by
  obtain ⟨before, after, hc, -, hl⟩ := h
  exact ⟨by simp [hc], hl⟩

theorem FirstUnknown.congr {Known Known' : String → Prop} {code : List Instruction} {l : Label}
    (h : FirstUnknown Known code l) (hk : ∀ name, Known name ↔ Known' name) :
    FirstUnknown Known' code l := by
  obtain ⟨before, after, hc, hb, hl⟩ := h
  exact ⟨before, after, hc, fun l' hl' => (hk _).1 (hb l' hl'), mt (hk _).2 hl⟩

theorem labelsOf_cons (i : Instruction) (code : List Instruction) :
    labelsOf (i :: code) = i.label?.toList ++ labelsOf code := by
  rw [labelsOf, List.filterMap_cons]
  cases i.label? <;> rfl

/-! ## The first pass -/

theorem placeFrom_cases (table : SymbolTable) {offset : Nat} (ho : offset ≤ lastAddress)
    (subs : List Subroutine) :
    (∃ table', placeFrom offset table subs = (table', .ok (offset + totalSize subs)) ∧
      offset + totalSize subs ≤ lastAddress) ∨
    ∃ before s after, subs = before ++ s :: after ∧ offset + totalSize before ≤ lastAddress ∧
      lastAddress < offset + totalSize before + s.size ∧
      (placeFrom offset table subs).2 = .error (.addressOverflow s.line s.name) := by
  induction subs generalizing offset table with
  | nil => exact Or.inl ⟨table, rfl, ho⟩
  | cons s rest ih =>
    rw [placeFrom, if_neg (Nat.not_lt.2 ho)]
    dsimp only
    by_cases hs : lastAddress < offset + s.size
    · rw [if_pos hs]
      exact Or.inr ⟨[], s, rest, rfl, ho, hs, rfl⟩
    · rw [if_neg hs]
      rcases ih (table.insert s.name offset.toUInt16) (Nat.not_lt.1 hs) with
        ⟨table', hp, hle⟩ | ⟨before, t, after, rfl, hb, ht, hp⟩
      · rw [Nat.add_assoc] at hp hle
        exact Or.inl ⟨table', hp, hle⟩
      · refine Or.inr ⟨s :: before, t, after, rfl, ?_, ?_, hp⟩
        · rw [totalSize_cons]
          omega
        · rw [totalSize_cons]
          omega

/-! ## The second pass -/

theorem Number.length_bytes (n : Number) : n.bytes.length = n.size := by
  unfold Number.bytes Number.size
  cases n.width <;> rfl

theorem Label.exists_encode {table : SymbolTable} {l : Label} (h : (table.get? l.name).isSome) :
    ∃ bytes, l.encode table = .ok bytes ∧ bytes.length = 2 := by
  obtain ⟨address, ha⟩ := Option.isSome_iff_exists.1 h
  exact ⟨bigEndian address, by rw [Label.encode, SymbolTable.bytes?, ha]; rfl, rfl⟩

theorem Instruction.length_encodeSource (op : Mnemonic) (src : Source) :
    (encodeSource op src).length = 1 + src.size := by
  cases src with
  | register reg => rfl
  | immediate n =>
    simp only [encodeSource, List.length_cons, Number.length_bytes, Source.size]
    omega

theorem Instruction.length_encodeTransfer (op : Mnemonic) (dst : Register) {src : Source} (h : src.HasWidth) :
    (encodeTransfer op dst src).length = 2 := by
  cases src with
  | register reg => rfl
  | immediate n =>
    have hn : n.width = .byte := h
    simp only [encodeTransfer, List.length_cons, Number.length_bytes, Number.size, hn]
    rfl

theorem Instruction.length_encodeAccess (op : Mnemonic) (reg : Register) (address : Option Number) :
    (encodeAccess op reg address).length = 1 + (address.map Number.size).getD 0 := by
  cases address with
  | none => rfl
  | some n =>
    simp only [encodeAccess, List.length_cons, Number.length_bytes, Option.map_some,
      Option.getD_some]
    omega

theorem Instruction.exists_encodeJump {table : SymbolTable} (op : Mnemonic) (reg : Option Register)
    {target : Option Label} (h : ∀ l, target = some l → (table.get? l.name).isSome) :
    ∃ bytes, encodeJump table op reg target = .ok bytes ∧ bytes.length = jumpSize target := by
  cases target with
  | none => exact ⟨_, rfl, rfl⟩
  | some l =>
    obtain ⟨bytes, hb, hl⟩ := Label.exists_encode (h l rfl)
    refine ⟨firstByte op true reg :: bytes, by rw [encodeJump, hb]; rfl, ?_⟩
    rw [List.length_cons, hl]
    rfl

/-- An instruction whose label has an address is encoded, in as many bytes as its size
says. -/
theorem Instruction.exists_encode {table : SymbolTable} (here : Nat) {i : Instruction}
    (hw : i.HasWidths) (hd : ∀ l, i.label? = some l → (table.get? l.name).isSome) :
    ∃ bytes, i.encode table here = .ok bytes ∧ bytes.length = i.size := by
  cases i with
  | nop | hlt | pop _ => exact ⟨_, rfl, rfl⟩
  | push src | tel src | out src => exact ⟨_, rfl, length_encodeSource _ src⟩
  | mw dst src | add dst src | sub dst src => exact ⟨_, rfl, length_encodeTransfer _ dst hw⟩
  | lw reg address | sw reg address => exact ⟨_, rfl, length_encodeAccess _ reg address⟩
  | lda address =>
    cases address with
    | next => exact ⟨_, rfl, rfl⟩
    | immediate n =>
      have hn : n.width = .word := hw
      refine ⟨_, rfl, ?_⟩
      rw [List.length_cons, n.length_bytes, Number.size, hn]
      rfl
    | label l =>
      obtain ⟨bytes, hb, hl⟩ := Label.exists_encode (hd l rfl)
      refine ⟨firstByte .lda true none :: bytes, ?_, ?_⟩
      · simp only [encode, Address.encode, hb]
        rfl
      · rw [List.length_cons, hl]
        rfl
  | jmp target | jo target => exact exists_encodeJump _ none hd
  | jz reg target => exact exists_encodeJump _ (some reg) hd

theorem emit_cases (table : SymbolTable) {code : List Instruction}
    (hw : ∀ i ∈ code, i.HasWidths) (sink : Array UInt8) :
    (∃ image, emit table code sink = .ok image ∧ image.size = sink.size + codeSize code ∧
      ∀ l ∈ labelsOf code, (table.get? l.name).isSome) ∨
    ∃ l, FirstUnknown (fun name => (table.get? name).isSome) code l ∧
      emit table code sink = .error (.undefinedLabel l) := by
  induction code generalizing sink with
  | nil => exact Or.inl ⟨sink, rfl, rfl, by simp [labelsOf]⟩
  | cons i rest ih =>
    rw [List.forall_mem_cons] at hw
    rcases label_defined_or table i with hd | ⟨l, hl, hn⟩
    · obtain ⟨bytes, hb, hlen⟩ := i.exists_encode sink.size hw.1 hd
      have hknown : ∀ l ∈ i.label?.toList, (table.get? l.name).isSome :=
        fun l hl => hd l (Option.mem_toList.1 hl)
      simp only [emit, hb, labelsOf_cons]
      rcases ih hw.2 (sink ++ bytes) with ⟨image, hi, hs, hr⟩ | ⟨l, ⟨before, after, hc, hr, hl⟩, he⟩
      · refine Or.inl ⟨image, hi, ?_, fun l hl => ?_⟩
        · have hsize : (sink ++ bytes).size = sink.size + bytes.length := by
            rw [← Array.length_toList, Array.toList_appendList, List.length_append,
              Array.length_toList]
          rw [hs, hsize, hlen, codeSize_cons, Nat.add_assoc]
        · exact (List.mem_append.1 hl).elim (hknown l) (hr l)
      · refine Or.inr ⟨l, ⟨i.label?.toList ++ before, after, ?_, fun l' hl' => ?_, hl⟩, he⟩
        · rw [labelsOf_cons, hc, List.append_assoc]
        · exact (List.mem_append.1 hl').elim (hknown l') (hr l')
    · refine Or.inr ⟨l, ⟨[], labelsOf rest, ?_, by simp, by simp [hn]⟩, ?_⟩
      · rw [labelsOf_cons, hl]
        rfl
      · rw [emit, i.encode_of_undefined sink.size hl hn]

/-! ## Both passes -/

namespace Program

variable {p : Program}

theorem hasWidths_code (hw : p.HasWidths) : ∀ i ∈ p.code, i.HasWidths := by
  intro i hi
  obtain ⟨s, hs, hi⟩ := List.mem_flatMap.1 hi
  exact hw s (p.layout_perm.mem_iff.1 hs) i hi

theorem size_of_overflowsAt {s : Subroutine} (h : p.OverflowsAt s) : lastAddress < p.size := by
  obtain ⟨before, after, hl, -, hs⟩ := h
  rw [← p.totalSize_layout, hl, totalSize_append, totalSize_cons]
  omega

/-- The table of the first pass has the names of the subroutines. -/
theorem isSome_get?_iff {table : SymbolTable} {size : Nat}
    (h : assignAddresses .empty p.layout = (table, .ok size)) (name : String) :
    (table.get? name).isSome ↔ p.Defines name := by
  obtain ⟨-, -, ht⟩ := placeFrom_eq_ok (Nat.zero_le _) h
  rw [ht, NameMap.get?_empty, Option.or_none, Option.isSome_map, startIn_isSome_iff]
  exact exists_congr fun s => and_congr_left' p.layout_perm.mem_iff

/-- Linking comes to one of three ends. -/
theorem link_cases (hw : p.HasWidths) :
    (∃ s, p.OverflowsAt s ∧ p.link.result = .error (.addressOverflow s.line s.name)) ∨
    (p.size ≤ lastAddress ∧ ∃ l, FirstUnknown p.Defines p.code l ∧
      p.link.result = .error (.undefinedLabel l)) ∨
    p.size ≤ lastAddress ∧ (∀ l ∈ labelsOf p.code, p.Defines l.name) ∧
      ∃ image, p.link.result = .ok image ∧ image.length = p.size := by
  unfold Program.link
  rcases placeFrom_cases .empty (Nat.zero_le _) p.layout with
    ⟨table, ha, hle⟩ | ⟨before, s, after, hl, hb, hs, he⟩
  · rw [Nat.zero_add, p.totalSize_layout] at ha hle
    have hassign : assignAddresses .empty p.layout = (table, .ok p.size) := ha
    have hknown := isSome_get?_iff hassign
    rw [hassign]
    rcases emit_cases table (hasWidths_code hw) #[] with ⟨image, hi, hsize, hd⟩ | ⟨l, hl, he⟩
    · refine Or.inr (Or.inr ⟨hle, fun l hl => (hknown _).1 (hd l hl), image.toList, ?_, ?_⟩)
      · simp only [hi]
      · rw [Array.length_toList, hsize, code, codeSize_flatMap, p.totalSize_layout]
        exact Nat.zero_add _
    · refine Or.inr (Or.inl ⟨hle, l, hl.congr hknown, ?_⟩)
      simp only [he]
  · rw [Nat.zero_add] at hb hs
    refine Or.inl ⟨s, ⟨before, after, hl, hb, hs⟩, ?_⟩
    obtain ⟨table, ha⟩ : ∃ table, assignAddresses .empty p.layout =
        (table, .error (.addressOverflow s.line s.name)) := ⟨_, Prod.ext rfl he⟩
    rw [ha]

end Program

/-- Linking ends in exactly one of three ways: the code outgrows the addresses,
whatever its labels are; or it does not, and a label names no subroutine; or there is
an image of the size of the program. The errors name the first subroutine that has no
room, and the first label without a subroutine, in the order of the image. -/
theorem link_outcome {p : Program} (hw : p.HasWidths) :
    ((∃ line name, p.link.result = .error (.addressOverflow line name)) ↔ lastAddress < p.size) ∧
    (∀ line name, p.link.result = .error (.addressOverflow line name) →
      ∃ s, p.OverflowsAt s ∧ s.line = line ∧ s.name = name) ∧
    ((∃ l, p.link.result = .error (.undefinedLabel l)) ↔
      p.size ≤ lastAddress ∧ ∃ l ∈ labelsOf p.code, ¬ p.Defines l.name) ∧
    (∀ l, p.link.result = .error (.undefinedLabel l) → FirstUnknown p.Defines p.code l) ∧
    ((∃ image, p.link.result = .ok image) ↔
      p.size ≤ lastAddress ∧ ∀ l ∈ labelsOf p.code, p.Defines l.name) ∧
    ∀ image, p.link.result = .ok image → image.length = p.size := by
  rcases p.link_cases hw with ⟨s, hs, hr⟩ | ⟨hle, l, hl, hr⟩ | ⟨hle, hall, image, hr, hlen⟩
  · have hlt := Program.size_of_overflowsAt hs
    rw [hr]
    refine ⟨⟨fun _ => hlt, fun _ => ⟨_, _, rfl⟩⟩, ?_, ?_, ?_, ?_, ?_⟩
    · rintro line name ⟨⟩
      exact ⟨s, hs, rfl, rfl⟩
    · exact ⟨by rintro ⟨_, ⟨⟩⟩, fun ⟨h, _⟩ => by omega⟩
    · rintro l ⟨⟩
    · exact ⟨by rintro ⟨_, ⟨⟩⟩, fun ⟨h, _⟩ => by omega⟩
    · rintro image ⟨⟩
  · rw [hr]
    refine ⟨?_, ?_, ⟨fun _ => ⟨hle, l, hl.mem⟩, fun _ => ⟨_, rfl⟩⟩, ?_, ?_, ?_⟩
    · exact ⟨by rintro ⟨_, _, ⟨⟩⟩, fun h => by omega⟩
    · rintro line name ⟨⟩
    · rintro l ⟨⟩
      exact hl
    · exact ⟨by rintro ⟨_, ⟨⟩⟩, fun ⟨_, h⟩ => absurd (h l hl.mem.1) hl.mem.2⟩
    · rintro image ⟨⟩
  · rw [hr]
    refine ⟨?_, ?_, ?_, ?_, ⟨fun _ => ⟨hle, hall⟩, fun _ => ⟨_, rfl⟩⟩, ?_⟩
    · exact ⟨by rintro ⟨_, _, ⟨⟩⟩, fun h => by omega⟩
    · rintro line name ⟨⟩
    · exact ⟨by rintro ⟨_, ⟨⟩⟩, fun ⟨_, l, hl, hn⟩ => absurd (hall l hl) hn⟩
    · rintro l ⟨⟩
    · rintro image ⟨⟩
      exact hlen

/-- Two labels without a subroutine, of which the one declared later comes first in
the image. -/
def twoUndefined : Program :=
  ⟨[⟨"tail", 1, [.jmp (some ⟨"nowhere", 2⟩)]⟩,
    ⟨"main", 3, [.out (.immediate ⟨300, .byte⟩), .jz .a (some ⟨"tail", 5⟩),
      .lda (.label ⟨"missing", 6⟩)]⟩], .empty⟩

theorem link_twoUndefined :
    twoUndefined.link.result = .error (.undefinedLabel ⟨"missing", 6⟩) ∧
      FirstUnknown twoUndefined.Defines twoUndefined.code ⟨"missing", 6⟩ := by
  have hr : twoUndefined.link.result = .error (.undefinedLabel ⟨"missing", 6⟩) := by decide
  exact ⟨hr, (link_outcome (by decide)).2.2.2.1 _ hr⟩

end IndentAsm
