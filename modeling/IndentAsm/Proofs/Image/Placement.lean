import IndentAsm.Image.Link
import IndentAsm.Proofs.Image.Resolved
import Mathlib.Data.List.Nodup

/-!
# Where the code comes to stand

The first pass gives addresses by adding up sizes, the second writes bytes one
after another. That the two agree rests on one fact, that every instruction
has as many bytes as its size says; then the running offset of the first pass
is the length of what the second has written.

Where a name is given to several subroutines, the last one counts (`startIn`).

**Results.**
* `placeFrom_eq_ok`: the first pass binds every name to the total size of what
  comes before its last subroutine.
* `emit_eq_ok`: the second pass writes the bytes of the resolved code.
* `link_eq_ok`: both together, for a whole program.
* `linked_of_link`: in the image of a program with distinct names every
  subroutine stands where its name is bound, and every label and next address
  is where it says.
-/
namespace IndentAsm

/-! ## The first pass -/

/-- The offset at which the last subroutine of a name starts. -/
def startIn : List Subroutine → String → Option Nat
  | [], _ => none
  | s :: rest, name =>
    match startIn rest name with
    | some a => some (s.size + a)
    | none => if s.name = name then some 0 else none

def Program.start (p : Program) (name : String) : Nat :=
  (startIn p.layout name).getD 0

theorem totalSize_append (subs subs' : List Subroutine) :
    totalSize (subs ++ subs') = totalSize subs + totalSize subs' := by
  induction subs with
  | nil => simp
  | cons s rest ih => simp only [List.cons_append, totalSize_cons, ih]; omega

theorem startIn_eq_none_iff {subs : List Subroutine} {name : String} :
    startIn subs name = none ↔ ∀ s ∈ subs, s.name ≠ name := by
  induction subs with
  | nil => simp [startIn]
  | cons s rest ih =>
    simp only [startIn, List.forall_mem_cons]
    cases h : startIn rest name with
    | some a =>
      have hr : ¬ ∀ t ∈ rest, t.name ≠ name := fun hn => by rw [ih.2 hn] at h; cases h
      simp [hr]
    | none =>
      have hr := ih.1 h
      by_cases hs : s.name = name
      · simp [hs]
      · simpa [hs] using hr

theorem startIn_isSome_iff {subs : List Subroutine} {name : String} :
    (startIn subs name).isSome ↔ ∃ s ∈ subs, s.name = name := by
  rw [← Option.not_isNone, Bool.not_eq_true', Bool.eq_false_iff, ne_eq, Option.isNone_iff_eq_none,
    startIn_eq_none_iff]
  simp


/-- Where no later subroutine has its name, a subroutine starts behind those
before it. -/
theorem startIn_append {before after : List Subroutine} {s : Subroutine}
    (h : ∀ t ∈ after, t.name ≠ s.name) :
    startIn (before ++ s :: after) s.name = some (totalSize before) := by
  induction before with
  | nil => simp [startIn, startIn_eq_none_iff.2 h]
  | cons t before ih => simp [startIn, ih]

/-- A subroutine that is placed in front of others gives its name an address, unless one of
them has the name too. -/
theorem get?_insert_startIn (table : SymbolTable) (offset : Nat) (s : Subroutine)
    (rest : List Subroutine) (name : String) :
    ((startIn rest name).map fun a => (offset + s.size + a).toUInt16).or
        ((table.insert s.name offset.toUInt16).get? name) =
      ((startIn (s :: rest) name).map fun a => (offset + a).toUInt16).or (table.get? name) := by
  rw [NameMap.get?_insert, startIn]
  cases startIn rest name with
  | some a => simp [Nat.add_assoc]
  | none =>
    by_cases hn : name = s.name
    · simp [hn]
    · simp [hn, Ne.symm hn]

theorem placeFrom_eq_ok {offset size : Nat} {table table' : SymbolTable} {subs : List Subroutine}
    (ho : offset ≤ lastAddress) (h : placeFrom offset table subs = (table', .ok size)) :
    size = offset + totalSize subs ∧ size ≤ lastAddress ∧
      ∀ name, table'.get? name =
        ((startIn subs name).map fun a => (offset + a).toUInt16).or (table.get? name) := by
  induction subs generalizing offset table with
  | nil =>
    cases h
    exact ⟨rfl, ho, fun name => rfl⟩
  | cons s rest ih =>
    rw [placeFrom, if_neg (Nat.not_lt.2 ho)] at h
    dsimp only at h
    split at h
    · cases h
    · rename_i he
      obtain ⟨hs, hl, ht⟩ := ih (Nat.not_lt.1 he) h
      refine ⟨by rw [hs, totalSize_cons, Nat.add_assoc], hl, fun name => ?_⟩
      rw [ht]
      exact get?_insert_startIn table offset s rest name

/-! ## The second pass -/

theorem label_defined_or (table : SymbolTable) (i : Instruction) :
    (∀ l, i.label? = some l → (table.get? l.name).isSome) ∨
      ∃ l, i.label? = some l ∧ table.get? l.name = none := by
  cases hl : i.label? with
  | none => exact Or.inl fun l h => by cases h
  | some l =>
    cases hd : table.get? l.name with
    | none => exact Or.inr ⟨l, rfl, hd⟩
    | some address => exact Or.inl fun l' h => by cases h; simp [hd]

theorem emit_eq_ok {table : SymbolTable} {start : String → Nat} (ht : table.Gives start)
    {code : List Instruction} (hf : ∀ i ∈ code, i.Fits) {sink image : Array UInt8}
    (h : emit table code sink = .ok image) :
    image.toList = sink.toList ++ codeBytes start sink.size code ∧
      ∀ i ∈ code, ∀ l, i.label? = some l → (table.get? l.name).isSome := by
  induction code generalizing sink with
  | nil =>
    cases h
    exact ⟨by simp [codeBytes, resolveCode], by simp⟩
  | cons i rest ih =>
    have hi := hf i (.head _)
    rcases label_defined_or table i with hd | ⟨l, hl, hn⟩
    · rw [emit, i.encode_of_defined ht sink.size hi hd] at h
      obtain ⟨hb, hr⟩ := ih (fun j hj => hf j (.tail _ hj)) h
      have hs : (sink ++ (i.resolve start sink.size).bytes).size = sink.size + i.size := by
        rw [← i.length_bytes_resolve start sink.size hi, ← Array.length_toList,
          Array.toList_appendList, List.length_append, Array.length_toList]
      refine ⟨?_, List.forall_mem_cons.2 ⟨hd, hr⟩⟩
      rw [hb, hs, codeBytes_cons, Array.toList_appendList, List.append_assoc]
    · rw [emit, i.encode_of_undefined sink.size hl hn] at h
      cases h

/-! ## Both passes -/

theorem Program.fits_code {p : Program} (hf : p.Fits) : ∀ i ∈ p.code, i.Fits := by
  intro i hi
  obtain ⟨s, hs, hi⟩ := List.mem_flatMap.1 hi
  exact hf s (p.layout_perm.mem_iff.1 hs) i hi

theorem link_eq_ok {p : Program} (hf : p.Fits) {image : List UInt8}
    (h : p.link.result = .ok image) :
    ∃ table, assignAddresses .empty p.layout = (table, .ok p.size) ∧ p.size ≤ lastAddress ∧
      (∀ name, table.get? name = (startIn p.layout name).map Nat.toUInt16) ∧
      image = codeBytes p.start 0 p.code ∧
      ∀ i ∈ p.code, ∀ l, i.label? = some l → ∃ s ∈ p.layout, s.name = l.name := by
  obtain ⟨table, size, sink, ha, he, rfl⟩ := Program.link_eq_ok_iff.1 h
  obtain ⟨hs, hl, ht⟩ := placeFrom_eq_ok (Nat.zero_le _) ha
  rw [Nat.zero_add, p.totalSize_layout] at hs
  subst hs
  have ht' (name : String) : table.get? name = (startIn p.layout name).map Nat.toUInt16 := by
    rw [ht]
    simp
  have hg : table.Gives p.start := by
    intro name address hn
    rw [ht'] at hn
    obtain ⟨a, ha, rfl⟩ := Option.map_eq_some_iff.1 hn
    simp [Program.start, ha]
  obtain ⟨hb, hd⟩ := emit_eq_ok hg (p.fits_code hf) he
  refine ⟨table, ha, hl, ht', by simpa using hb, fun i hi l hil => ?_⟩
  have hsome := hd i hi l hil
  rw [ht', Option.isSome_map] at hsome
  exact startIn_isSome_iff.1 hsome

/-! ## Every subroutine in its place -/

/-- The bytes stand in the image from `pos` on. -/
def Stands (image : List UInt8) (pos : Nat) (bytes : List UInt8) : Prop :=
  ∃ before after, image = before ++ bytes ++ after ∧ before.length = pos

/-- A word stands in the image from `pos` on, its high byte first. -/
def StandsWord (image : List UInt8) (pos word : Nat) : Prop :=
  word ≤ lastAddress ∧
    Stands image pos [UInt8.ofNat (word / 256), UInt8.ofNat (word % 256)]

/-- The image holds every subroutine once, `main` before the others and these in
the order of their declaration. Each stands at the address that the table has
for it, and is referred to by this address. -/
structure Linked (p : Program) (table : SymbolTable) (image : List UInt8) : Prop where
  once : p.layout.Perm p.subroutines
  entry : ∀ s ∈ p.subroutines, s.name = "main" → p.layout.head? = some s
  others : p.layout.filter (·.name ≠ "main") = p.subroutines.filter (·.name ≠ "main")
  length : image.length = p.size
  bytes : image =
    p.layout.flatMap fun s => codeBytes p.start (p.start s.name) s.instructions
  /-- A subroutine starts where those before it end, and takes as many bytes as
  its size says. -/
  placed : ∀ before s after, p.layout = before ++ s :: after →
    p.start s.name = totalSize before ∧
      (table.get? s.name).map UInt16.toNat = some (totalSize before) ∧
      (codeBytes p.start (totalSize before) s.instructions).length = s.size ∧
      Stands image (totalSize before) (codeBytes p.start (totalSize before) s.instructions)
  /-- A label is the address of the subroutine it names. -/
  label : ∀ before s after, p.layout = before ++ s :: after →
    ∀ code i code', s.instructions = code ++ i :: code' → ∀ l, i.label? = some l →
      ∃ before' t after', p.layout = before' ++ t :: after' ∧ t.name = l.name ∧
        StandsWord image (totalSize before + codeSize code + 1) (totalSize before')
  /-- A next address is that of the byte behind its instruction. -/
  next : ∀ before s after, p.layout = before ++ s :: after →
    ∀ code code', s.instructions = code ++ .lda .next :: code' →
      StandsWord image (totalSize before + codeSize code + 1)
        (totalSize before + codeSize code + 3)

theorem Stands.trans {image bytes part : List UInt8} {pos pos' : Nat} (h : Stands image pos bytes)
    (h' : Stands bytes pos' part) : Stands image (pos + pos') part := by
  obtain ⟨a, b, rfl, rfl⟩ := h
  obtain ⟨c, d, rfl, rfl⟩ := h'
  exact ⟨a ++ c, d ++ b, by simp, by simp⟩

theorem codeSize_flatMap (subs : List Subroutine) :
    codeSize (subs.flatMap Subroutine.instructions) = totalSize subs := by
  induction subs with
  | nil => rfl
  | cons s rest ih => rw [List.flatMap_cons, codeSize_append, ih]; rfl

/-- The code of a layout is that of its subroutines, each from where those
before it end. -/
theorem codeBytes_flatMap {layout : List Subroutine} {start : String → Nat}
    (hstart : ∀ before s after, layout = before ++ s :: after → start s.name = totalSize before)
    (before : List Subroutine) {subs : List Subroutine} (h : layout = before ++ subs) :
    codeBytes start (totalSize before) (subs.flatMap Subroutine.instructions) =
      subs.flatMap fun s => codeBytes start (start s.name) s.instructions := by
  induction subs generalizing before with
  | nil => rfl
  | cons s rest ih =>
    have hs := hstart before s rest h
    have hb : totalSize before + codeSize s.instructions = totalSize (before ++ [s]) := by
      rw [totalSize_append]; rfl
    rw [List.flatMap_cons, List.flatMap_cons, codeBytes_append, hb,
      ih (before ++ [s]) (by simpa using h), hs]

/-! ## The order of the layout -/

namespace Program

variable {p : Program}

theorem head_layout (hn : (p.subroutines.map Subroutine.name).Nodup) {s : Subroutine}
    (hs : s ∈ p.subroutines) (he : s.isEntry) : p.layout.head? = some s := by
  have hm : s ∈ p.subroutines.filter Subroutine.isEntry := List.mem_filter.2 ⟨hs, he⟩
  obtain ⟨t, rest, ht⟩ := List.exists_cons_of_ne_nil (List.ne_nil_of_mem hm)
  have htm : t ∈ p.subroutines.filter Subroutine.isEntry := ht ▸ List.mem_cons_self
  have hte := List.mem_filter.1 htm
  have hname : t.name = s.name := by
    rw [eq_of_beq hte.2, eq_of_beq he]
  rw [layout, ht]
  exact congrArg some (List.inj_on_of_nodup_map hn hte.1 hs hname)

theorem filter_layout (p : Program) :
    p.layout.filter (·.name ≠ "main") = p.subroutines.filter (·.name ≠ "main") := by
  have hmain : (fun s : Subroutine => decide (s.name ≠ "main")) = (!·.isEntry) := by
    funext s
    simp [Subroutine.isEntry, Subroutine.entryPoint, beq_eq_decide]
  rw [hmain, layout, List.filter_append, List.filter_filter, List.filter_filter]
  simp

theorem startIn_layout (hn : (p.subroutines.map Subroutine.name).Nodup)
    {before after : List Subroutine} {s : Subroutine} (hl : p.layout = before ++ s :: after) :
    startIn p.layout s.name = some (totalSize before) := by
  have hd : (p.layout.map Subroutine.name).Nodup :=
    (p.layout_perm.map Subroutine.name).nodup_iff.2 hn
  rw [hl, List.map_append, List.map_cons] at hd
  have ha := (List.nodup_cons.1 (List.nodup_append.1 hd).2.1).1
  rw [hl]
  refine startIn_append fun t ht he => ha ?_
  exact he ▸ List.mem_map_of_mem ht

theorem start_eq (hn : (p.subroutines.map Subroutine.name).Nodup)
    {before after : List Subroutine} {s : Subroutine} (hl : p.layout = before ++ s :: after) :
    p.start s.name = totalSize before := by
  rw [start, startIn_layout hn hl]; rfl

theorem end_le (hs : p.size ≤ lastAddress) {before after : List Subroutine} {s : Subroutine}
    (hl : p.layout = before ++ s :: after) : totalSize before + s.size ≤ lastAddress := by
  have : totalSize p.layout = totalSize before + (s.size + totalSize after) := by
    rw [hl, totalSize_append, totalSize_cons]
  rw [p.totalSize_layout] at this
  omega

end Program

/-! ## What stands inside the code -/

theorem stands_instruction (start : String → Nat) (here : Nat) {code code' : List Instruction}
    {i : Instruction} (hf : ∀ j ∈ code ++ i :: code', j.Fits) :
    Stands (codeBytes start here (code ++ i :: code')) (codeSize code)
      (i.resolve start (here + codeSize code)).bytes := by
  refine ⟨codeBytes start here code, codeBytes start (here + codeSize code + i.size) code', ?_, ?_⟩
  · rw [codeBytes_append, codeBytes_cons, List.append_assoc]
  · exact length_codeBytes start here fun j hj => hf j (List.mem_append_left _ hj)

/-- The operand of an instruction stands behind its first byte. -/
theorem Stands.field {image : List UInt8} {pos : Nat} {r : Resolved} (h : Stands image pos r.bytes) :
    Stands image (pos + 1) r.field.bytes :=
  h.trans ⟨[UInt8.ofNat r.head], [], by simp [Resolved.bytes], rfl⟩

theorem Instruction.field_of_label {i : Instruction} {l : Label} (h : i.label? = some l)
    (start : String → Nat) (here : Nat) : (i.resolve start here).field = .word (start l.name) := by
  cases i with
  | lda address =>
    cases address with
    | label l' => cases h; rfl
    | next | immediate _ => cases h
  | jmp target | jo target | jz reg target =>
    have ht : target = some l := h
    subst ht
    rfl
  | _ => cases h

namespace Program

variable {p : Program} {before after : List Subroutine} {s : Subroutine}

/-- The code of a subroutine is cut out of the bytes of the whole layout. -/
theorem stands_subroutine (hf : p.Fits) (hl : p.layout = before ++ s :: after) :
    Stands (codeBytes p.start 0 p.code) (totalSize before)
      (codeBytes p.start (totalSize before) s.instructions) := by
  refine ⟨codeBytes p.start 0 (before.flatMap Subroutine.instructions),
    codeBytes p.start (totalSize before + s.size) (after.flatMap Subroutine.instructions), ?_, ?_⟩
  · rw [code, hl, List.flatMap_append, List.flatMap_cons, codeBytes_append, codeBytes_append,
      codeSize_flatMap, Nat.zero_add, List.append_assoc]
    rfl
  · rw [length_codeBytes, codeSize_flatMap]
    intro i hi
    refine p.fits_code hf i ?_
    rw [code, hl, List.flatMap_append]
    exact List.mem_append_left _ hi

theorem fits_instructions (hf : p.Fits) (hl : p.layout = before ++ s :: after) :
    ∀ i ∈ s.instructions, i.Fits :=
  hf s (p.layout_perm.mem_iff.1 (by simp [hl]))

theorem stands_field (hf : p.Fits) (hl : p.layout = before ++ s :: after)
    {code code' : List Instruction} {i : Instruction} (hs : s.instructions = code ++ i :: code') :
    Stands (codeBytes p.start 0 p.code) (totalSize before + codeSize code + 1)
      (i.resolve p.start (totalSize before + codeSize code)).field.bytes := by
  have hc := stands_subroutine hf hl
  have hi := fits_instructions hf hl
  rw [hs] at hc hi
  exact (hc.trans (stands_instruction _ _ hi)).field

end Program

/-! ## The image of a program -/

/-- An image holds the code of every subroutine in one piece, at the address
under which the table has it, and all references are to these addresses:
backward, forward, and to the subroutine they stand in. -/
theorem linked_of_link {p : Program} {image : List UInt8}
    (hn : (p.subroutines.map Subroutine.name).Nodup) (hf : p.Fits)
    (h : p.link.result = .ok image) :
    ∃ table, assignAddresses .empty p.layout = (table, .ok p.size) ∧ Linked p table image := by
  obtain ⟨table, ha, hsize, ht, rfl, hdef⟩ := link_eq_ok hf h
  refine ⟨table, ha, p.layout_perm, ?_, p.filter_layout, ?_, ?_, ?_, ?_, ?_⟩
  · intro s hs he
    exact p.head_layout hn hs (beq_iff_eq.2 he)
  · rw [length_codeBytes _ _ (p.fits_code hf), Program.code, codeSize_flatMap, p.totalSize_layout]
  · rw [Program.code]
    exact codeBytes_flatMap (fun _ _ _ => p.start_eq hn) [] rfl
  · intro before s after hl
    have hb := p.end_le hsize hl
    refine ⟨p.start_eq hn hl, ?_, length_codeBytes _ _ (p.fits_instructions hf hl),
      p.stands_subroutine hf hl⟩
    have hw : (totalSize before).toUInt16.toNat = totalSize before := by
      refine (UInt16.toNat_ofNat').trans (Nat.mod_eq_of_lt ?_)
      unfold lastAddress at hb
      omega
    rw [ht, p.startIn_layout hn hl]
    exact congrArg some hw
  · intro before s after hl code i code' hs l hil
    have hi : i ∈ p.code := List.mem_flatMap.2 ⟨s, by simp [hl], by simp [hs]⟩
    obtain ⟨t, htm, htn⟩ := hdef i hi l hil
    obtain ⟨before', after', hl'⟩ := List.append_of_mem htm
    have hb := p.end_le hsize hl'
    have hw := p.stands_field hf hl hs
    rw [Instruction.field_of_label hil, ← htn, p.start_eq hn hl'] at hw
    exact ⟨before', t, after', hl', htn, by omega, hw⟩
  · intro before s after hl code code' hs
    have hb := p.end_le hsize hl
    rw [Subroutine.size, hs, codeSize_append, codeSize_cons, Instruction.size] at hb
    exact ⟨by omega, p.stands_field hf hl hs⟩

/-- Three subroutines that refer backward, forward and to themselves. -/
def crossReferences : Program :=
  ⟨[⟨"loop", 1, [.jz .a (some ⟨"end", 2⟩), .jmp (some ⟨"loop", 3⟩)]⟩,
    ⟨"main", 4, [.lda .next, .push (.immediate ⟨7, .byte⟩), .jmp (some ⟨"loop", 7⟩)]⟩,
    ⟨"end", 8, [.lda (.label ⟨"main", 9⟩), .sw .b (some ⟨0x1234, .word⟩), .hlt]⟩], .empty⟩

theorem linked_crossReferences :
    ∃ table, assignAddresses .empty crossReferences.layout = (table, .ok crossReferences.size) ∧
      Linked crossReferences table
        [0x68, 0, 3, 0x48, 7, 0x78, 0, 8, 0x88, 0, 14, 0x78, 0, 8, 0x68, 0, 0, 0x29, 0x12, 0x34,
          0xF0] :=
  linked_of_link (by decide) (by decide) (by decide)

end IndentAsm
