import Mathlib.Data.Nat.Pairing
import IndentAsm.Proofs.Image.Outcome
import IndentAsm.Proofs.Image.Renumber

/-!
# Names do not reach the image

Linking tells names apart, and knows one of them, that of the entry point. Names can be
exchanged for others as long as different ones stay different and the entry point keeps its
name: the image is the same, and an error is about the same place under its new name.

Lines may change at the same time, each in its own way. That is no renumbering by a function,
since two places on one line may go to different lines. But all programs that differ in lines
only are renumberings of one of them, the one whose places are all on lines of their own
(`Program.numbered`).

**Results.**
* `Program.link_rename`: a renamed program has the image of the other, or its error renamed.
* `Program.mapLine_numbered`: every program is its numbered form on other lines.
* `Program.exists_fault`: an error is that of a place in the program.
* `link_of_renamed`: all programs that differ in names and lines end with one image, or with an
  error at one place.
-/
namespace IndentAsm

/-! ## Renamed programs -/

def Label.rename (f : String → String) (l : Label) : Label := { l with name := f l.name }

/-- Only labels carry a name. -/
def Instruction.rename (f : String → String) (i : Instruction) : Instruction :=
  i.mapLabel (·.rename f)

def Subroutine.rename (f : String → String) (s : Subroutine) : Subroutine :=
  { s with name := f s.name, instructions := s.instructions.map (·.rename f) }

def LinkError.rename (f : String → String) : LinkError → LinkError
  | undefinedLabel l => undefinedLabel (l.rename f)
  | addressOverflow line name => addressOverflow line (f name)

/-- Where linking fails: at a subroutine that has no room, or at a label that has no subroutine.
Subroutines and their instructions are counted from 0, in the order of their declaration. -/
inductive LinkFault where
  | overflow (sub : Nat)
  | undefined (sub instruction : Nat)
  deriving DecidableEq, Repr

namespace Program

def rename (f : String → String) (p : Program) : Program :=
  { p with subroutines := p.subroutines.map (·.rename f) }

/-- The names of the subroutines and those they refer to. -/
def names (p : Program) : List String :=
  p.subroutines.flatMap fun s => s.name :: (labelsOf s.instructions).map Label.name

/-- Different names of a program, that of the entry point among them, stay different, and this
one stays as it is. -/
structure KeepsApart (f : String → String) (p : Program) : Prop where
  entry : f Subroutine.entryPoint = Subroutine.entryPoint
  injective : ∀ a ∈ Subroutine.entryPoint :: p.names, ∀ b ∈ Subroutine.entryPoint :: p.names,
    f a = f b → a = b

/-- The program `q` is `p` with other names and on other lines. Its macros are of no
account. -/
structure Renamed (f : String → String) (p q : Program) : Prop where
  apart : p.KeepsApart f
  subroutines : q.subroutines.map (·.mapLine fun _ => 0) =
    p.subroutines.map fun s => (s.rename f).mapLine fun _ => 0

def labelAt? (p : Program) (k j : Nat) : Option Label :=
  (p.subroutines[k]?.bind (·.instructions[j]?)).bind Instruction.label?

def errorAt? (p : Program) : LinkFault → Option LinkError
  | .overflow k => p.subroutines[k]?.map fun s => .addressOverflow s.line s.name
  | .undefined k j => (p.labelAt? k j).map .undefinedLabel

end Program

variable {f : String → String} {p q : Program}

/-! ## The two passes -/

@[simp] theorem Subroutine.size_rename (f : String → String) (s : Subroutine) :
    (s.rename f).size = s.size :=
  codeSize_mapLabel _ _

/-- One table has under the new names what the other has under the old ones. -/
def SymbolTable.Renamed (f : String → String) (names : List String) (table table' : SymbolTable) :
    Prop :=
  ∀ name ∈ names, table'.get? (f name) = table.get? name

theorem SymbolTable.Renamed.insert {names : List String} {table table' : SymbolTable}
    (h : Renamed f names table table') (hinj : ∀ a ∈ names, ∀ b ∈ names, f a = f b → a = b)
    {key : String} (hkey : key ∈ names) (address : UInt16) :
    Renamed f names (table.insert key address) (table'.insert (f key) address) := by
  intro name hname
  rw [NameMap.get?_insert, NameMap.get?_insert, h name hname]
  by_cases hn : name = key
  · rw [if_pos hn, if_pos (congrArg f hn)]
  · rw [if_neg hn, if_neg fun hf => hn (hinj name hname key hkey hf)]

/-- The first pass goes through the same offsets. -/
theorem placeFrom_rename {names : List String}
    (hinj : ∀ a ∈ names, ∀ b ∈ names, f a = f b → a = b) {table table' : SymbolTable}
    (ht : SymbolTable.Renamed f names table table') {subs : List Subroutine}
    (hsubs : ∀ s ∈ subs, s.name ∈ names) (offset : Nat) :
    (placeFrom offset table' (subs.map (·.rename f))).2 =
        (placeFrom offset table subs).2.mapError (LinkError.rename f) ∧
      SymbolTable.Renamed f names (placeFrom offset table subs).1
        (placeFrom offset table' (subs.map (·.rename f))).1 := by
  induction subs generalizing offset table table' with
  | nil => exact ⟨rfl, ht⟩
  | cons s subs ih =>
    rw [List.forall_mem_cons] at hsubs
    have htable := ht.insert hinj hsubs.1 offset.toUInt16
    simp only [List.map_cons, placeFrom, Subroutine.size_rename]
    split
    · exact ⟨rfl, ht⟩
    · split
      · exact ⟨rfl, htable⟩
      · exact ih htable hsubs.2 _

namespace Program

theorem name_mem_names {s : Subroutine} (hs : s ∈ p.subroutines) : s.name ∈ p.names :=
  List.mem_flatMap.2 ⟨s, hs, List.mem_cons_self⟩

theorem label_mem_names {i : Instruction} (hi : i ∈ p.code) {l : Label} (hl : i.label? = some l) :
    l.name ∈ p.names := by
  obtain ⟨s, hs, hi⟩ := List.mem_flatMap.1 hi
  refine List.mem_flatMap.2 ⟨s, p.layout_perm.mem_iff.1 hs, List.mem_cons_of_mem _ ?_⟩
  exact List.mem_map_of_mem (List.mem_filterMap.2 ⟨i, hi, hl⟩)

theorem isEntry_rename (h : p.KeepsApart f) {s : Subroutine} (hs : s ∈ p.subroutines) :
    (s.rename f).isEntry = s.isEntry := by
  have hname := List.mem_cons_of_mem Subroutine.entryPoint (name_mem_names hs)
  have hiff : f s.name = Subroutine.entryPoint ↔ s.name = Subroutine.entryPoint := by
    refine ⟨fun hf => ?_, fun hn => by rw [hn, h.entry]⟩
    exact h.injective _ hname _ List.mem_cons_self (hf.trans h.entry.symm)
  rw [Bool.eq_iff_iff]
  simpa [Subroutine.isEntry, Subroutine.rename] using hiff

theorem layout_rename (h : p.KeepsApart f) : (p.rename f).layout = p.layout.map (·.rename f) := by
  have hfilter (keep : Bool → Bool) :
      (p.subroutines.map (·.rename f)).filter (fun s => keep s.isEntry) =
        (p.subroutines.filter fun s => keep s.isEntry).map (·.rename f) := by
    rw [List.filter_map]
    refine congrArg _ (List.filter_congr fun s hs => ?_)
    exact congrArg keep (isEntry_rename h hs)
  simp only [layout, rename, List.map_append]
  exact congrArg₂ _ (hfilter id) (hfilter not)

theorem code_rename (h : p.KeepsApart f) : (p.rename f).code = p.code.map (·.rename f) := by
  simp only [code, layout_rename h, List.flatMap_map, List.map_flatMap]
  rfl

/-- A renamed program has the image of the other, or fails with the error of the other,
renamed. -/
theorem link_rename (h : p.KeepsApart f) :
    (p.rename f).link.result = p.link.result.mapError (LinkError.rename f) := by
  have hinj : ∀ a ∈ p.names, ∀ b ∈ p.names, f a = f b → a = b := fun a ha b hb =>
    h.injective a (List.mem_cons_of_mem _ ha) b (List.mem_cons_of_mem _ hb)
  have hempty : SymbolTable.Renamed f p.names .empty .empty := fun _ _ => rfl
  have hsubs : ∀ s ∈ p.layout, s.name ∈ p.names := fun s hs =>
    name_mem_names (p.layout_perm.mem_iff.1 hs)
  have hplace := placeFrom_rename hinj hempty hsubs 0
  unfold link assignAddresses
  rw [layout_rename h, code_rename h]
  generalize placeFrom 0 .empty p.layout = placed at hplace
  generalize placeFrom 0 .empty (p.layout.map (·.rename f)) = placed' at hplace
  obtain ⟨table, size⟩ := placed
  obtain ⟨table', size'⟩ := placed'
  obtain ⟨rfl, htable⟩ := hplace
  cases size with
  | error e => rfl
  | ok size =>
    have hemit : emit table' (p.code.map (·.rename f)) #[] =
        (emit table p.code #[]).mapError (LinkError.rename f) :=
      emit_mapLabel (fun _ => rfl) (fun i hi l hl => htable _ (label_mem_names hi hl)) #[]
    have hsize : (Except.ok size).mapError (LinkError.rename f) = .ok size := rfl
    simp only [hsize, hemit]
    cases emit table p.code #[] <;> rfl

end Program

/-! ## Numbered programs -/

theorem mapIdx_map {α β γ : Type} (f : Nat → β → γ) (g : α → β) (xs : List α) :
    (xs.map g).mapIdx f = xs.mapIdx fun k x => f k (g x) := by
  refine List.mapIdx_eq_iff.2 fun k => ?_
  rw [List.getElem?_mapIdx, List.getElem?_map, Option.map_map]
  rfl

theorem map_mapIdx {α β γ : Type} (f : Nat → α → β) (g : β → γ) (xs : List α) :
    (xs.mapIdx f).map g = xs.mapIdx fun k x => g (f k x) := by
  refine (List.mapIdx_eq_iff.2 fun k => ?_).symm
  rw [List.getElem?_map, List.getElem?_mapIdx, Option.map_map]
  rfl

/-- The `k`th subroutine with each place on a line of its own: its name on one, and the label
of each instruction on another. -/
def Subroutine.numbered (k : Nat) (s : Subroutine) : Subroutine :=
  { s with
    line := Nat.pair k 0
    instructions := s.instructions.mapIdx fun j i => i.mapLine fun _ => Nat.pair k (j + 1) }

/-- The lines a subroutine had do not matter. -/
theorem Subroutine.numbered_mapLine (k : Nat) (g : Nat → Nat) (s : Subroutine) :
    (s.mapLine g).numbered k = s.numbered k := by
  simp only [numbered, mapLine, mapIdx_map, Instruction.mapLine_mapLine]
  rfl

theorem Subroutine.numbered_rename (k : Nat) (f : String → String) (s : Subroutine) :
    (s.rename f).numbered k = (s.numbered k).rename f := by
  simp only [numbered, rename, Instruction.rename, mapIdx_map, map_mapIdx, Instruction.mapLine_eq,
    Instruction.mapLabel_mapLabel]
  rfl

/-- An instruction whose label is put on the line that it is on. -/
theorem Instruction.mapLine_self {i : Instruction} {g : Nat → Nat}
    (h : ∀ l, i.label? = some l → g l.line = l.line) : i.mapLine g = i := by
  have hlabel {l : Label} (hl : i.label? = some l) : l.mapLine g = l := by
    simp [Label.mapLine, h l hl]
  cases i with
  | lda address =>
    cases address with
    | label l => simp only [mapLine, Address.mapLine, hlabel rfl]
    | _ => rfl
  | jmp target | jz _ target | jo target =>
    cases target with
    | none => rfl
    | some l => simp only [mapLine, Option.map_some, hlabel rfl]
  | _ => rfl

namespace Program

def numbered (p : Program) : Program :=
  { p with subroutines := p.subroutines.mapIdx Subroutine.numbered }

def lineAt (p : Program) (place : Nat) : Nat :=
  match place.unpair with
  | (k, 0) => (p.subroutines[k]?.map Subroutine.line).getD 0
  | (k, j + 1) => ((p.labelAt? k j).map Label.line).getD 0

/-- Every program is its numbered form, with each place on the line it has in the program. -/
theorem mapLine_numbered (p : Program) :
    p.subroutines = p.numbered.subroutines.map (·.mapLine p.lineAt) := by
  rw [numbered, map_mapIdx]
  refine (List.mapIdx_eq_iff.2 fun k => ?_).symm
  cases hs : p.subroutines[k]? with
  | none => rfl
  | some s =>
    have hline : p.lineAt (Nat.pair k 0) = s.line := by simp [lineAt, hs]
    have hcode : s.instructions.mapIdx (fun j i =>
        (i.mapLine fun _ => Nat.pair k (j + 1)).mapLine p.lineAt) = s.instructions := by
      refine List.mapIdx_eq_iff.2 fun j => ?_
      cases hi : s.instructions[j]? with
      | none => rfl
      | some i =>
        rw [Option.map_some, Instruction.mapLine_mapLine, Instruction.mapLine_self]
        intro l hl
        simp [lineAt, labelAt?, hs, hi, hl]
    simp [Subroutine.mapLine, Subroutine.numbered, hline, map_mapIdx, hcode]

theorem names_of_mapLine {g : Nat → Nat} (h : q.subroutines = p.subroutines.map (·.mapLine g)) :
    q.names = p.names := by
  have hlabels (code : List Instruction) :
      (labelsOf (code.map (·.mapLine g))).map Label.name = (labelsOf code).map Label.name := by
    simp [labelsOf, Instruction.mapLine_eq, Function.comp_def, List.map_filterMap, Label.mapLine]
  simp only [names, h, List.flatMap_map, Subroutine.mapLine, hlabels]

/-! ## Places of errors -/

theorem labelAt?_map {h : Subroutine → Subroutine} {g : Label → Label}
    (hq : q.subroutines = p.subroutines.map h)
    (hcode : ∀ s, (h s).instructions = s.instructions.map (·.mapLabel g)) (k j : Nat) :
    q.labelAt? k j = (p.labelAt? k j).map g := by
  simp only [labelAt?, hq, List.getElem?_map]
  cases p.subroutines[k]? with
  | none => rfl
  | some s =>
    simp only [Option.map_some, Option.bind_some, hcode, List.getElem?_map]
    cases s.instructions[j]? with
    | none => rfl
    | some i => exact i.label?_mapLabel g

theorem errorAt?_of_mapLine {g : Nat → Nat} (h : q.subroutines = p.subroutines.map (·.mapLine g))
    (fault : LinkFault) : q.errorAt? fault = (p.errorAt? fault).map (LinkError.mapLine g) := by
  cases fault with
  | overflow k =>
    simp only [errorAt?, h, List.getElem?_map, Option.map_map]
    rfl
  | undefined k j =>
    rw [errorAt?, errorAt?, labelAt?_map h fun s => map_mapLine_eq g s.instructions,
      Option.map_map, Option.map_map]
    rfl

theorem errorAt?_rename (f : String → String) (p : Program) (fault : LinkFault) :
    (p.rename f).errorAt? fault = (p.errorAt? fault).map (LinkError.rename f) := by
  cases fault with
  | overflow k =>
    simp only [errorAt?, rename, List.getElem?_map, Option.map_map]
    rfl
  | undefined k j =>
    have hlabel : (p.rename f).labelAt? k j = (p.labelAt? k j).map (·.rename f) :=
      labelAt?_map rfl (fun _ => rfl) k j
    rw [errorAt?, errorAt?, hlabel, Option.map_map, Option.map_map]
    rfl

end Program

theorem Instruction.encode_eq_error {table : SymbolTable} {here : Nat} {i : Instruction}
    {e : LinkError} (h : i.encode table here = .error e) :
    ∃ l, i.label? = some l ∧ e = .undefinedLabel l := by
  have label {l : Label} {g : List UInt8 → List UInt8}
      (hl : (l.encode table).map g = .error e) : e = .undefinedLabel l := by
    unfold Label.encode at hl
    split at hl
    · cases hl
    · cases hl
      rfl
  cases i with
  | lda address =>
    cases address with
    | label l => exact ⟨l, rfl, label h⟩
    | _ => cases h
  | jmp target | jz _ target | jo target =>
    cases target with
    | none => cases h
    | some l => exact ⟨l, rfl, label h⟩
  | _ => cases h

theorem label_of_emit_error {table : SymbolTable} {code : List Instruction} {sink : Array UInt8}
    {e : LinkError} (h : emit table code sink = .error e) :
    ∃ i ∈ code, ∃ l, i.label? = some l ∧ e = .undefinedLabel l := by
  obtain ⟨before, i, after, sink', rfl, -, hi⟩ := emit_eq_error h
  exact ⟨i, by simp, Instruction.encode_eq_error hi⟩

namespace Program

/-- An error is that of a place in the program. -/
theorem exists_fault {e : LinkError} (h : p.link.result = .error e) :
    ∃ fault, p.errorAt? fault = some e := by
  have place {s : Subroutine} (hs : s ∈ p.layout) : ∃ k, p.subroutines[k]? = some s :=
    List.mem_iff_getElem?.1 (p.layout_perm.mem_iff.1 hs)
  rcases link_eq_error_iff.1 h with ha | ⟨table, size, -, hemit⟩
  · rcases placeFrom_cases .empty (Nat.zero_le _) p.layout with
      ⟨table, hok, -⟩ | ⟨before, s, after, hl, -, -, he⟩
    · rw [assignAddresses, hok] at ha
      cases ha
    · rw [assignAddresses, he] at ha
      cases ha
      obtain ⟨k, hk⟩ := place (s := s) (by simp [hl])
      exact ⟨.overflow k, by simp [errorAt?, hk]⟩
  · obtain ⟨i, hi, l, hil, rfl⟩ := label_of_emit_error hemit
    obtain ⟨s, hs, hi⟩ := List.mem_flatMap.1 hi
    obtain ⟨k, hk⟩ := place hs
    obtain ⟨j, hj⟩ := List.mem_iff_getElem?.1 hi
    exact ⟨.undefined k j, by simp [errorAt?, labelAt?, hk, hj, hil]⟩

/-! ## Other names on other lines -/

namespace Renamed

/-- With each place on a line of its own, only names are different. -/
theorem numbered (h : p.Renamed f q) :
    q.numbered.subroutines = (p.numbered.rename f).subroutines := by
  calc q.subroutines.mapIdx Subroutine.numbered
      = (q.subroutines.map (·.mapLine fun _ => 0)).mapIdx Subroutine.numbered := by
        simp only [mapIdx_map, Subroutine.numbered_mapLine]
    _ = (p.subroutines.mapIdx Subroutine.numbered).map (·.rename f) := by
        simp only [h.subroutines, mapIdx_map, map_mapIdx, Subroutine.numbered_mapLine,
          Subroutine.numbered_rename]

theorem subroutines_eq (h : p.Renamed f q) :
    q.subroutines = (p.numbered.rename f).subroutines.map (·.mapLine q.lineAt) := by
  rw [← h.numbered]
  exact q.mapLine_numbered

theorem link_eq (h : p.Renamed f q) : q.link.result =
    (p.numbered.link.result.mapError (LinkError.rename f)).mapError
      (LinkError.mapLine q.lineAt) := by
  have hnames : p.names = p.numbered.names := names_of_mapLine p.mapLine_numbered
  have hapart : p.numbered.KeepsApart f := ⟨h.apart.entry, hnames ▸ h.apart.injective⟩
  rw [link_of_mapLine h.subroutines_eq, link_rename hapart]

end Renamed

end Program

/-- Programs that differ in names and lines only are linked alike: all of them to one image, or
none of them to any. Then the fault is the same in all of them, the same subroutine that has no
room or the same label that has no subroutine, and is reported under its new name. -/
theorem link_of_renamed (p : Program) :
    (∃ image, p.link.result = .ok image ∧
      ∀ f q, p.Renamed f q → q.link.result = .ok image) ∨
    ∃ fault e, p.errorAt? fault = some e ∧ p.link.result = .error e ∧
      ∀ f q, p.Renamed f q → ∃ e', q.errorAt? fault = some e' ∧ q.link.result = .error e' ∧
        e'.subject = f e.subject := by
  have hp := Program.link_of_mapLine p.mapLine_numbered
  cases hr : p.numbered.link.result with
  | ok image =>
    rw [hr] at hp
    refine Or.inl ⟨image, hp, fun f q h => ?_⟩
    rw [h.link_eq, hr]
    rfl
  | error e =>
    rw [hr] at hp
    obtain ⟨fault, hfault⟩ := Program.exists_fault hr
    refine Or.inr ⟨fault, e.mapLine p.lineAt, ?_, hp, fun f q h => ?_⟩
    · rw [Program.errorAt?_of_mapLine p.mapLine_numbered, hfault]
      rfl
    · refine ⟨(e.rename f).mapLine q.lineAt, ?_, ?_, ?_⟩
      · rw [Program.errorAt?_of_mapLine h.subroutines_eq, Program.errorAt?_rename, hfault]
        rfl
      · rw [h.link_eq, hr]
        rfl
      · cases e <;> rfl

/-- Two subroutines of one name around the entry point, and a label that has none. -/
def stepTwice : Program :=
  ⟨[⟨"step", 1, [.jz .a (some ⟨"main", 2⟩)]⟩,
    ⟨"main", 3, [.lda (.label ⟨"step", 4⟩), .jmp (some ⟨"far", 4⟩)]⟩,
    ⟨"step", 6, [.hlt]⟩], .empty⟩

/-- The same on other lines, with two of its names exchanged. -/
def farTwice : Program :=
  ⟨[⟨"far", 9, [.jz .a (some ⟨"main", 1⟩)]⟩,
    ⟨"main", 2, [.lda (.label ⟨"far", 2⟩), .jmp (some ⟨"step", 7⟩)]⟩,
    ⟨"far", 2, [.hlt]⟩], .empty⟩

def stepForFar (name : String) : String :=
  if name = "step" then "far" else if name = "far" then "step" else name

theorem link_stepTwice : stepTwice.Renamed stepForFar farTwice ∧
    ∃ fault e e', stepTwice.errorAt? fault = some e ∧ stepTwice.link.result = .error e ∧
      e.subject = "far" ∧ farTwice.errorAt? fault = some e' ∧ farTwice.link.result = .error e' ∧
      e'.subject = "step" := by
  have hrenamed : stepTwice.Renamed stepForFar farTwice := ⟨⟨by decide, by decide⟩, by decide⟩
  have hresult : stepTwice.link.result = .error (.undefinedLabel ⟨"far", 4⟩) := by decide
  refine ⟨hrenamed, ?_⟩
  rcases link_of_renamed stepTwice with ⟨image, hok, -⟩ | ⟨fault, e, hfault, herror, hall⟩
  · rw [hresult] at hok
    cases hok
  · rw [hresult] at herror
    cases herror
    obtain ⟨e', hfault', herror', hsubject⟩ := hall stepForFar farTwice hrenamed
    exact ⟨fault, _, e', hfault, hresult, rfl, hfault', herror', hsubject⟩

end IndentAsm
