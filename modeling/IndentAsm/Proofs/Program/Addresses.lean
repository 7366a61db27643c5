import IndentAsm.Proofs.Image.Safe
import IndentAsm.Proofs.Parse.Bodies

/-!
# Every subroutine has an address of its own

No subroutine that is read is empty, also where its body is made of macro calls only. So the
reader never warns of an empty one, and each subroutine of a layout starts behind the one
before it, by at least a byte. No two names have the same address.

**Results.**
* `unwarned_step`: a step tells of no empty subroutine.
* `Program.pairwise_start`: without empty subroutines, offsets increase along the layout.
* `distinctAddresses_of_result`: so do the addresses of a program that is read.
-/
namespace IndentAsm

/-! ## No warning -/

theorem Subroutine.not_mem_warnings {sub : Subroutine} (h : sub.instructions ≠ []) (line : Nat)
    (name : String) : .emptySubroutine line name ∉ sub.warnings := by
  unfold warnings
  rw [List.getLast?_eq_some_getLast h]
  dsimp only
  split <;> simp

namespace Parse

variable {limit : Nat} {source : List Token} {s v : State}

/-- No empty subroutine was told of so far. -/
def Unwarned (s : State) : Prop := ∀ line name, .emptySubroutine line name ∉ s.log

theorem Unwarned.cons {event : Event} (h : Unwarned s)
    (hne : ∀ line name, .emptySubroutine line name ≠ event) (line : Nat) (name : String) :
    .emptySubroutine line name ∉ event :: s.log := by
  rw [List.mem_cons, not_or]
  exact ⟨hne line name, h line name⟩

theorem Unwarned.close {code : List Instruction} (h : Unwarned s) (hne : code ≠ [])
    (name : Token) (stream : Stream) : Unwarned (s.close name code stream) := by
  intro line other hm
  rcases List.mem_append.1 hm with hm | hm
  · exact Subroutine.not_mem_warnings (by simpa using hne) line other hm
  · exact h line other hm

/-- A step tells of no empty subroutine, since a body is left behind its last instruction. -/
theorem unwarned_step (hf : Filled s) (h : Unwarned s) (hs : Step limit s v) : Unwarned v := by
  cases hs with
  | define place read fresh => exact h.cons (by simp)
  | header place ident colon fresh start => exact h
  | goOn place next kind read => exact h
  | leave place next kind read =>
    refine h.close (hf.code_ne_nil place ?_) _ _
    rw [Stream.peek_of_tokens (Stream.tokens_of_next? next), kind]
    rfl
  | operation place next kind read ends => exact h
  | call place next kind read =>
    obtain ⟨m, args, u, -, -, -, -, -, rfl⟩ := call_eq_ok read
    exact h.cons (by simp)
  | eof place kind =>
    refine h.close (hf.code_ne_nil place ?_) _ _
    rw [kind]
    rfl

theorem unwarned_run (hi : Inv limit source s) (hf : Filled s) (h : Unwarned s) (line : Nat)
    (name : String) : .emptySubroutine line name ∉ (run limit s).log := by
  fun_induction run limit s with
  | case1 s e hs => exact fun hm => h line name (List.mem_reverse.1 hm)
  | case2 s p hs => exact fun hm => h line name (List.mem_reverse.1 hm)
  | case3 s v hs ih =>
    have hstep := step_eq_running_iff.1 hs
    exact ih (inv_step hi hstep) (filled_step hi hf hstep) (unwarned_step hf h hstep)

end Parse

/-! ## Offsets and addresses -/

theorem Subroutine.size_pos {sub : Subroutine} (h : sub.instructions ≠ []) : 0 < sub.size := by
  obtain ⟨i, rest, hi⟩ := List.exists_cons_of_ne_nil h
  have := i.size_pos
  rw [size, hi, codeSize_cons]
  omega

namespace Program

variable {p : Program}

/-- A subroutine starts behind the bytes of those before it. -/
theorem pairwise_start (hn : (p.subroutines.map Subroutine.name).Nodup)
    (hne : ∀ sub ∈ p.subroutines, sub.instructions ≠ []) :
    p.layout.Pairwise fun s t => p.start s.name < p.start t.name := by
  suffices h : ∀ before subs, p.layout = before ++ subs →
      subs.Pairwise fun s t => p.start s.name < p.start t.name from h [] p.layout rfl
  intro before subs hl
  induction subs generalizing before with
  | nil => exact .nil
  | cons s subs ih =>
    refine List.pairwise_cons.2 ⟨fun t ht => ?_, ih (before ++ [s]) (by simpa using hl)⟩
    obtain ⟨between, behind, rfl⟩ := List.append_of_mem ht
    have hs : s ∈ p.subroutines := p.layout_perm.mem_iff.1 (by simp [hl])
    have hpos := Subroutine.size_pos (hne s hs)
    have hstart : p.start t.name = totalSize (before ++ s :: between) :=
      p.start_eq hn (by simpa using hl)
    rw [p.start_eq hn hl, hstart, totalSize_append, totalSize_cons]
    omega

/-- The first pass gives every subroutine of a layout its offset as address. -/
theorem get?_of_assign (hn : (p.subroutines.map Subroutine.name).Nodup)
    {table table' : SymbolTable} {size : Nat}
    (ha : assignAddresses table p.layout = (table', .ok size)) {s : Subroutine}
    (hs : s ∈ p.layout) :
    table'.get? s.name = some (p.start s.name).toUInt16 ∧ p.start s.name ≤ lastAddress := by
  obtain ⟨hsize, hle, hget⟩ := placeFrom_eq_ok (Nat.zero_le _) ha
  obtain ⟨before, behind, hl⟩ := List.append_of_mem hs
  have htotal : totalSize p.layout = totalSize before + totalSize (s :: behind) := by
    rw [hl, totalSize_append]
  rw [hget, p.startIn_layout hn hl, p.start_eq hn hl]
  exact ⟨by simp, by omega⟩

/-- An offset that is an address is not cut off by its width. -/
theorem pairwise_address (hn : (p.subroutines.map Subroutine.name).Nodup)
    (hne : ∀ sub ∈ p.subroutines, sub.instructions ≠ []) {table table' : SymbolTable} {size : Nat}
    (ha : assignAddresses table p.layout = (table', .ok size)) :
    p.layout.Pairwise fun s t => (p.start s.name).toUInt16 < (p.start t.name).toUInt16 := by
  refine (p.pairwise_start hn hne).imp_of_mem fun {s t} hs ht hlt => ?_
  rw [UInt16.lt_iff_toNat_lt, toNat_toUInt16 (p.get?_of_assign hn ha hs).2,
    toNat_toUInt16 (p.get?_of_assign hn ha ht).2]
  exact hlt

end Program

/-- No subroutine that is read is empty, nor is the reader ever to warn of one. Where the
first pass succeeds, whatever the table holds before, each subroutine has an address, these
increase along the layout, and different names have different ones. -/
theorem distinctAddresses_of_result (limit : Nat) (tokens : List Token) :
    (∀ line name, .emptySubroutine line name ∉ (Parse.ofTokens limit tokens).log) ∧
    ∀ p, (Parse.ofTokens limit tokens).result = .ok p →
      (∀ sub ∈ p.subroutines, sub.instructions ≠ []) ∧
      ∀ table table' size, assignAddresses table p.layout = (table', .ok size) →
        ∃ address : String → UInt16,
          (∀ s ∈ p.layout, table'.get? s.name = some (address s.name)) ∧
          p.layout.Pairwise (fun s t => address s.name < address t.name) ∧
          ∀ s ∈ p.layout, ∀ t ∈ p.layout, s.name ≠ t.name → address s.name ≠ address t.name := by
  refine ⟨?_, fun p hp => ?_⟩
  · exact Parse.unwarned_run (Parse.inv_ofTokens limit tokens) (Parse.filled_ofTokens tokens)
      (by simp [Parse.Unwarned, Parse.State.ofTokens])
  have hne := Parse.filled_of_result hp
  have hn := (Parse.checked_of_result hp).distinct
  refine ⟨hne, fun table table' size ha => ?_⟩
  have hlt := p.pairwise_address hn hne ha
  refine ⟨fun name => (p.start name).toUInt16, ?_, hlt, ?_⟩
  · exact fun s hs => (p.get?_of_assign hn ha hs).1
  · intro s hs t ht hst heq
    have hnodup : (p.layout.map fun s => (p.start s.name).toUInt16).Nodup :=
      List.pairwise_map.2 (hlt.imp UInt16.ne_of_lt)
    exact hst (congrArg Subroutine.name (List.inj_on_of_nodup_map hnodup hs ht heq))

/-- A macro that calls the one before it, and two subroutines made of calls only. -/
def onlyCalls : List Token :=
  [⟨.macroKeyword, "@macro", 1⟩, ⟨.identifier, "stop", 1⟩, ⟨.colon, ":", 1⟩,
    ⟨.operation .hlt, "HLT", 1⟩, ⟨.newLine, "\n", 1⟩,
    ⟨.macroKeyword, "@macro", 2⟩, ⟨.identifier, "halt", 2⟩, ⟨.colon, ":", 2⟩,
    ⟨.identifier, "stop", 2⟩, ⟨.newLine, "\n", 2⟩,
    ⟨.identifier, "end", 3⟩, ⟨.colon, ":", 3⟩, ⟨.newLine, "\n", 3⟩,
    ⟨.indent, " ", 4⟩, ⟨.identifier, "halt", 4⟩, ⟨.newLine, "\n", 4⟩,
    ⟨.identifier, "main", 5⟩, ⟨.colon, ":", 5⟩, ⟨.newLine, "\n", 5⟩,
    ⟨.indent, " ", 6⟩, ⟨.identifier, "stop", 6⟩, ⟨.newLine, "\n", 6⟩, ⟨.eof, "", 7⟩]

theorem distinctAddresses_onlyCalls :
    (∀ line name, .emptySubroutine line name ∉ (Parse.ofTokens 2 onlyCalls).log) ∧
    ∃ p, (Parse.ofTokens 2 onlyCalls).result = .ok p ∧
      p.layout = [⟨"main", 5, [.hlt]⟩, ⟨"end", 3, [.hlt]⟩] ∧
      ∃ table, ∃ address : String → UInt16, assignAddresses .empty p.layout = (table, .ok 2) ∧
        table.get? "main" = some (address "main") ∧ table.get? "end" = some (address "end") ∧
        address "main" < address "end" ∧ address "end" ≠ address "main" := by
  have hlast : (Parse.State.after 2 11 (.ofTokens onlyCalls)).map
      (fun s => (s.place, s.stream.skipBlankLines.peek.kind, s.subroutines)) =
        some (.outside, .eof, [⟨"main", 5, [.hlt]⟩, ⟨"end", 3, [.hlt]⟩]) := by decide +kernel
  obtain ⟨hlog, hread⟩ := distinctAddresses_of_result 2 onlyCalls
  obtain ⟨p, hp, hsubs⟩ := Parse.result_of_after hlast
  have hlayout : p.layout = [⟨"main", 5, [.hlt]⟩, ⟨"end", 3, [.hlt]⟩] := by
    rw [Program.layout, hsubs]
    decide
  have ha : assignAddresses .empty p.layout =
      ((SymbolTable.rebind (SymbolTable.rebind .empty "main" 0).2 "end" 1).2, .ok 2) := by
    rw [hlayout]
    rfl
  obtain ⟨address, hget, hlt, hne⟩ := (hread p hp).2 .empty _ 2 ha
  rw [hlayout] at hget hlt hne
  refine ⟨hlog, p, hp, hlayout, _, address, ha, ?_, ?_, ?_, ?_⟩
  · exact hget ⟨"main", 5, [.hlt]⟩ (by simp)
  · exact hget ⟨"end", 3, [.hlt]⟩ (by simp)
  · simpa using hlt
  · exact hne ⟨"end", 3, [.hlt]⟩ (by simp) ⟨"main", 5, [.hlt]⟩ (by simp) (by decide)

end IndentAsm
