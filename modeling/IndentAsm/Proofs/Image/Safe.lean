import IndentAsm.Proofs.Image.Placement
import IndentAsm.Proofs.Parse.Checked

/-!
# Programs that are safe to link

The second pass of linking checks nothing but labels: it cuts positions down to
16 bits, and it adds to them, without looking. It may do so because the first
pass has refused every program whose end is no address, and because an
instruction with numbers of the right width has exactly as many bytes as the
first pass counted for it. Programs that are read have numbers of the right
width.

**Results.**
* `length_encode`: an instruction is encoded in as many bytes as its size says,
  whatever the table.
* `size_emit`: so what was written ends where the sizes say.
* `emit_before`: what was written of some code stays when more is written.
* `safe_of_result`: a program that is read is safe to link, whatever linking it
  gives.
-/
namespace IndentAsm

/-- What the second pass relies on at an instruction with the bytes of `sink`
before it. -/
structure SafeAt (table : SymbolTable) (sink : Array UInt8) (i : Instruction) : Prop where
  /-- As many bytes are written as the size says. -/
  length : ∀ bytes, i.encode table sink.size = .ok bytes → bytes.length = i.size
  /-- They end at an address. -/
  end_le : sink.size + i.size ≤ lastAddress
  /-- No position from the start of the instruction to its end is cut off. -/
  here : ∀ k, k ≤ i.size → (sink.size + k).toUInt16.toNat = sink.size + k
  /-- The next address, two bytes behind the position of the operand, is one. -/
  next : i = .lda .next → (sink.size + 1).toUInt16.toNat + 2 ≤ lastAddress ∧
    ((sink.size + 1).toUInt16 + 2).toNat = sink.size + i.size

/-- A program that can be linked without further checks. -/
structure Program.Safe (p : Program) : Prop extends Program.Checked p where
  /-- What is written of its code is never longer than the last address. -/
  bounded : ∀ table size, assignAddresses .empty p.layout = (table, .ok size) →
    ∀ before after sink, p.code = before ++ after → emit table before #[] = .ok sink →
      sink.size ≤ lastAddress
  /-- At every instruction that is come to, all is as the second pass relies
  on. -/
  safeAt : ∀ table size, assignAddresses .empty p.layout = (table, .ok size) →
    ∀ before i after sink, p.code = before ++ i :: after → emit table before #[] = .ok sink →
      SafeAt table sink i
  /-- Each instruction that is written makes the sink longer by its size. -/
  grows : ∀ table size, assignAddresses .empty p.layout = (table, .ok size) →
    ∀ before i after sink sink', p.code = before ++ i :: after →
      emit table before #[] = .ok sink → emit table (before ++ [i]) #[] = .ok sink' →
      sink'.size = sink.size + i.size
  /-- Where linking gives an image, the second pass comes to every instruction,
  and what it has written by then stays. -/
  linked : ∀ image, p.link.result = .ok image → image.length ≤ lastAddress ∧
    ∃ table, assignAddresses .empty p.layout = (table, .ok image.length) ∧
      ∀ before after, p.code = before ++ after →
        ∃ sink, emit table before #[] = .ok sink ∧ sink.toList <+: image
  /-- Where it gives an error, the first pass does, and the second one comes to no
  instruction, or it is that of the last instruction the second pass comes to. -/
  refused : ∀ e, p.link.result = .error e → (assignAddresses .empty p.layout).2 = .error e ∨
    ∃ table size before i after sink,
      assignAddresses .empty p.layout = (table, .ok size) ∧ p.code = before ++ i :: after ∧
      emit table before #[] = .ok sink ∧ i.encode table sink.size = .error e

/-! ## The sizes of what is written -/

/-- A table gives the addresses that are in it. -/
theorem SymbolTable.gives_self (table : SymbolTable) :
    table.Gives fun name => ((table.get? name).getD 0).toNat := by
  intro name address h
  dsimp only
  rw [h]
  exact UInt16.ofNat_toNat.symm

theorem length_encode {table : SymbolTable} {here : Nat} {i : Instruction} {bytes : List UInt8}
    (hf : i.Fits) (h : i.encode table here = .ok bytes) : bytes.length = i.size := by
  rcases label_defined_or table i with hd | ⟨l, hl, hn⟩
  · rw [i.encode_of_defined table.gives_self here hf hd] at h
    cases h
    exact i.length_bytes_resolve _ here hf
  · rw [i.encode_of_undefined here hl hn] at h
    cases h

theorem size_emit {table : SymbolTable} {code : List Instruction} {sink : Array UInt8}
    (hf : ∀ i ∈ code, i.Fits) (h : emit table code #[] = .ok sink) : sink.size = codeSize code := by
  have hb := (emit_eq_ok table.gives_self hf h).1
  rw [← Array.length_toList, hb, List.length_append, length_codeBytes _ _ hf]
  exact Nat.zero_add _

/-- Where the first pass succeeds, all of the code ends at an address, which is
the size that was counted. -/
theorem codeSize_of_assign {p : Program} {table : SymbolTable} {size : Nat}
    (h : assignAddresses .empty p.layout = (table, .ok size)) :
    size = codeSize p.code ∧ codeSize p.code ≤ lastAddress := by
  obtain ⟨hs, hl, -⟩ := placeFrom_eq_ok (Nat.zero_le _) h
  rw [Program.code, codeSize_flatMap]
  omega

/-- What was written of some code stays when more is written. -/
theorem emit_before {table : SymbolTable} {before after : List Instruction} {image : Array UInt8}
    (hf : ∀ i ∈ before ++ after, i.Fits) (h : emit table (before ++ after) #[] = .ok image) :
    ∃ sink, emit table before #[] = .ok sink ∧ sink.toList <+: image.toList := by
  rw [emit_append] at h
  obtain ⟨sink, hsink, himage⟩ := Parse.bind_eq_ok.1 h
  have hbytes := (emit_eq_ok table.gives_self (fun i hi => hf i (List.mem_append_right _ hi))
    himage).1
  exact ⟨sink, hsink, _, hbytes.symm⟩

/-! ## Words that hold a position -/

theorem toNat_toUInt16 {n : Nat} (h : n ≤ lastAddress) : n.toUInt16.toNat = n :=
  UInt16.toNat_ofNat_of_lt' (Nat.lt_succ_of_le h)

theorem safeAt_of_le {table : SymbolTable} {sink : Array UInt8} {i : Instruction} (hf : i.Fits)
    (h : sink.size + i.size ≤ lastAddress) : SafeAt table sink i where
  length _ hb := length_encode hf hb
  end_le := h
  here k hk := toNat_toUInt16 (by omega)
  next hi := by
    subst hi
    have hsize : (Instruction.lda .next).size = 3 := rfl
    rw [hsize] at h ⊢
    have hhere : (sink.size + 1).toUInt16.toNat = sink.size + 1 := toNat_toUInt16 (by omega)
    refine ⟨by omega, ?_⟩
    have hlast : lastAddress < 2 ^ 16 := by decide
    rw [UInt16.toNat_add, hhere]
    exact Nat.mod_eq_of_lt (show sink.size + 1 + 2 < 2 ^ 16 by omega)

/-! ## Programs that are read -/

theorem Program.Checked.safe {p : Program} (h : p.Checked) : p.Safe where
  toChecked := h
  bounded := by
    intro table size ha before after sink hc he
    have hf := p.fits_code h.fits
    obtain ⟨-, hle⟩ := codeSize_of_assign ha
    rw [hc] at hf hle
    rw [size_emit (fun i hi => hf i (List.mem_append_left _ hi)) he]
    rw [codeSize_append] at hle
    omega
  safeAt := by
    intro table size ha before i after sink hc he
    have hf := p.fits_code h.fits
    obtain ⟨-, hle⟩ := codeSize_of_assign ha
    rw [hc] at hf hle
    refine safeAt_of_le (hf i (by simp)) ?_
    rw [size_emit (fun j hj => hf j (List.mem_append_left _ hj)) he]
    rw [codeSize_append, codeSize_cons] at hle
    omega
  grows := by
    intro table size ha before i after sink sink' hc he he'
    have hf : ∀ j ∈ before ++ [i], j.Fits := by
      intro j hj
      apply p.fits_code h.fits
      rw [hc, List.append_cons]
      exact List.mem_append_left _ hj
    rw [size_emit hf he', size_emit (fun j hj => hf j (List.mem_append_left _ hj)) he]
    simp
  linked := by
    intro image hi
    obtain ⟨table, size, sink, ha, he, rfl⟩ := Program.link_eq_ok_iff.1 hi
    have hf := p.fits_code h.fits
    obtain ⟨hsize, hle⟩ := codeSize_of_assign ha
    have hlength : sink.toList.length = codeSize p.code := by
      rw [Array.length_toList, size_emit hf he]
    refine ⟨by omega, table, by rw [ha, hsize, hlength], ?_⟩
    intro before after hc
    rw [hc] at hf he
    exact emit_before hf he
  refused := by
    intro e hl
    rcases Program.link_eq_error_iff.1 hl with ha | ⟨table, size, ha, he⟩
    · exact Or.inl ha
    · obtain ⟨before, i, after, sink, hc, hsink, hi⟩ := emit_eq_error he
      exact Or.inr ⟨table, size, before, i, after, sink, ha, hc, hsink, hi⟩

/-- Every program that is read is safe to link, whatever the limit. -/
theorem safe_of_result {limit : Nat} {tokens : List Token} {p : Program}
    (h : (Parse.ofTokens limit tokens).result = .ok p) : p.Safe :=
  (Parse.checked_of_result h).safe

/-- A macro whose number is an argument, and the next address behind a call of
it. -/
def putByte : List Token :=
  [⟨.macroKeyword, "@macro", 1⟩, ⟨.identifier, "put", 1⟩, ⟨.parenOpen, "(", 1⟩,
    ⟨.identifier, "n", 1⟩, ⟨.parenClose, ")", 1⟩, ⟨.colon, ":", 1⟩, ⟨.operation .mw, "MW", 1⟩,
    ⟨.register .a, "A", 1⟩, ⟨.comma, ",", 1⟩, ⟨.identifier, "n", 1⟩, ⟨.newLine, "\n", 1⟩,
    ⟨.identifier, "main", 2⟩, ⟨.colon, ":", 2⟩, ⟨.newLine, "\n", 2⟩,
    ⟨.indent, "  ", 3⟩, ⟨.identifier, "put", 3⟩, ⟨.number, "0xFF", 3⟩, ⟨.newLine, "\n", 3⟩,
    ⟨.indent, "  ", 4⟩, ⟨.operation .lda, "LDA", 4⟩, ⟨.nextAddr, "NextAddr", 4⟩,
    ⟨.newLine, "\n", 4⟩, ⟨.eof, "", 5⟩]

/-- The argument is read as a byte, and the next address is the end of the
image. -/
theorem safe_putByte : ∃ p, (Parse.ofTokens 64 putByte).result = .ok p ∧ p.Safe ∧
    p.code = [.mw .a (.immediate ⟨0xFF, .byte⟩)] ++ .lda .next :: [] ∧
    ∃ table sink, assignAddresses .empty p.layout = (table, .ok 5) ∧
      emit table [.mw .a (.immediate ⟨0xFF, .byte⟩)] #[] = .ok sink ∧
      SafeAt table sink (.lda .next) := by
  have hlast : (Parse.State.after 64 7 (.ofTokens putByte)).map
      (fun s => (s.place, s.stream.skipBlankLines.peek.kind, s.subroutines)) =
        some (.outside, .eof,
          [⟨"main", 2, [.mw .a (.immediate ⟨0xFF, .byte⟩), .lda .next]⟩]) := by decide +kernel
  obtain ⟨s, hs, hv⟩ := Option.map_eq_some_iff.1 hlast
  simp only [Prod.mk.injEq] at hv
  obtain ⟨hplace, hkind, hsubs⟩ := hv
  have hresult : (Parse.ofTokens 64 putByte).result = .ok s.program :=
    (Parse.Finishes.of_reflTransGen (Parse.reflTransGen_of_after hs)
      (.here hplace hkind)).result_eq
  have hsafe := safe_of_result hresult
  have hlayout : s.program.layout =
      [⟨"main", 2, [.mw .a (.immediate ⟨0xFF, .byte⟩), .lda .next]⟩] := by
    rw [Program.layout, Parse.State.program, hsubs]
    rfl
  have hcode : s.program.code = [.mw .a (.immediate ⟨0xFF, .byte⟩)] ++ .lda .next :: [] := by
    rw [Program.code, hlayout]
    rfl
  have hassign : assignAddresses .empty s.program.layout =
      (NameMap.empty.insert "main" 0, .ok 5) := by
    rw [hlayout]
    rfl
  exact ⟨_, hresult, hsafe, hcode, _, #[0x38, 0xFF], hassign, rfl,
    hsafe.safeAt _ _ hassign _ _ _ _ hcode rfl⟩

end IndentAsm
