import IndentAsm.Parse.Call

/-!
# Reading within a line

The current line of a stream is what comes before the next line end. The
readers of operands and of arguments take tokens of the current line only, and
what they give depends on nothing else: two streams with the same current line
are read alike, whatever their frames are and whatever follows.

**Results.**
* `onLine_instruction`: an instruction is read from the current line, and from
  every stream with that line in the same way.
* `arguments_eq_ok`: the arguments of a call are the tokens of the current line
  but its commas, and nothing of the line is left behind them.
-/
namespace IndentAsm

namespace Stream

/-- What is left to be read, as plain tokens. -/
def tokens (s : Stream) : List Token := s.unread.map Prod.fst

/-- The tokens before a line end. -/
def lineOf (ts : List Token) : List Token := ts.takeWhile fun t => !t.kind.endsLine

/-- The unread tokens before the next line end. -/
def line (s : Stream) : List Token := lineOf s.tokens

theorem lineOf_cons_of_not {t : Token} (ts : List Token) (h : t.kind.endsLine = false) :
    lineOf (t :: ts) = t :: lineOf ts := by
  simp [lineOf, h]

theorem lineOf_cons_of_ends {t : Token} (ts : List Token) (h : t.kind.endsLine = true) :
    lineOf (t :: ts) = [] := by
  simp [lineOf, h]

theorem lineOf_of_head {ts : List Token} (h : ∀ t ∈ ts.head?, t.kind.endsLine = true) :
    lineOf ts = [] := by
  cases ts with
  | nil => rfl
  | cons t ts => exact lineOf_cons_of_ends ts (h t rfl)

theorem lineOf_append_of_not {ts : List Token} (h : ∀ t ∈ ts, t.kind.endsLine = false)
    (us : List Token) : lineOf (ts ++ us) = ts ++ lineOf us :=
  List.takeWhile_append_of_pos fun t ht => by simp [h t ht]

theorem not_ends_of_mem_lineOf {t : Token} {ts : List Token} (h : t ∈ lineOf ts) :
    t.kind.endsLine = false := by
  have ha := List.all_eq_true.1 List.all_takeWhile t h
  simpa using ha

@[simp] theorem tokens_ofTokens (ts : List Token) : (ofTokens ts).tokens = ts := by
  simp [tokens, Function.comp_def]

theorem tokens_of_reads {s s' : Stream} {taken : List (Token × Nat)} (h : Reads s taken s') :
    s.tokens = taken.map Prod.fst ++ s'.tokens := by
  simp [tokens, h.unread]

theorem tokens_of_next? {s u : Stream} {t : Token} (h : s.next? = some (t, u)) :
    s.tokens = t :: u.tokens := tokens_of_reads (reads_next? h)

theorem next?_of_tokens {s : Stream} {t : Token} {ts : List Token} (h : s.tokens = t :: ts) :
    ∃ u, s.next? = some (t, u) ∧ u.tokens = ts := by
  cases hn : s.next? with
  | none => simp [tokens, next?_eq_none_iff.1 hn] at h
  | some p =>
    have hp := tokens_of_next? hn
    rw [h, List.cons.injEq] at hp
    exact ⟨p.2, by rw [hp.1], hp.2.symm⟩

theorem peek_of_tokens {s : Stream} {t : Token} {ts : List Token} (h : s.tokens = t :: ts) :
    s.peek = t := by
  obtain ⟨u, hu, -⟩ := next?_of_tokens h
  rw [peek_eq, (next?_eq_some hu).1]; rfl

theorem peek_of_tokens_nil {s : Stream} (h : s.tokens = []) : s.peek = s.eof := by
  have hu : s.unread = [] := by simpa [tokens] using h
  rw [peek_eq, hu]; rfl

/-- A token that ends no line is the first of the current line. -/
theorem next?_of_not_ends {s : Stream} (h : s.peek.kind.endsLine = false) :
    s.next? = some (s.peek, s.advance.2) ∧ s.line = s.peek :: s.advance.2.line := by
  cases hts : s.tokens with
  | nil =>
    rw [peek_of_tokens_nil hts, s.eof_kind] at h
    cases h
  | cons t ts =>
    obtain ⟨u, hu, htu⟩ := next?_of_tokens hts
    have hp := peek_of_tokens hts
    have ha : s.advance = (t, u) := by rw [advance, hu]; rfl
    rw [hp] at h ⊢
    rw [ha]
    exact ⟨hu, by rw [line, hts, lineOf_cons_of_not _ h, line, htu]⟩

theorem line_eq_nil_iff {s : Stream} : s.line = [] ↔ s.peek.kind.endsLine = true := by
  cases hp : s.peek.kind.endsLine with
  | false => simp [(next?_of_not_ends hp).2]
  | true =>
    refine ⟨fun _ => rfl, fun _ => ?_⟩
    cases hts : s.tokens with
    | nil => rw [line, hts]; rfl
    | cons t ts =>
      rw [peek_of_tokens hts] at hp
      rw [line, hts, lineOf_cons_of_ends _ hp]

/-- Taking the first token of the current line leaves the others. -/
theorem of_line_cons {s : Stream} {t : Token} {ts : List Token} (h : s.line = t :: ts) :
    s.peek = t ∧ s.advance.2.line = ts := by
  have hp : s.peek.kind.endsLine = false := by
    rw [← Bool.not_eq_true, ← line_eq_nil_iff, h]
    simp
  have hl := (next?_of_not_ends hp).2
  rw [h, List.cons.injEq] at hl
  exact ⟨hl.1.symm, hl.2.symm⟩

theorem peek_congr {s e : Stream} (he : e.line = s.line) (h : s.peek.kind.endsLine = false) :
    e.peek = s.peek := by
  have hl := (next?_of_not_ends h).2
  have hp : e.peek.kind.endsLine = false := by
    cases hp : e.peek.kind.endsLine with
    | false => rfl
    | true =>
      have hn := line_eq_nil_iff.2 hp
      rw [he, hl] at hn
      cases hn
  have hl' := (next?_of_not_ends hp).2
  rw [he, hl, List.cons.injEq] at hl'
  exact hl'.1.symm

theorem check_congr {s e : Stream} {kind : Token.Kind} (he : e.line = s.line)
    (hk : kind.endsLine = false) : e.check kind = s.check kind := by
  cases hp : s.peek.kind.endsLine with
  | false => rw [check, peek_congr he hp, check]
  | true =>
    have hp' := line_eq_nil_iff.1 (he.trans (line_eq_nil_iff.2 hp))
    have hne (k : Token.Kind) (hk' : k.endsLine = true) : (k == kind) = false := by
      rw [beq_eq_false_iff_ne]
      rintro rfl
      rw [hk] at hk'
      cases hk'
    rw [check, check, hne _ hp, hne _ hp']

/-! ## Reading tokens of the current line -/

/-- The stream `s'` is `s` behind the tokens `ts`, none of which ends a
line. -/
def ReadsLine (s : Stream) (ts : List Token) (s' : Stream) : Prop :=
  ∃ taken, Reads s taken s' ∧ taken.map Prod.fst = ts ∧ ∀ t ∈ ts, t.kind.endsLine = false

namespace ReadsLine

theorem refl (s : Stream) : ReadsLine s [] s := ⟨[], .refl s, rfl, by simp⟩

theorem trans {s t u : Stream} {a b : List Token} (h : ReadsLine s a t) (h' : ReadsLine t b u) :
    ReadsLine s (a ++ b) u := by
  obtain ⟨x, hx, rfl, hxn⟩ := h
  obtain ⟨y, hy, rfl, hyn⟩ := h'
  refine ⟨x ++ y, hx.trans hy, List.map_append, fun t ht => ?_⟩
  rcases List.mem_append.1 ht with ht | ht
  · exact hxn t ht
  · exact hyn t ht

theorem not_ends {s s' : Stream} {ts : List Token} (h : ReadsLine s ts s') :
    ∀ t ∈ ts, t.kind.endsLine = false := by
  obtain ⟨x, -, -, hn⟩ := h
  exact hn

theorem tokens {s s' : Stream} {ts : List Token} (h : ReadsLine s ts s') :
    s.tokens = ts ++ s'.tokens := by
  obtain ⟨x, hx, rfl, -⟩ := h
  exact tokens_of_reads hx

theorem line {s s' : Stream} {ts : List Token} (h : ReadsLine s ts s') :
    s.line = ts ++ s'.line := by
  obtain ⟨x, hx, rfl, hn⟩ := h
  rw [Stream.line, tokens_of_reads hx, lineOf_append_of_not hn, Stream.line]

/-- Taking a token that ends no line. -/
theorem advance {s : Stream} (h : s.peek.kind.endsLine = false) :
    ReadsLine s [s.peek] s.advance.2 := by
  refine ⟨_, reads_next? (next?_of_not_ends h).1, rfl, fun t ht => ?_⟩
  rw [List.mem_singleton] at ht
  exact ht ▸ h

end ReadsLine

end Stream

namespace Parse

open IndentAsm.Stream (Reads ReadsLine)

/-- A reader that takes tokens of the current line, and does the same on every
stream with this line. -/
def OnLine {α : Type} (read : Stream → Except ParseError (α × Stream)) : Prop :=
  ∀ s a s', read s = .ok (a, s') →
    ∃ ts, ReadsLine s ts s' ∧
      ∀ e, e.line = s.line → ∃ e', read e = .ok (a, e') ∧ ReadsLine e ts e'

/-- Behind the same tokens of the same line the same is left of it. -/
theorem line_congr {s e s' e' : Stream} {ts : List Token} (he : e.line = s.line)
    (h : ReadsLine s ts s') (h' : ReadsLine e ts e') : e'.line = s'.line := by
  rw [h.line, h'.line] at he
  exact List.append_cancel_left he

namespace OnLine

variable {α β : Type}

theorem bind {read : Stream → Except ParseError (α × Stream)}
    {next : α → Stream → Except ParseError (β × Stream)}
    (h : OnLine read) (h' : ∀ a, OnLine (next a)) :
    OnLine fun s => read s >>= fun (a, s) => next a s := by
  intro s b s' hb
  obtain ⟨⟨a, t⟩, hr, hn⟩ := bind_eq_ok.1 hb
  obtain ⟨x, hx, hxe⟩ := h s a t hr
  obtain ⟨y, hy, hye⟩ := h' a t b s' hn
  refine ⟨x ++ y, hx.trans hy, fun e he => ?_⟩
  obtain ⟨f, hf, hef⟩ := hxe e he
  obtain ⟨e', he', hfe⟩ := hye f (line_congr he hx hef)
  exact ⟨e', bind_eq_ok.2 ⟨(a, f), hf, he'⟩, hef.trans hfe⟩

/-- A value that does not come from the stream. -/
theorem lift {x : Except ParseError α} {next : α → Stream → Except ParseError (β × Stream)}
    (h : ∀ a, OnLine (next a)) : OnLine fun s => x >>= fun a => next a s := by
  intro s b s' hb
  obtain ⟨a, ha, hn⟩ := bind_eq_ok.1 hb
  obtain ⟨ts, hts, hte⟩ := h a s b s' hn
  refine ⟨ts, hts, fun e he => ?_⟩
  obtain ⟨e', he', hr⟩ := hte e he
  exact ⟨e', bind_eq_ok.2 ⟨a, ha, he'⟩, hr⟩

theorem pure (a : α) : OnLine fun s => (return (a, s) : Except ParseError (α × Stream)) := by
  intro s b s' h
  cases h
  exact ⟨[], .refl s, fun e _ => ⟨e, rfl, .refl e⟩⟩

theorem expect (kind : Token.Kind) (hk : kind.endsLine = false) :
    OnLine fun s => s.expect kind := by
  intro s t s' h
  dsimp only at h
  unfold Stream.expect at h
  split at h
  · rename_i hc
    have hp : s.peek.kind.endsLine = false := by
      rw [Stream.check, beq_iff_eq] at hc
      exact hc ▸ hk
    have hr := ReadsLine.advance hp
    simp only [Except.ok.injEq] at h
    have ht : s.peek = t := by rw [← Stream.fst_advance, h]
    rw [h, ht] at hr
    refine ⟨[t], hr, fun e he => ⟨e.advance.2, ?_, ?_⟩⟩
    · have hpe : e.advance.1 = t := by rw [Stream.fst_advance, Stream.peek_congr he hp, ht]
      simp only [Stream.expect, Stream.check_congr he hk, hc, if_true, ← hpe]
    · have hre := ReadsLine.advance (s := e) (by rwa [Stream.peek_congr he hp])
      rwa [Stream.peek_congr he hp, ht] at hre
  · cases h

theorem map {read : Stream → Except ParseError (α × Stream)} (h : OnLine read) (f : α → β) :
    OnLine fun s => read s >>= fun (a, s) => return (f a, s) :=
  h.bind fun a => OnLine.pure (f a)

/-- A reader that looks at the next token first: where this is of some kind, the
reader may do what `branch` does. -/
theorem of_peek {read branch : Stream → Except ParseError (α × Stream)} (h : OnLine branch)
    {s : Stream} {kind : Token.Kind} (hs : s.peek.kind = kind) (hk : kind.endsLine = false)
    (hb : ∀ e, e.peek.kind = kind → read e = branch e) {a : α} {s' : Stream}
    (hr : read s = .ok (a, s')) : ∃ ts, ReadsLine s ts s' ∧
      ∀ e, e.line = s.line → ∃ e', read e = .ok (a, e') ∧ ReadsLine e ts e' := by
  rw [hb s hs] at hr
  obtain ⟨ts, hts, hte⟩ := h s a s' hr
  refine ⟨ts, hts, fun e he => ?_⟩
  obtain ⟨e', he', hre⟩ := hte e he
  exact ⟨e', by rw [hb e (by rw [Stream.peek_congr he (hs ▸ hk), hs]), he'], hre⟩

/-- A reader that asks whether the next token is of a kind. -/
theorem ite (kind : Token.Kind) (hk : kind.endsLine = false)
    {yes no : Stream → Except ParseError (α × Stream)} (hy : OnLine yes) (hn : OnLine no) :
    OnLine fun s => if s.check kind then yes s else no s := by
  intro s a s' h
  cases hc : s.check kind with
  | true =>
    simp only [hc, if_true] at h
    obtain ⟨ts, hts, hte⟩ := hy s a s' h
    refine ⟨ts, hts, fun e he => ?_⟩
    simp only [Stream.check_congr he hk, hc, if_true]
    exact hte e he
  | false =>
    simp only [hc, Bool.false_eq_true, if_false] at h
    obtain ⟨ts, hts, hte⟩ := hn s a s' h
    refine ⟨ts, hts, fun e he => ?_⟩
    simp only [Stream.check_congr he hk, hc, Bool.false_eq_true, if_false]
    exact hte e he

end OnLine

/-! ## Operands -/

theorem onLine_number (width : Width) : OnLine (number width) :=
  (OnLine.expect .number rfl).bind fun _ => OnLine.lift fun n => OnLine.pure n

theorem onLine_register : OnLine register := by
  intro s r s' h
  unfold register at h
  split at h
  · rename_i reg hk
    cases h
    have hp : s.peek.kind.endsLine = false := by rw [hk]; rfl
    refine ⟨[s.peek], .advance hp, fun e he => ⟨e.advance.2, ?_, ?_⟩⟩
    · rw [register, Stream.peek_congr he hp, hk]
    · rw [← Stream.peek_congr he hp]
      exact .advance (by rwa [Stream.peek_congr he hp])
  · cases h

theorem onLine_source : OnLine source := by
  intro s src s' h
  cases hk : s.peek.kind with
  | register r =>
    refine (onLine_register.map Source.register).of_peek hk rfl (fun e he => ?_) h
    simp only [source, register, he]; rfl
  | number =>
    refine ((onLine_number .byte).map Source.immediate).of_peek hk rfl (fun e he => ?_) h
    simp only [source, he]
  | _ => simp [source, hk] at h

theorem onLine_label : OnLine label :=
  (OnLine.expect .identifier rfl).map fun t => Label.mk t.lexeme t.line

theorem onLine_address : OnLine address := by
  intro s a s' h
  cases hk : s.peek.kind with
  | nextAddr =>
    refine ((OnLine.expect .nextAddr rfl).map fun _ => Address.next).of_peek hk rfl
      (fun e he => ?_) h
    simp only [address, Stream.expect, Stream.check, he]; rfl
  | number =>
    refine ((onLine_number .word).map Address.immediate).of_peek hk rfl (fun e he => ?_) h
    simp only [address, he]
  | identifier =>
    refine (onLine_label.map Address.label).of_peek hk rfl (fun e he => ?_) h
    simp only [address, he]
  | _ => simp [address, hk] at h

theorem onLine_target : OnLine target :=
  OnLine.ite .identifier rfl (onLine_label.map some) (OnLine.pure none)

/-- Where a comma is next, taking a token is reading a comma. -/
theorem access_eq : access = fun s => register s >>= fun (r, s) =>
    if s.check .comma then
      s.expect .comma >>= fun (_, s) => number .word s >>= fun (n, s) => return ((r, some n), s)
    else return ((r, none), s) := by
  funext s
  unfold access
  congr 1
  funext ⟨r, t⟩
  cases hc : t.check .comma with
  | true => simp only [Stream.expect, hc, if_true]; rfl
  | false => simp only [hc, Bool.false_eq_true, if_false]

theorem onLine_access : OnLine access := by
  rw [access_eq]
  have hn (r : Register) := (OnLine.expect .comma rfl).bind fun _ =>
    (onLine_number .word).map fun n => (r, some n)
  exact onLine_register.bind fun r => OnLine.ite .comma rfl (hn r) (OnLine.pure (r, none))

theorem onLine_transfer : OnLine transfer :=
  onLine_register.bind fun r => (OnLine.expect .comma rfl).bind fun _ =>
    onLine_source.map fun src => (r, src)

theorem onLine_instruction (op : Mnemonic) : OnLine (instruction op) := by
  cases op with
  | nop => exact OnLine.pure Instruction.nop
  | hlt => exact OnLine.pure Instruction.hlt
  | lw => exact onLine_access.map fun p => Instruction.lw p.1 p.2
  | sw => exact onLine_access.map fun p => Instruction.sw p.1 p.2
  | mw => exact onLine_transfer.map fun p => Instruction.mw p.1 p.2
  | add => exact onLine_transfer.map fun p => Instruction.add p.1 p.2
  | sub => exact onLine_transfer.map fun p => Instruction.sub p.1 p.2
  | push => exact onLine_source.map Instruction.push
  | tel => exact onLine_source.map Instruction.tel
  | out => exact onLine_source.map Instruction.out
  | pop => exact onLine_register.map Instruction.pop
  | lda => exact onLine_address.map Instruction.lda
  | jmp => exact onLine_target.map Instruction.jmp
  | jo => exact onLine_target.map Instruction.jo
  | jz => exact onLine_register.bind fun r => onLine_target.map (Instruction.jz r)

/-! ## Arguments -/

theorem not_ends_of_isArgument {kind : Token.Kind} (h : isArgument kind = true) :
    kind.endsLine = false := by
  simp only [isArgument, Bool.and_eq_true, Bool.not_eq_true'] at h
  exact h.2

theorem ne_comma_of_isArgument {kind : Token.Kind} (h : isArgument kind = true) :
    (kind != .comma) = true := by
  simp only [isArgument, Bool.and_eq_true] at h
  exact h.1.1

theorem someArguments_eq_ok {name : Token} {s s' : Stream} {args : Array Token}
    {found : List Token} (h : someArguments name s args = .ok (found, s')) :
    ReadsLine s s.line s' ∧ s'.line = [] ∧
      found = args.toList ++ s.line.filter (·.kind != .comma) ∧
      ∀ a ∈ s.line.filter (·.kind != .comma), isArgument a.kind = true := by
  fun_induction someArguments name s args with
  | case1 s args ha u found' hc ih =>
    have hs := not_ends_of_isArgument ha
    have hu : u.peek.kind = .comma := by simpa [Stream.check] using hc
    have hue : u.peek.kind.endsLine = false := by rw [hu]; rfl
    have hr : ReadsLine s [s.peek, u.peek] u.advance.2 := (ReadsLine.advance hs).trans (.advance hue)
    obtain ⟨hl, hn, rfl, hall⟩ := ih h
    have hf : s.line.filter (·.kind != .comma) =
        s.peek :: u.advance.2.line.filter (·.kind != .comma) := by
      rw [hr.line]
      simp [ne_comma_of_isArgument ha, hu]
    rw [hf]
    refine ⟨hr.line ▸ hr.trans hl, hn, by simp [found'], fun a hm => ?_⟩
    rcases List.mem_cons.1 hm with rfl | hm
    · exact ha
    · exact hall a hm
  | case2 s args ha u found' hc he =>
    simp only [Except.ok.injEq, Prod.mk.injEq] at h
    obtain ⟨rfl, rfl⟩ := h
    have hr := ReadsLine.advance (not_ends_of_isArgument ha)
    have hu : u.line = [] := Stream.line_eq_nil_iff.2 he
    have hl : s.line = [s.peek] := by rw [hr.line, hu, List.append_nil]
    rw [hl]
    refine ⟨hr, hu, by simp [found', ne_comma_of_isArgument ha], fun a hm => ?_⟩
    rw [List.mem_singleton.1 (List.mem_filter.1 hm).1]
    exact ha
  | case3 => cases h
  | case4 => cases h

/-- The arguments of a call are the tokens of the current line but its commas,
and reading them leaves nothing of the line. -/
theorem arguments_eq_ok {name : Token} {s s' : Stream} {args : List Token}
    (h : arguments name s = .ok (args, s')) :
    ReadsLine s s.line s' ∧ s'.line = [] ∧ args = s.line.filter (·.kind != .comma) ∧
      ∀ a ∈ args, isArgument a.kind = true := by
  unfold arguments at h
  split at h
  · rename_i he
    cases h
    rw [Stream.line_eq_nil_iff.2 he]
    exact ⟨.refl s, rfl, rfl, by simp⟩
  · obtain ⟨hr, hn, rfl, hall⟩ := someArguments_eq_ok h
    exact ⟨hr, hn, rfl, hall⟩

end Parse

end IndentAsm
