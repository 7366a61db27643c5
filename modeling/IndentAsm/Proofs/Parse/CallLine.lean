import Mathlib.Data.List.Forall2
import IndentAsm.Proofs.Parse.Nesting

/-!
# A call takes the rest of its line

What stands between the name of a macro and the end of the line are the arguments.
`Listed` says which lines are lists of arguments, and `Faulty` what the first fault
of any other line is. Both kinds of lines begin with arguments that have a comma
behind them (`Begun`), and reading comes through these whatever follows.

The faults of the list come first, then a wrong number of arguments, and then too
deep a nesting.

**Results.**
* `listed_or_faulty`: a line is a list of arguments or has a first fault.
* `arguments_eq_ok_iff`, `arguments_eq_error_iff`: reading the arguments finds out
  which.
* `forall₂_substituted_expand`: an expansion is the body with the arguments put in,
  token by token.
* `takesLine_of_reachable`: what a call does with its line, in every state of every
  run.
-/
namespace IndentAsm

namespace Stream

def lineEnd (s : Stream) : Token := (s.tokens.find? (·.kind.endsLine)).getD s.eof

/-- What is left to be read from the next line end on, each token with its depth. -/
def fromLineEnd (s : Stream) : List (Token × Nat) :=
  s.unread.dropWhile fun p => !p.1.kind.endsLine

theorem lineEnd_of_line_nil {s : Stream} (h : s.line = []) : s.lineEnd = s.peek := by
  have hp := line_eq_nil_iff.1 h
  cases hts : s.tokens with
  | nil => rw [lineEnd, hts, peek_of_tokens_nil hts]; rfl
  | cons t ts =>
    rw [peek_of_tokens hts] at hp ⊢
    simp [lineEnd, hts, hp]

theorem fromLineEnd_of_line_nil {s : Stream} (h : s.line = []) : s.fromLineEnd = s.unread := by
  have hp := line_eq_nil_iff.1 h
  rw [peek_eq] at hp
  cases hu : s.unread with
  | nil => rw [fromLineEnd, hu]; rfl
  | cons p ps =>
    have hk : p.1.kind.endsLine = true := by simpa [hu] using hp
    simp [fromLineEnd, hu, hk]

/-- Tokens of the current line stand before its end. -/
theorem ReadsLine.lineEnd {s s' : Stream} {ts : List Token} (h : ReadsLine s ts s') :
    s'.lineEnd = s.lineEnd := by
  obtain ⟨taken, hr, rfl, hn⟩ := h
  have hnone : (taken.map Prod.fst).find? (·.kind.endsLine) = none :=
    List.find?_eq_none.2 fun t ht => by simp [hn t ht]
  rw [Stream.lineEnd, Stream.lineEnd, tokens_of_reads hr, List.find?_append, hnone, hr.eof,
    Option.none_or]

theorem ReadsLine.fromLineEnd {s s' : Stream} {ts : List Token} (h : ReadsLine s ts s') :
    s'.fromLineEnd = s.fromLineEnd := by
  obtain ⟨taken, hr, rfl, hn⟩ := h
  rw [Stream.fromLineEnd, Stream.fromLineEnd, hr.unread, List.dropWhile_append_of_pos]
  intro p hp
  simp [hn p.1 (List.mem_map_of_mem hp)]

/-- The first token of the current line is taken from it. -/
theorem readsLine_of_line_cons {s : Stream} {t : Token} {ts : List Token} (h : s.line = t :: ts) :
    s.peek = t ∧ t.kind.endsLine = false ∧ ReadsLine s [t] s.advance.2 ∧ s.advance.2.line = ts := by
  obtain ⟨rfl, rfl⟩ := of_line_cons h
  have hm : s.peek ∈ s.line := by rw [h]; exact List.mem_cons_self
  have hp := not_ends_of_mem_lineOf hm
  exact ⟨rfl, hp, .advance hp, rfl⟩

end Stream

namespace Parse

open IndentAsm.Stream (ReadsLine)

/-! ## Lists of arguments -/

/-- A token of a line that can be an argument. -/
def CanStand (t : Token) : Prop := t.kind ≠ .comma ∧ t.kind ≠ .indent

/-- The tokens `ts` are the arguments `args`, each with a comma behind it. -/
inductive Begun : List Token → List Token → Prop where
  | nil : Begun [] []
  | cons {a c : Token} {args ts : List Token} (arg : CanStand a) (comma : c.kind = .comma)
      (rest : Begun args ts) : Begun (a :: args) (a :: c :: ts)

/-- The tokens of a line are the arguments `args`, with commas between them. -/
inductive Listed : List Token → List Token → Prop where
  | none : Listed [] []
  | some {a : Token} {args ts : List Token} (begun : Begun args ts) (last : CanStand a) :
      Listed (args ++ [a]) (ts ++ [a])

/-- The first fault of a line that is no list of arguments, where `name` is called and
`lineEnd` comes behind the line. -/
inductive Faulty (name lineEnd : Token) : List Token → ParseError → Prop where
  /-- Another token stands where an argument has to. -/
  | misplaced {t : Token} {args ts rest : List Token} (begun : Begun args ts)
      (kind : t.kind = .comma ∨ t.kind = .indent) :
      Faulty name lineEnd (ts ++ t :: rest) (.expected .argument t)
  /-- No argument follows the last comma. -/
  | missing {args ts : List Token} (begun : Begun args ts) (ne : ts ≠ []) :
      Faulty name lineEnd ts (.expected .argument lineEnd)
  /-- No comma stands behind an argument. -/
  | unseparated {a t : Token} {args ts rest : List Token} (begun : Begun args ts)
      (arg : CanStand a) (kind : t.kind ≠ .comma) :
      Faulty name lineEnd (ts ++ a :: t :: rest) (.unterminatedCall name t)

/-- A line begins with as many arguments and commas as there are. -/
theorem exists_begun : ∀ line : List Token, ∃ args ts rest, Begun args ts ∧ line = ts ++ rest ∧
    ∀ a c more, rest = a :: c :: more → CanStand a → c.kind ≠ .comma
  | [] => ⟨[], [], [], .nil, rfl, by simp⟩
  | [t] => ⟨[], [], [t], .nil, rfl, by simp⟩
  | t :: c :: line => by
    by_cases h : CanStand t ∧ c.kind = .comma
    · obtain ⟨args, ts, rest, hb, rfl, hr⟩ := exists_begun line
      exact ⟨t :: args, t :: c :: ts, rest, .cons h.1 h.2 hb, rfl, hr⟩
    · refine ⟨[], [], t :: c :: line, .nil, rfl, ?_⟩
      rintro _ _ _ ⟨⟩ ha hc
      exact h ⟨ha, hc⟩

theorem listed_or_faulty (name lineEnd : Token) (line : List Token) :
    (∃ args, Listed args line) ∨ ∃ e, Faulty name lineEnd line e := by
  obtain ⟨args, ts, rest, hb, rfl, hr⟩ := exists_begun line
  match rest with
  | [] =>
    rw [List.append_nil]
    cases hb with
    | nil => exact .inl ⟨[], .none⟩
    | cons arg comma rest => exact .inr ⟨_, .missing (.cons arg comma rest) (List.cons_ne_nil _ _)⟩
  | t :: more =>
    by_cases ht : CanStand t
    · match more with
      | [] => exact .inl ⟨_, .some hb ht⟩
      | c :: more => exact .inr ⟨_, .unseparated hb ht (hr t c more rfl ht)⟩
    · exact .inr ⟨_, .misplaced hb (by simpa [CanStand, or_iff_not_imp_left] using ht)⟩

/-! ## Reading the arguments -/

theorem isArgument_iff {t : Token} (h : t.kind.endsLine = false) :
    isArgument t.kind = true ↔ CanStand t := by
  simp [isArgument, CanStand, h]

section
variable {s : Stream}

/-- One turn of the loop. -/
theorem someArguments_cons (name : Token) (args : Array Token) {a c : Token} {ts : List Token}
    (h : s.line = a :: c :: ts) (arg : CanStand a) (comma : c.kind = .comma) :
    ∃ s', ReadsLine s [a, c] s' ∧ s'.line = ts ∧
      someArguments name s args = someArguments name s' (args.push a) := by
  obtain ⟨hp, he, hr, hl⟩ := Stream.readsLine_of_line_cons h
  obtain ⟨hp', -, hr', hl'⟩ := Stream.readsLine_of_line_cons hl
  refine ⟨_, hr.trans hr', hl', ?_⟩
  rw [someArguments_eq, hp, if_pos ((isArgument_iff he).2 arg), if_pos]
  simp [Stream.check, hp', comma]

/-- The loop comes through arguments that have a comma behind them. -/
theorem someArguments_of_begun (name : Token) (args : Array Token) {before ts rest : List Token}
    (h : Begun before ts) (hline : s.line = ts ++ rest) :
    ∃ s', ReadsLine s ts s' ∧ s'.line = rest ∧
      someArguments name s args = someArguments name s' (args ++ before.toArray) := by
  induction h generalizing s args with
  | nil => exact ⟨s, .refl s, hline, by simp⟩
  | @cons a c before ts arg comma _ ih =>
    obtain ⟨u, hu, hul, heq⟩ := someArguments_cons name args hline arg comma
    obtain ⟨s', hs', hl, heq'⟩ := ih (args.push a) hul
    refine ⟨s', hu.trans hs', hl, heq.trans (heq'.trans ?_)⟩
    simp

/-- The loop stops in front of what is no argument. -/
theorem someArguments_misplaced (name : Token) (args : Array Token) {t : Token} {ts : List Token}
    (h : s.line = t :: ts) (kind : t.kind = .comma ∨ t.kind = .indent) :
    someArguments name s args = .error (.expected .argument t) := by
  obtain ⟨hp, he, -, -⟩ := Stream.readsLine_of_line_cons h
  rw [someArguments_eq, hp, if_neg]
  rw [isArgument_iff he, CanStand]
  tauto

/-- It also stops at the end of the line. -/
theorem someArguments_missing (name : Token) (args : Array Token) (h : s.line = []) :
    someArguments name s args = .error (.expected .argument s.lineEnd) := by
  have hp := Stream.line_eq_nil_iff.1 h
  rw [someArguments_eq, if_neg, Stream.lineEnd_of_line_nil h]
  intro ha
  rw [not_ends_of_isArgument ha] at hp
  cases hp

theorem someArguments_last (name : Token) (args : Array Token) {a : Token} (h : s.line = [a])
    (last : CanStand a) : ∃ s', ReadsLine s [a] s' ∧
      someArguments name s args = .ok (args.toList ++ [a], s') := by
  obtain ⟨hp, he, hr, hl⟩ := Stream.readsLine_of_line_cons h
  have hends := Stream.line_eq_nil_iff.1 hl
  refine ⟨_, hr, ?_⟩
  rw [someArguments_eq, hp, if_pos ((isArgument_iff he).2 last), if_neg, if_pos hends,
    Array.toList_push]
  intro hc
  rw [Stream.check, beq_iff_eq] at hc
  rw [hc] at hends
  cases hends

theorem someArguments_unseparated (name : Token) (args : Array Token) {a t : Token}
    {ts : List Token} (h : s.line = a :: t :: ts) (arg : CanStand a) (kind : t.kind ≠ .comma) :
    someArguments name s args = .error (.unterminatedCall name t) := by
  obtain ⟨hp, he, -, hl⟩ := Stream.readsLine_of_line_cons h
  obtain ⟨hp', he', -, -⟩ := Stream.readsLine_of_line_cons hl
  rw [someArguments_eq, hp, if_pos ((isArgument_iff he).2 arg), hp', if_neg, if_neg (by simp [he'])]
  simpa [Stream.check, hp'] using kind

/-- Reading the arguments of a line that has some comes through those that have a
comma behind them. -/
theorem arguments_of_begun (name : Token) {before ts rest : List Token} (h : Begun before ts)
    (hline : s.line = ts ++ rest) (hne : s.line ≠ []) :
    ∃ s', ReadsLine s ts s' ∧ s'.line = rest ∧
      arguments name s = someArguments name s' before.toArray := by
  obtain ⟨s', hr, hl, heq⟩ := someArguments_of_begun name #[] h hline
  refine ⟨s', hr, hl, ?_⟩
  rw [arguments, if_neg (Stream.line_eq_nil_iff.not.1 hne), heq, Array.empty_append]

theorem arguments_of_listed (name : Token) {args : List Token} (h : Listed args s.line) :
    ∃ s', ReadsLine s s.line s' ∧ s'.line = [] ∧ arguments name s = .ok (args, s') := by
  generalize hline : s.line = line at h
  cases h with
  | none =>
    refine ⟨s, .refl s, hline, ?_⟩
    rw [arguments, if_pos (Stream.line_eq_nil_iff.1 hline)]
  | @some a args ts begun last =>
    obtain ⟨u, hu, hul, heq⟩ := arguments_of_begun name begun hline (by simp [hline])
    obtain ⟨s', hs', heq'⟩ := someArguments_last name args.toArray hul last
    have hl := hs'.line
    rw [hul] at hl
    exact ⟨s', hu.trans hs', by simpa using hl, heq.trans heq'⟩

theorem arguments_of_faulty {name : Token} {e : ParseError} (h : Faulty name s.lineEnd s.line e) :
    arguments name s = .error e := by
  generalize hline : s.line = line at h
  generalize hlast : s.lineEnd = lineEnd at h
  cases h with
  | misplaced begun kind =>
    obtain ⟨u, -, hul, heq⟩ := arguments_of_begun name begun hline (by simp [hline])
    rw [heq, someArguments_misplaced name _ hul kind]
  | missing begun ne =>
    obtain ⟨u, hu, hul, heq⟩ := arguments_of_begun name begun
      (hline.trans (List.append_nil _).symm) (hline ▸ ne)
    rw [heq, someArguments_missing name _ hul, hu.lineEnd, hlast]
  | unseparated begun arg kind =>
    obtain ⟨u, -, hul, heq⟩ := arguments_of_begun name begun hline (by simp [hline])
    rw [heq, someArguments_unseparated name _ hul arg kind]

/-- A line is read as the list of arguments that it is. -/
theorem arguments_eq_ok_iff (name : Token) {args : List Token} :
    (∃ s', arguments name s = .ok (args, s')) ↔ Listed args s.line := by
  constructor
  · rintro ⟨s', h⟩
    rcases listed_or_faulty name s.lineEnd s.line with ⟨found, hl⟩ | ⟨e, hf⟩
    · obtain ⟨u, -, -, hu⟩ := arguments_of_listed name hl
      rw [h] at hu
      cases hu
      exact hl
    · rw [arguments_of_faulty hf] at h
      cases h
  · intro h
    obtain ⟨s', -, -, hs'⟩ := arguments_of_listed name h
    exact ⟨s', hs'⟩

/-- Any other line is rejected for its first fault. -/
theorem arguments_eq_error_iff {name : Token} {e : ParseError} :
    arguments name s = .error e ↔ Faulty name s.lineEnd s.line e := by
  refine ⟨fun h => ?_, arguments_of_faulty⟩
  rcases listed_or_faulty name s.lineEnd s.line with ⟨args, hl⟩ | ⟨e', hf⟩
  · obtain ⟨u, -, -, hu⟩ := arguments_of_listed name hl
    rw [h] at hu
    cases hu
  · rw [arguments_of_faulty hf] at h
    cases h
    exact hf

end

/-! ## The expansion -/

/-- What the token `t` of a body becomes in the expansion: the argument at the first
position of the parameter it names, or itself where it names none. -/
inductive Substituted (params : List String) (args : List Token) (t : Token) : Token → Prop where
  | argument {i : Nat} {a : Token} (ident : t.kind = .identifier)
      (param : params[i]? = some t.lexeme) (first : ∀ j < i, params[j]? ≠ some t.lexeme)
      (arg : args[i]? = some a) : Substituted params args t a
  | kept (other : t.kind = .identifier → t.lexeme ∉ params) : Substituted params args t t

theorem substituted_argument? {m : Macro} {args : List Token} (h : args.length = m.params.length)
    (t : Token) : Substituted m.params args t ((m.argument? args t).getD t) := by
  unfold Macro.argument?
  split
  · rename_i hk
    cases hi : m.params.idxOf? t.lexeme with
    | none => exact .kept fun _ => List.idxOf?_eq_none_iff.1 hi
    | some i =>
      obtain ⟨hlt, hp, hf⟩ := List.idxOf?_eq_some_iff.1 hi
      have ha : args[i]? = some args[i] := List.getElem?_eq_getElem (h ▸ hlt)
      simp only [Option.bind_some, ha, Option.getD_some]
      refine .argument hk (by rw [List.getElem?_eq_getElem hlt, hp]) (fun j hj hjp => ?_) ha
      obtain ⟨hjl, hje⟩ := List.getElem?_eq_some_iff.1 hjp
      exact hf j hj hje
  · rename_i hk
    exact .kept fun hi => absurd hi hk

/-- An expansion is the body with the arguments put in, token by token. -/
theorem forall₂_substituted_expand {m : Macro} {args : List Token}
    (h : args.length = m.params.length) :
    List.Forall₂ (Substituted m.params args) m.body (m.expand args) := by
  rw [Macro.expand, List.forall₂_map_right_iff, List.forall₂_same]
  exact fun t _ => substituted_argument? h t

/-! ## Calls -/

section
variable {limit : Nat} {macros : NameMap Macro} {name : Token} {m : Macro} {s : Stream}

/-- Behind its arguments, a call is checked for their number, and then for its depth. -/
theorem call_of_arguments (known : macros.get? name.lexeme = some m) {args : List Token}
    {u : Stream} (ha : arguments name s = .ok (args, u)) : call limit macros name s =
      if args.length ≠ m.params.length then .error (.macroArity name m.params.length args.length)
      else if limit ≤ s.depth then .error (.macroDepth name limit)
      else .ok (.macroExpanded name (m.expand args).length (s.depth + 1),
        u.insert (m.expand args)) := by
  simp only [call, ha, bind, Except.bind, known]
  rfl

theorem call_eq_ok_iff (known : macros.get? name.lexeme = some m) {event : Event} {v : Stream} :
    call limit macros name s = .ok (event, v) ↔ ∃ args u, arguments name s = .ok (args, u) ∧
      args.length = m.params.length ∧ s.depth < limit ∧ v = u.insert (m.expand args) ∧
      event = .macroExpanded name (m.expand args).length (s.depth + 1) := by
  constructor
  · intro h
    obtain ⟨m', args, u, hm, ha, hrest⟩ := call_eq_ok h
    rw [known] at hm
    cases hm
    exact ⟨args, u, ha, hrest⟩
  · rintro ⟨args, u, ha, hn, hd, rfl, rfl⟩
    rw [call_of_arguments known ha, if_neg (not_not.2 hn), if_neg (Nat.not_le.2 hd)]

theorem call_eq_error_iff (known : macros.get? name.lexeme = some m) {e : ParseError} :
    call limit macros name s = .error e ↔ arguments name s = .error e ∨
      ∃ args u, arguments name s = .ok (args, u) ∧
        (args.length ≠ m.params.length ∧ e = .macroArity name m.params.length args.length ∨
          args.length = m.params.length ∧ limit ≤ s.depth ∧ e = .macroDepth name limit) := by
  cases ha : arguments name s with
  | error e' => simp [call, ha, bind, Except.bind]
  | ok p =>
    obtain ⟨args, u⟩ := p
    rw [call_of_arguments known ha]
    by_cases hn : args.length = m.params.length
    · by_cases hd : limit ≤ s.depth
      · simp [hn, hd, eq_comm (a := e)]
      · simp [hn, hd]
    · simp [hn, eq_comm (a := e)]

end

/-- What a call of `name`, the macro `m`, does with the line behind the name, where `u`
is the stream. -/
structure TakesLine (limit : Nat) (macros : NameMap Macro) (name : Token) (m : Macro) (u : Stream) :
    Prop where
  /-- It is accepted where the line lists an argument for each parameter, and the name
  is not nested too deep. -/
  accepted : (∃ result, call limit macros name u = .ok result) ↔
    (∃ args, Listed args u.line ∧ args.length = m.params.length) ∧ u.depth < limit
  /-- The arguments are put into the body, and this comes before the end of the line. -/
  expanded : ∀ event v, call limit macros name u = .ok (event, v) → ∃ args expansion,
    Listed args u.line ∧ args.length = m.params.length ∧
    List.Forall₂ (Substituted m.params args) m.body expansion ∧
    v.unread = expansion.map (fun t => (t, u.depth + 1)) ++ u.fromLineEnd ∧ v.eof = u.eof
  /-- Otherwise it is rejected for the first fault of the line, for the number of
  arguments, or for the depth. -/
  rejected : ∀ e, call limit macros name u = .error e ↔
    Faulty name u.lineEnd u.line e ∨
    ∃ args, Listed args u.line ∧
      (args.length ≠ m.params.length ∧ e = .macroArity name m.params.length args.length ∨
        args.length = m.params.length ∧ limit ≤ u.depth ∧ e = .macroDepth name limit)

/-- Wherever the name of a macro was read, a call takes what is left of its line. -/
theorem takesLine_of_reachable {limit : Nat} {tokens : List Token} {s : State} {name : Token}
    {m : Macro} {u : Stream} (h : Reachable limit tokens s)
    (next : s.stream.next? = some (name, u)) (known : s.macros.get? name.lexeme = some m) :
    TakesLine limit s.macros name m u := by
  refine ⟨⟨?_, ?_⟩, fun event v hc => ?_, fun e => ?_⟩
  · rintro ⟨⟨event, v⟩, hc⟩
    obtain ⟨args, w, ha, hn, hd, -, -⟩ := (call_eq_ok_iff known).1 hc
    exact ⟨⟨args, (arguments_eq_ok_iff name).1 ⟨w, ha⟩, hn⟩, hd⟩
  · rintro ⟨⟨args, hl, hn⟩, hd⟩
    obtain ⟨w, ha⟩ := (arguments_eq_ok_iff name).2 hl
    exact ⟨_, (call_eq_ok_iff known).2 ⟨args, w, ha, hn, hd, rfl, rfl⟩⟩
  · obtain ⟨args, w, ha, hn, -, rfl, -⟩ := (call_eq_ok_iff known).1 hc
    obtain ⟨hr, hwl, -, -⟩ := arguments_eq_ok ha
    -- the line comes from one frame, so the expansion is one deeper than the name
    obtain ⟨ts, below, hu, hnest⟩ := (inv_of_reachable h).next? next
    obtain ⟨-, -, -, hdepth, hreads⟩ := Stream.frames_of_readsLine hu hnest.ends hr
    refine ⟨args, m.expand args, (arguments_eq_ok_iff name).1 ⟨w, ha⟩, hn,
      forall₂_substituted_expand hn, ?_, hreads.eof⟩
    rw [Stream.unread_insert, hdepth, ← Stream.fromLineEnd_of_line_nil hwl, hr.fromLineEnd]
  · simp only [call_eq_error_iff known, arguments_eq_error_iff, ← arguments_eq_ok_iff name,
      exists_and_right]

/-- The call of `leap` stands in the expansion of `apply`. Its line ends in the source. -/
theorem takesLine_callThrough : ∃ s u, Reachable 64 callThrough s ∧
    s.stream.next? = some (⟨.identifier, "leap", 4⟩, u) ∧
    s.macros.get? "leap" =
      some ⟨"leap", 1, ["x"], [⟨.operation .jmp, "JMP", 1⟩, ⟨.identifier, "x", 1⟩]⟩ ∧
    u.line = [⟨.identifier, "main", 4⟩] ∧ u.depth = 1 ∧
    u.fromLineEnd = [(⟨.newLine, "\n", 4⟩, 0), (⟨.eof, "", 5⟩, 0)] ∧
    TakesLine 64 s.macros ⟨.identifier, "leap", 4⟩
      ⟨"leap", 1, ["x"], [⟨.operation .jmp, "JMP", 1⟩, ⟨.identifier, "x", 1⟩]⟩ u := by
  have hleap : (State.after 64 4 (.ofTokens callThrough)).bind (·.macros.get? "leap") =
      some ⟨"leap", 1, ["x"], [⟨.operation .jmp, "JMP", 1⟩, ⟨.identifier, "x", 1⟩]⟩ := by
    decide +kernel
  have hnext : (State.after 64 4 (.ofTokens callThrough)).bind (fun s => s.stream.next?.map
      fun p => (p.1, p.2.line, p.2.depth, p.2.fromLineEnd)) =
        some (⟨.identifier, "leap", 4⟩, [⟨.identifier, "main", 4⟩], 1,
          [(⟨.newLine, "\n", 4⟩, 0), (⟨.eof, "", 5⟩, 0)]) := by decide +kernel
  obtain ⟨s, hs, known⟩ := Option.bind_eq_some_iff.1 hleap
  rw [hs, Option.bind_some] at hnext
  obtain ⟨⟨t, u⟩, next, hu⟩ := Option.map_eq_some_iff.1 hnext
  simp only [Prod.mk.injEq] at hu
  obtain ⟨rfl, hline, hdepth, hfrom⟩ := hu
  have hr := reachable_of_after hs
  exact ⟨s, u, hr, next, known, hline, hdepth, hfrom, takesLine_of_reachable hr next known⟩

end Parse

end IndentAsm
