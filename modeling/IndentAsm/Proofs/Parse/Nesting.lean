import IndentAsm.Proofs.Parse.Shape
import IndentAsm.Proofs.Parse.Step

/-!
# Expansions are nested at line ends

The stack of frames has the source at its bottom and expansions above it. An
expansion is put in where a line ends and holds whole lines of code, so a line
never runs from one frame into another, and what is between definitions is
always source.

`Nested` is the invariant of the stack. Taking tokens keeps it, whatever they
are (`Nested.reads`), so it holds within a step as well as between steps. Only
a call puts in a frame, and only at a line end (`call_in_frame`).

**Results.**
* `frames_of_readsLine`: tokens of one line come from one frame.
* `inv_step`, `inv_of_reachable`: the invariant of the reader, along every run.
* `ends_within_limit`: every run ends, and no frame is deeper than the limit.
* `keepsLines_of_reachable`: frames meet at line ends, calls and instructions
  are read from one frame, and definitions from the source.
-/
namespace IndentAsm

namespace Frame

/-- The unread tokens of a stack of frames, without their depths. -/
def flat (fs : List Frame) : List Token := fs.flatMap Frame.tokens

/-- The first unread token, if there is one, ends a line. -/
def AtLineEnd (fs : List Frame) : Prop := ∀ t ∈ (flat fs).head?, t.kind.endsLine = true

@[simp] theorem flat_cons (f : Frame) (fs : List Frame) : flat (f :: fs) = f.tokens ++ flat fs := rfl

theorem flat_append (fs gs : List Frame) : flat (fs ++ gs) = flat fs ++ flat gs :=
  List.flatMap_append

theorem flat_of_exhausted {fs : List Frame} (h : ∀ f ∈ fs, f.tokens = []) : flat fs = [] :=
  List.flatMap_eq_nil_iff.2 h

/-- The first unread token is taken from the first frame that has one. The
frames above that one go. -/
theorem uncons?_split {fs gs : List Frame} {t : Token} {d : Nat}
    (h : uncons? fs = some (t, d, gs)) : ∃ above ts below, fs = above ++ ⟨t :: ts, d⟩ :: below ∧
      (∀ f ∈ above, f.tokens = []) ∧ gs = ⟨ts, d⟩ :: below := by
  fun_induction uncons? fs with
  | case1 => cases h
  | case2 d' fs ih =>
    obtain ⟨above, ts, below, rfl, ha, hg⟩ := ih h
    refine ⟨⟨[], d'⟩ :: above, ts, below, rfl, fun f hf => ?_, hg⟩
    rcases List.mem_cons.1 hf with rfl | hf
    · rfl
    · exact ha f hf
  | case3 t ts d fs =>
    cases h
    exact ⟨[], ts, fs, rfl, by simp, rfl⟩

end Frame

namespace Stream

theorem tokens_eq (s : Stream) : s.tokens = Frame.flat s.frames := by
  simp [tokens, unread, Frame.flat, Frame.unread, List.map_flatMap, Function.comp_def]

theorem frames_of_next? {s u : Stream} {t : Token} (h : s.next? = some (t, u)) :
    ∃ above ts below, s.frames = above ++ ⟨t :: ts, u.depth⟩ :: below ∧
      (∀ f ∈ above, f.tokens = []) ∧ u.frames = ⟨ts, u.depth⟩ :: below := by
  obtain ⟨⟨t', d, fs⟩, hu, he⟩ := Option.map_eq_some_iff.1 h
  simp only [Prod.mk.injEq] at he
  obtain ⟨rfl, rfl⟩ := he
  exact Frame.uncons?_split hu

theorem atLineEnd_frames {s : Stream} (h : s.peek.kind.endsLine = true) :
    Frame.AtLineEnd s.frames := by
  intro t ht
  rwa [endsLine_peek, tokens_eq, ht] at h

/-- Where the frames below start with a line end, the tokens of a line are all
taken from the frame on top, at its depth. -/
theorem frames_of_readsLine {s s' : Stream} {ts xs : List Token} {below : List Frame}
    (hf : s.frames = ⟨ts, s.depth⟩ :: below) (hb : Frame.AtLineEnd below)
    (h : ReadsLine s xs s') : ∃ ts', ts = xs ++ ts' ∧ s'.frames = ⟨ts', s.depth⟩ :: below ∧
      s'.depth = s.depth ∧ Reads s (xs.map fun t => (t, s.depth)) s' := by
  obtain ⟨taken, hr, rfl, hn⟩ := h
  induction hr generalizing ts with
  | refl s => exact ⟨ts, rfl, hf, rfl, .refl s⟩
  | @next s u s' t taken hnext hrest ih =>
    obtain ⟨above, us, below', hs, ha, hu⟩ := frames_of_next? hnext
    cases above with
    | nil =>
      rw [hf, List.nil_append, List.cons.injEq, Frame.mk.injEq] at hs
      obtain ⟨⟨rfl, hd⟩, rfl⟩ := hs
      obtain ⟨ts', rfl, hs', hd', hr'⟩ := ih hu fun x hx => hn x (List.mem_cons_of_mem _ hx)
      rw [hd]
      exact ⟨ts', rfl, hs', hd', .next hnext hr'⟩
    | cons f above =>
      -- the frame on top has nothing left, so the token would be a line end
      rw [hf, List.cons_append, List.cons.injEq] at hs
      obtain ⟨-, rfl⟩ := hs
      have ht := hb t (by
        rw [Frame.flat_append, Frame.flat_of_exhausted fun g hg => ha g (List.mem_cons_of_mem _ hg)]
        rfl)
      rw [hn t List.mem_cons_self] at ht
      cases ht

end Stream

namespace Parse

open IndentAsm.Stream (Reads ReadsLine)
open IndentAsm.Frame (AtLineEnd)

/-- A stack of frames as reading a program makes them: the source at the bottom,
and above it code of several lines, put in where a line ended. A frame is as
deep as there are frames below it. -/
inductive Nested (indent : Option String) (source : List Token) : List Frame → Prop where
  | source {ts : List Token} (suffix : ts <:+ source) : Nested indent source [⟨ts, 0⟩]
  | expansion {ts : List Token} {fs : List Frame} (lined : Lined indent ts)
      (ends : AtLineEnd fs) (below : Nested indent source fs) :
      Nested indent source (⟨ts, fs.length⟩ :: fs)

namespace Nested

variable {indent indent' : Option String} {source : List Token}

theorem mono {fs : List Frame} (h : Nested indent source fs) (hk : Keeps indent indent') :
    Nested indent' source fs := by
  induction h with
  | source suffix => exact .source suffix
  | expansion lined ends _ ih => exact .expansion (lined.mono hk) ends ih

theorem ne_nil {fs : List Frame} (h : Nested indent source fs) : fs ≠ [] := by
  cases h <;> simp

theorem of_append {above below : List Frame} {f : Frame}
    (h : Nested indent source (above ++ f :: below)) : Nested indent source (f :: below) := by
  induction above with
  | nil => exact h
  | cons g above ih =>
    rw [List.cons_append] at h
    generalize hfs : above ++ f :: below = fs at h ih
    cases h with
    | source suffix => simp at hfs
    | expansion lined ends below => exact ih below

theorem depth_eq {below : List Frame} {f : Frame} (h : Nested indent source (f :: below)) :
    f.depth = below.length := by
  cases h <;> rfl

theorem ends {below : List Frame} {f : Frame} (h : Nested indent source (f :: below)) :
    AtLineEnd below := by
  cases h with
  | source suffix => intro t ht; cases ht
  | expansion lined ends below => exact ends

/-- Taking a token from the frame on top. -/
theorem tail {t : Token} {ts : List Token} {d : Nat} {below : List Frame}
    (h : Nested indent source (⟨t :: ts, d⟩ :: below)) :
    Nested indent source (⟨ts, d⟩ :: below) := by
  cases h with
  | source suffix => exact .source ((List.suffix_cons t ts).trans suffix)
  | expansion lined ends below => exact .expansion lined.2.2 ends below

theorem reads {s u : Stream} {taken : List (Token × Nat)} (h : Nested indent source s.frames)
    (hr : Reads s taken u) : Nested indent source u.frames := by
  induction hr with
  | refl s => exact h
  | next hn _ ih =>
    obtain ⟨above, ts, below, hs, -, hu⟩ := Stream.frames_of_next? hn
    rw [hs] at h
    rw [hu] at ih
    exact ih h.of_append.tail

end Nested

theorem length_frames_of_reads {s u : Stream} {taken : List (Token × Nat)} (h : Reads s taken u) :
    u.frames.length ≤ s.frames.length := by
  induction h with
  | refl s => exact Nat.le_refl _
  | next hn _ ih =>
    obtain ⟨above, ts, below, hs, -, hu⟩ := Stream.frames_of_next? hn
    rw [hu, List.length_cons] at ih
    rw [hs, List.length_append, List.length_cons]
    omega

/-- No expansion is left unread. -/
def AtSource (s : Stream) : Prop := s.frames.length = 1 ∨ s.tokens = []

theorem AtSource.reads {indent : Option String} {source : List Token} {s u : Stream}
    {taken : List (Token × Nat)} (h : AtSource s) (hn : Nested indent source s.frames)
    (hr : Reads s taken u) : AtSource u := by
  rcases h with h | h
  · have hle := length_frames_of_reads hr
    have hpos := List.length_pos_iff.2 (hn.reads hr).ne_nil
    exact Or.inl (by omega)
  · rw [Stream.tokens_of_reads hr, List.append_eq_nil_iff] at h
    exact Or.inr h.2

/-- Then there is one frame, unless nothing is left. -/
theorem AtSource.frames_eq {indent : Option String} {source : List Token} {s : Stream}
    (h : AtSource s) (hn : Nested indent source s.frames) (hne : s.tokens ≠ []) :
    s.frames = [⟨s.tokens, 0⟩] := by
  rcases h with h | h
  · obtain ⟨f, hf⟩ := List.length_eq_one_iff.1 h
    have htok : s.tokens = f.tokens := by
      rw [Stream.tokens_eq, hf]
      exact List.append_nil _
    rw [hf] at hn
    obtain ⟨ts, d⟩ := f
    have hd : d = 0 := hn.depth_eq
    rw [hf, htok, hd]
  · exact absurd h hne

/-- What is left unread is then the end of the source. -/
theorem AtSource.unread_eq {indent : Option String} {source : List Token} {s : Stream}
    (h : AtSource s) (hn : Nested indent source s.frames) :
    ∃ ts, ts <:+ source ∧ s.unread = ts.map fun t => (t, 0) := by
  rcases h with h | h
  · obtain ⟨f, hf⟩ := List.length_eq_one_iff.1 h
    rw [hf] at hn
    cases hn with
    | source suffix =>
      refine ⟨_, suffix, ?_⟩
      rw [Stream.unread, hf]
      exact List.append_nil _
    | expansion lined ends below => exact absurd rfl below.ne_nil
  · exact ⟨[], List.nil_suffix, by simpa [Stream.tokens] using h⟩

structure Inv (limit : Nat) (source : List Token) (s : State) : Prop where
  nested : Nested s.indent source s.stream.frames
  height : s.stream.frames.length ≤ limit + 1
  macros : ∀ name m, s.macros.get? name = some m → Shaped s.indent m.body
  outside : s.place = .outside → AtSource s.stream

variable {limit : Nat} {source : List Token} {s v : State}

theorem inv_ofTokens (limit : Nat) (tokens : List Token) : Inv limit tokens (.ofTokens tokens) where
  nested := .source (List.suffix_refl tokens)
  height := by simp [State.ofTokens, Stream.ofTokens]
  macros := by simp [State.ofTokens]
  outside := fun _ => Or.inl rfl

/-- A state in which tokens were taken, and an indent may have been fixed. -/
theorem Inv.of_reads (h : Inv limit source s) {taken : List (Token × Nat)}
    (hr : Reads s.stream taken v.stream) (hk : Keeps s.indent v.indent)
    (hm : ∀ name m, v.macros.get? name = some m → Shaped v.indent m.body)
    (ho : v.place = .outside → AtSource v.stream) : Inv limit source v where
  nested := (h.nested.reads hr).mono hk
  height := Nat.le_trans (length_frames_of_reads hr) h.height
  macros := hm
  outside := ho

theorem keeps_of_forall {indent : Option String} {i : String} (h : ∀ j ∈ indent, j = i) :
    Keeps indent (some i) := fun j hj => by rw [h j hj]

/-! ## Steps -/

/-- A token that is taken comes from a frame on top of the stack. -/
theorem Inv.next? (h : Inv limit source s) {t : Token} {u : Stream}
    (hn : s.stream.next? = some (t, u)) : ∃ ts below, u.frames = ⟨ts, u.depth⟩ :: below ∧
      Nested s.indent source (⟨t :: ts, u.depth⟩ :: below) := by
  obtain ⟨above, ts, below, hs, -, hu⟩ := Stream.frames_of_next? hn
  have hnest := h.nested
  rw [hs] at hnest
  exact ⟨ts, below, hu, hnest.of_append⟩

/-- An instruction is read from the frame of its mnemonic, to the end of the
line. -/
theorem operation_in_frame (h : Inv limit source s) {t : Token} {u stream : Stream}
    {op : Mnemonic} {i : Instruction} (next : s.stream.next? = some (t, u))
    (read : instruction op u = .ok (i, stream)) (ends : stream.peek.kind.endsLine = true) :
    ∃ ts below, u.frames = ⟨u.line ++ ts, u.depth⟩ :: below ∧
      Reads u (u.line.map fun t => (t, u.depth)) stream ∧
      stream.frames = ⟨ts, u.depth⟩ :: below := by
  obtain ⟨us, below, hu, hnest⟩ := h.next? next
  obtain ⟨operands, hr, -⟩ := onLine_instruction op u i stream read
  have hline : u.line = operands := by
    rw [hr.line, Stream.line_eq_nil_iff.2 ends, List.append_nil]
  obtain ⟨ts, rfl, hf, -, hreads⟩ := Stream.frames_of_readsLine hu hnest.ends hr
  rw [hline]
  exact ⟨ts, below, hu, hreads, hf⟩

/-- The arguments of a call are read from the frame of its name, up to a line
end, and the expansion is a frame right on top of that one. -/
theorem call_in_frame (h : Inv limit source s) {t : Token} {u stream : Stream} {event : Event}
    (next : s.stream.next? = some (t, u))
    (read : call limit s.macros t u = .ok (event, stream)) : ∃ m args w ts below,
      s.macros.get? t.lexeme = some m ∧ arguments t u = .ok (args, w) ∧
      u.frames = ⟨u.line ++ ts, u.depth⟩ :: below ∧
      Reads u (u.line.map fun t => (t, u.depth)) w ∧ w.frames = ⟨ts, u.depth⟩ :: below ∧
      w.depth = u.depth ∧ u.depth < limit ∧ AtLineEnd w.frames ∧
      stream = w.insert (m.expand args) ∧ Shaped s.indent (m.expand args) ∧
      event = .macroExpanded t (m.expand args).length (u.depth + 1) := by
  obtain ⟨us, below, hu, hnest⟩ := h.next? next
  obtain ⟨m, args, w, hm, ha, -, hd, rfl, rfl⟩ := call_eq_ok read
  obtain ⟨hr, hw, -, harg⟩ := arguments_eq_ok ha
  obtain ⟨ts, rfl, hf, hdw, hreads⟩ := Stream.frames_of_readsLine hu hnest.ends hr
  refine ⟨m, args, w, ts, below, hm, ha, hu, hreads, hf, hdw, hd, ?_, rfl, ?_, rfl⟩
  · exact Stream.atLineEnd_frames (Stream.line_eq_nil_iff.1 hw)
  · exact (h.macros _ m hm).expand fun a ham => not_ends_of_isArgument (harg a ham)

/-- A token is taken from the source, or from code put in above it. -/
theorem Inv.source_or_code (h : Inv limit source s) {t : Token} {u : Stream}
    (hn : s.stream.next? = some (t, u)) :
    AtSource u ∨ ∃ ts rest, Lined s.indent (t :: ts) ∧ u.tokens = ts ++ rest := by
  obtain ⟨ts, below, hu, hnest⟩ := h.next? hn
  generalize hd : u.depth = d at hu hnest
  cases hnest with
  | source suffix => exact Or.inl (Or.inl (by rw [hu]; rfl))
  | expansion lined ends below =>
    exact Or.inr ⟨ts, _, lined, by rw [Stream.tokens_eq, hu, Frame.flat_cons]⟩

/-- In code, a line break is followed by another line. -/
theorem dropBlank_of_lined {indent : Option String} {t : Token} {ts : List Token}
    (h : Lined indent (t :: ts)) (kind : t.kind = .newLine) (rest : List Token) :
    ∃ i x xs, ts = i :: x :: xs ∧
      i.kind = .indent ∧ x.kind.endsLine = false ∧
      Stream.dropBlank (ts ++ rest) = i :: x :: (xs ++ rest) := by
  obtain ⟨i, x, xs, rfl, hi, -, hx⟩ := h.2.1 kind
  exact ⟨i, x, xs, rfl, hi, hx,
    Stream.dropBlank_of_not (Stream.startsBlank_of_not_ends (xs ++ rest) hi hx)⟩

/-- So a body is left at a line break of the source. -/
theorem atSource_of_leave (h : Inv limit source s) {t : Token} {u stream : Stream}
    (next : s.stream.next? = some (t, u)) (kind : t.kind = .newLine)
    (read : blockContinues s.indent u = .ok (none, stream)) : AtSource stream := by
  rcases h.source_or_code next with hu | ⟨ts, rest, hl, hu⟩
  · obtain ⟨taken, hr⟩ := forward_blockContinues _ _ _ _ read
    exact hu.reads (h.nested.reads (Stream.reads_next? next)) hr
  · obtain ⟨i, x, xs, -, hi, -, hb⟩ := dropBlank_of_lined hl kind rest
    obtain ⟨hs, hne⟩ := blockContinues_eq_none read
    rw [hs, hu, hb] at hne
    exact absurd hi (hne i rfl)

/-- The end token stands in the source. -/
theorem atSource_of_eof (h : Inv limit source s) (kind : s.stream.peek.kind = .eof) :
    AtSource s.stream.advance.2 := by
  cases hn : s.stream.next? with
  | none =>
    have hu := Stream.next?_eq_none_iff.1 hn
    rw [Stream.advance_of_unread_nil hu]
    exact Or.inr (by rw [Stream.tokens, hu]; rfl)
  | some p =>
    obtain ⟨t, u⟩ := p
    rw [advance_of_next? hn]
    rcases h.source_or_code hn with hu | ⟨ts, rest, hl, -⟩
    · exact hu
    · rw [Stream.peek_of_tokens (Stream.tokens_of_next? hn)] at kind
      exact absurd kind hl.1

theorem inv_step (h : Inv limit source s) (hs : Step limit s v) : Inv limit source v := by
  cases hs with
  | define place read fresh =>
    obtain ⟨x, hx⟩ := s.stream.reads_skipBlankLines
    obtain ⟨t, taken, hr⟩ := definition_reads_some read
    obtain ⟨hshape, hk⟩ := shaped_definition read
    refine h.of_reads (hx.trans hr) hk (fun name m' hm => ?_) fun _ =>
      (h.outside place).reads h.nested (hx.trans hr)
    rw [NameMap.get?_insert] at hm
    split at hm
    · cases hm
      exact hshape
    · exact (h.macros name m' hm).mono hk
  | header place ident colon fresh start =>
    obtain ⟨x, hx⟩ := s.stream.reads_skipBlankLines
    obtain ⟨y, hy⟩ := forward_blockStart _ _ _ _ start
    obtain ⟨-, -, hi⟩ := blockStart_eq_ok start
    have hk := keeps_of_forall hi
    exact h.of_reads (((hx.trans (Stream.reads_expect (by decide) ident)).trans
      (Stream.reads_expect (by decide) colon)).trans hy) hk
      (fun name m hm => (h.macros name m hm).mono hk) (by simp)
  | goOn place next kind read =>
    obtain ⟨x, hx⟩ := forward_blockContinues _ _ _ _ read
    obtain ⟨-, -, hi⟩ := blockContinues_eq_some read
    have hk := keeps_of_forall hi
    exact h.of_reads ((Stream.reads_next? next).trans hx) hk
      (fun name m hm => (h.macros name m hm).mono hk) (by simp [place])
  | leave place next kind read =>
    obtain ⟨x, hx⟩ := forward_blockContinues _ _ _ _ read
    exact h.of_reads ((Stream.reads_next? next).trans hx) (fun i hi => hi) h.macros
      fun _ => atSource_of_leave h next kind read
  | operation place next kind read ends =>
    obtain ⟨x, hx⟩ := forward_instruction _ _ _ _ read
    exact h.of_reads ((Stream.reads_next? next).trans hx) (fun i hi => hi) h.macros (by simp)
  | call place next kind read =>
    obtain ⟨m, args, w, ts, below, -, -, -, hr, hw, hdw, hd, hends, rfl, hshape, -⟩ :=
      call_in_frame h next read
    have hnest := h.nested.reads ((Stream.reads_next? next).trans hr)
    have hlen : w.frames.length = w.depth + 1 := by
      have hdepth := hnest
      rw [hw] at hdepth ⊢
      have := hdepth.depth_eq
      simp only at this
      rw [List.length_cons, hdw, this]
    refine ⟨?_, ?_, h.macros, by simp [place]⟩
    · have hexp := Nested.expansion hshape.lined hends hnest
      rwa [hlen] at hexp
    · show (w.insert (m.expand args)).frames.length ≤ limit + 1
      rw [Stream.insert, List.length_cons, hlen]
      omega
  | eof place kind =>
    obtain ⟨x, hx⟩ := s.stream.advance_follows
    exact h.of_reads hx (fun i hi => hi) h.macros fun _ => atSource_of_eof h kind

theorem inv_of_reachable {tokens : List Token} (h : Reachable limit tokens s) :
    Inv limit tokens s := by
  induction h with
  | refl => exact inv_ofTokens limit tokens
  | tail _ hs ih => exact inv_step ih hs

/-! ## Along every run -/

/-- In the body that is read at `s`, the call of `name` is accepted: `u` is the
stream behind the name, and `v` the one that starts with the expansion. -/
structure AcceptsCall (limit : Nat) (s : State) (name : Token) (u : Stream) (event : Event)
    (v : Stream) : Prop where
  inside : s.place ≠ .outside
  next : s.stream.next? = some (name, u)
  kind : name.kind = .identifier
  read : call limit s.macros name u = .ok (event, v)

/-- In the body that is read at `s`, the instruction of `mnemonic` is accepted:
`u` is the stream behind the mnemonic, and `v` the one behind the operands. -/
structure AcceptsInstruction (s : State) (mnemonic : Token) (u : Stream) (i : Instruction)
    (v : Stream) : Prop where
  inside : s.place ≠ .outside
  next : s.stream.next? = some (mnemonic, u)
  read : ∃ op, mnemonic.kind = .operation op ∧ instruction op u = .ok (i, v)
  ends : v.peek.kind.endsLine = true

theorem Inv.depth_le (h : Inv limit source s) {taken : List (Token × Nat)} {u : Stream}
    (hr : Reads s.stream taken u) {f : Frame} (hf : f ∈ u.frames) : f.depth ≤ limit := by
  obtain ⟨above, below, hfs⟩ := List.append_of_mem hf
  have hlen := length_frames_of_reads hr
  have hheight := h.height
  have hnest := h.nested.reads hr
  rw [hfs] at hnest hlen
  rw [hnest.of_append.depth_eq]
  rw [List.length_append, List.length_cons] at hlen
  omega

/-- Every run ends after finitely many steps, with the result of the reader,
and within the limit: no frame is ever deeper, and no call computes a depth
beyond it, neither the one it tells nor the one it puts its expansion at. -/
theorem ends_within_limit (limit : Nat) (tokens : List Token) :
    (∃ n s, State.after limit n (.ofTokens tokens) = some s ∧
      Stops limit s (ofTokens limit tokens).result ∧
      ∀ k, n < k → State.after limit k (.ofTokens tokens) = none) ∧
    ∀ n s, State.after limit n (.ofTokens tokens) = some s →
      (∀ taken u, Reads s.stream taken u → ∀ f ∈ u.frames, f.depth ≤ limit) ∧
      ∀ name u event v, AcceptsCall limit s name u event v →
        ∃ (w : Stream) (expansion : List Token), v = w.insert expansion ∧
        event = .macroExpanded name expansion.length (u.depth + 1) ∧
        u.depth + 1 ≤ limit ∧ w.depth + 1 ≤ limit := by
  refine ⟨exists_last limit _, fun n s hs => ?_⟩
  have hinv := inv_of_reachable (reachable_of_after hs)
  refine ⟨fun taken u hr f hf => hinv.depth_le hr hf, fun name u event v hc => ?_⟩
  obtain ⟨m, args, w, ts, below, -, -, -, -, -, hdw, hd, -, hv, -, he⟩ :=
    call_in_frame hinv hc.next hc.read
  exact ⟨w, m.expand args, hv, he, hd, by omega⟩

/-- A macro that calls itself, and a call of it. -/
def selfCall : List Token :=
  [⟨.macroKeyword, "@macro", 1⟩, ⟨.identifier, "again", 1⟩, ⟨.colon, ":", 1⟩,
    ⟨.identifier, "again", 1⟩, ⟨.newLine, "\n", 1⟩,
    ⟨.identifier, "main", 2⟩, ⟨.colon, ":", 2⟩, ⟨.newLine, "\n", 2⟩,
    ⟨.indent, "  ", 3⟩, ⟨.identifier, "again", 3⟩, ⟨.eof, "", 3⟩]

/-- With two levels it is expanded twice, and cut off at the third call. -/
theorem ends_within_limit_selfCall : ∃ s, State.after 2 4 (.ofTokens selfCall) = some s ∧
    s.stream.frames.map Frame.depth = [2, 1, 0] ∧
    s.step 2 = .error (.macroDepth ⟨.identifier, "again", 1⟩ 2) ∧
    ∀ taken u, Reads s.stream taken u → ∀ f ∈ u.frames, f.depth ≤ 2 := by
  have h : (State.after 2 4 (.ofTokens selfCall)).map
      (fun s => (s.stream.frames.map Frame.depth, s.error? 2)) =
        some ([2, 1, 0], some (.macroDepth ⟨.identifier, "again", 1⟩ 2)) := by decide +kernel
  obtain ⟨s, hs, hv⟩ := Option.map_eq_some_iff.1 h
  obtain ⟨hf, he⟩ := Prod.mk.inj hv
  exact ⟨s, hs, hf, step_of_error? he, ((ends_within_limit 2 selfCall).2 4 s hs).1⟩

/-- What the nesting of frames means for a state of a run. -/
structure KeepsLines (limit : Nat) (tokens : List Token) (s : State) : Prop where
  /-- At every point of the way, a frame is as deep as there are frames below
  it, these start with a line end, and the lowest one is the source. -/
  frames : ∀ taken u above f below, Reads s.stream taken u → u.frames = above ++ f :: below →
    f.depth = below.length ∧ AtLineEnd below ∧ (below = [] → f.tokens <:+ tokens)
  /-- A call is read from one frame to the end of its line. The depth it tells is
  that of the frame it puts on top. -/
  calls : ∀ name u event v, AcceptsCall limit s name u event v → ∃ args w expansion ts below,
    arguments name u = .ok (args, w) ∧
    u.frames = ⟨u.line ++ ts, u.depth⟩ :: below ∧
    Reads u (u.line.map fun t => (t, u.depth)) w ∧
    v.frames = ⟨expansion, u.depth + 1⟩ :: ⟨ts, u.depth⟩ :: below ∧
    event = .macroExpanded name expansion.length (u.depth + 1)
  /-- An instruction is read from one frame to the end of its line. -/
  instructions : ∀ mnemonic u i v, AcceptsInstruction s mnemonic u i v → ∃ ts below,
    u.frames = ⟨u.line ++ ts, u.depth⟩ :: below ∧
    Reads u (u.line.map fun t => (t, u.depth)) v ∧
    v.frames = ⟨ts, u.depth⟩ :: below
  /-- Between definitions, no expansion is left, and what a step reads there is
  a piece of the source. -/
  definitions : s.place = .outside →
    (∃ ts, ts <:+ tokens ∧ s.stream.unread = ts.map fun t => (t, 0)) ∧
    ∀ v, Step limit s v → ∃ ts, ts <:+: tokens ∧
      Reads s.stream (ts.map fun t => (t, 0)) v.stream

theorem reads_of_step_outside (hs : Step limit s v) (hp : s.place = .outside) :
    ∃ taken, Reads s.stream taken v.stream := by
  obtain ⟨x, hx⟩ := s.stream.reads_skipBlankLines
  cases hs with
  | define place read fresh =>
    obtain ⟨t, taken, hr⟩ := definition_reads_some read
    exact ⟨_, hx.trans hr⟩
  | header place ident colon fresh start =>
    obtain ⟨y, hy⟩ := forward_blockStart _ _ _ _ start
    exact ⟨_, ((hx.trans (Stream.reads_expect (by decide) ident)).trans
      (Stream.reads_expect (by decide) colon)).trans hy⟩
  | goOn place next kind read => rw [hp] at place; cases place
  | leave place next kind read => rw [hp] at place; cases place
  | operation place next kind read ends => rw [hp] at place; cases place
  | call place next kind read => rw [hp] at place; cases place
  | eof place kind => rw [hp] at place; cases place

/-- Frames meet at line ends in every state of every run. -/
theorem keepsLines_of_reachable {tokens : List Token} (h : Reachable limit tokens s) :
    KeepsLines limit tokens s := by
  have hinv := inv_of_reachable h
  refine ⟨fun taken u above f below hr hu => ?_, fun name u event v hc => ?_,
    fun mnemonic u i v hi => ?_, fun hp => ?_⟩
  · have hnest := hinv.nested.reads hr
    rw [hu] at hnest
    refine ⟨hnest.of_append.depth_eq, hnest.of_append.ends, ?_⟩
    rintro rfl
    cases hnest.of_append with
    | source suffix => exact suffix
    | expansion lined ends below => exact absurd rfl below.ne_nil
  · obtain ⟨m, args, w, ts, below, -, ha, hu, hr, hw, hdw, -, -, rfl, -, he⟩ :=
      call_in_frame hinv hc.next hc.read
    refine ⟨args, w, m.expand args, ts, below, ha, hu, hr, ?_, he⟩
    rw [Stream.insert, hw, hdw]
  · obtain ⟨op, -, hread⟩ := hi.read
    exact operation_in_frame hinv hi.next hread hi.ends
  · obtain ⟨ts, hts, hu⟩ := (hinv.outside hp).unread_eq hinv.nested
    refine ⟨⟨ts, hts, hu⟩, fun v hs => ?_⟩
    obtain ⟨taken, hr⟩ := reads_of_step_outside hs hp
    have hsplit := hr.unread
    rw [hu, List.map_eq_append_iff] at hsplit
    obtain ⟨xs, ys, rfl, rfl, -⟩ := hsplit
    exact ⟨xs, (List.prefix_append xs ys).isInfix.trans hts.isInfix, hr⟩

/-- A macro that calls the one it is given, and a call of it. -/
def callThrough : List Token :=
  [⟨.macroKeyword, "@macro", 1⟩, ⟨.identifier, "leap", 1⟩, ⟨.parenOpen, "(", 1⟩,
    ⟨.identifier, "x", 1⟩, ⟨.parenClose, ")", 1⟩, ⟨.colon, ":", 1⟩, ⟨.operation .jmp, "JMP", 1⟩,
    ⟨.identifier, "x", 1⟩, ⟨.newLine, "\n", 1⟩,
    ⟨.macroKeyword, "@macro", 2⟩, ⟨.identifier, "apply", 2⟩, ⟨.parenOpen, "(", 2⟩,
    ⟨.identifier, "f", 2⟩, ⟨.comma, ",", 2⟩, ⟨.identifier, "y", 2⟩, ⟨.parenClose, ")", 2⟩,
    ⟨.colon, ":", 2⟩, ⟨.identifier, "f", 2⟩, ⟨.identifier, "y", 2⟩, ⟨.newLine, "\n", 2⟩,
    ⟨.identifier, "main", 3⟩, ⟨.colon, ":", 3⟩, ⟨.newLine, "\n", 3⟩,
    ⟨.indent, "  ", 4⟩, ⟨.identifier, "apply", 4⟩, ⟨.identifier, "leap", 4⟩, ⟨.comma, ",", 4⟩,
    ⟨.identifier, "main", 4⟩, ⟨.newLine, "\n", 4⟩, ⟨.eof, "", 5⟩]

/-- In front of the jump that both calls lead to. -/
theorem keepsLines_callThrough : ∃ s, Reachable 64 callThrough s ∧
    s.stream.frames =
      [⟨[⟨.operation .jmp, "JMP", 1⟩, ⟨.identifier, "main", 4⟩], 2⟩, ⟨[], 1⟩,
        ⟨[⟨.newLine, "\n", 4⟩, ⟨.eof, "", 5⟩], 0⟩] ∧
    KeepsLines 64 callThrough s := by
  have h : (State.after 64 5 (.ofTokens callThrough)).map (·.stream.frames) =
      some [⟨[⟨.operation .jmp, "JMP", 1⟩, ⟨.identifier, "main", 4⟩], 2⟩, ⟨[], 1⟩,
        ⟨[⟨.newLine, "\n", 4⟩, ⟨.eof, "", 5⟩], 0⟩] := by decide +kernel
  obtain ⟨s, hs, hf⟩ := Option.map_eq_some_iff.1 h
  have hr := reachable_of_after hs
  exact ⟨s, hr, hf, keepsLines_of_reachable hr⟩

end Parse

end IndentAsm
