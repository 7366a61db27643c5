import IndentAsm.Proofs.Parse.Shape
import IndentAsm.Proofs.Token.Scanned

/-!
# Indents in front of code

An indent counts where something stands behind it on its line (`codeIndents`); the others
belong to blank lines. In the tokens of a text, indents stand at the start of a line only
(`IndentsLead`). So they are found by going from line to line, in bodies of macros and in
expansions as well, and `reindent` can put another indent in the place of all of them.

**Results.**
* `codeIndents_dropBlank`, `codeIndents_of_indent`: blank lines have none, and a line of a block
  starts with one.
* `IndentsLead.line`: a line has none behind its start.
* `IndentsLead.expand`, `IndentsLead.append`: an expansion has indents at line starts only, and
  so have the tokens it is put in front of.
* `dropBlank_reindent`, `lineOf_reindent`, `reindent_append`: with another indent, blank lines stay
  blank, lines stay the same behind it, and all indents of code are changed.
-/
namespace IndentAsm

open IndentAsm.Stream (dropBlank startsBlank lineOf)

/-- Whether a token is an indent with code behind it on its line. -/
def isCodeIndent (t : Token) (behind : List Token) : Bool :=
  t.kind == .indent && !behind.head?.all (·.kind.endsLine)

/-- The indents of the lines that are not blank. -/
def codeIndents : List Token → List Token
  | [] => []
  | t :: ts => if isCodeIndent t ts then t :: codeIndents ts else codeIndents ts

/-- Some tokens with `indent` in place of the indents of all lines that are not blank. -/
def reindent (indent : String) : List Token → List Token
  | [] => []
  | t :: ts =>
    (if isCodeIndent t ts then { t with lexeme := indent } else t) :: reindent indent ts

/-- Indents stand at the start of a line only. The first token is at the start of one where
`start` says so. -/
def IndentsLead (start : Bool) : List Token → Prop
  | [] => True
  | t :: ts => (t.kind = .indent → start = true) ∧ IndentsLead (t.kind == .newLine) ts

/-! ## The indents of code -/

theorem isCodeIndent_of_kind {t : Token} (h : t.kind ≠ .indent) (behind : List Token) :
    isCodeIndent t behind = false := by
  simp [isCodeIndent, h]

theorem codeIndents_of_kind {t : Token} (h : t.kind ≠ .indent) (ts : List Token) :
    codeIndents (t :: ts) = codeIndents ts := by
  rw [codeIndents, isCodeIndent_of_kind h]
  rfl

theorem codeIndents_append_of_kind {xs : List Token} (h : ∀ x ∈ xs, x.kind ≠ .indent)
    (ys : List Token) : codeIndents (xs ++ ys) = codeIndents ys := by
  induction xs with
  | nil => rfl
  | cons x xs ih =>
    rw [List.forall_mem_cons] at h
    rw [List.cons_append, codeIndents_of_kind h.1, ih h.2]

/-- An indent counts, or is skipped as a blank line. -/
theorem isCodeIndent_eq {t : Token} (h : t.kind = .indent) (behind : List Token) :
    isCodeIndent t behind = !startsBlank (t :: behind) := by
  simp [isCodeIndent, startsBlank, h]

theorem codeIndents_dropBlank (ts : List Token) : codeIndents (dropBlank ts) = codeIndents ts := by
  induction ts with
  | nil => rfl
  | cons t ts ih =>
    cases h : startsBlank (t :: ts) with
    | false => rw [Stream.dropBlank_of_not h]
    | true =>
      have hcode : isCodeIndent t ts = false := by
        by_cases hk : t.kind = .indent
        · rw [isCodeIndent_eq hk, h]
          rfl
        · exact isCodeIndent_of_kind hk ts
      rw [Stream.dropBlank_of_startsBlank h, ih, codeIndents, hcode]
      rfl

/-- An indent that is left by the blank lines counts. -/
theorem isCodeIndent_of_dropBlank {ts us : List Token} {i : Token} (h : dropBlank ts = i :: us)
    (hi : i.kind = .indent) : isCodeIndent i us = true := by
  rw [isCodeIndent_eq hi, ← h, Stream.startsBlank_dropBlank]
  rfl

theorem codeIndents_of_indent {ts us : List Token} {i : Token} (h : dropBlank ts = i :: us)
    (hi : i.kind = .indent) : codeIndents ts = i :: codeIndents us := by
  rw [← codeIndents_dropBlank, h, codeIndents, isCodeIndent_of_dropBlank h hi]
  rfl

theorem dropBlank_suffix (ts : List Token) : dropBlank ts <:+ ts := by
  induction ts with
  | nil => exact List.suffix_refl _
  | cons t ts ih =>
    rw [dropBlank]
    split
    · exact ih.trans (List.suffix_cons t ts)
    · exact List.suffix_refl _

theorem codeIndents_suffix (ts us : List Token) : codeIndents us <:+ codeIndents (ts ++ us) := by
  induction ts with
  | nil => exact List.suffix_refl _
  | cons t ts ih =>
    rw [List.cons_append, codeIndents]
    split
    · exact ih.trans (List.suffix_cons t _)
    · exact ih

/-! ## Indents at the start of a line -/

theorem Parse.ne_indent_of_isArgument {kind : Token.Kind} (h : Parse.isArgument kind = true) :
    kind ≠ .indent := by
  rintro rfl
  cases h

namespace IndentsLead

theorem weaken {start : Bool} {ts : List Token} (h : IndentsLead start ts) :
    IndentsLead true ts := by
  cases ts with
  | nil => trivial
  | cons t ts => exact ⟨fun _ => rfl, h.2⟩

theorem of_append {start : Bool} {ts us : List Token} (h : IndentsLead start (ts ++ us)) :
    IndentsLead true us := by
  induction ts generalizing start with
  | nil => exact h.weaken
  | cons t ts ih => exact ih h.2

theorem of_suffix {start : Bool} {ts us : List Token} (h : IndentsLead start us)
    (hs : ts <:+ us) : IndentsLead true ts := by
  obtain ⟨before, rfl⟩ := hs
  exact h.of_append

/-- Where the next token is no indent, it need not be at the start of a line. -/
theorem of_head {start : Bool} {ts : List Token} (h : IndentsLead start ts)
    (hne : ∀ t ∈ ts.head?, t.kind ≠ .indent) : IndentsLead false ts := by
  cases ts with
  | nil => trivial
  | cons t ts => exact ⟨fun hk => absurd hk (hne t rfl), h.2⟩

theorem cons_of_ne {start : Bool} {t : Token} {ts : List Token} (h : IndentsLead start (t :: ts))
    (hn : t.kind ≠ .newLine) : IndentsLead false ts := by
  have htail := h.2
  rwa [beq_eq_false_iff_ne.2 hn] at htail

theorem of_kind {ts : List Token} (h : ∀ t ∈ ts, t.kind ≠ .indent) : IndentsLead false ts := by
  induction ts with
  | nil => trivial
  | cons t ts ih =>
    rw [List.forall_mem_cons] at h
    refine ⟨fun hk => absurd hk h.1, ?_⟩
    cases t.kind == .newLine with
    | false => exact ih h.2
    | true => exact (ih h.2).weaken

/-- A line has no indent behind its start. -/
theorem line {ts : List Token} (h : IndentsLead false ts) : ∀ t ∈ lineOf ts, t.kind ≠ .indent := by
  induction ts with
  | nil => intro t ht; cases ht
  | cons t ts ih =>
    cases he : t.kind.endsLine with
    | true =>
      rw [Stream.lineOf_cons_of_ends ts he]
      intro x hx
      cases hx
    | false =>
      have hn := (Token.Kind.not_endsLine_iff.1 he).1
      rw [Stream.lineOf_cons_of_not ts he, List.forall_mem_cons]
      exact ⟨fun hk => (by simpa using h.1 hk), ih (h.cons_of_ne hn)⟩

/-- What stands behind tokens of a line is not at the start of one. -/
theorem behind_line {xs ys : List Token} (h : IndentsLead false (xs ++ ys))
    (hx : ∀ x ∈ xs, x.kind.endsLine = false) : IndentsLead false ys := by
  induction xs with
  | nil => exact h
  | cons x xs ih =>
    rw [List.forall_mem_cons] at hx
    exact ih (h.cons_of_ne (Token.Kind.not_endsLine_iff.1 hx.1).1) hx.2

theorem append {start : Bool} {xs ys : List Token} (hx : IndentsLead start xs)
    (hy : IndentsLead false ys) : IndentsLead start (xs ++ ys) := by
  induction xs generalizing start with
  | nil =>
    cases start with
    | false => exact hy
    | true => exact hy.weaken
  | cons x xs ih => exact ⟨hx.1, ih hx.2⟩

theorem map {start : Bool} {f : Token → Token} {ts : List Token} (h : IndentsLead start ts)
    (hindent : ∀ t, (f t).kind = .indent → t.kind = .indent)
    (hbreak : ∀ t, ((f t).kind == .newLine) = (t.kind == .newLine)) :
    IndentsLead start (ts.map f) := by
  induction ts generalizing start with
  | nil => trivial
  | cons t ts ih =>
    refine ⟨fun hk => h.1 (hindent t hk), ?_⟩
    rw [hbreak]
    exact ih h.2

/-- Arguments are no indents and no line breaks. -/
theorem expand {start : Bool} {m : Macro} {args : List Token} (h : IndentsLead start m.body)
    (ha : ∀ a ∈ args, Parse.isArgument a.kind = true) : IndentsLead start (m.expand args) := by
  refine h.map (fun t hk => ?_) fun t => ?_
  · rcases Parse.argument?_getD m args t with he | ⟨-, hm⟩
    · rwa [he] at hk
    · exact absurd hk (Parse.ne_indent_of_isArgument (ha _ hm))
  · rcases Parse.argument?_getD m args t with he | ⟨hk, hm⟩
    · rw [he]
    · have hends := (Token.Kind.not_endsLine_iff.1 (Parse.not_ends_of_isArgument (ha _ hm))).1
      rw [hk, beq_eq_false_iff_ne.2 hends]
      rfl

end IndentsLead

theorem Scanned.indentsLead {code : List Token} (h : Scanned code) : IndentsLead true code := by
  induction code with
  | nil => trivial
  | cons t ts ih =>
    refine ⟨fun _ => rfl, ?_⟩
    cases ts with
    | nil => trivial
    | cons u us =>
      refine ⟨fun hk => ?_, (ih h.tail).2⟩
      rw [beq_iff_eq]
      exact (List.isChain_cons_cons.1 h.indents).1 hk

/-- In the tokens of a text, indents are at the start of a line. -/
theorem indentsLead_of_scan {text : String} {tokens : List Token} (h : scan text = .ok tokens) :
    IndentsLead true tokens := by
  obtain ⟨code, last, rfl, hk, hcode⟩ := scan_eq_ok h
  exact hcode.indentsLead.append ⟨fun hi => (by simp [hk] at hi), trivial⟩

/-! ## Another indent -/

def Token.reindent (indent : String) (t : Token) : Token :=
  if t.kind = .indent then { t with lexeme := indent } else t

variable {indent : String}

@[simp] theorem Token.kind_reindent (t : Token) : (t.reindent indent).kind = t.kind := by
  unfold reindent
  split <;> rfl

theorem Token.reindent_of_kind {t : Token} (h : t.kind ≠ .indent) : t.reindent indent = t := by
  rw [reindent, if_neg h]

theorem map_reindent_of_kind {ts : List Token} (h : ∀ t ∈ ts, t.kind ≠ .indent) :
    ts.map (Token.reindent indent) = ts := by
  have hid : ∀ t ∈ ts, t.reindent indent = id t := fun t ht => Token.reindent_of_kind (h t ht)
  rw [List.map_congr_left hid, List.map_id]

theorem reindent_of_kind {t : Token} (h : t.kind ≠ .indent) (ts : List Token) :
    reindent indent (t :: ts) = t :: reindent indent ts := by
  rw [reindent, isCodeIndent_of_kind h]
  rfl

theorem reindent_of_isCodeIndent {t : Token} {ts : List Token} (h : isCodeIndent t ts = true) :
    reindent indent (t :: ts) = t.reindent indent :: reindent indent ts := by
  have hk : t.kind = .indent := by
    simp only [isCodeIndent, Bool.and_eq_true, beq_iff_eq] at h
    exact h.1
  rw [reindent, h, Token.reindent, if_pos hk]
  rfl

@[simp] theorem length_reindent (ts : List Token) : (reindent indent ts).length = ts.length := by
  induction ts with
  | nil => rfl
  | cons t ts ih => rw [reindent, List.length_cons, List.length_cons, ih]

/-- Only texts of indents are changed. -/
theorem map_kind_reindent (indent : String) (ts : List Token) :
    (reindent indent ts).map Token.kind = ts.map Token.kind := by
  induction ts with
  | nil => rfl
  | cons t ts ih =>
    rw [reindent, List.map_cons, List.map_cons, ih]
    split <;> rfl

theorem head_reindent (indent : String) (ts : List Token) :
    (reindent indent ts).head?.map Token.kind = ts.head?.map Token.kind := by
  rw [← List.head?_map, ← List.head?_map, map_kind_reindent]

theorem startsBlank_reindent (indent : String) (ts : List Token) :
    startsBlank (reindent indent ts) = startsBlank ts := by
  cases ts with
  | nil => rfl
  | cons t ts =>
    have hall : (reindent indent ts).head?.all (·.kind.endsLine) =
        ts.head?.all (·.kind.endsLine) := by
      have hhead := congrArg (Option.all Token.Kind.endsLine) (head_reindent indent ts)
      rwa [Option.all_map, Option.all_map] at hhead
    rw [reindent, startsBlank, startsBlank, hall]
    split <;> rfl

theorem dropBlank_reindent (indent : String) (ts : List Token) :
    dropBlank (reindent indent ts) = reindent indent (dropBlank ts) := by
  induction ts with
  | nil => rfl
  | cons t ts ih =>
    have hblank := startsBlank_reindent indent (t :: ts)
    rw [reindent] at hblank
    cases h : startsBlank (t :: ts) with
    | true =>
      rw [reindent, Stream.dropBlank_of_startsBlank (hblank.trans h),
        Stream.dropBlank_of_startsBlank h, ih]
    | false =>
      rw [Stream.dropBlank_of_not h, Stream.dropBlank_of_not]
      rw [reindent]
      exact hblank.trans h

theorem reindent_append_suffix (indent : String) (xs ys : List Token) :
    ∃ front, reindent indent (xs ++ ys) = front ++ reindent indent ys ∧
      front.length = xs.length := by
  induction xs with
  | nil => exact ⟨[], rfl, rfl⟩
  | cons x xs ih =>
    obtain ⟨front, hfront, hlen⟩ := ih
    rw [List.cons_append, reindent, hfront]
    exact ⟨_ :: front, rfl, by rw [List.length_cons, hlen, List.length_cons]⟩

/-- A line is the same behind its indent. -/
theorem lineOf_reindent {ts : List Token} (h : IndentsLead false ts) :
    lineOf (reindent indent ts) = lineOf ts := by
  induction ts with
  | nil => rfl
  | cons t ts ih =>
    rw [reindent_of_kind fun hk => (by simpa using h.1 hk)]
    cases he : t.kind.endsLine with
    | true => rw [Stream.lineOf_cons_of_ends _ he, Stream.lineOf_cons_of_ends _ he]
    | false =>
      have hn := (Token.Kind.not_endsLine_iff.1 he).1
      rw [Stream.lineOf_cons_of_not _ he, Stream.lineOf_cons_of_not _ he, ih (h.cons_of_ne hn)]

/-- In code of several lines all indents are changed. -/
theorem reindent_append {fixed : Option String} {start : Bool} {xs : List Token}
    (hlined : Parse.Lined fixed xs) (hlead : IndentsLead start xs) (ys : List Token)
    (hfirst : ∀ x us, xs = x :: us → x.kind = .indent → isCodeIndent x (us ++ ys) = true) :
    reindent indent (xs ++ ys) = xs.map (Token.reindent indent) ++ reindent indent ys := by
  induction xs generalizing start with
  | nil => rfl
  | cons x xs ih =>
    obtain ⟨-, hbreak, htail⟩ := hlined
    -- an indent in what follows stands behind a line break, and so has code behind it
    have hrest : reindent indent (xs ++ ys) =
        xs.map (Token.reindent indent) ++ reindent indent ys := by
      refine ih htail hlead.2 fun y us hxs hy => ?_
      subst hxs
      obtain ⟨i, u, us', hcons, -, -, hu⟩ := hbreak (by simpa using hlead.2.1 hy)
      cases hcons
      simp [isCodeIndent, hy, hu]
    by_cases hk : x.kind = .indent
    · rw [List.cons_append, reindent_of_isCodeIndent (hfirst x xs rfl hk), hrest]
      rfl
    · rw [List.cons_append, reindent_of_kind hk, hrest, List.map_cons, Token.reindent_of_kind hk]
      rfl

end IndentAsm
