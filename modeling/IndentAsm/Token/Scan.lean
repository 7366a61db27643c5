import IndentAsm.Diagnostic.Error

/-!
# From text to tokens

A `Scanner` holds the text still to be read. `Scanner.next?` skips a gap and
reads one item, a token or an error; after an error it goes on behind the
text at fault. Carriage returns and comments are gaps everywhere, blanks
everywhere but at the start of a line, where a run of them is an indent. The
last item is the end token.

Letters and digits are those of ASCII.

**Results.**
* `Scanner.next?_remaining`: every item leaves less to be read.
* `Scanner.items_eq`: the items are the next item and then those of the
  scanner it leaves.
-/
namespace IndentAsm

namespace Scanner

/-- Space and tab, the characters indents are made of. -/
def isBlank (c : Char) : Bool := c == ' ' || c == '\t'

def isWordStart (c : Char) : Bool := c.isAlpha || c == '_' || c == '@'

def isWordPart (c : Char) : Bool := c.isAlphanum || c == '_'

def isHexDigit (c : Char) : Bool :=
  c.isDigit || ('a' ≤ c && c ≤ 'f') || ('A' ≤ c && c ≤ 'F')

/-- The kind of a token that is a single character. -/
def single? (c : Char) : Option Token.Kind :=
  if c = ',' then some .comma
  else if c = ':' then some .colon
  else if c = '(' then some .parenOpen
  else if c = ')' then some .parenClose
  else if c = '\n' then some .newLine
  else none

/-- What follows a gap: the text from the first character on that starts an
item. `inComment` says that the text starts inside a comment, which runs up to
the end of its line. -/
def skipGap (lineStart inComment : Bool) : List Char → List Char
  | [] => []
  | c :: cs =>
    if inComment && c != '\n' then skipGap lineStart true cs
    else if c == ';' then skipGap lineStart true cs
    else if c == '\r' then skipGap lineStart false cs
    else if isBlank c && !lineStart then skipGap lineStart false cs
    else c :: cs

/-- Splits off a mark of the base behind a leading zero, together with the
digits of that base. -/
def splitBase : List Char → List Char × List Char
  | [] => ([], [])
  | c :: cs =>
    if c = 'x' ∨ c = 'X' then
      let digit := fun d => isHexDigit d || d == '_'
      (c :: cs.takeWhile digit, cs.dropWhile digit)
    else if c = 'b' ∨ c = 'B' then
      let digit := fun d => d == '0' || d == '1' || d == '_'
      (c :: cs.takeWhile digit, cs.dropWhile digit)
    else ([], c :: cs)

/-- Splits a text behind the first digit `c` of a number into the rest of the
number and what follows it. Decimal digits behind a base are taken in, so that
`0b12` is one number, which has no value. -/
def splitNumber (c : Char) (cs : List Char) : List Char × List Char :=
  let found := if c = '0' then splitBase cs else ([], cs)
  let digit := fun d => d.isDigit || d == '_'
  (found.1 ++ found.2.takeWhile digit, found.2.dropWhile digit)

def wordItem (line : Nat) (word : String) (directive : Bool) : Except LexError Token :=
  match Token.Kind.keyword? word with
  | some kind => .ok ⟨kind, word, line⟩
  | none =>
    if directive then .error (.unknownDirective line word) else .ok ⟨.identifier, word, line⟩

/-- The item that starts with `c`, and the text behind it. -/
def splitItem (line : Nat) (c : Char) (cs : List Char) : Except LexError Token × List Char :=
  match single? c with
  | some kind => (.ok ⟨kind, c.toString, line⟩, cs)
  | none =>
    if isBlank c then
      (.ok ⟨.indent, String.ofList (c :: cs.takeWhile isBlank), line⟩, cs.dropWhile isBlank)
    else if c.isDigit then
      let found := splitNumber c cs
      (.ok ⟨.number, String.ofList (c :: found.1), line⟩, found.2)
    else if isWordStart c then
      (wordItem line (String.ofList (c :: cs.takeWhile isWordPart)) (c == '@'),
        cs.dropWhile isWordPart)
    else (.error (.unexpectedCharacter line c), cs)

end Scanner

structure Scanner where
  /-- The text not yet read. -/
  rest : List Char
  /-- The line it starts on. -/
  line : Nat
  /-- No token was read yet, or the last one ended a line. -/
  lineStart : Bool
  /-- The end token was read. -/
  finished : Bool
  deriving DecidableEq, Repr, Inhabited

namespace Scanner

def ofText (text : String) : Scanner :=
  ⟨text.toList, 1, true, false⟩

/-- The scanner behind an item: an error leaves open whether a line starts. -/
def passed (s : Scanner) (item : Except LexError Token) (rest : List Char) : Scanner :=
  match item with
  | .error _ => { s with rest := rest }
  | .ok t =>
    { s with
      rest := rest
      lineStart := t.kind == .newLine
      line := if t.kind = .newLine then s.line + 1 else s.line }

def next? (s : Scanner) : Option (Except LexError Token × Scanner) :=
  match skipGap s.lineStart false s.rest with
  | [] =>
    if s.finished then none
    else some (.ok ⟨.eof, "", s.line⟩, { s with rest := [], lineStart := false, finished := true })
  | c :: cs =>
    let found := splitItem s.line c cs
    some (found.1, s.passed found.1 found.2)

/-! ## Every item leaves less to be read -/

/-- How much is left to be read, the end token included. -/
def remaining (s : Scanner) : Nat :=
  s.rest.length + if s.finished then 0 else 1

theorem length_skipGap (lineStart inComment : Bool) (cs : List Char) :
    (skipGap lineStart inComment cs).length ≤ cs.length := by
  induction cs generalizing inComment with
  | nil => simp [skipGap]
  | cons c cs ih =>
    have hi (b : Bool) : (skipGap lineStart b cs).length ≤ cs.length + 1 :=
      Nat.le_succ_of_le (ih b)
    simp only [skipGap, List.length_cons]
    split
    · exact hi true
    · split
      · exact hi true
      · split
        · exact hi false
        · split
          · exact hi false
          · simp

theorem length_dropWhile_le (p : Char → Bool) (cs : List Char) :
    (cs.dropWhile p).length ≤ cs.length :=
  (List.dropWhile_sublist p).length_le

theorem length_splitBase (cs : List Char) : (splitBase cs).2.length ≤ cs.length := by
  cases cs with
  | nil => simp [splitBase]
  | cons c cs =>
    simp only [splitBase]
    split
    · exact Nat.le_succ_of_le (length_dropWhile_le _ _)
    · split
      · exact Nat.le_succ_of_le (length_dropWhile_le _ _)
      · simp

theorem length_splitNumber (c : Char) (cs : List Char) :
    (splitNumber c cs).2.length ≤ cs.length := by
  simp only [splitNumber]
  split
  · exact Nat.le_trans (length_dropWhile_le _ _) (length_splitBase cs)
  · exact length_dropWhile_le _ _

theorem length_splitItem (line : Nat) (c : Char) (cs : List Char) :
    (splitItem line c cs).2.length ≤ cs.length := by
  unfold splitItem
  split
  · simp
  · repeat' split
    · exact length_dropWhile_le _ _
    · exact length_splitNumber c cs
    · exact length_dropWhile_le _ _
    · simp

theorem rest_passed (s : Scanner) (item : Except LexError Token) (rest : List Char) :
    (s.passed item rest).rest = rest := by
  cases item <;> rfl

theorem finished_passed (s : Scanner) (item : Except LexError Token) (rest : List Char) :
    (s.passed item rest).finished = s.finished := by
  cases item <;> rfl

theorem next?_remaining {s s' : Scanner} {item : Except LexError Token}
    (h : s.next? = some (item, s')) : s'.remaining < s.remaining := by
  have hg := length_skipGap s.lineStart false s.rest
  unfold next? at h
  split at h
  · split at h
    · cases h
    · rename_i hf
      cases h
      simp [remaining, hf]
  · rename_i c cs hc
    have hi := length_splitItem s.line c cs
    rw [hc, List.length_cons] at hg
    simp only [Option.some.injEq, Prod.mk.injEq] at h
    obtain ⟨-, rfl⟩ := h
    simp only [remaining, rest_passed, finished_passed]
    omega

/-! ## All items -/

/-- Reads to the end, adding to the items in `seen`. -/
def collect (s : Scanner) (seen : Array (Except LexError Token)) : Array (Except LexError Token) :=
  match _h : s.next? with
  | none => seen
  | some (item, s') => s'.collect (seen.push item)
termination_by s.remaining
decreasing_by exact next?_remaining _h

/-- The items to the end of the text, errors among them. -/
def items (s : Scanner) : List (Except LexError Token) :=
  (s.collect #[]).toList

theorem collect_none {s : Scanner} (h : s.next? = none) (seen : Array (Except LexError Token)) :
    s.collect seen = seen := by
  rw [collect]; split <;> simp_all

theorem collect_some {s s' : Scanner} {item : Except LexError Token}
    (h : s.next? = some (item, s')) (seen : Array (Except LexError Token)) :
    s.collect seen = s'.collect (seen.push item) := by
  rw [collect]; split <;> simp_all

theorem toList_collect (s : Scanner) (seen : Array (Except LexError Token)) :
    (s.collect seen).toList = seen.toList ++ s.items := by
  induction hn : s.remaining using Nat.strongRecOn generalizing s seen with
  | ind n ih =>
    cases h : s.next? with
    | none => simp [items, collect_none h]
    | some p =>
      obtain ⟨item, s'⟩ := p
      have hlt := hn ▸ next?_remaining h
      have hs : s.items = item :: s'.items := by
        rw [items, collect_some h, ih _ hlt s' _ rfl]; rfl
      rw [collect_some h, ih _ hlt s' _ rfl, hs]
      simp

theorem items_eq (s : Scanner) :
    s.items = match s.next? with
      | none => []
      | some (item, s') => item :: s'.items := by
  cases h : s.next? with
  | none => rw [items, collect_none h]
  | some p => rw [items, collect_some h, toList_collect]; rfl

end Scanner

/-- The tokens of a text, or its first error. -/
def scan (text : String) : Except LexError (List Token) :=
  (Scanner.ofText text).items.mapM id

end IndentAsm
