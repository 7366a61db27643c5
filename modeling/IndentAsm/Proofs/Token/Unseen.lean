import IndentAsm.Proofs.Token.Pieces

/-!
# What scanning does not see

Comments are gaps, and so are the carriage returns of lines that end in two characters. A text
without its comments (`dropComments`), or with line breaks of one character only
(`dropReturns`), has the same items on the same lines, errors among them.

Such a change may not join what was apart, or make an item of what was a gap. `ChangesGaps` says
what that takes: all but semicolons and carriage returns stays, what these are changed to still
ends the item in front of it, and skipping a gap comes to the same before the change and after.

**Results.**
* `ChangesGaps.splitItem_eq`: an item, and the changed text behind it.
* `ChangesGaps.items_eq`: a change of gaps leaves the items as they are.
* `scan_unseen`: comments and the style of line breaks do not change what is scanned.
-/
namespace IndentAsm

namespace Scanner

/-- A text without its comments. A comment runs from a semicolon up to the line break, which
does not belong to it, or to the end of the text. -/
def dropComments : List Char → List Char
  | [] => []
  | c :: cs =>
    if c = ';' then dropComments (cs.dropWhile (· != '\n')) else c :: dropComments cs
termination_by cs => cs.length
decreasing_by
  · exact Nat.lt_succ_of_le (length_dropWhile_le _ _)
  · exact Nat.lt_succ_self _

/-- A text without the carriage returns in front of its line breaks. Of several in a row, only
the last one stands there. -/
def dropReturns : List Char → List Char
  | [] => []
  | '\r' :: '\n' :: cs => '\n' :: dropReturns cs
  | c :: cs => c :: dropReturns cs

/-- The characters that gaps and line breaks start with. No item goes on with one. -/
def EndsItem (c : Char) : Prop := c = ';' ∨ c = '\r' ∨ c = '\n'

/-- A change of a text that leaves its items as they are. -/
structure ChangesGaps (g : List Char → List Char) : Prop where
  nil : g [] = []
  cons {c : Char} (cs : List Char) : c ≠ ';' → c ≠ '\r' → g (c :: cs) = c :: g cs
  /-- What is changed does not get to go on with an item. -/
  head {c : Char} (cs : List Char) : c = ';' ∨ c = '\r' → ∀ d ∈ (g (c :: cs)).head?, EndsItem d
  skipGap (start : Bool) (cs : List Char) :
    skipGap start false (g cs) = g (skipGap start false cs)

theorem joins_of_endsItem {d : Char} (h : EndsItem d) (c : Char) : joins c d = false := by
  rcases h with rfl | rfl | rfl
  all_goals exact joins_eq_false rfl rfl c

/-- Neither a comment nor a carriage return is left in front of an item. -/
theorem head_skipGap {start inComment : Bool} {text : List Char} {c : Char} {cs : List Char}
    (h : skipGap start inComment text = c :: cs) : c ≠ ';' ∧ c ≠ '\r' := by
  fun_induction skipGap start inComment text with
  | case1 => cases h
  | case2 b d ds _ ih => exact ih h
  | case3 b d ds _ _ ih => exact ih h
  | case4 b d ds _ _ _ ih => exact ih h
  | case5 b d ds _ _ _ _ ih => exact ih h
  | case6 b d ds _ hsemi hcr _ =>
    cases h
    exact ⟨by simpa using hsemi, by simpa using hcr⟩

namespace ChangesGaps

variable {g : List Char → List Char}

theorem append (h : ChangesGaps g) {plain : List Char} (hplain : ∀ c ∈ plain, c ≠ ';' ∧ c ≠ '\r')
    (rest : List Char) : g (plain ++ rest) = plain ++ g rest := by
  induction plain with
  | nil => rfl
  | cons c cs ih =>
    rw [List.forall_mem_cons] at hplain
    rw [List.cons_append, h.cons _ hplain.1.1 hplain.1.2, ih hplain.2, List.cons_append]

/-- A text is changed from its first semicolon or carriage return on. -/
theorem exists_append (h : ChangesGaps g) (cs : List Char) :
    ∃ plain rest, cs = plain ++ rest ∧ (∀ c ∈ plain, c ≠ ';' ∧ c ≠ '\r') ∧
      (∀ d ∈ rest.head?, EndsItem d) ∧ ∀ d ∈ (g rest).head?, EndsItem d := by
  induction cs with
  | nil => exact ⟨[], [], rfl, by simp, by simp, by simp [h.nil]⟩
  | cons c cs ih =>
    by_cases hc : c = ';' ∨ c = '\r'
    · refine ⟨[], c :: cs, rfl, by simp, ?_, h.head cs hc⟩
      rintro d ⟨⟩
      exact hc.imp_right Or.inl
    · obtain ⟨plain, rest, rfl, hplain, hrest⟩ := ih
      exact ⟨c :: plain, rest, rfl, List.forall_mem_cons.2 ⟨not_or.1 hc, hplain⟩, hrest⟩

/-- The item in front of a changed text is the one in front of the text. -/
theorem splitItem_eq (h : ChangesGaps g) (line : Nat) {c : Char} (hc : c ≠ ';' ∧ c ≠ '\r')
    (cs : List Char) :
    splitItem line c (g cs) = ((splitItem line c cs).1, g (splitItem line c cs).2) := by
  obtain ⟨plain, rest, rfl, hplain, hrest, hchanged⟩ := h.exists_append cs
  have hjoin : ∀ d ∈ rest.head?, joins c d = false := fun d hd => joins_of_endsItem (hrest d hd) c
  have hjoin' : ∀ d ∈ (g rest).head?, joins c d = false := fun d hd =>
    joins_of_endsItem (hchanged d hd) c
  -- what is left of the part that stays has nothing to change either
  have hleft : ∀ d ∈ (splitItem line c plain).2, d ≠ ';' ∧ d ≠ '\r' := by
    intro d hd
    have hmem : d ∈ c :: plain :=
      itemText_splitItem line c plain ▸ List.mem_append_right _ hd
    rcases List.mem_cons.1 hmem with rfl | hmem
    · exact hc
    · exact hplain d hmem
  rw [h.append hplain, splitItem_append line hjoin', splitItem_append line hjoin, h.append hleft]

/-- A change of gaps leaves the items as they are. -/
theorem items_eq (h : ChangesGaps g) (text : List Char) (line : Nat) (start : Bool) :
    (Scanner.mk (g text) line start false).items = (Scanner.mk text line start false).items := by
  induction hn : text.length using Nat.strongRecOn generalizing text line start with
  | ind n ih =>
    have hskip := h.skipGap start text
    cases hg : Scanner.skipGap start false text with
    | nil =>
      rw [hg, h.nil] at hskip
      rw [items_of_skipGap_nil rfl hskip, items_of_skipGap_nil rfl hg]
    | cons c cs =>
      have hc := head_skipGap hg
      rw [hg, h.cons cs hc.1 hc.2] at hskip
      rw [items_of_skipGap_cons hskip, items_of_skipGap_cons hg, h.splitItem_eq line hc]
      exact congrArg _ (ih _ (hn ▸ length_of_skipGap_cons hg line) _ _ _ rfl)

theorem scan_eq (h : ChangesGaps g) (text : String) :
    scan (String.ofList (g text.toList)) = scan text := by
  simp only [scan, ofText, String.toList_ofList, h.items_eq]

end ChangesGaps

/-! ## Comments -/

/-- A comment is skipped up to the line break. -/
theorem skipGap_comment (start : Bool) (cs : List Char) :
    skipGap start true cs = skipGap start false (cs.dropWhile (· != '\n')) := by
  induction cs with
  | nil => rfl
  | cons c cs ih =>
    by_cases hc : c = '\n'
    · subst hc
      rfl
    · rw [List.dropWhile_cons_of_pos (by simpa using hc), ← ih]
      simp [skipGap, hc]

/-- Behind a comment comes the line break. -/
theorem head_dropComments {d : Char} {cs : List Char}
    (h : d ∈ (dropComments (cs.dropWhile (· != '\n'))).head?) : d = '\n' := by
  have hbreak := head_dropWhile (· != '\n') cs
  cases hw : cs.dropWhile (· != '\n') with
  | nil =>
    rw [hw, dropComments] at h
    cases h
  | cons e es =>
    rw [hw] at hbreak
    obtain rfl : e = '\n' := by simpa using hbreak e rfl
    rw [hw, dropComments, if_neg (by decide)] at h
    cases h
    rfl

theorem skipGap_dropComments (start : Bool) (cs : List Char) :
    skipGap start false (dropComments cs) = dropComments (skipGap start false cs) := by
  fun_induction dropComments cs with
  | case1 => rw [skipGap, dropComments]
  | case2 cs ih =>
    have hskip : skipGap start false (';' :: cs) = skipGap start true cs := rfl
    rw [ih, hskip, skipGap_comment]
  | case3 c cs hc ih =>
    have hkeep : dropComments (c :: cs) = c :: dropComments cs := by rw [dropComments, if_neg hc]
    simp only [skipGap, ih, Bool.false_and, Bool.false_eq_true, beq_iff_eq, hc, if_false]
    repeat' split
    all_goals first | rfl | exact hkeep.symm

theorem changesGaps_dropComments : ChangesGaps dropComments where
  nil := by rw [dropComments]
  cons cs hsemi _ := by rw [dropComments, if_neg hsemi]
  head {c} cs hc d hd := by
    rw [dropComments] at hd
    split at hd
    · exact Or.inr (Or.inr (head_dropComments hd))
    · cases hd
      exact hc.imp_right Or.inl
  skipGap := skipGap_dropComments

/-! ## Line breaks of two characters -/

theorem skipGap_dropReturns (start inComment : Bool) (cs : List Char) :
    skipGap start inComment (dropReturns cs) = dropReturns (skipGap start inComment cs) := by
  fun_induction dropReturns cs generalizing inComment with
  | case1 => rfl
  | case2 cs ih => cases inComment <;> cases start <;> rfl
  | case3 c cs hc ih =>
    have hkeep : dropReturns (c :: cs) = c :: dropReturns cs := dropReturns.eq_3 _ _ hc
    simp only [skipGap, ih]
    repeat' split
    all_goals first | rfl | exact hkeep.symm

theorem changesGaps_dropReturns : ChangesGaps dropReturns where
  nil := rfl
  cons cs _ hcr := dropReturns.eq_3 _ _ fun _ h => absurd h hcr
  head {c} cs hc d hd := by
    unfold dropReturns at hd
    split at hd
    · cases hd
    · cases hd
      exact Or.inr (Or.inr rfl)
    · rename_i heq
      cases heq
      cases hd
      exact hc.imp_right Or.inl
  skipGap start cs := skipGap_dropReturns start false cs

end Scanner

def withoutComments (text : String) : String := String.ofList (Scanner.dropComments text.toList)

def withLineFeeds (text : String) : String := String.ofList (Scanner.dropReturns text.toList)

/-- Comments and the style of line breaks do not change what is scanned, the tokens with their
texts and lines or the error. -/
theorem scan_unseen (text : String) :
    scan (withoutComments text) = scan text ∧ scan (withLineFeeds text) = scan text ∧
      scan (withLineFeeds (withoutComments text)) = scan text ∧
      scan (withoutComments (withLineFeeds text)) = scan text := by
  have hcomments (text : String) : scan (withoutComments text) = scan text :=
    Scanner.changesGaps_dropComments.scan_eq text
  have hreturns (text : String) : scan (withLineFeeds text) = scan text :=
    Scanner.changesGaps_dropReturns.scan_eq text
  refine ⟨hcomments text, hreturns text, ?_, ?_⟩
  · rw [hreturns, hcomments]
  · rw [hcomments, hreturns]

example : withoutComments "main:;a;b\r\n\tHLT ;\r\r\n1" = "main:\n\tHLT \n1" := by cbv

example : withLineFeeds "main:;a;b\r\n\tHLT ;\r\r\n1" = "main:;a;b\n\tHLT ;\r\n1" := by cbv

end IndentAsm
