import Mathlib.Data.List.Chain
import IndentAsm.Token.Scan

/-!
# What scanned tokens look like

The tokens of a text are code with an end token behind it. No other end token
stands among them, and an indent stands only where a line starts.

**Results.**
* `kind_splitItem`: no item is an end token, and only blanks are an indent.
* `scan_eq_ok`: the tokens of every text that scans are of this form.
* `not_plus_of_scan`: no number that is scanned has a sign.
-/
namespace IndentAsm

/-- Code as it is scanned: without end tokens, and with indents only at the
start and behind new lines. -/
structure Scanned (code : List Token) : Prop where
  no_eof : ∀ t ∈ code, t.kind ≠ .eof
  indents : code.IsChain fun t u => u.kind = .indent → t.kind = .newLine

namespace Scanned

theorem nil : Scanned [] := ⟨by simp, .nil⟩

theorem of_append {ts us : List Token} (h : Scanned (ts ++ us)) : Scanned us :=
  ⟨fun t ht => h.no_eof t (List.mem_append_right _ ht), h.indents.right_of_append⟩

theorem tail {t : Token} {ts : List Token} (h : Scanned (t :: ts)) : Scanned ts :=
  ⟨fun u hu => h.no_eof u (List.mem_cons_of_mem _ hu), h.indents.tail⟩

theorem of_suffix {ts us : List Token} (h : Scanned us) (hs : ts <:+ us) : Scanned ts := by
  obtain ⟨xs, rfl⟩ := hs
  exact h.of_append

/-- An indent stands only behind a new line. -/
theorem not_indent {t u : Token} {ts : List Token} (h : Scanned (t :: u :: ts))
    (ht : t.kind ≠ .newLine) : u.kind ≠ .indent :=
  fun hu => ht ((List.isChain_cons_cons.1 h.indents).1 hu)

end Scanned

namespace Scanner

theorem kind_keyword? {word : String} {kind : Token.Kind}
    (h : Token.Kind.keyword? word = some kind) :
    kind ≠ .eof ∧ kind ≠ .indent ∧ kind ≠ .number := by
  unfold Token.Kind.keyword? at h
  repeat' split at h
  · cases h; decide
  · cases h; decide
  · cases h; decide
  · rcases ho : (Mnemonic.ofName? word) with _ | op
    · rw [ho] at h
      obtain ⟨r, -, rfl⟩ := Option.map_eq_some_iff.1 h
      simp
    · rw [ho] at h
      cases h
      simp

theorem kind_single? {c : Char} {kind : Token.Kind} (h : single? c = some kind) :
    kind ≠ .eof ∧ kind ≠ .indent ∧ kind ≠ .number := by
  unfold single? at h
  repeat' split at h
  · cases h; decide
  · cases h; decide
  · cases h; decide
  · cases h; decide
  · cases h; decide
  · cases h

/-- No item is an end token, and an indent starts with a blank. -/
theorem kind_splitItem {line : Nat} {c : Char} {cs : List Char} {t : Token}
    (h : (splitItem line c cs).1 = .ok t) :
    t.kind ≠ .eof ∧ (t.kind = .indent → isBlank c = true) := by
  unfold splitItem at h
  split at h
  · rename_i kind hk
    cases h
    exact ⟨(kind_single? hk).1, fun hi => absurd hi (kind_single? hk).2.1⟩
  · split at h
    · rename_i hb
      cases h
      exact ⟨by simp, fun _ => hb⟩
    · split at h
      · cases h
        simp
      · split at h
        · unfold wordItem at h
          dsimp only at h
          split at h
          · rename_i kind hk
            cases h
            exact ⟨(kind_keyword? hk).1, fun hi => absurd hi (kind_keyword? hk).2.1⟩
          · split at h
            · cases h
            · cases h
              simp
        · cases h

/-- Inside a line, blanks belong to the gap. -/
theorem skipGap_not_blank {inComment : Bool} {cs rest : List Char} {c : Char}
    (h : skipGap false inComment cs = c :: rest) : isBlank c = false := by
  fun_induction skipGap false inComment cs with
  | case1 => cases h
  | case2 _ _ _ _ ih => exact ih h
  | case3 _ _ _ _ _ ih => exact ih h
  | case4 _ _ _ _ _ _ ih => exact ih h
  | case5 _ _ _ _ _ _ _ ih => exact ih h
  | case6 b c' cs' h1 h2 h3 h4 =>
    cases h
    simpa using h4

theorem mapM_cons_eq_ok {item : Except LexError Token} {items : List (Except LexError Token)}
    {tokens : List Token} (h : (item :: items).mapM id = .ok tokens) :
    ∃ t ts, item = .ok t ∧ items.mapM id = .ok ts ∧ tokens = t :: ts := by
  rw [List.mapM_cons] at h
  cases item with
  | error e => cases h
  | ok t =>
    cases hm : items.mapM id with
    | error e => rw [hm] at h; cases h
    | ok ts => rw [hm] at h; cases h; exact ⟨t, ts, rfl, rfl, rfl⟩

theorem eq_map_ok_of_mapM {items : List (Except LexError Token)} {tokens : List Token}
    (h : items.mapM id = .ok tokens) : items = tokens.map .ok := by
  induction items generalizing tokens with
  | nil => cases h; rfl
  | cons item items ih =>
    obtain ⟨t, ts, rfl, hts, rfl⟩ := mapM_cons_eq_ok h
    rw [ih hts, List.map_cons]

theorem mapM_map_ok (tokens : List Token) :
    (tokens.map .ok : List (Except LexError Token)).mapM id = .ok tokens := by
  induction tokens with
  | nil => rfl
  | cons t ts ih => rw [List.map_cons, List.mapM_cons, ih]; rfl

/-- What is scanned from the middle of a text. -/
theorem items_eq_ok {s : Scanner} {tokens : List Token} (hf : s.finished = false)
    (h : s.items.mapM id = .ok tokens) : ∃ code last, tokens = code ++ [last] ∧
      last.kind = .eof ∧ Scanned code ∧
      (s.lineStart = false → ∀ t ∈ code.head?, t.kind ≠ .indent) := by
  induction hn : s.remaining using Nat.strongRecOn generalizing s tokens with
  | ind n ih =>
    rw [items_eq] at h
    cases hnext : s.next? with
    | none =>
      unfold next? at hnext
      split at hnext
      · simp [hf] at hnext
      · cases hnext
    | some p =>
      obtain ⟨item, s'⟩ := p
      have hlt := hn ▸ next?_remaining hnext
      rw [hnext] at h
      obtain ⟨t, ts, rfl, hts, rfl⟩ := mapM_cons_eq_ok h
      unfold next? at hnext
      split at hnext
      · rw [hf] at hnext
        cases hnext
        rw [items_eq] at hts
        cases hts
        exact ⟨[], _, rfl, rfl, Scanned.nil, by simp⟩
      · rename_i c cs hgap
        simp only [Option.some.injEq, Prod.mk.injEq] at hnext
        obtain ⟨hitem, rfl⟩ := hnext
        obtain ⟨hk, hb⟩ := kind_splitItem hitem
        rw [hitem] at hts hlt
        obtain ⟨code, last, rfl, hl, hc, hi⟩ :=
          ih _ hlt (by rw [finished_passed, hf]) hts rfl
        refine ⟨t :: code, last, rfl, hl, ⟨?_, ?_⟩, fun hs u hu => ?_⟩
        · intro u hu
          rcases List.mem_cons.1 hu with rfl | hu
          · exact hk
          · exact hc.no_eof u hu
        · refine hc.indents.cons fun u hu hui => ?_
          -- the scanner is at the start of a line exactly behind a new line
          by_cases ht : t.kind = .newLine
          · exact ht
          · exact absurd hui (hi (by simp [passed, ht]) u hu)
        · cases hu
          intro hti
          rw [hs] at hgap
          rw [skipGap_not_blank hgap] at hb
          cases hb hti

/-! ## Numbers have no sign -/

theorem not_mem_takeWhile {p : Char → Bool} {c : Char} (h : p c = false) (cs : List Char) :
    c ∉ cs.takeWhile p := by
  intro hc
  have hp := List.all_eq_true.1 List.all_takeWhile c hc
  rw [h] at hp
  cases hp

theorem not_plus_splitBase (cs : List Char) : '+' ∉ (splitBase cs).1 := by
  unfold splitBase
  split
  · simp
  · split
    · rename_i hx
      rw [List.mem_cons, not_or]
      exact ⟨by rcases hx with rfl | rfl <;> decide, not_mem_takeWhile (by decide) _⟩
    · split
      · rename_i hb
        rw [List.mem_cons, not_or]
        exact ⟨by rcases hb with rfl | rfl <;> decide, not_mem_takeWhile (by decide) _⟩
      · simp

theorem not_plus_splitNumber (c : Char) (cs : List Char) : '+' ∉ (splitNumber c cs).1 := by
  unfold splitNumber
  dsimp only
  rw [List.mem_append, not_or]
  refine ⟨?_, not_mem_takeWhile (by decide) _⟩
  split
  · exact not_plus_splitBase cs
  · simp

theorem not_plus_splitItem {line : Nat} {c : Char} {cs : List Char} {t : Token}
    (h : (splitItem line c cs).1 = .ok t) (hk : t.kind = .number) : '+' ∉ t.lexeme.toList := by
  unfold splitItem at h
  split at h
  · rename_i kind hkind
    cases h
    exact absurd hk (kind_single? hkind).2.2
  · split at h
    · cases h
      cases hk
    · split at h
      · rename_i hd
        cases h
        rw [String.toList_ofList, List.mem_cons, not_or]
        refine ⟨?_, not_plus_splitNumber c cs⟩
        rintro rfl
        cases hd
      · split at h
        · unfold wordItem at h
          dsimp only at h
          split at h
          · rename_i kind hkind
            cases h
            exact absurd hk (kind_keyword? hkind).2.2
          · split at h
            · cases h
            · cases h
              cases hk
        · cases h

/-- What holds of every item and of the end token holds of all tokens. -/
theorem forall_of_items {P : Token → Prop} (heof : ∀ line, P ⟨.eof, "", line⟩)
    (hitem : ∀ line c cs t, (splitItem line c cs).1 = .ok t → P t) {s : Scanner}
    {tokens : List Token} (h : s.items.mapM id = .ok tokens) : ∀ t ∈ tokens, P t := by
  induction hn : s.remaining using Nat.strongRecOn generalizing s tokens with
  | ind n ih =>
    rw [items_eq] at h
    cases hnext : s.next? with
    | none =>
      rw [hnext] at h
      cases h
      simp
    | some p =>
      obtain ⟨item, s'⟩ := p
      rw [hnext] at h
      obtain ⟨t, ts, rfl, hts, rfl⟩ := mapM_cons_eq_ok h
      refine List.forall_mem_cons.2 ⟨?_, ih _ (hn ▸ next?_remaining hnext) hts rfl⟩
      unfold next? at hnext
      split at hnext
      · split at hnext
        · cases hnext
        · cases hnext
          exact heof _
      · simp only [Option.some.injEq, Prod.mk.injEq] at hnext
        exact hitem _ _ _ _ hnext.1

end Scanner

/-- The tokens of a text are scanned code and an end token. -/
theorem scan_eq_ok {text : String} {tokens : List Token} (h : scan text = .ok tokens) :
    ∃ code last, tokens = code ++ [last] ∧ last.kind = .eof ∧ Scanned code := by
  obtain ⟨code, last, ht, hl, hc, -⟩ := Scanner.items_eq_ok rfl h
  exact ⟨code, last, ht, hl, hc⟩

/-- What is computed from the tokens of a text, if it has any. -/
theorem scan_of_bind {α : Type} {text : String} {f : List Token → Option α} {a : α}
    (h : (scan text).toOption.bind f = some a) :
    ∃ tokens, scan text = .ok tokens ∧ f tokens = some a := by
  cases hscan : scan text with
  | error e =>
    rw [hscan] at h
    cases h
  | ok tokens =>
    rw [hscan] at h
    exact ⟨tokens, rfl, h⟩

theorem not_plus_of_scan {text : String} {tokens : List Token} (h : scan text = .ok tokens) :
    ∀ t ∈ tokens, t.kind = .number → '+' ∉ t.lexeme.toList := by
  refine Scanner.forall_of_items ?_ ?_ h
  · intro line hk
    cases hk
  · intro line c cs t ht hk
    exact Scanner.not_plus_splitItem ht hk

end IndentAsm
