import IndentAsm.Proofs.Image.Outcome

/-!
# Addresses pass after pass

A table of addresses can be given to the first pass again, with another layout or after a
failure (`tableAfter`). Offsets start at zero each time, and nothing is taken out of the table.
So a pass overrides the names it comes to, and leaves the others at the address an earlier pass
gave them (`Overridden`). A pass that fails comes to the subroutine at fault as well, since this
starts at an address and only its end is none.

**Results.**
* `placeFrom_of_overflow`: what a pass that fails reports and leaves behind.
* `overridden_of_get?`: what the table has for each name.
* `firstOver_append`: the first subroutine that does not fit.
* `assignAddresses_after`: the result of a pass and its table, after any passes before it.
-/
namespace IndentAsm

/-- The table that passes over some layouts leave behind, whether they succeed or not. -/
def tableAfter (layouts : List (List Subroutine)) : SymbolTable :=
  layouts.foldl (fun table layout => (assignAddresses table layout).1) .empty

/-- The table `table'` is `table` with the names in a layout at new addresses. -/
structure Overridden (table : SymbolTable) (layout : List Subroutine) (table' : SymbolTable) :
    Prop where
  /-- A name has the total size of what comes before the last subroutine of that name. -/
  bound : ∀ before s after, layout = before ++ s :: after → (∀ t ∈ after, t.name ≠ s.name) →
    (table'.get? s.name).map UInt16.toNat = some (totalSize before)
  /-- Other names have the address they had. -/
  kept : ∀ name, (∀ s ∈ layout, s.name ≠ name) → table'.get? name = table.get? name

/-- A layout has the end of every subroutine at an address. -/
def AllFit (layout : List Subroutine) : Prop :=
  ∀ k, totalSize (layout.take k) ≤ lastAddress

/-- The subroutine at `k` is the first with which a layout outgrows the addresses. -/
structure FirstOver (layout : List Subroutine) (k : Nat) (s : Subroutine) : Prop where
  here : layout[k]? = some s
  exceeds : lastAddress < totalSize (layout.take (k + 1))
  first : ∀ j < k, totalSize (layout.take (j + 1)) ≤ lastAddress

/-! ## A pass that fails -/

/-- A pass fails at the subroutine that does not fit, whatever follows it, and has given this
one its address before. -/
theorem placeFrom_of_overflow {offset : Nat} {before : List Subroutine} {s : Subroutine}
    (hb : offset + totalSize before ≤ lastAddress)
    (hs : lastAddress < offset + totalSize before + s.size) (after : List Subroutine)
    (table : SymbolTable) :
    (placeFrom offset table (before ++ s :: after)).2 = .error (.addressOverflow s.line s.name) ∧
      ∀ name, (placeFrom offset table (before ++ s :: after)).1.get? name =
        ((startIn (before ++ [s]) name).map fun a => (offset + a).toUInt16).or
          (table.get? name) := by
  induction before generalizing offset table with
  | nil =>
    rw [totalSize_nil, Nat.add_zero] at hb hs
    rw [List.nil_append, placeFrom, if_neg (Nat.not_lt.2 hb)]
    dsimp only
    rw [if_pos hs]
    refine ⟨rfl, fun name => ?_⟩
    exact get?_insert_startIn table offset s [] name
  | cons t before ih =>
    rw [totalSize_cons] at hb hs
    have hb' : offset + t.size + totalSize before ≤ lastAddress := by omega
    have hs' : lastAddress < offset + t.size + totalSize before + s.size := by omega
    rw [List.cons_append, placeFrom, if_neg (by omega)]
    dsimp only
    rw [if_neg (by omega)]
    obtain ⟨he, ht⟩ := ih hb' hs' (table.insert t.name offset.toUInt16)
    refine ⟨he, fun name => ?_⟩
    rw [ht]
    exact get?_insert_startIn table offset t (before ++ [s]) name

/-! ## What is overridden -/

/-- Where all subroutines start at an address, none of these is cut off. -/
theorem overridden_of_get? {table table' : SymbolTable} {layout : List Subroutine}
    (hfit : ∀ before s after, layout = before ++ s :: after → totalSize before ≤ lastAddress)
    (h : ∀ name, table'.get? name =
      ((startIn layout name).map Nat.toUInt16).or (table.get? name)) :
    Overridden table layout table' := by
  refine ⟨fun before s after hl hlast => ?_, fun name hn => ?_⟩
  · have hle := hfit before s after hl
    have hstart : startIn layout s.name = some (totalSize before) := hl ▸ startIn_append hlast
    have hnat : (totalSize before).toUInt16.toNat = totalSize before :=
      UInt16.toNat_ofNat_of_lt' (Nat.lt_succ_of_le hle)
    rw [h, hstart]
    simp [hnat]
  · rw [h, startIn_eq_none_iff.2 hn]
    rfl

/-! ## Where a layout stops to fit -/

theorem totalSize_take_le (layout : List Subroutine) (k : Nat) :
    totalSize (layout.take k) ≤ totalSize layout := by
  have hsum : totalSize (layout.take k) + totalSize (layout.drop k) = totalSize layout := by
    rw [← totalSize_append, List.take_append_drop]
  omega

theorem allFit_of_le {layout : List Subroutine} (h : totalSize layout ≤ lastAddress) :
    AllFit layout :=
  fun k => Nat.le_trans (totalSize_take_le layout k) h

theorem take_length_succ (before after : List Subroutine) (s : Subroutine) :
    (before ++ s :: after).take (before.length + 1) = before ++ [s] := by
  rw [List.take_length_add_append]
  rfl

theorem firstOver_append {before : List Subroutine} {s : Subroutine}
    (hb : totalSize before ≤ lastAddress) (hs : lastAddress < totalSize before + s.size)
    (after : List Subroutine) : FirstOver (before ++ s :: after) before.length s where
  here := by simp
  exceeds := by
    rw [take_length_succ, totalSize_append, totalSize_cons, totalSize_nil]
    omega
  first := by
    intro j hj
    rw [List.take_append_of_le_length hj]
    exact Nat.le_trans (totalSize_take_le before (j + 1)) hb

theorem FirstOver.not_allFit {layout : List Subroutine} {k : Nat} {s : Subroutine}
    (h : FirstOver layout k s) : ¬ AllFit layout :=
  fun hfit => Nat.not_lt.2 (hfit (k + 1)) h.exceeds

/-! ## One pass after others -/

theorem tableAfter_append (layouts : List (List Subroutine)) (layout : List Subroutine) :
    tableAfter (layouts ++ [layout]) = (assignAddresses (tableAfter layouts) layout).1 := by
  rw [tableAfter, List.foldl_append]
  rfl

/-- A pass over a layout that fits succeeds and overrides the names of the layout. A pass over
another one fails with the first subroutine that does not fit, and overrides the names up to and
with this one. The passes before it play no part but for the names it does not come to. -/
theorem assignAddresses_after (layouts : List (List Subroutine)) (layout : List Subroutine) :
    (AllFit layout →
      (assignAddresses (tableAfter layouts) layout).2 = .ok (totalSize layout) ∧
      Overridden (tableAfter layouts) layout (tableAfter (layouts ++ [layout]))) ∧
    (¬ AllFit layout → ∃ k s, FirstOver layout k s ∧
      (assignAddresses (tableAfter layouts) layout).2 =
        .error (.addressOverflow s.line s.name) ∧
      Overridden (tableAfter layouts) (layout.take (k + 1)) (tableAfter (layouts ++ [layout]))) := by
  rw [tableAfter_append, assignAddresses]
  generalize tableAfter layouts = table
  rcases placeFrom_cases table (Nat.zero_le _) layout with
    ⟨table', hok, hle⟩ | ⟨before, s, after, rfl, hb, hs, -⟩
  · rw [Nat.zero_add] at hok hle
    have hfit := allFit_of_le hle
    refine ⟨fun _ => ?_, fun hnot => absurd hfit hnot⟩
    obtain ⟨-, -, ht⟩ := placeFrom_eq_ok (Nat.zero_le _) hok
    rw [hok]
    simp only [Nat.zero_add] at ht
    refine ⟨rfl, overridden_of_get? (fun before s after hl => ?_) ht⟩
    have hprefix := hfit before.length
    rwa [hl, List.take_left] at hprefix
  · obtain ⟨he, ht⟩ := placeFrom_of_overflow hb hs after table
    simp only [Nat.zero_add] at hb hs ht
    have hover := firstOver_append hb hs after
    refine ⟨fun hfit => absurd hfit hover.not_allFit, fun _ => ?_⟩
    refine ⟨before.length, s, hover, he, ?_⟩
    rw [take_length_succ]
    refine overridden_of_get? (fun before' s' after' hl => ?_) ht
    -- what comes before any of these comes before the one at fault
    have hinit := congrArg List.dropLast hl
    rw [List.dropLast_concat, List.dropLast_append_of_ne_nil (by simp)] at hinit
    rw [hinit, totalSize_append] at hb
    omega

end IndentAsm
