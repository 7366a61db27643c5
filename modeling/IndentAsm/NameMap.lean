/-!
# Finite maps keyed by names

Both tables of the assembler, the macros that are defined and the addresses
of the subroutines, are maps from names. A `NameMap` keeps its entries in the
order in which their names were first bound, one entry a name.

**Results.**
* `get?_insert`: after a binding, the bound name has the new value and every
  other name the value it had.
* `values_insert`: the value of a new name goes last.
-/
namespace IndentAsm

universe u

/-- Binds `key` in a list of entries: in place where it is bound already, and
at the end otherwise. -/
def bindEntry {α : Type u} (key : String) (value : α) : List (String × α) → List (String × α)
  | [] => [(key, value)]
  | e :: es => if e.1 = key then (key, value) :: es else e :: bindEntry key value es

theorem keys_bindEntry {α : Type u} (key : String) (value : α) (es : List (String × α)) :
    (bindEntry key value es).map Prod.fst =
      if key ∈ es.map Prod.fst then es.map Prod.fst else es.map Prod.fst ++ [key] := by
  induction es with
  | nil => rfl
  | cons e es ih =>
    by_cases h : e.1 = key
    · simp [bindEntry, h]
    · have h' : ¬ key = e.1 := fun he => h he.symm
      by_cases hk : key ∈ es.map Prod.fst
      · simp only [bindEntry, h, if_false, List.map_cons, ih, List.mem_cons, h', hk, or_true, if_true]
      · simp only [bindEntry, h, if_false, List.map_cons, ih, List.mem_cons, h', hk, or_self,
          List.cons_append]

theorem nodup_keys_bindEntry {α : Type u} (key : String) (value : α) {es : List (String × α)}
    (h : (es.map Prod.fst).Nodup) : ((bindEntry key value es).map Prod.fst).Nodup := by
  rw [keys_bindEntry]
  split
  · exact h
  · rename_i hk
    rw [List.nodup_append]
    refine ⟨h, by simp, ?_⟩
    intro a ha b hb
    rw [List.mem_singleton] at hb
    exact fun he => hk (hb ▸ he ▸ ha)

/-- A map from names to values that remembers the order of its names. -/
structure NameMap (α : Type u) where
  /-- The bindings, in the order of their names. -/
  entries : List (String × α)
  /-- No name has two bindings. -/
  nodup : (entries.map Prod.fst).Nodup

namespace NameMap

variable {α : Type u}

def empty : NameMap α := ⟨[], List.nodup_nil⟩

instance : Inhabited (NameMap α) := ⟨empty⟩

def get? (m : NameMap α) (key : String) : Option α :=
  m.entries.lookup key

def contains (m : NameMap α) (key : String) : Bool :=
  (m.get? key).isSome

/-- Binds a name, replacing the value it had. -/
def insert (m : NameMap α) (key : String) (value : α) : NameMap α :=
  ⟨bindEntry key value m.entries, nodup_keys_bindEntry key value m.nodup⟩

def size (m : NameMap α) : Nat :=
  m.entries.length

def keys (m : NameMap α) : List String :=
  m.entries.map Prod.fst

def values (m : NameMap α) : List α :=
  m.entries.map Prod.snd

@[simp] theorem get?_empty (key : String) : (empty : NameMap α).get? key = none := rfl

theorem lookup_bindEntry (key name : String) (value : α) (es : List (String × α)) :
    (bindEntry key value es).lookup name = if name = key then some value else es.lookup name := by
  induction es with
  | nil =>
    by_cases h : name = key
    · simp [bindEntry, h]
    · have h' : (name == key) = false := by simpa using h
      simp [bindEntry, List.lookup_cons, h, h']
  | cons e es ih =>
    obtain ⟨k, v⟩ := e
    by_cases hk : k = key
    · subst hk
      by_cases h : name = k
      · simp [bindEntry, h]
      · have h' : (name == k) = false := by simpa using h
        simp [bindEntry, List.lookup_cons, h, h']
    · cases h : name == k with
      | true =>
        have hn : ¬ name = key := by simp only [beq_iff_eq] at h; exact h ▸ hk
        simp [bindEntry, hk, List.lookup_cons, h, hn]
      | false => simp [bindEntry, hk, List.lookup_cons, h, ih]

theorem get?_insert (m : NameMap α) (key name : String) (value : α) :
    (m.insert key value).get? name = if name = key then some value else m.get? name :=
  lookup_bindEntry key name value m.entries

theorem bindEntry_of_lookup {key : String} {es : List (String × α)} (h : es.lookup key = none)
    (value : α) : bindEntry key value es = es ++ [(key, value)] := by
  induction es with
  | nil => rfl
  | cons e es ih =>
    rw [List.lookup_cons] at h
    cases he : key == e.1 with
    | true => simp [he] at h
    | false =>
      have hne : ¬ e.1 = key := fun hk => by simp [hk] at he
      rw [he] at h
      rw [bindEntry, if_neg hne, ih h, List.cons_append]

theorem values_insert {m : NameMap α} {key : String} (h : m.contains key = false) (value : α) :
    (m.insert key value).values = m.values ++ [value] := by
  have hnone : m.entries.lookup key = none := by simpa [contains, get?] using h
  simp only [values, insert, bindEntry_of_lookup hnone, List.map_append, List.map_cons,
    List.map_nil]

end NameMap

end IndentAsm
