import IndentAsm.Command.Disk
import IndentAsm.Parse.Operand

/-!
# What is saved can be read back

`Disk.target` finds the place of an output: a name in a directory that is there, which leads to
no directory and to no device. A file that is put there changes nothing else. The directories
stay the same, since the one it goes into was there before, and so do the other files. So the
path that led to the place leads to the file, whatever was in it before.

**Results.**
* `content?_put`: of all files, only the one that is put has a new content.
* `isDirectory_put`: no directory comes or goes.
* `leads_of_walk`: a walk to a directory leads through directories only.
* `read_put`: an output that was saved is read back under its path.
-/
namespace IndentAsm.Command.Disk

open IndentAsm.Parse (bind_eq_ok)

/-- The content of the file with these names from the root. -/
def content? (d : Disk) (names : List String) : Option (List UInt8) := d.files.lookup names

variable {d : Disk}

/-! ## Putting a file -/

@[simp] theorem cwd_put (names : List String) (content : List UInt8) :
    (d.put names content).cwd = d.cwd := by
  unfold put
  split <;> rfl

theorem lookup_cons_eq (key names : List String) (content : List UInt8)
    (files : List (List String × List UInt8)) : ((key, content) :: files).lookup names =
      if names = key then some content else files.lookup names := by
  by_cases h : names = key
  · simp [h]
  · have hb : (names == key) = false := by simpa using h
    simp [List.lookup_cons, hb, h]

theorem lookup_map_put (files : List (List String × List UInt8)) (names other : List String)
    (content : List UInt8) :
    (files.map fun f => if f.1 = names then (names, content) else f).lookup other =
      if other = names then (files.lookup names).map fun _ => content else files.lookup other := by
  induction files with
  | nil => simp
  | cons f files ih =>
    obtain ⟨key, old⟩ := f
    rw [List.map_cons]
    by_cases hk : key = names
    · subst hk
      by_cases ho : other = key <;> simp [lookup_cons_eq, ih, ho]
    · have hk' : ¬ names = key := fun h => hk h.symm
      by_cases ho : other = names
      · subst ho
        simpa [lookup_cons_eq, hk, hk'] using ih
      · rw [if_neg ho] at ih ⊢
        simp [lookup_cons_eq, hk, ih]

theorem lookup_eq_none_iff_any {names : List String} :
    d.files.lookup names = none ↔ ¬ d.files.any (·.1 == names) = true := by
  simp only [List.lookup_eq_none_iff, List.any_eq_true, not_exists, not_and, bne_iff_ne, beq_iff_eq,
    ne_eq]
  constructor
  · intro h f hf hn
    exact h f hf hn.symm
  · intro h f hf hn
    exact h f hf hn.symm

/-- Of all files, only the one that is put has a new content. -/
theorem content?_put (names other : List String) (content : List UInt8) :
    (d.put names content).content? other =
      if other = names then some content else d.content? other := by
  unfold put content?
  split
  · rename_i hany
    rw [lookup_map_put]
    cases hl : d.files.lookup names with
    | none => exact absurd hany (lookup_eq_none_iff_any.1 hl)
    | some old => rfl
  · rename_i hany
    have hnone := lookup_eq_none_iff_any.2 hany
    by_cases ho : other = names
    · simp [List.lookup_append, ho, hnone]
    · simp [List.lookup_append, lookup_cons_eq, ho]

theorem exists_files_put (names : List String) (content : List UInt8) (P : List String → Prop) :
    (∃ f ∈ (d.put names content).files, P f.1) ↔ P names ∨ ∃ f ∈ d.files, P f.1 := by
  unfold put
  split
  · rename_i hany
    obtain ⟨f, hf, hfn⟩ := List.any_eq_true.1 hany
    have hfn' : f.1 = names := by simpa using hfn
    have hkey (g : List String × List UInt8) :
        (if g.1 = names then (names, content) else g).1 = g.1 := by
      split <;> simp_all
    constructor
    · intro h
      obtain ⟨f', hf', hp⟩ := h
      obtain ⟨g, hg, rfl⟩ := List.mem_map.1 hf'
      exact Or.inr ⟨g, hg, hkey g ▸ hp⟩
    · intro h
      have hold : ∃ g ∈ d.files, P g.1 := by
        rcases h with h | h
        · exact ⟨f, hf, hfn' ▸ h⟩
        · exact h
      obtain ⟨g, hg, hp⟩ := hold
      exact ⟨_, List.mem_map_of_mem hg, (hkey g).symm ▸ hp⟩
  · simp only [List.mem_append, List.mem_singleton]
    constructor
    · intro h
      obtain ⟨f, hf | rfl, hp⟩ := h
      · exact Or.inr ⟨f, hf, hp⟩
      · exact Or.inl hp
    · intro h
      rcases h with h | ⟨f, hf, hp⟩
      · exact ⟨(names, content), Or.inr rfl, h⟩
      · exact ⟨f, Or.inl hf, hp⟩

/-! ## Directories -/

theorem isDirectory_iff {names : List String} : d.isDirectory names = true ↔
    (names <+: d.cwd ∨ (∃ root ∈ rootDirectories, names <+: [root]) ∨
      ∃ entry ∈ Device.table, names <+: entry.1.dropLast) ∨
    ∃ file ∈ d.files, names <+: file.1.dropLast := by
  unfold isDirectory
  simp only [Bool.or_eq_true, List.any_eq_true, List.isPrefixOf_iff_prefix, or_assoc]

/-- What is on the way to a directory is a directory. -/
theorem isDirectory_anti {names more : List String} (h : d.isDirectory more = true)
    (hp : names <+: more) : d.isDirectory names = true := by
  rw [isDirectory_iff] at h ⊢
  rcases h with (h | ⟨root, hr, h⟩ | ⟨entry, he, h⟩) | ⟨file, hf, h⟩
  · exact Or.inl (Or.inl (hp.trans h))
  · exact Or.inl (Or.inr (Or.inl ⟨root, hr, hp.trans h⟩))
  · exact Or.inl (Or.inr (Or.inr ⟨entry, he, hp.trans h⟩))
  · exact Or.inr ⟨file, hf, hp.trans h⟩

/-- No directory comes or goes with a file that is put into one. -/
theorem isDirectory_put {parent : List String} (h : d.isDirectory parent = true) (name : String)
    (content : List UInt8) (names : List String) :
    (d.put (parent ++ [name]) content).isDirectory names = d.isDirectory names := by
  rw [Bool.eq_iff_iff, isDirectory_iff, isDirectory_iff, cwd_put,
    exists_files_put _ _ (fun key => names <+: key.dropLast), List.dropLast_concat]
  constructor
  · intro hd
    rcases hd with hd | hd | hd
    · exact Or.inl hd
    · exact isDirectory_iff.1 (isDirectory_anti h hd)
    · exact Or.inr hd
  · intro hd
    rcases hd with hd | hd
    · exact Or.inl hd
    · exact Or.inr (Or.inr hd)

theorem node?_of_directory {names : List String} (h : d.isDirectory names = true) :
    d.node? names = some .directory := by
  rw [node?, if_pos h]

theorem isDirectory_of_node? {names : List String} (h : d.node? names = some .directory) :
    d.isDirectory names = true := by
  cases hd : d.isDirectory names with
  | true => rfl
  | false =>
    unfold node? at h
    rw [hd] at h
    cases hl : Device.table.lookup names <;> simp [hl] at h

/-! ## Walks -/

/-- The names `xs` lead from `place` to `found` through directories only. -/
inductive Leads (d : Disk) : List String → List String → List String → Prop where
  | here {place : List String} : Leads d place [] place
  | stay {place xs found : List String} {name : String} (same : name = "" ∨ name = ".")
      (rest : Leads d place xs found) : Leads d place (name :: xs) found
  | up {place xs found : List String} (rest : Leads d place.dropLast xs found) :
      Leads d place (".." :: xs) found
  | down {place xs found : List String} {name : String} (plain : ¬ (name = "" ∨ name = "."))
      (other : name ≠ "..") (size : ¬ maxNameSize < name.utf8ByteSize)
      (directory : d.isDirectory (place ++ [name]) = true)
      (rest : Leads d (place ++ [name]) xs found) : Leads d place (name :: xs) found

/-- A walk to a directory leads through directories only. -/
theorem leads_of_walk {place xs found : List String} (h : d.walk place xs = .ok found)
    (hd : d.isDirectory found = true) : Leads d place xs found := by
  induction xs generalizing place with
  | nil =>
    cases h
    exact .here
  | cons name xs ih =>
    rw [walk] at h
    split at h
    · rename_i hs
      exact .stay hs (ih h)
    · rename_i hs
      split at h
      · rename_i hu
        subst hu
        exact .up (ih h)
      · rename_i hu
        split at h
        · cases h
        · rename_i hz
          split at h
          · cases h
          · rename_i hn
            exact .down hs hu hz (isDirectory_of_node? hn) (ih h)
          · -- a file or a device would be the end of the walk
            rename_i node hne hn
            split at h
            · cases h
              rw [node?_of_directory hd] at hn
              cases hn
              exact absurd rfl hne
            · cases h

theorem Leads.walk_append {place xs found : List String} (h : Leads d place xs found)
    (ys : List String) : d.walk place (xs ++ ys) = d.walk found ys := by
  induction h with
  | here => rfl
  | stay same rest ih => rw [List.cons_append, walk, if_pos same, ih]
  | up rest ih =>
    rw [List.cons_append, walk, if_neg (by decide), if_pos rfl, ih]
  | down plain other size directory rest ih =>
    rw [List.cons_append, walk, if_neg plain, if_neg other, if_neg size,
      node?_of_directory directory, ih]

/-- It is the same walk on a disk with the same directories. -/
theorem Leads.congr {e : Disk} {place xs found : List String} (h : Leads d place xs found)
    (hd : ∀ names, e.isDirectory names = d.isDirectory names) : Leads e place xs found := by
  induction h with
  | here => exact .here
  | stay same rest ih => exact .stay same ih
  | up rest ih => exact .up ih
  | down plain other size directory rest ih =>
    exact .down plain other size ((hd _).trans directory) ih

/-! ## Outputs -/

/-- A path leads to the name of a file, old or new, in a directory. -/
structure Opens (d : Disk) (path : String) (parent : List String) (name : String) : Prop where
  leads : ∃ place parents, d.start path = .ok place ∧ splitPath path = parents ++ [name] ∧
    Leads d place parents parent
  inside : d.isDirectory parent = true
  plain : ¬ (name = "" ∨ name = ".")
  other : name ≠ ".."
  size : ¬ maxNameSize < name.utf8ByteSize
  directory : d.isDirectory (parent ++ [name]) = false
  device : Device.table.lookup (parent ++ [name]) = none

theorem eq_of_splitLast {names parents : List String} {name : String}
    (h : splitLast names = (parents, name)) (hlast : names.getLast? ≠ some "")
    (hname : name ≠ ".") : names = parents ++ [name] ∧ name ≠ "" := by
  unfold splitLast at h
  cases hr : names.reverse with
  | nil =>
    simp only [hr, List.dropWhile_nil, Prod.mk.injEq] at h
    exact absurd h.2.symm hname
  | cons last before =>
    have hnames : names = before.reverse ++ [last] := by
      rw [← List.reverse_reverse names, hr, List.reverse_cons]
    have hne : last ≠ "" := by
      intro he
      simp [hnames, he] at hlast
    have hdrop : (last :: before).dropWhile (· == "") = last :: before := by
      rw [List.dropWhile_cons_of_neg (by simpa using hne)]
    simp only [hr, hdrop, Prod.mk.injEq] at h
    obtain ⟨rfl, rfl⟩ := h
    exact ⟨hnames, hne⟩

theorem targetIn_eq_file {parent names : List String} {name : String}
    (h : d.targetIn parent name = .ok (.file names)) : names = parent ++ [name] ∧
      ¬ maxNameSize < name.utf8ByteSize ∧ d.isDirectory (parent ++ [name]) = false ∧
      Device.table.lookup (parent ++ [name]) = none := by
  unfold targetIn at h
  split at h
  · cases h
  · rename_i hz
    split at h
    · cases h
    · cases h
    · rename_i hdir hdev
      cases h
      have hd : d.isDirectory (parent ++ [name]) = false := by
        cases hd : d.isDirectory (parent ++ [name]) with
        | false => rfl
        | true => exact absurd (node?_of_directory hd) hdir
      refine ⟨rfl, hz, hd, ?_⟩
      cases hl : Device.table.lookup (parent ++ [name]) with
      | none => rfl
      | some device =>
        refine absurd ?_ (hdev device)
        simp [node?, hd, hl]

theorem opens_of_target {path : String} {names : List String}
    (h : d.target path = .ok (.file names)) :
    ∃ parent name, Opens d path parent name ∧ names = parent ++ [name] := by
  obtain ⟨place, hplace, h⟩ := bind_eq_ok.1 h
  obtain ⟨parent, hparent, h⟩ := bind_eq_ok.1 h
  obtain ⟨found, hwalk, hparent⟩ := bind_eq_ok.1 hparent
  split at hparent
  · rename_i hdir
    cases hparent
    split at h
    · cases h
    · rename_i hplain
      simp only [not_or] at hplain
      obtain ⟨hlast, hdot, hup⟩ := hplain
      obtain ⟨hsplit, hempty⟩ := eq_of_splitLast rfl hlast hdot
      obtain ⟨hnames, hsize, hfile, hdevice⟩ := targetIn_eq_file h
      refine ⟨parent, _, ⟨⟨place, _, hplace, hsplit, leads_of_walk hwalk hdir⟩, hdir, ?_, hup, hsize,
        hfile, hdevice⟩, hnames⟩
      intro hs
      rcases hs with hs | hs
      · exact hempty hs
      · exact hdot hs
  · cases hparent

/-- An output that was saved is read back under its path. -/
theorem read_put {path : String} {names : List String} (h : d.target path = .ok (.file names))
    (content : List UInt8) : (d.put names content).read path = .ok content := by
  obtain ⟨parent, name, ho, rfl⟩ := opens_of_target h
  obtain ⟨place, parents, hplace, hsplit, hleads⟩ := ho.leads
  have hdirs := isDirectory_put ho.inside name content
  have hstart : (d.put (parent ++ [name]) content).start path = .ok place := by
    rw [← hplace, start, start, cwd_put]
  have hnode : (d.put (parent ++ [name]) content).node? (parent ++ [name]) =
      some (.file content) := by
    have hc := content?_put (d := d) (parent ++ [name]) (parent ++ [name]) content
    rw [if_pos rfl, content?] at hc
    simp [node?, hdirs, ho.directory, ho.device, hc]
  have hwalk : (d.put (parent ++ [name]) content).walk place (splitPath path) =
      .ok (parent ++ [name]) := by
    rw [hsplit, (hleads.congr hdirs).walk_append, walk, if_neg ho.plain, if_neg ho.other,
      if_neg ho.size, hnode]
    rfl
  refine read_eq_ok_iff.2 (Or.inl ?_)
  unfold find
  simp only [hstart, hwalk, hnode, bind, Except.bind]
  rfl

end IndentAsm.Command.Disk
