import IndentAsm.Command.World
import IndentAsm.Proofs.Command.Saved
import IndentAsm.Proofs.Parse.Step
import IndentAsm.Proofs.Token.Scanned

/-!
# A session delivers a whole image or nothing

What a session tells on standard error leads to nothing else: `Session.quiet` leaves it out, and
the status, the disk and standard output stay the same. What is left of a session that assembles
a file is `Session.essence`, in which the flags for diagnostics, the environment and the
conventions do not occur. So they decide on nothing but what is told, and all that is said here
holds under any conventions, whatever arguments look like and whatever a filter admits.

The essence reads one file, and writes one output once the image is complete. Whatever the
machine refuses (`Faults`), nothing is written before.

**Results.**
* `runUnder_quiet`: a session and its quiet form have the same effects.
* `quiet_assembleFile`: the essence of a session depends on the file, the output and the limit.
* `delivers_of_request`: what is delivered, for all conventions, arguments, disks and faults.
-/
namespace IndentAsm.Command

/-! ## Without what is told -/

/-- The requests of a session without what it writes to standard error. -/
def Session.quiet : Session → Session
  | .report _ next => next.quiet
  | .read path next => .read path fun found => (next found).quiet
  | .print bytes next => .print bytes fun printed => (next printed).quiet
  | .save path bytes next => .save path bytes fun saved => (next saved).quiet
  | .exit status => .exit status

namespace World

/-- Worlds that differ in standard error only. -/
structure Agrees (w v : World) : Prop where
  disk : v.disk = w.disk
  stdout : v.stdout = w.stdout

variable {w v : World}

theorem Agrees.read (h : w.Agrees v) (faults : Faults) (path : String) :
    v.read faults path = w.read faults path := by
  unfold World.read
  rw [h.disk]

theorem Agrees.print (h : w.Agrees v) (faults : Faults) (content : List UInt8) :
    (w.print faults content).1.Agrees (v.print faults content).1 ∧
      (v.print faults content).2 = (w.print faults content).2 := by
  unfold World.print
  exact ⟨⟨h.disk, by simp [h.stdout]⟩, rfl⟩

theorem Agrees.write (h : w.Agrees v) (faults : Faults) (content : List UInt8) (device : Device) :
    (w.write faults content device).1.Agrees (v.write faults content device).1 ∧
      (v.write faults content device).2 = (w.write faults content device).2 := by
  cases device with
  | null => exact ⟨h, rfl⟩
  | full => exact ⟨h, rfl⟩
  | stdin => exact ⟨h, rfl⟩
  | stdout => exact h.print faults content
  | stderr => exact ⟨⟨h.disk, h.stdout⟩, rfl⟩

theorem Agrees.save (h : w.Agrees v) (faults : Faults) (path : String) (content : List UInt8) :
    (w.save faults path content).1.Agrees (v.save faults path content).1 ∧
      (v.save faults path content).2 = (w.save faults path content).2 := by
  have htarget : v.target faults path = w.target faults path := by
    unfold World.target
    rw [h.disk]
  unfold World.save
  rw [htarget]
  cases w.target faults path with
  | error e => exact ⟨h, rfl⟩
  | ok target =>
    cases target with
    | file names => exact ⟨⟨by simp [h.disk], h.stdout⟩, rfl⟩
    | device device =>
      obtain ⟨hw, hr⟩ := h.write faults content device
      exact ⟨hw, by simp [hr]⟩

/-- A session and its quiet form have the same effects, apart from standard error. -/
theorem runUnder_quiet (faults : Faults) (session : Session) (h : w.Agrees v) :
    (v.runUnder faults session.quiet).1 = (w.runUnder faults session).1 ∧
      (w.runUnder faults session).2.Agrees (v.runUnder faults session.quiet).2 := by
  induction session generalizing w v with
  | report text next ih => exact ih ⟨h.disk, h.stdout⟩
  | read path next ih =>
    have hr := h.read faults path
    simp only [Session.quiet, runUnder, hr]
    exact ih _ h
  | print bytes next ih =>
    obtain ⟨hw, hr⟩ := h.print faults bytes
    simp only [Session.quiet, runUnder, hr]
    exact ih _ hw
  | save path bytes next ih =>
    obtain ⟨hw, hr⟩ := h.save faults path bytes
    simp only [Session.quiet, runUnder, hr]
    exact ih _ hw
  | exit status => exact ⟨rfl, h⟩

end World

/-! ## The essence of a session -/

def textOf? (bytes : List UInt8) : Option String := String.fromUTF8? ⟨bytes.toArray⟩

namespace Session

/-- The status of a session, by the answer to its last request. -/
def statusOf {ε : Type} : Except ε Unit → UInt8
  | .ok () => success
  | .error _ => failure

/-- Writes an image to where it should go, and tells nothing. -/
def emit (output : Option String) (image : List UInt8) : Session :=
  match output with
  | none => .print image fun printed => .exit (statusOf printed)
  | some path => .save path image fun saved => .exit (statusOf saved)

/-- Assembles a file, and tells nothing. -/
def essence (file : String) (output : Option String) (maxDepth : Nat) : Session :=
  .read file fun found =>
    match found.toOption.bind textOf? with
    | none => .exit failure
    | some text =>
      match (assemble { maxDepth := maxDepth } text).result with
      | .error _ => .exit assemblyError
      | .ok image => emit output image

theorem quiet_deliver (options : Options) (image : List UInt8) :
    (deliver options image).quiet = emit options.output image := by
  unfold deliver emit
  cases options.output with
  | none =>
    simp only [quiet]
    congr
    funext printed
    cases printed <;> rfl
  | some path =>
    simp only [quiet]
    congr
    funext saved
    cases saved with
    | ok _ => rfl
    | error e => cases e <;> rfl

section
variable (c : Conventions) (env : Environment) (options : Options)

theorem quiet_linkProgram (p : Program) :
    (linkProgram c env options p).quiet =
      match (link p).result with
      | .error _ => .exit assemblyError
      | .ok image => emit options.output image := by
  unfold linkProgram
  dsimp only
  cases (link p).result with
  | error e => rfl
  | ok image => exact quiet_deliver options image

theorem quiet_assembleText (text : String) :
    (assembleText c env options text).quiet =
      match (assemble { maxDepth := options.maxDepth } text).result with
      | .error _ => .exit assemblyError
      | .ok image => emit options.output image := by
  unfold assembleText assemble tell
  simp only [quiet]
  cases (parse { maxDepth := options.maxDepth } text).result with
  | error e => rfl
  | ok p =>
    -- showing the tree comes before linking, and is told like everything else
    dsimp only
    split <;> exact quiet_linkProgram c env options p

/-- What is left of a session depends on the file, the output and the limit on nesting. -/
theorem quiet_assembleFile :
    (assembleFile c env options).quiet = essence options.file options.output options.maxDepth := by
  unfold assembleFile essence
  simp only [quiet]
  congr
  funext found
  cases found with
  | error e => rfl
  | ok bytes =>
    dsimp only [Except.toOption, Option.bind_some, textOf?]
    cases String.fromUTF8? ⟨bytes.toArray⟩ with
    | none => rfl
    | some text => exact quiet_assembleText c env options text

end

end Session

namespace World

/-- The text of a file, where it can be read and is one. -/
def text? (faults : Faults) (w : World) (path : String) : Option String :=
  (w.read faults path).toOption.bind textOf?

/-- The source file can be read and has an image. -/
def Yields (faults : Faults) (w : World) (options : Options) (image : List UInt8) : Prop :=
  ∃ text, w.text? faults options.file = some text ∧
    (assemble { maxDepth := options.maxDepth } text).result = .ok image

section
variable {faults : Faults} {w : World}

theorem runUnder_essence (faults : Faults) (w : World) (file : String) (output : Option String)
    (maxDepth : Nat) : w.runUnder faults (.essence file output maxDepth) =
      match w.text? faults file with
      | none => (failure, w)
      | some text =>
        match (assemble { maxDepth := maxDepth } text).result with
        | .error _ => (assemblyError, w)
        | .ok image => w.runUnder faults (.emit output image) := by
  unfold Session.essence text?
  rw [runUnder]
  cases (w.read faults file).toOption.bind textOf? with
  | none => rfl
  | some text =>
    dsimp only
    cases (assemble { maxDepth := maxDepth } text).result <;> rfl

theorem runUnder_of_yields {options : Options} {image : List UInt8}
    (h : w.Yields faults options image) :
    w.runUnder faults (.essence options.file options.output options.maxDepth) =
      w.runUnder faults (.emit options.output image) := by
  obtain ⟨text, htext, himage⟩ := h
  rw [runUnder_essence, htext]
  simp only [himage]

end

end World

/-! ## What is delivered -/

/-- A text that is no program, or is one without an image. -/
def Rejects (config : Config) (text : String) (e : Error) : Prop :=
  (parse config text).result = .error e ∨
    ∃ p, (parse config text).result = .ok p ∧ (link p).result = .error e

theorem Rejects.assemble {config : Config} {text : String} {e : Error} (h : Rejects config text e) :
    (assemble config text).result = .error e := by
  unfold IndentAsm.assemble
  rcases h with h | ⟨p, hp, h⟩
  · simp only [h]
  · simp only [hp, h]

/-- What a session that assembles a file leaves in the end: its status, the disk and standard
output, by what its requests meet in the world `w` it starts in. -/
structure Delivers (faults : Faults) (w : World) (options : Options) (status : UInt8)
    (disk : Disk) (stdout : List UInt8) : Prop where
  /-- The source file cannot be read, or is no text. -/
  unreadable : w.text? faults options.file = none →
    status = 1 ∧ stdout = w.stdout ∧ disk = w.disk
  /-- The text is no program, or the program has no image. -/
  rejected : ∀ text e, w.text? faults options.file = some text →
    Rejects { maxDepth := options.maxDepth } text e →
    status = 64 ∧ stdout = w.stdout ∧ disk = w.disk
  /-- The output cannot be opened. -/
  unopened : ∀ image path e, w.Yields faults options image → options.output = some path →
    w.target faults path = .error e →
    status = 1 ∧ stdout = w.stdout ∧ disk = w.disk
  /-- Without an output, the image goes to standard output. -/
  printed : ∀ image, w.Yields faults options image → options.output = none →
    (∀ stop ∈ faults.print, image.length ≤ stop.room) →
    status = 0 ∧ stdout = w.stdout ++ image ∧ disk = w.disk
  /-- The image is all that is in the output file, and no other file has changed. -/
  saved : ∀ image path names, w.Yields faults options image → options.output = some path →
    w.target faults path = .ok (.file names) →
    (∀ stop ∈ faults.write path, image.length ≤ stop.room) →
    status = 0 ∧ stdout = w.stdout ∧ disk.read path = .ok image ∧
      disk.content? names = some image ∧
      ∀ other, other ≠ names → disk.content? other = w.disk.content? other
  /-- An output that is a device is no file: no file has changed. -/
  device : ∀ image path device, w.Yields faults options image → options.output = some path →
    w.target faults path = .ok (.device device) →
    disk = w.disk ∧ (device ≠ .stdout → stdout = w.stdout) ∧
      (device = .stdout → (∀ stop ∈ faults.print, image.length ≤ stop.room) →
        status = 0 ∧ stdout = w.stdout ++ image)
  /-- There is no room for the whole image. -/
  unfinished : ∀ image stop, w.Yields faults options image → stop.room < image.length →
    (options.output = none → faults.print = some stop → status = 1 ∧ disk = w.disk) ∧
    ∀ path names, options.output = some path → w.target faults path = .ok (.file names) →
      faults.write path = some stop →
      status = 1 ∧ stdout = w.stdout ∧
        ∀ other, other ≠ names → disk.content? other = w.disk.content? other

namespace World

section
variable {faults : Faults} {w : World}

theorem disk_write (content : List UInt8) (device : Device) :
    (w.write faults content device).1.disk = w.disk := by
  cases device <;> rfl

theorem stdout_write (content : List UInt8) {device : Device} (h : device ≠ .stdout) :
    (w.write faults content device).1.stdout = w.stdout := by
  cases device with
  | stdout => exact absurd rfl h
  | _ => rfl

theorem disk_target {path : String} {names : List String}
    (h : w.target faults path = .ok (.file names)) : w.disk.target path = .ok (.file names) := by
  unfold target at h
  split at h
  · cases h
  · exact h

end

end World

/-- What is delivered by the essence of a session. -/
theorem delivers_essence (faults : Faults) (w : World) (options : Options) :
    let result := w.runUnder faults (.essence options.file options.output options.maxDepth)
    Delivers faults w options result.1 result.2.disk result.2.stdout := by
  intro result
  have hprint {image : List UInt8} (hy : w.Yields faults options image)
      (ho : options.output = none) : result = (Session.statusOf (w.print faults image).2,
        (w.print faults image).1) := by
    rw [show result = _ from World.runUnder_of_yields hy, ho]
    rfl
  have hsave {image : List UInt8} {path : String} (hy : w.Yields faults options image)
      (ho : options.output = some path) : result = (Session.statusOf (w.save faults path image).2,
        (w.save faults path image).1) := by
    rw [show result = _ from World.runUnder_of_yields hy, ho]
    rfl
  constructor
  case unreadable =>
    intro hnone
    have hr : result = (failure, w) := by
      rw [show result = _ from World.runUnder_essence .., hnone]
    rw [hr]
    exact ⟨rfl, rfl, rfl⟩
  case rejected =>
    intro text e htext hrej
    have hr : result = (assemblyError, w) := by
      rw [show result = _ from World.runUnder_essence .., htext]
      simp only [hrej.assemble]
    rw [hr]
    exact ⟨rfl, rfl, rfl⟩
  case unopened =>
    intro image path e hy ho ht
    rw [hsave hy ho, World.save_of_error ht]
    exact ⟨rfl, rfl, rfl⟩
  case printed =>
    intro image hy ho hroom
    rw [hprint hy ho, World.print, Stop.cut_of_room hroom]
    exact ⟨rfl, rfl, rfl⟩
  case saved =>
    intro image path names hy ho ht hroom
    rw [hsave hy ho, World.save_of_file ht, Stop.cut_of_room hroom]
    refine ⟨rfl, rfl, Disk.read_put (World.disk_target ht) image, ?_, ?_⟩
    · simp [Disk.content?_put]
    · intro other hne
      simp [Disk.content?_put, hne]
  case device =>
    intro image path device hy ho ht
    rw [hsave hy ho, World.save_of_device ht]
    refine ⟨World.disk_write image device, World.stdout_write image, ?_⟩
    intro hdevice hroom
    rw [hdevice, World.write, World.print, Stop.cut_of_room hroom]
    exact ⟨rfl, rfl⟩
  case unfinished =>
    intro image stop hy hlt
    constructor
    · intro ho hstop
      rw [hprint hy ho, World.print, hstop, Stop.cut_of_lt hlt]
      exact ⟨rfl, rfl⟩
    · intro path names ho ht hstop
      rw [hsave hy ho, World.save_of_file ht, hstop, Stop.cut_of_lt hlt]
      refine ⟨rfl, rfl, ?_⟩
      intro other hne
      simp [Disk.content?_put, hne]

/-- A session does what its essence does, and tells more. -/
theorem runUnder_of_request {c : Conventions} {args : List String} {options : Options}
    (h : c.request? args = some (.assemble options)) (env : Environment) (faults : Faults)
    (w : World) :
    let result := w.runUnder faults (.ofArgumentsUnder c env args)
    let core := w.runUnder faults (.essence options.file options.output options.maxDepth)
    core.1 = result.1 ∧ result.2.Agrees core.2 := by
  have hsession : Session.ofArgumentsUnder c env args = .assembleFile c env options := by
    rw [Session.ofArgumentsUnder, h]
  rw [hsession, ← Session.quiet_assembleFile c env]
  exact World.runUnder_quiet faults (.assembleFile c env options) ⟨rfl, rfl⟩

/-- Under all conventions, for all arguments that name a file, on all disks and with all faults,
a session delivers a whole image or nothing, and it does the same with other diagnostics. -/
theorem delivers_of_request {c : Conventions} {args : List String} {options : Options}
    (h : c.request? args = some (.assemble options)) (env : Environment) (faults : Faults)
    (w : World) :
    let result := w.runUnder faults (.ofArgumentsUnder c env args)
    Delivers faults w options result.1 result.2.disk result.2.stdout ∧
    ∀ args' env' printTree verbose,
      c.request? args' =
        some (.assemble { options with printTree := printTree, verbose := verbose }) →
      let other := w.runUnder faults (.ofArgumentsUnder c env' args')
      other.1 = result.1 ∧ other.2.stdout = result.2.stdout ∧ other.2.disk = result.2.disk := by
  intro result
  obtain ⟨hstatus, hagrees⟩ := runUnder_of_request h env faults w
  constructor
  · rw [show result.1 = _ from hstatus.symm, show result.2.disk = _ from hagrees.disk.symm,
      show result.2.stdout = _ from hagrees.stdout.symm]
    exact delivers_essence faults w options
  · intro args' env' printTree verbose h' other
    obtain ⟨hstatus', hagrees'⟩ := runUnder_of_request h' env' faults w
    exact ⟨hstatus'.symm.trans hstatus, hagrees'.stdout.symm.trans hagrees.stdout,
      hagrees'.disk.symm.trans hagrees.disk⟩

/-- A program that stops, and another file beside it. -/
def stopOnly : World :=
  ⟨⟨["w"], [(["w", "p"], "main:\n  HLT\n".toUTF8.toList), (["w", "q"], [7])]⟩, [], []⟩

theorem assemble_stopOnly : (assemble {} "main:\n  HLT\n").result = .ok [0xF0] := by
  have heval : (scan "main:\n  HLT\n").toOption.bind (fun tokens =>
      (Parse.State.after 64 3 (.ofTokens tokens)).map fun s =>
        (s.place, s.stream.skipBlankLines.peek.kind, s.subroutines)) =
      some (.outside, .eof, [⟨"main", 1, [.hlt]⟩]) := by decide +kernel
  obtain ⟨tokens, hscan, hafter⟩ := scan_of_bind heval
  obtain ⟨⟨subs, macros⟩, hread, rfl⟩ := Parse.result_of_after hafter
  simp only [assemble, parse, hscan, hread]
  rfl

theorem yields_stopOnly : stopOnly.Yields {} ⟨"p", some "./p", false, false, 64⟩ [0xF0] := by
  refine ⟨"main:\n  HLT\n", ?_, assemble_stopOnly⟩
  have hread : stopOnly.read {} "p" = .ok ("main:\n  HLT\n".toUTF8.toList) := by decide +kernel
  have htext : textOf? "main:\n  HLT\n".toUTF8.toList = some "main:\n  HLT\n" := by decide +kernel
  rw [World.text?, hread]
  exact htext

/-- The output is the source file, under another path. -/
theorem delivers_ontoSource :
    Conventions.standard.request? ["p", "-o", "./p"] =
      some (.assemble ⟨"p", some "./p", false, false, 64⟩) ∧
    Conventions.standard.request? ["-v", "--print-tree", "p", "-o./p"] =
      some (.assemble ⟨"p", some "./p", true, true, 64⟩) ∧
    let result := stopOnly.run (.ofArguments ⟨"/w", none⟩ ["p", "-o", "./p"])
    let other := stopOnly.run (.ofArguments ⟨"/w", some "off"⟩ ["-v", "--print-tree", "p", "-o./p"])
    result.1 = 0 ∧ result.2.stdout = [] ∧ result.2.disk.read "./p" = .ok [0xF0] ∧
      result.2.disk.content? ["w", "p"] = some [0xF0] ∧
      result.2.disk.content? ["w", "q"] = some [7] ∧
      other.1 = 0 ∧ other.2.stdout = [] ∧ other.2.disk = result.2.disk := by
  have hplain : Conventions.standard.request? ["p", "-o", "./p"] =
      some (.assemble ⟨"p", some "./p", false, false, 64⟩) := by decide +kernel
  have hshown : Conventions.standard.request? ["-v", "--print-tree", "p", "-o./p"] =
      some (.assemble ⟨"p", some "./p", true, true, 64⟩) := by decide +kernel
  refine ⟨hplain, hshown, ?_⟩
  intro result other
  obtain ⟨hdelivers, hsame⟩ := delivers_of_request hplain ⟨"/w", none⟩ {} stopOnly
  have htarget : stopOnly.target {} "./p" = .ok (.file ["w", "p"]) := by decide +kernel
  obtain ⟨hstatus, hstdout, hread, hcontent, hothers⟩ :=
    hdelivers.saved [0xF0] "./p" ["w", "p"] yields_stopOnly rfl htarget (by simp)
  obtain ⟨hstatus', hstdout', hdisk'⟩ := hsame _ ⟨"/w", some "off"⟩ true true hshown
  exact ⟨hstatus, hstdout, hread, hcontent, hothers ["w", "q"] (by decide), hstatus'.trans hstatus,
    hstdout'.trans hstdout, hdisk'⟩

end IndentAsm.Command
