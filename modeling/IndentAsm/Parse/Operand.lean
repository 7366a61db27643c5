import IndentAsm.Parse.Literal
import IndentAsm.Program.Instruction
import IndentAsm.Token.Stream

/-!
# Reading instructions

Each mnemonic is followed by the operands of its form, on the same line.
Reading takes tokens from a stream and gives the stream behind them.

**Results.**
* `forward_instruction`: an instruction is read from the front of the unread
  tokens.
-/
namespace IndentAsm.Parse

open IndentAsm.Stream (Reads)

theorem bind_eq_ok {α β ε : Type} {x : Except ε α} {f : α → Except ε β} {b : β} :
    x >>= f = .ok b ↔ ∃ a, x = .ok a ∧ f a = .ok b := by
  cases x with
  | error e => simp [bind, Except.bind]
  | ok a => simp [bind, Except.bind]

def numberOf (width : Width) (t : Token) : Except ParseError Number :=
  match Literal.value t.lexeme with
  | .error .malformed => .error (.invalidNumber t)
  | .error .tooLarge => .error (.numberTooLarge width t)
  | .ok v =>
    if v ≤ width.max then .ok ⟨v.toUInt16, width⟩ else .error (.numberTooLarge width t)

def number (width : Width) (s : Stream) : Except ParseError (Number × Stream) := do
  let (t, s) ← s.expect .number
  let n ← numberOf width t
  return (n, s)

def register (s : Stream) : Except ParseError (Register × Stream) :=
  match s.peek.kind with
  | .register r => .ok (r, s.advance.2)
  | _ => .error (.expected .register s.peek)

/-- Reads a register or a byte. -/
def source (s : Stream) : Except ParseError (Source × Stream) :=
  match s.peek.kind with
  | .register r => .ok (.register r, s.advance.2)
  | .number => do
    let (n, s) ← number .byte s
    return (.immediate n, s)
  | _ => .error (.expected .source s.peek)

def label (s : Stream) : Except ParseError (Label × Stream) := do
  let (t, s) ← s.expect .identifier
  return (⟨t.lexeme, t.line⟩, s)

def address (s : Stream) : Except ParseError (Address × Stream) :=
  match s.peek.kind with
  | .nextAddr => .ok (.next, s.advance.2)
  | .number => do
    let (n, s) ← number .word s
    return (.immediate n, s)
  | .identifier => do
    let (l, s) ← label s
    return (.label l, s)
  | _ => .error (.expected .address s.peek)

/-- Reads the target of a jump, if there is one. -/
def target (s : Stream) : Except ParseError (Option Label × Stream) :=
  if s.check .identifier then do
    let (l, s) ← label s
    return (some l, s)
  else .ok (none, s)

/-- Reads a register, and an address behind a comma. -/
def access (s : Stream) : Except ParseError ((Register × Option Number) × Stream) := do
  let (r, s) ← register s
  if s.check .comma then
    let (n, s) ← number .word s.advance.2
    return ((r, some n), s)
  else
    return ((r, none), s)

/-- Reads a register, a comma, and a register or a byte. -/
def transfer (s : Stream) : Except ParseError ((Register × Source) × Stream) := do
  let (r, s) ← register s
  let (_, s) ← s.expect .comma
  let (src, s) ← source s
  return ((r, src), s)

/-- Reads the operands that follow a mnemonic. -/
def instruction (op : Mnemonic) (s : Stream) : Except ParseError (Instruction × Stream) :=
  match op with
  | .nop => .ok (.nop, s)
  | .hlt => .ok (.hlt, s)
  | .lw => do
    let ((r, n), s) ← access s
    return (.lw r n, s)
  | .sw => do
    let ((r, n), s) ← access s
    return (.sw r n, s)
  | .mw => do
    let ((r, src), s) ← transfer s
    return (.mw r src, s)
  | .add => do
    let ((r, src), s) ← transfer s
    return (.add r src, s)
  | .sub => do
    let ((r, src), s) ← transfer s
    return (.sub r src, s)
  | .push => do
    let (src, s) ← source s
    return (.push src, s)
  | .tel => do
    let (src, s) ← source s
    return (.tel src, s)
  | .out => do
    let (src, s) ← source s
    return (.out src, s)
  | .pop => do
    let (r, s) ← register s
    return (.pop r, s)
  | .lda => do
    let (a, s) ← address s
    return (.lda a, s)
  | .jmp => do
    let (l, s) ← target s
    return (.jmp l, s)
  | .jo => do
    let (l, s) ← target s
    return (.jo l, s)
  | .jz => do
    let (r, s) ← register s
    let (l, s) ← target s
    return (.jz r l, s)

/-! ## Reading goes forward -/

/-- A reader that gives a stream behind the one it was given. -/
def Forward {α : Type} (read : Stream → Except ParseError (α × Stream)) : Prop :=
  ∀ s a s', read s = .ok (a, s') → ∃ taken, Reads s taken s'

namespace Forward

variable {α β : Type}

theorem bind {read : Stream → Except ParseError (α × Stream)}
    {next : α → Stream → Except ParseError (β × Stream)}
    (h : Forward read) (h' : ∀ a, Forward (next a)) :
    Forward fun s => read s >>= fun (a, s) => next a s := by
  intro s b s' hb
  obtain ⟨⟨a, t⟩, hr, hn⟩ := bind_eq_ok.1 hb
  obtain ⟨x, hx⟩ := h s a t hr
  obtain ⟨y, hy⟩ := h' a t b s' hn
  exact ⟨x ++ y, hx.trans hy⟩

/-- A value that does not come from the stream. -/
theorem lift {x : Except ParseError α} {next : α → Stream → Except ParseError (β × Stream)}
    (h : ∀ a, Forward (next a)) : Forward fun s => x >>= fun a => next a s := by
  intro s b s' hb
  obtain ⟨a, -, hn⟩ := bind_eq_ok.1 hb
  exact h a s b s' hn

theorem pure (a : α) : Forward fun s => (return (a, s) : Except ParseError (α × Stream)) := by
  intro s b s' h
  cases h
  exact ⟨[], Reads.refl s⟩

theorem advance (a : α) : Forward fun s => Except.ok (a, s.advance.2) := by
  intro s b s' h
  cases h
  exact s.advance_follows

theorem expect (kind : Token.Kind) : Forward fun s => s.expect kind := by
  intro s t s' h
  have ha := (Stream.expect_eq_ok h).1
  have := s.advance_follows
  rwa [ha] at this

end Forward

theorem forward_number (width : Width) : Forward (number width) :=
  (Forward.expect .number).bind fun _ => Forward.lift fun n => Forward.pure n

theorem forward_register : Forward register := by
  intro s r s' h
  unfold register at h
  split at h
  · exact Forward.advance _ s r s' h
  · cases h

theorem forward_source : Forward source := by
  intro s src s' h
  unfold source at h
  split at h
  · exact Forward.advance _ s src s' h
  · exact (forward_number .byte).bind (fun n => Forward.pure (.immediate n)) s src s' h
  · cases h

theorem forward_label : Forward label :=
  (Forward.expect .identifier).bind fun t => Forward.pure (Label.mk t.lexeme t.line)

theorem forward_address : Forward address := by
  intro s a s' h
  unfold address at h
  split at h
  · exact Forward.advance _ s a s' h
  · exact (forward_number .word).bind (fun n => Forward.pure (.immediate n)) s a s' h
  · exact forward_label.bind (fun l => Forward.pure (.label l)) s a s' h
  · cases h

theorem forward_target : Forward target := by
  intro s l s' h
  unfold target at h
  split at h
  · exact forward_label.bind (fun l => Forward.pure (some l)) s l s' h
  · exact Forward.pure none s l s' h

theorem forward_access : Forward access := by
  intro s p s' h
  obtain ⟨⟨r, t⟩, hr, h⟩ := bind_eq_ok.1 h
  obtain ⟨x, hx⟩ := forward_register s r t hr
  dsimp only at h
  split at h
  · obtain ⟨y, hy⟩ := t.advance_follows
    obtain ⟨z, hz⟩ := (forward_number .word).bind (fun n => Forward.pure (r, some n)) _ p s' h
    exact ⟨_, (hx.trans hy).trans hz⟩
  · cases h
    exact ⟨x, hx⟩

theorem forward_transfer : Forward transfer :=
  forward_register.bind fun r => (Forward.expect .comma).bind fun _ =>
    forward_source.bind fun src => Forward.pure (r, src)

theorem forward_instruction (op : Mnemonic) : Forward (instruction op) := by
  cases op with
  | nop => exact Forward.pure Instruction.nop
  | hlt => exact Forward.pure Instruction.hlt
  | lw => exact forward_access.bind fun p => Forward.pure (Instruction.lw p.1 p.2)
  | sw => exact forward_access.bind fun p => Forward.pure (Instruction.sw p.1 p.2)
  | mw => exact forward_transfer.bind fun p => Forward.pure (Instruction.mw p.1 p.2)
  | add => exact forward_transfer.bind fun p => Forward.pure (Instruction.add p.1 p.2)
  | sub => exact forward_transfer.bind fun p => Forward.pure (Instruction.sub p.1 p.2)
  | push => exact forward_source.bind fun src => Forward.pure (Instruction.push src)
  | tel => exact forward_source.bind fun src => Forward.pure (Instruction.tel src)
  | out => exact forward_source.bind fun src => Forward.pure (Instruction.out src)
  | pop => exact forward_register.bind fun r => Forward.pure (Instruction.pop r)
  | lda => exact forward_address.bind fun a => Forward.pure (Instruction.lda a)
  | jmp => exact forward_target.bind fun l => Forward.pure (Instruction.jmp l)
  | jo => exact forward_target.bind fun l => Forward.pure (Instruction.jo l)
  | jz => exact forward_register.bind fun r => forward_target.bind fun l => Forward.pure (Instruction.jz r l)

end IndentAsm.Parse
