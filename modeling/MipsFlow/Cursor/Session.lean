import MipsFlow.Cursor
import MipsFlow.Instr.Printer

/-!
# Editing sessions

A session drives a cursor step by step, with the identity that the next new instruction will get.
Replacements are described by drafts. They are drawn up in order before the step itself, and an
identity that a draft has taken is not given back when the step is then refused.
-/

namespace MipsFlow

/-- A description of an instruction to put into the sequence. -/
inductive Draft where
  /-- The instruction that now stands at a position, itself. -/
  | keep (place : Int)
  /-- A copy, under a new identity, of the instruction that now stands at a position. -/
  | clone (place : Int)
  | label (name : String)
  | directive (text : String)
  | comment (text : String) (indented : Bool)
  /-- A register copy between two named registers. -/
  | copy (dst src : String)
  /-- A literal for a named register. -/
  | loadImm (dst : String) (value : Int64)
  /-- A command that is built from an opcode's name; an unknown name is forgotten. -/
  | opcode (name : String) (args : List String)
  /-- A command with any mnemonic. -/
  | command (name : String) (args : List String)
deriving DecidableEq, Repr

/-- Reads the operands of a draft. -/
def readOperands (texts : List String) : Except Fault (List Operand) :=
  texts.mapM fun s =>
    match Operand.ofText s with
    | .ok o => .ok o
    | .error e => .error (.unreadableOperand e.message)

/-- The mnemonic of an opcode's name. -/
def opcodeMnemonic (name : String) : Mnemonic :=
  match Opcode.ofName? name with
  | some op => .known op
  | none => .unnamed

namespace Draft

/-- What a draft says, if it is an instruction that does not exist yet. -/
def content (k : Cursor) : Draft → Except Fault (Instr ⊕ Instr)
  | .keep place => (k.get place).map .inl
  | .clone place => (k.get place).map .inr
  | .label name => .ok (fresh (.label name))
  | .directive text => .ok (fresh (.directive text))
  | .comment text indented => .ok (fresh (.comment text indented))
  | .copy dst src => do return fresh (.command (.copy (← Reg.require dst) (← Reg.require src)))
  | .loadImm dst value => do return fresh (.command (.loadImm (← Reg.require dst) value))
  | .opcode name args => do
    return fresh (.command ⟨opcodeMnemonic name, ← readOperands args⟩)
  | .command name args => do
    return fresh (.command ⟨.ofName name, ← readOperands args⟩)
where
  /-- An instruction that still waits for its identity. -/
  fresh (content : Content) : Instr ⊕ Instr := .inr { id := 0, content }

/-- Draws up one instruction. Identities are taken only by drafts that succeed. -/
def build (k : Cursor) (next : Nat) (d : Draft) : Except Fault (Instr × Nat) :=
  (d.content k).map fun
    | .inl p => (p, next)
    | .inr p => (p.clone next, next + 1)

/-- Draws up several instructions, up to the first that fails. -/
def buildAll (k : Cursor) : Nat → List Draft → Except Fault (List Instr) × Nat
  | next, [] => (.ok [], next)
  | next, d :: ds =>
    match d.build k next with
    | .error fault => (.error fault, next)
    | .ok (p, next) =>
      let (rest, next) := buildAll k next ds
      (rest.map (p :: ·), next)

end Draft

/-- One step of a session. -/
inductive Step where
  | read
  | peek (count : Int)
  | reset
  | replace (count : Int) (repl : List Draft) (note : String)
  | replaceAt (place count : Int) (repl : List Draft) (note : String)
  /-- Inserts the first draft. -/
  | insert (place : Int) (repl : List Draft) (note : String)
  | remove (note : String)
  /-- Keeps the instructions with one of the names. -/
  | filter (names : List String)
  /-- Notes something if changes leave notes. -/
  | noted (place : Int) (message : String)
  /-- Notes something in any case. -/
  | note (place : Int) (message : String)
  /-- Exchanges the mnemonic. -/
  | setOpcode (place : Int) (name : String)
  /-- Reads one register instead of another. -/
  | renameReads (place : Int) (source target : String)
deriving DecidableEq, Repr

/-- What a step has to say besides the new state. -/
inductive Reply where
  | none
  | text (s : String)
  | lines (ls : List String)
  | removed (count : Nat)
  | replaced (count : Nat)
deriving DecidableEq, Repr

/-- A cursor, and the identity of the next new instruction. -/
structure Session where
  cursor : Cursor
  nextId : Nat
deriving DecidableEq, Repr

namespace Session

/-- The session with another cursor. -/
def withCursor (s : Session) (k : Cursor) : Session := { s with cursor := k }

/-- Draws up the replacement, then edits with it. -/
def edit (s : Session) (repl : List Draft) (change : List Instr → Except Fault Cursor) :
    Session × Except Fault Reply :=
  let (built, next) := Draft.buildAll s.cursor s.nextId repl
  let s := { s with nextId := next }
  match built.bind change with
  | .ok k => (s.withCursor k, .ok .none)
  | .error fault => (s, .error fault)

/-- Goes to a cursor that a call answered, or stays where it is. -/
def follow (s : Session) (answer : Except Fault Cursor) : Session × Except Fault Reply :=
  match answer with
  | .ok k => (s.withCursor k, .ok .none)
  | .error fault => (s, .error fault)

/-- Runs one step. -/
def run (s : Session) : Step → Session × Except Fault Reply
  | .read =>
    match s.cursor.read with
    | .ok (p, k) => (s.withCursor k, .ok (.text p.text))
    | .error fault => (s, .error fault)
  | .peek count => (s, (s.cursor.peek count).map fun ps => .lines (ps.map Instr.line))
  | .reset => (s.withCursor s.cursor.reset, .ok .none)
  | .replace count repl note => s.edit repl fun ps => s.cursor.replace count ps note
  | .replaceAt place count repl note => s.edit repl fun ps => s.cursor.replaceAt place count ps note
  | .insert place repl note =>
    s.edit repl fun
      | [] => .error (.outOfBounds 0 0)
      | p :: _ => s.cursor.insert place p note
  | .remove note => s.follow (s.cursor.remove note)
  | .filter names =>
    let k := s.cursor.filter fun p => names.contains p.content.name
    (s.withCursor k, .ok (.removed (s.cursor.code.length - k.code.length)))
  | .noted place message =>
    s.follow (s.cursor.modify place fun p => if s.cursor.annotated then p.note message else p)
  | .note place message => s.follow (s.cursor.modify place (·.note message))
  | .setOpcode place name =>
    s.follow (s.cursor.modify place fun p =>
      { p with content := p.content.withMnemonic (opcodeMnemonic name) })
  | .renameReads place source target =>
    match (do
        let source ← Reg.require source
        let target ← Reg.require target
        let p ← s.cursor.get place
        let k ← s.cursor.modify place (·.renameReads source target)
        return (k, p.readSites.countP fun (site : ReadSite) => site.reg = source)) with
    | .ok (k, count) => (s.withCursor k, .ok (.replaced count))
    | .error fault => (s, .error fault)

end Session

end MipsFlow
