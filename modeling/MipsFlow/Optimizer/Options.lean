import MipsFlow.Reg

/-!
# Options of the optimizer

How much the optimizer writes into the program about its work, after how many cycles it gives up,
and which registers it leaves alone. Unless a limit is set, larger programs get more cycles.
-/

namespace MipsFlow

/-- The options of an optimizer run. -/
structure Options where
  /-- Nothing is noted at zero, every change at one, and the facts of every block at two. -/
  verbose : Nat := 0
  /-- The greatest number of cycles; zero derives it from the program. -/
  maxCycles : Nat := 0
  /-- The registers that are live everywhere and never touched. -/
  reserved : List Reg := Reg.alwaysReserved
deriving DecidableEq, Repr

namespace Options

/-- Changes leave notes. -/
def annotated (o : Options) : Bool := 0 < o.verbose

/-- The facts of every block are attached to its first instruction. -/
def summarize (o : Options) : Bool := 1 < o.verbose

/-- The number of cycles for a program with `size` commands and labels. -/
def cycleLimit (o : Options) (size : Nat) : Nat :=
  if 0 < o.maxCycles then o.maxCycles else 16 + size

/-- The number of cycles for a size that is any word, in the arithmetic of words. -/
def cycleLimitOfWord (o : Options) (size : Int64) : Int64 :=
  if 0 < o.maxCycles then Int64.ofNat o.maxCycles else 16 + size

/-- The text is the canonical name of a reserved register. -/
def reserves (o : Options) (name : String) : Bool := o.reserved.any (·.name = name)

/-- Sets the annotation level. -/
def setVerbose (o : Options) (level : Int) : Except Fault Options :=
  if level < 0 then .error (.verboseLevel level) else .ok { o with verbose := level.toNat }

/-- Sets the greatest number of cycles. -/
def setMaxCycles (o : Options) (limit : Int) : Except Fault Options :=
  if limit < 1 then .error (.cycleLimit limit) else .ok { o with maxCycles := limit.toNat }

/-- Adds a register, unless it is reserved already. -/
def reserve (o : Options) (r : Reg) : Options :=
  if o.reserved.contains r then o else { o with reserved := o.reserved ++ [r] }

/-- Reads the name of a register to reserve. -/
def readReserved (name : String) : Except Fault Reg :=
  match Reg.ofName? name with
  | some r => .ok r
  | none => .error (.reservedName name)

/-- Adds registers by name, none of them if a name is not a register's. -/
def reserveNames (o : Options) (names : List String) : Except Fault Options := do
  return (← names.mapM readReserved).foldl reserve o

end Options

end MipsFlow
