import MipsFlow.Dataflow.Report

/-!
# Liveness charts

A chart has a row for every instruction, headed by a row for its block, and a column for every
register that is live or written somewhere. A filled dot marks a register that is live before a
command, a hollow dot one that the command writes. Dots in the rows of consecutive commands are
joined.
-/

namespace MipsFlow

/-! ## Drawing elements -/

namespace Svg

/-- A number as an attribute's text. -/
def number (n : Nat) : String := "\"" ++ Text.decimalNat n ++ "\""

/-- A character as text of a document: the five special characters, tabs and line breaks become
references, and characters that a document cannot hold become the replacement character. -/
def escapeChar (c : Char) : String :=
  if c = '"' then "&#34;"
  else if c = '\'' then "&#39;"
  else if c = '&' then "&amp;"
  else if c = '<' then "&lt;"
  else if c = '>' then "&gt;"
  else if c = '\t' then "&#x9;"
  else if c = '\n' then "&#xA;"
  else if c = '\r' then "&#xD;"
  else if c < ' ' ∨ c = '\ufffe' ∨ c = '\uffff' then "\ufffd"
  else c.toString

/-- Text of a document. -/
def escape (s : String) : String := String.join (s.toList.map escapeChar)

/-- The beginning of a drawing. -/
def start (width height : Nat) : String :=
  "<?xml version=\"1.0\"?>\n<!-- Generated by SVGo -->\n<svg width=" ++ number width ++
    " height=" ++ number height ++
    "\n     xmlns=\"http://www.w3.org/2000/svg\"" ++
    "\n     xmlns:xlink=\"http://www.w3.org/1999/xlink\">\n"

/-- The end of a drawing. -/
def finish : String := "</svg>\n"

/-- A rectangle. -/
def rect (x y width height : Nat) (style : String) : String :=
  "<rect x=" ++ number x ++ " y=" ++ number y ++ " width=" ++ number width ++ " height=" ++
    number height ++ " style=\"" ++ style ++ "\" />\n"

/-- A line of text. -/
def text (x y : Nat) (s style : String) : String :=
  "<text x=" ++ number x ++ " y=" ++ number y ++ " style=\"" ++ style ++ "\" >" ++ escape s ++
    "</text>\n"

/-- A straight line. -/
def line (x1 y1 x2 y2 : Nat) (style : String) : String :=
  "<line x1=" ++ number x1 ++ " y1=" ++ number y1 ++ " x2=" ++ number x2 ++ " y2=" ++ number y2 ++
    " style=\"" ++ style ++ "\" />\n"

/-- A circle. -/
def circle (x y radius : Nat) (style : String) : String :=
  "<circle cx=" ++ number x ++ " cy=" ++ number y ++ " r=" ++ number radius ++ " style=\"" ++
    style ++ "\" />\n"

end Svg

namespace Chart

/-! ## Rows -/

/-- A row: the head of a block, or an instruction with the registers live before it. Only commands
have live registers to show. -/
inductive Row where
  | block (id : Nat)
  | instr (p : Instr) (live : Option (FactSet Reg))

/-- The rows of a block. -/
def blockRows (f : Facts) (b : Block) : List Row :=
  .block b.id :: b.code.zipIdx.map fun (p, i) =>
    .instr p (if p.isCommand then some (f.liveAt b i) else none)

/-- The rows of a graph. -/
def rows (f : Facts) (g : Graph) : List Row := g.blocks.flatMap (blockRows f)

/-- The registers of a row that need a column. -/
def Row.regs : Row → List Reg
  | .instr p (some live) => live.members ++ p.defs
  | _ => []

/-- The width of a row's command in bytes. -/
def Row.width : Row → Nat
  | .instr p (some _) => p.text.utf8ByteSize
  | _ => 0

/-! ## Layout -/

/-- The columns, and how much room the instructions take to the left of them. -/
structure Layout where
  columns : List Reg
  margin : Nat

/-- The layout for some rows. -/
def layout (rs : List Row) : Layout :=
  { columns := BlockFacts.listRegs (.ofList (rs.flatMap Row.regs))
    margin := (rs.map Row.width).foldl max 0 * 9 + 120 }

/-- The width of all columns. -/
def Layout.columnsWidth (l : Layout) : Nat := l.columns.length * 48

/-- The middle of a column. -/
def Layout.columnX (l : Layout) (column : Nat) : Nat := l.margin + column * 48 + 50

/-- The baseline of a row's text. -/
def textY (row : Nat) : Nat := 100 + row * 24

/-- The middle of a row. -/
def dotY (row : Nat) : Nat := 95 + row * 24

/-- Plain black text. -/
def black : String := "fill:black;font-size:16px;font-family:monospace"

/-! ## Drawing -/

/-- The dot of a register in a command's row: hollow if the command writes it, filled if it is
live, and then joined to a filled dot in the row above. -/
def dot (l : Layout) (row : Nat) (p : Instr) (live : FactSet Reg) (above : List Reg) (r : Reg)
    (column : Nat) : String :=
  let x := l.columnX column
  if p.writes r then
    Svg.circle x (dotY row) 4 "fill:white;stroke:black;stroke-width:2"
  else if live.contains r then
    (if above.contains r then
      Svg.line x (dotY (row - 1)) x (dotY row) "stroke:black;stroke-width:3" else "") ++
      Svg.circle x (dotY row) 4 "fill:black;stroke:black;stroke-width:2"
  else ""

/-- Draws the rows from number `row` on; `above` are the registers with a filled dot in the row
before. -/
def drawRows (l : Layout) : Nat → List Reg → List Row → String
  | _, _, [] => ""
  | row, _, .block id :: rest =>
    Svg.text 16 (textY row) ("bb_" ++ Text.decimalNat id)
        "fill:gray;font-size:16px;font-family:monospace" ++
      Svg.line 10 (84 + row * 24) (l.columnsWidth + l.margin + 50) (84 + row * 24)
        "stroke:lightgray" ++
      drawRows l (row + 1) [] rest
  | row, above, .instr p live? :: rest =>
    Svg.text l.margin (textY row) p.text (black ++ ";text-anchor:end") ++
      match live? with
      | none => drawRows l (row + 1) [] rest
      | some live =>
        String.join (l.columns.zipIdx.map fun (r, column) => dot l row p live above r column) ++
          drawRows l (row + 1)
            (l.columns.filter fun r => live.contains r && !p.writes r) rest

/-- The chart of a graph. -/
def draw (g : Graph) (f : Facts) : String :=
  let rs := rows f g
  let l := layout rs
  let width := l.columnsWidth + l.margin + 100
  let height := rs.length * 24 + 100
  Svg.start width height ++ Svg.rect 0 0 width height "fill:white" ++
    String.join (l.columns.zipIdx.map fun (r, column) =>
      Svg.text (l.columnX column) 70 r.name (black ++ ";text-anchor:middle")) ++
    drawRows l 0 [] rs ++ Svg.finish

end Chart

end MipsFlow
