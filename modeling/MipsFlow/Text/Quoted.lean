import MipsFlow.Text.Printable

/-!
# Quoted text in messages

A message shows a piece of the source between double quotes. Quotes and backslashes get a
backslash, the usual control characters their short form, the other control characters two
hexadecimal digits, and any other character that is not printable its code point.
-/

namespace MipsFlow.Text

/-- The lower-case hexadecimal digits of `n`, filled up with zeros to `width` of them. -/
def hexPadded (width n : Nat) : List Char :=
  let digits := Nat.toDigits 16 n
  List.replicate (width - digits.length) '0' ++ digits

/-- The letter that names a control character after a backslash, if there is one. -/
def shortEscape? (c : Char) : Option Char :=
  if c = '\x07' then some 'a'
  else if c = '\x08' then some 'b'
  else if c = '\x0c' then some 'f'
  else if c = '\n' then some 'n'
  else if c = '\r' then some 'r'
  else if c = '\t' then some 't'
  else if c = '\x0b' then some 'v'
  else none

/-- One character of a quoted text. -/
def quoteChar (c : Char) : List Char :=
  if c = '"' ∨ c = '\\' then ['\\', c]
  else if isPrintable c then [c]
  else
    match shortEscape? c with
    | some letter => ['\\', letter]
    | none =>
      if c < ' ' ∨ c = '\x7f' then '\\' :: 'x' :: hexPadded 2 c.toNat
      else if c.toNat < 0x10000 then '\\' :: 'u' :: hexPadded 4 c.toNat
      else '\\' :: 'U' :: hexPadded 8 c.toNat

/-- The text between double quotes, with everything escaped that would not show. -/
def quote (s : String) : String :=
  String.ofList ('"' :: s.toList.flatMap quoteChar ++ ['"'])

end MipsFlow.Text
