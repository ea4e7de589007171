import OpenVariants.Text.Printable

/-! Names between double quotes.

Inside the quotes a quote and a backslash are escaped, four control characters
have letters of their own, and any other character that shows nothing, or that
would join the one before it, is written by its number. -/
namespace OpenVariants.Text

/-- The number of a character between braces, in hexadecimal. -/
def codePoint (c : Char) : String :=
  "\\u\x7b" ++ String.ofList (Nat.toDigits 16 c.toNat) ++ "\x7d"

/-- A character as it stands between quotes. -/
def escaped (c : Char) : String :=
  match c with
  | '\x00' => "\\0"
  | '\t' => "\\t"
  | '\n' => "\\n"
  | '\r' => "\\r"
  | '"' => "\\\""
  | '\\' => "\\\\"
  | c =>
    if ' ' ≤ c && c ≤ '~' then c.toString
    else if isGraphemeExtend c || isUnprintable c then codePoint c
    else c.toString

def quoted (s : String) : String :=
  "\"" ++ String.join (s.toList.map escaped) ++ "\""

/-- Quoted names between brackets. -/
def quotedList (names : List String) : String :=
  "[" ++ ", ".intercalate (names.map quoted) ++ "]"

/-- Texts between an opening and a closing one, separated by commas. -/
def enclosed (opening closing : String) (parts : List String) : String :=
  opening ++ ", ".intercalate parts ++ closing

/-- Named parts between braces. -/
def braced (parts : List (String × String)) : String :=
  enclosed "\x7b" "\x7d" (parts.map fun (name, part) => name ++ ": " ++ part)

/-- A name with named parts between braces, set off by spaces. -/
def labelled (name : String) (parts : List (String × String)) : String :=
  name ++ " " ++ enclosed "\x7b " " \x7d" (parts.map fun (key, part) => key ++ ": " ++ part)

end OpenVariants.Text
