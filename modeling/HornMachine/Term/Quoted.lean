import HornMachine.Term
import HornMachine.Text.Visible

/-!
# Quoted text and terms

A text stands in double quotes. The quote itself, the backslash and the common
controls have short escapes, and every other character that is not visible is
written by its number in hexadecimal. In a quoted term the labels are quoted,
integers are in decimal and arrays in brackets, so that its structure can be
read off.
-/
namespace HornMachine

namespace Text

def byNumber (c : Char) : String :=
  "\\u\x7b" ++ String.ofList (Nat.toDigits 16 c.toNat) ++ "\x7d"

def escape (c : Char) : String :=
  if c = '"' then "\\\""
  else if c = '\\' then "\\\\"
  else if c = '\n' then "\\n"
  else if c = '\t' then "\\t"
  else if c = '\r' then "\\r"
  else if c = '\x00' then "\\0"
  else if isVisible c then String.singleton c
  else byNumber c

def quote (text : String) : String := "\"" ++ String.join (text.toList.map escape) ++ "\""

end Text

namespace Term

mutual

def quoted : Term → String
  | .label text => Text.quote text
  | .int n => n.repr
  | .array ts => "[" ++ quotedItems ts ++ "]"

/-- Items separated by a comma and a space. -/
def quotedItems : List Term → String
  | [] => ""
  | [t] => quoted t
  | t :: u :: ts => quoted t ++ ", " ++ quotedItems (u :: ts)

end

end Term

end HornMachine
