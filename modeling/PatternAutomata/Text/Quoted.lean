import PatternAutomata.Text.GraphemeExtend
import PatternAutomata.Text.Unprintable

/-!
# Quoted text

Text shown inside a message must not be able to break the message's line or to hide in it.  A
quoted character is the character itself when it has a visible form of its own; otherwise it is
an escape: a backslash and a letter for the common controls, or the code point in hexadecimal.
-/

namespace PatternAutomata.Text

/-- A backslash, `u` and the code point in lower-case hexadecimal between braces. -/
def codePointEscape (c : Char) : List Char :=
  ['\\', 'u', '\x7b'] ++ Nat.toDigits 16 c.toNat ++ ['\x7d']

def isFiller (c : Char) : Bool :=
  c = '\u115f' || c = '\u1160' || c = '\u3164' || c = '\uffa0'

/-- The halfwidth sound marks: they extend the character before them, but stand in a column of their
own. -/
def isSoundMark (c : Char) : Bool :=
  c = '\uff9e' || c = '\uff9f'

/-- Whether the character is shown as it is: it has a visible form and is not drawn onto the
character before it.  Within ASCII these are the characters from the blank to the tilde. -/
def isVisible (c : Char) : Bool :=
  if c.toNat < 0x7f then decide (0x20 ≤ c.toNat)
  else
    (!graphemeExtend.contains c || isSoundMark c) && !unprintable.contains c && !isFiller c

/-- The quoted form of a character; the characters of `marks` (quotation marks) are escaped too. -/
def quoteChar (marks : List Char) (c : Char) : List Char :=
  if c = '\x00' then ['\\', '0']
  else if c = '\t' then ['\\', 't']
  else if c = '\n' then ['\\', 'n']
  else if c = '\r' then ['\\', 'r']
  else if c = '\\' || marks.contains c then ['\\', c]
  else if isVisible c then [c]
  else codePointEscape c

/-- The quoted form of a single character, with both kinds of quotation mark escaped. -/
def quotedChar (c : Char) : String :=
  String.ofList (quoteChar ['"', '\x27'] c)

/-- A text between double quotation marks; a double mark inside it is escaped, a single one is
not. -/
def quoted (text : String) : String :=
  String.ofList ('"' :: text.toList.flatMap (quoteChar ['"']) ++ ['"'])

end PatternAutomata.Text
