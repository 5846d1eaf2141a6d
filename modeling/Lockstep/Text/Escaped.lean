import Lockstep.Text.Glyphless
/-!
Quoted text for messages. Quotes, backslashes, line breaks and everything that would not show are
written as escapes, so a quoted text is always one visible line.
-/

set_option autoImplicit false
set_option relaxedAutoImplicit false

namespace Lockstep

def codePointEscape (c : Char) : List Char :=
  ['\\', 'u', '\x7b'] ++ Nat.toDigits 16 c.toNat ++ ['\x7d']

def escapeChar (c : Char) : List Char :=
  if c = '"' then ['\\', '"']
  else if c = '\\' then ['\\', '\\']
  else if c = '\n' then ['\\', 'n']
  else if c = '\r' then ['\\', 'r']
  else if c = '\t' then ['\\', 't']
  else if c = '\x00' then ['\\', '0']
  else if c.toNat < 0x20 || c.toNat = 0x7f then codePointEscape c
  else if c.toNat < 0x80 then [c]
  else if isGlyphless c then codePointEscape c
  else [c]

def escaped (s : String) : String :=
  String.ofList ('"' :: s.toList.flatMap escapeChar ++ ['"'])

end Lockstep
