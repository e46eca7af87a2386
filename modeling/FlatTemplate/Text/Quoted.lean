import FlatTemplate.Text.Combining
import FlatTemplate.Text.Unprintable

namespace FlatTemplate.Text

def isControl (c : Char) : Bool :=
  c.toNat < 0x20 || (0x7F ≤ c.toNat && c.toNat < 0xA0)

def literalChar (c : Char) : List Char :=
  if c = '"' then ['\\', '"']
  else if c = '\\' then ['\\', '\\']
  else if c = '\n' then ['\\', 'n']
  else if c = '\t' then ['\\', 't']
  else if c = '\r' then ['\\', 'r']
  else if isControl c then
    ['\\', 'x', Nat.digitChar (c.toNat / 16), Nat.digitChar (c.toNat % 16)]
  else [c]

def literal (text : String) : List Char :=
  '"' :: (text.toList.flatMap literalChar ++ ['"'])

def shownChar (quote c : Char) : List Char :=
  if c = '\x00' then ['\\', '0']
  else if c = '\t' then ['\\', 't']
  else if c = '\r' then ['\\', 'r']
  else if c = '\n' then ['\\', 'n']
  else if c = '\\' || c = quote then ['\\', c]
  else if isCombining c || isUnprintable c then
    '\\' :: 'u' :: '{' :: (Nat.toDigits 16 c.toNat ++ ['}'])
  else [c]

def shown (text : String) : String :=
  String.ofList ('"' :: (text.toList.flatMap (shownChar '"') ++ ['"']))

def shownSingle (c : Char) : String :=
  String.ofList ('\'' :: (shownChar '\'' c ++ ['\'']))

end FlatTemplate.Text
