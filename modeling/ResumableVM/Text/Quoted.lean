import ResumableVM.Text.Printable

/-! # Quoted: string constants in listings

A quoted string stands between double quotes. The quote, the backslash and four controls have short
escapes; every other character that is not printable is written by its code point in base sixteen;
the rest stand for themselves. -/

namespace ResumableVM.Quoted

/-- The escape that names a character by its code point. -/
def codePoint (c : Char) : List Char :=
  '\\' :: 'u' :: '\x7b' :: Nat.toDigits 16 c.toNat ++ ['\x7d']

/-- One character of a quoted string. -/
def encodeChar (c : Char) : List Char :=
  match c with
  | '"' => ['\\', '"']
  | '\\' => ['\\', '\\']
  | '\n' => ['\\', 'n']
  | '\r' => ['\\', 'r']
  | '\t' => ['\\', 't']
  | '\x00' => ['\\', '0']
  | c => if Printable.isPrintable c then [c] else codePoint c

/-- The quoted form of a string. -/
def encode (s : String) : String :=
  String.ofList ('"' :: s.toList.flatMap encodeChar ++ ['"'])

end ResumableVM.Quoted
