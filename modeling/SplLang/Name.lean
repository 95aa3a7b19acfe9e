/-! Names as they are spelled in a source text, and their quoted form.
Core compares strings by code point, which is also the order of their UTF-8 bytes. -/
namespace SplLang

/-- A type, variable or procedure name; any text is allowed. -/
abbrev Name := String

namespace Name

private def hexDigits (n : Nat) : String := String.ofList (Nat.toDigits 16 n)

/-- How one ASCII character stands between double quotes. -/
def quotedChar (c : Char) : String :=
  match c with
  | '"' => "\\\""
  | '\\' => "\\\\"
  | '\n' => "\\n"
  | '\r' => "\\r"
  | '\t' => "\\t"
  | '\x00' => "\\0"
  | _ =>
    if c.toNat < 32 ∨ c.toNat = 127 then "\\u\x7b" ++ hexDigits c.toNat ++ "\x7d"
    else String.singleton c

/-- The name in double quotes; only names of ASCII characters have a quoted form. -/
def quoted? (name : Name) : Option String :=
  if name.toList.all (·.toNat < 128) then
    some ("\"" ++ String.join (name.toList.map quotedChar) ++ "\"")
  else none

end Name
end SplLang
