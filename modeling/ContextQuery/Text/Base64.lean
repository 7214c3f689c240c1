namespace ContextQuery.Text

def base64Digit (n : Nat) : Char :=
  if n < 26 then Char.ofNat (65 + n)
  else if n < 52 then Char.ofNat (71 + n)
  else if n < 62 then Char.ofNat (n - 4)
  else if n = 62 then '+'
  else '/'

def base64Bytes : List Nat → List Char
  | [] => []
  | [a] => [base64Digit (a / 4), base64Digit (a % 4 * 16), '=', '=']
  | [a, b] =>
    [base64Digit (a / 4), base64Digit (a % 4 * 16 + b / 16), base64Digit (b % 16 * 4), '=']
  | a :: b :: c :: rest =>
    base64Digit (a / 4) :: base64Digit (a % 4 * 16 + b / 16) ::
      base64Digit (b % 16 * 4 + c / 64) :: base64Digit (c % 64) :: base64Bytes rest

def utf8Bytes (s : String) : List Nat := s.toUTF8.data.toList.map UInt8.toNat

/-- The standard Base64 form of a text: its UTF-8 bytes, padded with `=`. -/
def base64 (s : String) : String := String.ofList (base64Bytes (utf8Bytes s))

example : base64 "cql-é" = "Y3FsLcOp" := by decide +kernel
example : base64 "urn:x" = "dXJuOng=" := by decide +kernel

end ContextQuery.Text
