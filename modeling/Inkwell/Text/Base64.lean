import Inkwell.Text.Basic

/-!
# Base64

Bytes written with sixty-four characters: four of them for three bytes, where an equals sign at the
end stands for a byte that is missing.
-/

namespace Inkwell

namespace Text

def base64Value? (b : UInt8) : Option Nat :=
  if 65 ≤ b && b ≤ 90 then some (b.toNat - 65)
  else if 97 ≤ b && b ≤ 122 then some (b.toNat - 71)
  else if 48 ≤ b && b ≤ 57 then some (b.toNat + 4)
  else if b = 43 then some 62
  else if b = 47 then some 63
  else none

/-- The bytes that characters of base64 stand for, behind the bytes `found`, latest first. -/
def ofBase64Bytes? (found : List UInt8) : List UInt8 → Option (List UInt8)
  | [] => some found.reverse
  | a :: b :: c :: d :: rest =>
    match base64Value? a, base64Value? b, base64Value? c, base64Value? d with
    | some a, some b, some c, some d =>
      let n := ((a * 64 + b) * 64 + c) * 64 + d
      ofBase64Bytes? (n.toUInt8 :: (n / 256).toUInt8 :: (n / 65536).toUInt8 :: found) rest
    | some a, some b, some c, none =>
      let n := (a * 64 + b) * 64 + c
      if d = 61 && rest.isEmpty then
        some ((n / 4).toUInt8 :: (n / 1024).toUInt8 :: found).reverse
      else none
    | some a, some b, none, none =>
      if c = 61 && d = 61 && rest.isEmpty then
        some (((a * 64 + b) / 16).toUInt8 :: found).reverse
      else none
    | _, _, _, _ => none
  | _ => none

/-- The text that base64 stands for. Line breaks do not count. -/
def ofBase64? (t : Text) : Option Text :=
  (ofBase64Bytes? [] (t.bytes.filter fun b => b ≠ 10 && b ≠ 13)).map ofBytes

end Text

end Inkwell
