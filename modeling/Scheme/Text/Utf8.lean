/-!
# Decoding UTF-8
-/

namespace Scheme.Text

/-- The six bits that a continuation byte carries. -/
def continuation? (b : UInt8) : Option Nat :=
  if 0x80 ≤ b && b < 0xc0 then some (b.toNat - 0x80) else none

/-- The code point of a leading byte with value `high` and one continuation byte. -/
def joinBits (high : Nat) (b : UInt8) : Option Nat :=
  (continuation? b).map (64 * high + ·)

/-- The character with a code point, unless fewer bytes could have encoded it: it has to be at
least `least`. -/
def charFrom? (least code : Nat) : Option Char :=
  if h : code.isValidChar then if least ≤ code then some (Char.ofNatAux code h) else none
  else none

/-- Decodes a text after the characters in `read`, which are in reverse. There is no text if the
bytes are not the shortest encoding of one. -/
def decodeAfter? (read : List Char) : List UInt8 → Option (List Char)
  | [] => some read.reverse
  | a :: rest =>
    if a < 0x80 then decodeAfter? (Char.ofNat a.toNat :: read) rest
    else
      match rest with
      | [] => none
      | b :: rest =>
        if 0xc0 ≤ a && a < 0xe0 then
          match (joinBits (a.toNat - 0xc0) b).bind (charFrom? 0x80) with
          | some c => decodeAfter? (c :: read) rest
          | none => none
        else
          match rest with
          | [] => none
          | c :: rest =>
            if 0xe0 ≤ a && a < 0xf0 then
              match ((joinBits (a.toNat - 0xe0) b).bind (joinBits · c)).bind (charFrom? 0x800) with
              | some char => decodeAfter? (char :: read) rest
              | none => none
            else
              match rest with
              | [] => none
              | d :: rest =>
                if 0xf0 ≤ a && a < 0xf8 then
                  match (((joinBits (a.toNat - 0xf0) b).bind (joinBits · c)).bind
                    (joinBits · d)).bind (charFrom? 0x10000) with
                  | some char => decodeAfter? (char :: read) rest
                  | none => none
                else none

/-- The text that bytes encode. -/
def decode? (bytes : List UInt8) : Option (List Char) :=
  decodeAfter? [] bytes

end Scheme.Text
