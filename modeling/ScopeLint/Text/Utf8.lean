import ScopeLint.Text.Lines
import ScopeLint.Text.Quoted

/-! Reading characters from bytes: each is one to four bytes long, in its shortest form, and no
surrogate. -/
namespace ScopeLint.Text

inductive ByteProblem where
  /-- No character starts with this byte. -/
  | badStart
  | badNext
  | cutShort
  deriving DecidableEq

structure DecodeError where
  problem : ByteProblem
  position : Nat
  bytes : List UInt8
  deriving DecidableEq

def ByteProblem.message : ByteProblem → String
  | .badStart => "invalid start byte"
  | .badNext => "invalid continuation byte"
  | .cutShort => "unexpected end of data"

def DecodeError.message (e : DecodeError) : String :=
  let place := match e.bytes with
    | [b] => "byte 0x" ++ String.ofList (hexDigits 2 b.toNat) ++ " in position " ++
      toString e.position
    | bytes => "bytes in position " ++ toString e.position ++ "-" ++
      toString (e.position + bytes.length - 1)
  "'utf-8' codec can't decode " ++ place ++ ": " ++ e.problem.message

/-- How many bytes follow the first byte of a character, the least and the greatest value of the
second byte, and the bits that the first byte gives to the character. -/
def leadByte (b : UInt8) : Option (Nat × Nat × Nat × Nat) :=
  let n := b.toNat
  if n < 0x80 then some (0, 0, 0, n)
  else if n < 0xC2 then none
  else if n < 0xE0 then some (1, 0x80, 0xBF, n - 0xC0)
  else if n < 0xF0 then
    some (2, if n = 0xE0 then 0xA0 else 0x80, if n = 0xED then 0x9F else 0xBF, n - 0xE0)
  else if n < 0xF5 then
    some (3, if n = 0xF0 then 0x90 else 0x80, if n = 0xF4 then 0x8F else 0xBF, n - 0xF0)
  else none

/-- How many bytes of `rest` are right, of the `more` bytes that have to follow a first byte, and
the code point that they lead to from `code`. -/
def nextBytes : Nat → Nat → Nat → Nat → List UInt8 → Nat × Nat
  | 0, _, _, code, _ => (0, code)
  | _ + 1, _, _, code, [] => (0, code)
  | more + 1, low, high, code, b :: rest =>
    if low ≤ b.toNat ∧ b.toNat ≤ high then
      let (count, code) := nextBytes more 0x80 0xBF (code * 64 + (b.toNat - 0x80)) rest
      (count + 1, code)
    else (0, code)

/-- The character at the start of the bytes and how many bytes it takes, or how many bytes are
wrong and why. -/
def firstChar (b : UInt8) (rest : List UInt8) : Except (ByteProblem × Nat) (Char × Nat) :=
  match leadByte b with
  | none => .error (.badStart, 1)
  | some (more, low, high, code) =>
    let (count, code) := nextBytes more low high code rest
    if count = more then .ok (Char.ofNat code, more + 1)
    else if count = rest.length then .error (.cutShort, count + 1)
    else .error (.badNext, count + 1)

/-- The characters before the first wrong byte, and what is wrong with it; the `skip` bytes next
in line belong to a character already read. -/
def decodeFrom (position skip : Nat) : List UInt8 → List Char × Option DecodeError
  | [] => ([], none)
  | b :: rest =>
    match skip with
    | skip + 1 => decodeFrom (position + 1) skip rest
    | 0 =>
      match firstChar b rest with
      | .ok (c, size) =>
        let (cs, e) := decodeFrom (position + 1) (size - 1) rest
        (c :: cs, e)
      | .error (problem, count) => ([], some ⟨problem, position, (b :: rest).take count⟩)

def decode (bytes : List UInt8) : List Char × Option DecodeError := decodeFrom 0 0 bytes

/-- Whether more bytes could have made a character of the wrong ones at the end of `bytes`. The
first half of a surrogate counts as well, since its third byte is still to come. -/
def DecodeError.isAtEnd (e : DecodeError) (bytes : List UInt8) : Bool :=
  e.problem = .cutShort ||
    match bytes.drop e.position with
    | [a, b] => a = 0xED && 0xA0 ≤ b.toNat && b.toNat ≤ 0xBF
    | _ => false

def encodeChar (c : Char) : List UInt8 :=
  let n := c.toNat
  let tail := fun unit : Nat => UInt8.ofNat (0x80 + n / unit % 64)
  if n < 0x80 then [UInt8.ofNat n]
  else if n < 0x800 then [UInt8.ofNat (0xC0 + n / 64), tail 1]
  else if n < 0x10000 then [UInt8.ofNat (0xE0 + n / 4096), tail 64, tail 1]
  else [UInt8.ofNat (0xF0 + n / 262144), tail 4096, tail 64, tail 1]

def encode (cs : List Char) : List UInt8 := cs.flatMap encodeChar

end ScopeLint.Text
