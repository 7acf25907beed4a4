import ScopeLint.Text.Utf8

/-! Lines of a text file that is read piece by piece. Bytes that cannot be read are found with the
piece that they are in, and only the lines that were whole before it come to light. -/
namespace ScopeLint.Text

def pieceSize : Nat := 8192

def piecesOf : Nat → List UInt8 → List (List UInt8)
  | 0, _ => []
  | _, [] => []
  | fuel + 1, bytes => bytes.take pieceSize :: piecesOf fuel (bytes.drop pieceSize)

/-- The characters of the pieces before the first one with wrong bytes, and what is wrong with that
one. A character may be spread over pieces: `held` are its bytes so far, and they count when the
position of wrong bytes is told. -/
def decodePieces (held : List UInt8) : List (List UInt8) → List Char × Option DecodeError
  | [] => ([], (decode held).2)
  | piece :: rest =>
    let bytes := held ++ piece
    match decode bytes with
    | (cs, none) =>
      let (more, e) := decodePieces [] rest
      (cs ++ more, e)
    | (cs, some e) =>
      if e.isAtEnd bytes then
        let (more, e) := decodePieces (bytes.drop e.position) rest
        (cs ++ more, e)
      else ([], some e)

def rawLinesFrom (line : List Char) : List Char → List (List Char)
  | [] => if line.isEmpty then [] else [line.reverse]
  | '\r' :: '\n' :: rest => ('\n' :: '\r' :: line).reverse :: rawLinesFrom [] rest
  | '\r' :: rest => ('\r' :: line).reverse :: rawLinesFrom [] rest
  | '\n' :: rest => ('\n' :: line).reverse :: rawLinesFrom [] rest
  | c :: rest => rawLinesFrom (c :: line) rest

/-- A carriage return at the end may be half of a break. -/
def dropOpenBreak (cs : List Char) : List Char :=
  if cs.getLast? = some '\r' then cs.dropLast else cs

def isWhole (line : List Char) : Bool :=
  line.getLast? == some '\n' || line.getLast? == some '\r'

def rawLines (pieces : List (List UInt8)) : List (List Char) × Option DecodeError :=
  match decodePieces [] pieces with
  | (cs, none) => (rawLinesFrom [] cs, none)
  | (cs, some e) => ((rawLinesFrom [] (dropOpenBreak cs)).filter isWhole, some e)

def fileLines (bytes : List UInt8) : List (List Char) × Option DecodeError :=
  let (lines, e) := rawLines (piecesOf bytes.length bytes)
  (lines.map unifyBreaks, e)

/-- So many bytes are fetched when fewer are asked for. -/
def blockSize : Nat := 4096

/-- The bytes in pieces, of which the first is no longer than the first character, and the second is
what was fetched with it. -/
def piecesAfterReturn (bytes : List UInt8) : List (List UInt8) :=
  match bytes with
  | [] => []
  | b :: rest =>
    let size := match firstChar b rest with
      | .ok (_, size) => size
      | .error _ => 1
    [bytes.take size, (bytes.take blockSize).drop size] ++
      piecesOf bytes.length (bytes.drop blockSize)

/-- The lines of a file from the first one that fulfils `test` on. Reading starts anew with that
line; behind a lone carriage return it starts with one character, which shows that no line feed
follows. -/
def fileLinesFrom (test : List Char → Bool) (bytes : List UInt8) :
    List (List Char) × Option DecodeError :=
  let (lines, e) := rawLines (piecesOf bytes.length bytes)
  let before := lines.takeWhile (!test ·)
  if before.length = lines.length then ([], e)
  else
    let rest := bytes.drop (encode before.flatten).length
    let pieces := if (before.flatten).getLast? = some '\r' then piecesAfterReturn rest
      else piecesOf rest.length rest
    let (lines, e) := rawLines pieces
    (lines.map unifyBreaks, e)

end ScopeLint.Text
