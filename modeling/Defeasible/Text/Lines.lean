/-! Lines of bytes, and the texts they encode in UTF-8. -/

namespace Defeasible.Text

abbrev Bytes := List UInt8

def newline : UInt8 := 10

/-- The lines of some bytes, each with the newline that ends it. Only the last may lack one, and no
line is empty. -/
def byteLines (bytes : Bytes) : List Bytes :=
  bytes.foldr (fun b lines =>
    match lines with
    | [] => [[b]]
    | line :: rest => if b = newline then [b] :: lines else (b :: line) :: rest) []

def decode (bytes : Bytes) : Option (List Char) :=
  (String.fromUTF8? ⟨bytes.toArray⟩).map String.toList

def encode (s : String) : Bytes := s.toUTF8.data.toList

def chomp (line : List Char) : List Char :=
  match line.reverse with
  | '\n' :: '\r' :: rest => rest.reverse
  | '\n' :: rest => rest.reverse
  | _ => line

end Defeasible.Text
