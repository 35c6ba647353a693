/-! Texts made of parts with a comma and a space between them. -/

namespace Defeasible.Text

def joinComma : List (List Char) → List Char
  | [] => []
  | [part] => part
  | part :: parts => part ++ ',' :: ' ' :: joinComma parts

end Defeasible.Text
