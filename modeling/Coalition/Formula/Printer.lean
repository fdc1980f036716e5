import Coalition.Formula.Basic

-- Binary connectives are parenthesized and every name is quoted.

set_option autoImplicit false

namespace Coalition

def Constant.text : Constant → String
  | .true => "True"
  | .false => "False"
  | .init => "Init"
  | .reachable => "Reachable"

def Connective.sign : Connective → String
  | .and => "&"
  | .or => "|"
  | .implies => "->"
  | .iff => "<->"

def Quantifier.letter : Quantifier → String
  | .some => "E"
  | .all => "A"

def Modality.letter : Modality → String
  | .next => "X"
  | .eventually => "F"
  | .always => "G"

def Until.letter : Until → String
  | .strong => "U"
  | .weak => "W"

def Certainty.mark : Certainty → String
  | .known => ""
  | .possible => "n"

def Sharing.letter : Sharing → String
  | .everyone => "E"
  | .distributed => "D"
  | .common => "C"

def Ability.opening : Ability → String
  | .canForce => "<"
  | .cannotAvoid => "["

def Ability.closing : Ability → String
  | .canForce => ">"
  | .cannotAvoid => "]"

def groupText (group : List String) : String :=
  ",".intercalate (group.map fun name => "'" ++ name ++ "'")

/-- A text that is read back as the same formula when no name contains a quote. -/
def Formula.text : Formula → String
  | .constant value => value.text
  | .atom text => "'" ++ text ++ "'"
  | .not body => "~" ++ body.text
  | .binary op left right => "(" ++ left.text ++ " " ++ op.sign ++ " " ++ right.text ++ ")"
  | .path quantifier modality body => quantifier.letter ++ modality.letter ++ " " ++ body.text
  | .pathUntil quantifier kind left right =>
      quantifier.letter ++ "[" ++ left.text ++ " " ++ kind.letter ++ " " ++ right.text ++ "]"
  | .agentKnows certainty agent body =>
      certainty.mark ++ "K<'" ++ agent ++ "'> " ++ body.text
  | .groupKnows certainty sharing group body =>
      certainty.mark ++ sharing.letter ++ "<" ++ groupText group ++ "> " ++ body.text
  | .strategic ability group modality body =>
      ability.opening ++ groupText group ++ ability.closing ++ " " ++ modality.letter ++ " " ++
        body.text
  | .strategicUntil ability group kind left right =>
      ability.opening ++ groupText group ++ ability.closing ++ "[" ++ left.text ++ " " ++
        kind.letter ++ " " ++ right.text ++ "]"

end Coalition
