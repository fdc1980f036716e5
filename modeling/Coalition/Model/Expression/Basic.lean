import Coalition.Model.Variable

-- An expression is a Boolean combination of comparisons of variables, on current or next values, and of named expressions.

set_option autoImplicit false

namespace Coalition

structure Reading where
  var : Variable
  next : Bool

inductive Expression where
  | constant (value : Bool)
  | isValue (reading : Reading) (index : Nat)
  | isAmong (reading : Reading) (indices : List Nat)
  | same (left right : Reading)
  | named (name : String)
  | not (body : Expression)
  | and (left right : Expression)
  | or (left right : Expression)
  | implies (left right : Expression)
  | iff (left right : Expression)

def Reading.region (r : Reading) (index : Nat) : Region := r.var.valueRegion r.next index

namespace Expression

/-- The valuations that satisfy an expression, given those of the named ones. -/
def region (named : List (String × Region)) : Expression → Region
  | .constant value => if value then .univ else .empty
  | .isValue reading index => reading.region index
  | .isAmong reading indices => Region.unionAll (indices.map reading.region)
  | .same left right =>
      Region.unionAll ((List.range left.var.domain.length).map fun index =>
        (left.region index).inter (right.region index))
  | .named name => (named.lookup name).getD .empty
  | .not body => (body.region named).compl
  | .and left right => (left.region named).inter (right.region named)
  | .or left right => (left.region named).union (right.region named)
  | .implies left right => (left.region named).implies (right.region named)
  | .iff left right => (left.region named).iff (right.region named)

end Expression

end Coalition
