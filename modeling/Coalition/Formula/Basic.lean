-- Formulas about multi-agent systems: propositional connectives, path operators, knowledge of agents and groups, and what coalitions can
-- force or cannot avoid.

set_option autoImplicit false

namespace Coalition

inductive Constant where
  | true
  | false
  | init
  | reachable
deriving DecidableEq, Repr

inductive Connective where
  | and
  | or
  | implies
  | iff
deriving DecidableEq, Repr

inductive Quantifier where
  | some
  | all
deriving DecidableEq, Repr

inductive Modality where
  | next
  | eventually
  | always
deriving DecidableEq, Repr

inductive Until where
  | strong
  | weak
deriving DecidableEq, Repr

inductive Certainty where
  | known
  | possible
deriving DecidableEq, Repr

inductive Sharing where
  | everyone
  | distributed
  | common
deriving DecidableEq, Repr

inductive Ability where
  | canForce
  | cannotAvoid
deriving DecidableEq, Repr

inductive Formula where
  | constant (value : Constant)
  | atom (text : String)
  | not (body : Formula)
  | binary (op : Connective) (left right : Formula)
  | path (quantifier : Quantifier) (modality : Modality) (body : Formula)
  | pathUntil (quantifier : Quantifier) (kind : Until) (left right : Formula)
  | agentKnows (certainty : Certainty) (agent : String) (body : Formula)
  | groupKnows (certainty : Certainty) (sharing : Sharing) (group : List String) (body : Formula)
  | strategic (ability : Ability) (group : List String) (modality : Modality) (body : Formula)
  | strategicUntil (ability : Ability) (group : List String) (kind : Until) (left right : Formula)
deriving DecidableEq, Repr

end Coalition
