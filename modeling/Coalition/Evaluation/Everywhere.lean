import Coalition.Evaluation.Decide

-- Derived operators are computed from the operators they stand for, each operand as often as it occurs there.

set_option autoImplicit false

namespace Coalition.Evaluator

variable (ev : Evaluator)

def negate (x : Eval Region) : Eval Region := do return ev.sys.statesOutside (← x)

def both (x y : Eval Region) : Eval Region := do
  let l ← x
  let r ← y
  return l.inter r

def either (x y : Eval Region) : Eval Region := do
  let l ← x
  let r ← y
  return l.union r

def equally (x y : Eval Region) : Eval Region := do
  let l ← x
  let r ← y
  return (l.iff r).inter ev.sys.statesMask

def someNext (x : Eval Region) : Eval Region := do
  let states ← x
  return ev.sys.someNext (← ev.fairStates) states

def someAlways (x : Eval Region) : Eval Region := do
  Eval.counted (ev.sys.someAlways (← x))

def someUntil (x y : Eval Region) : Eval Region := do
  let left ← x
  let right ← y
  Eval.counted (ev.sys.someUntil (← ev.fairStates) left right)

/-- What a team considers possible, in one of three ways. Without members nothing is, for some of
them or by a chain. -/
def possible (sharing : Sharing) (t : Team) (states : Region) : Eval Region := do
  match sharing with
  | .distributed => return ev.sys.possible (← ev.fairStates) t states
  | .everyone =>
      if t.members.isEmpty then return .empty
      return ev.sys.possibleForSome (← ev.fairStates) t states
  | .common =>
      let fair ← if t.members.isEmpty then pure .empty else ev.fairStates
      Eval.counted (ev.sys.possibleByChain fair t states)

def possibly (sharing : Sharing) (names : List String) (x : Eval Region) : Eval Region := do
  let t ← Eval.ofExcept (ev.sys.teamOf names)
  let states ← x
  ev.possible sharing t states

def knowledge (certainty : Certainty) (sharing : Sharing) (names : List String) (x : Eval Region) :
    Eval Region :=
  match certainty with
  | .possible => ev.possibly sharing names x
  | .known => ev.negate (ev.possibly sharing names (ev.negate x))

/-- A strategic operator with its operands; there is no left one for a next-step goal. -/
def achieve (formula : Formula) (ability : Ability) (names : List String) (kind : GoalKind)
    (left right : Eval Region) : Eval Region := do
  let team ← Eval.ofExcept (ev.sys.teamOf names)
  let left ← if kind = .next then pure .empty else left
  let right ← right
  ev.decide { formula, ability, team, goal := ⟨kind, left, right⟩ }

def holdsAlways : Eval Region := pure ev.sys.statesMask

def holdsNever : Eval Region := pure .empty

/-- Whether a strategic operator is computed as the negation of its dual. -/
def usesDual (ability : Ability) : Bool :=
  ability = .cannotAvoid && ev.options.observability = .limited

def constant : Constant → Region
  | .true => ev.sys.statesMask
  | .false => .empty
  | .init => ev.sys.init
  | .reachable => ev.sys.reachable

def everywhere : Formula → Eval Region
  | .constant value => pure (ev.constant value)
  | .atom text => Eval.ofExcept (ev.sys.atom text)
  | .not body => ev.negate (everywhere body)
  | .binary op left right =>
      let p := everywhere left
      let q := everywhere right
      match op with
      | .and => both p q
      | .or => either p q
      | .implies => either (ev.negate p) q
      | .iff => ev.equally p q
  | .path quantifier modality body =>
      let p := everywhere body
      match quantifier, modality with
      | .some, .next => ev.someNext p
      | .some, .eventually => ev.someUntil ev.holdsAlways p
      | .some, .always => ev.someAlways p
      | .all, .next => ev.negate (ev.someNext (ev.negate p))
      | .all, .eventually => ev.negate (ev.someAlways (ev.negate p))
      | .all, .always => ev.negate (ev.someUntil ev.holdsAlways (ev.negate p))
  | .pathUntil quantifier kind left right =>
      let p := everywhere left
      let q := everywhere right
      let lost := ev.someUntil (ev.negate q) (both (ev.negate p) (ev.negate q))
      match quantifier, kind with
      | .some, .strong => ev.someUntil p q
      | .some, .weak => either (ev.someUntil p q) (ev.someAlways p)
      | .all, .strong => ev.negate (either lost (ev.someAlways (ev.negate q)))
      | .all, .weak => ev.negate lost
  | .agentKnows certainty agent body =>
      ev.knowledge certainty .distributed [agent] (everywhere body)
  | .groupKnows certainty sharing group body =>
      ev.knowledge certainty sharing group (everywhere body)
  | .strategic ability group modality body =>
      let p := everywhere body
      if ev.usesDual ability then
        let force (modality : Modality) := ev.achieve (.strategic .canForce group modality (.not body))
          .canForce group
        match modality with
        | .next => ev.negate (force .next .next holdsNever (ev.negate p))
        | .eventually => ev.negate (force .always .weak (ev.negate p) holdsNever)
        | .always => ev.negate (force .eventually .strong ev.holdsAlways (ev.negate p))
      else
        let achieve := ev.achieve (.strategic ability group modality body) ability group
        match modality with
        | .next => achieve .next holdsNever p
        | .eventually => achieve .strong ev.holdsAlways p
        | .always => achieve .weak p holdsNever
  | .strategicUntil ability group kind left right =>
      let p := everywhere left
      let q := everywhere right
      if ev.usesDual ability then
        let lost : Formula := .binary .and (.not left) (.not right)
        let force (kind : Until) (goal : GoalKind) :=
          ev.achieve (.strategicUntil .canForce group kind (.not right) lost) .canForce group goal
            (ev.negate q) (both (ev.negate p) (ev.negate q))
        match kind with
        | .strong => ev.negate (force .weak .weak)
        | .weak => ev.negate (force .strong .strong)
      else
        let achieve := ev.achieve (.strategicUntil ability group kind left right) ability group
        match kind with
        | .strong => achieve .strong p q
        | .weak => achieve .weak p q

end Coalition.Evaluator
