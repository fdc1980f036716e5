import Coalition.Evaluation.Everywhere
import Coalition.Evaluation.Search

-- Operands are evaluated only on the states where the answer depends on them, and answers may be remembered by the text of the formula.

set_option autoImplicit false

namespace Coalition

structure Query where
  formula : Formula
  run : Region → Eval Region

namespace Evaluator

variable (ev : Evaluator)

def remembers : Bool := ev.options.variant = .onRequest && ev.options.caching

/-- Answer from memory where possible, and remember what is computed. -/
def recallAnswer (key : String) (compute : Region → Eval Region) (states : Region) :
    Eval Region := do
  let known := ((← get).answers.find? key).getD {}
  modify fun m => { m with answers := m.answers.touch key }
  let remaining := states.diff (known.yes.union known.no)
  if remaining.isEmpty then
    .count .cacheHits 1
    return known.yes.inter states
  .count .cacheMisses 1
  let sat ← compute remaining
  let known : Known := ⟨known.yes.union sat, known.no.union (remaining.diff sat)⟩
  modify fun m => { m with answers := m.answers.store ev.options.cacheSize.toNat key known }
  return known.yes.inter states

def ask (formula : Formula) (body : Region → Eval Region) : Query where
  formula := formula
  run states := do
    let states := ev.sys.statesOf states
    if states.isEmpty then return states
    let compute (states : Region) : Eval Region :=
      if ev.cancelled then throw .canceled else body states
    if ev.remembers then ev.recallAnswer formula.text compute states else compute states

namespace Body

def negate (q : Query) (states : Region) : Eval Region := do return states.diff (← q.run states)

def both (p q : Query) (states : Region) : Eval Region := do
  let l ← p.run states
  if l.isEmpty then return l
  q.run l

def either (p q : Query) (states : Region) : Eval Region := do
  let l ← p.run states
  let r ← q.run (states.diff l)
  return l.union r

def equally (p q : Query) (states : Region) : Eval Region := do
  let l ← p.run states
  let r ← q.run states
  return (l.iff r).inter states

def someNext (q : Query) (states : Region) : Eval Region := do
  let r ← ev.someNext (q.run (ev.sys.post states))
  return r.inter states

def someAlways (q : Query) (states : Region) : Eval Region := do
  let r ← ev.someAlways (q.run (ev.sys.reachFrom states))
  return r.inter states

def someUntil (p q : Query) (states : Region) : Eval Region := do
  let reached := ev.sys.reachFrom states
  let r ← ev.someUntil (p.run reached) (q.run reached)
  return r.inter states

/-- The states on which the operand of a knowledge operator matters. -/
def related (sharing : Sharing) (t : Team) (states : Region) : Eval Region :=
  match sharing with
  | .distributed => pure (ev.sys.equivalents t states)
  | .everyone => pure (ev.sys.equivalentsForSome t states)
  | .common => Eval.counted (ev.sys.equivalentsByChain t states)

def possibly (sharing : Sharing) (names : List String) (q : Query) (states : Region) :
    Eval Region := do
  let t ← Eval.ofExcept (ev.sys.teamOf names)
  let on ← related ev sharing t states
  let sat ← q.run on
  let r ← ev.possible sharing t sat
  return r.inter states

/-- A strategic operator: on the whole state, or by the search for strategies. -/
def achieve (formula : Formula) (ability : Ability) (names : List String) (kind : GoalKind)
    (left right : Query) (states : Region) : Eval Region := do
  let team ← Eval.ofExcept (ev.sys.teamOf names)
  let operands : Operands := ⟨kind, left.run, right.run⟩
  if ev.options.observability = .full then
    let goal ← operands.on (ev.sys.reachFrom states)
    let r ← ev.decide { formula, ability, team, goal }
    return r.inter states
  else
    let r ← Eval.deciding do
      let closed := Search.closeStates ev team states
      let protocol ← Eval.protocol ev.sys team
      Search.run ⟨ev, team, protocol, operands⟩ closed
    return r.inter states

end Body

def notQuery (q : Query) : Query := ev.ask (.not q.formula) (Body.negate q)

def andQuery (p q : Query) : Query := ev.ask (.binary .and p.formula q.formula) (Body.both p q)

def orQuery (p q : Query) : Query := ev.ask (.binary .or p.formula q.formula) (Body.either p q)

def nextQuery (q : Query) : Query := ev.ask (.path .some .next q.formula) (Body.someNext ev q)

def alwaysQuery (q : Query) : Query := ev.ask (.path .some .always q.formula) (Body.someAlways ev q)

def untilQuery (p q : Query) : Query :=
  ev.ask (.pathUntil .some .strong p.formula q.formula) (Body.someUntil ev p q)

def constantQuery (value : Constant) : Query :=
  ev.ask (.constant value) fun states => pure ((ev.constant value).inter states)

def trueQuery : Query := ev.constantQuery .true

def falseQuery : Query := ev.constantQuery .false

def knowledgeBody (certainty : Certainty) (sharing : Sharing) (names : List String)
    (node : Formula → Formula) (q : Query) : Region → Eval Region :=
  match certainty with
  | .possible => Body.possibly ev sharing names q
  | .known =>
      let q := ev.notQuery q
      Body.negate (ev.ask (node q.formula) (Body.possibly ev sharing names q))

def query : Formula → Query
  | .constant value => ev.constantQuery value
  | .atom text => ev.ask (.atom text) fun states => do
      return (← Eval.ofExcept (ev.sys.atom text)).inter states
  | .not body => ev.notQuery (query body)
  | .binary op left right =>
      let p := query left
      let q := query right
      ev.ask (.binary op left right) <| match op with
        | .and => Body.both p q
        | .or => Body.either p q
        | .implies => Body.either (ev.notQuery p) q
        | .iff => Body.equally p q
  | .path quantifier modality body =>
      let q := query body
      ev.ask (.path quantifier modality body) <| match quantifier, modality with
        | .some, .next => Body.someNext ev q
        | .some, .eventually => Body.someUntil ev ev.trueQuery q
        | .some, .always => Body.someAlways ev q
        | .all, .next => Body.negate (ev.nextQuery (ev.notQuery q))
        | .all, .eventually => Body.negate (ev.alwaysQuery (ev.notQuery q))
        | .all, .always => Body.negate (ev.untilQuery ev.trueQuery (ev.notQuery q))
  | .pathUntil quantifier kind left right =>
      let p := query left
      let q := query right
      let notQ := ev.notQuery q
      let lost := ev.untilQuery notQ (ev.andQuery (ev.notQuery p) notQ)
      ev.ask (.pathUntil quantifier kind left right) <| match quantifier, kind with
        | .some, .strong => Body.someUntil ev p q
        | .some, .weak => Body.either (ev.untilQuery p q) (ev.alwaysQuery p)
        | .all, .strong => Body.negate (ev.orQuery lost (ev.alwaysQuery notQ))
        | .all, .weak => Body.negate lost
  | .agentKnows certainty agent body =>
      ev.ask (.agentKnows certainty agent body)
        (ev.knowledgeBody certainty .distributed [agent] (.agentKnows .possible agent) (query body))
  | .groupKnows certainty sharing group body =>
      ev.ask (.groupKnows certainty sharing group body)
        (ev.knowledgeBody certainty sharing group (.groupKnows .possible sharing group) (query body))
  | .strategic ability group modality body =>
      let q := query body
      let formula : Formula := .strategic ability group modality body
      ev.ask formula <|
        if ev.usesDual ability then
          let notQ := ev.notQuery q
          let force (modality : Modality) (kind : GoalKind) (left right : Query) : Query :=
            let node : Formula := .strategic .canForce group modality notQ.formula
            ev.ask node (Body.achieve ev node .canForce group kind left right)
          match modality with
          | .next => Body.negate (force .next .next ev.falseQuery notQ)
          | .eventually => Body.negate (force .always .weak notQ ev.falseQuery)
          | .always => Body.negate (force .eventually .strong ev.trueQuery notQ)
        else
          match modality with
          | .next => Body.achieve ev formula ability group .next ev.falseQuery q
          | .eventually => Body.achieve ev formula ability group .strong ev.trueQuery q
          | .always => Body.achieve ev formula ability group .weak q ev.falseQuery
  | .strategicUntil ability group kind left right =>
      let p := query left
      let q := query right
      let formula : Formula := .strategicUntil ability group kind left right
      ev.ask formula <|
        if ev.usesDual ability then
          let notQ := ev.notQuery q
          let lost := ev.andQuery (ev.notQuery p) notQ
          let force (kind : Until) (goal : GoalKind) : Query :=
            let node : Formula := .strategicUntil .canForce group kind notQ.formula lost.formula
            ev.ask node (Body.achieve ev node .canForce group goal notQ lost)
          match kind with
          | .strong => Body.negate (force .weak .weak)
          | .weak => Body.negate (force .strong .strong)
        else
          match kind with
          | .strong => Body.achieve ev formula ability group .strong p q
          | .weak => Body.achieve ev formula ability group .weak p q

end Evaluator

namespace Evaluator

def create (sys : System) (options : Options) (cancelled : Bool) : Except Error Evaluator := do
  return { sys, options := ← options.checked, cancelled }

variable (ev : Evaluator)

def satisfyingAmong (f : Formula) (states : Region) : Eval Region := (ev.query f).run states

def onAll (f : Formula) : Eval Region :=
  if ev.cancelled then throw .canceled else ev.everywhere f

def satisfying (f : Formula) : Eval Region :=
  if ev.options.variant = .onRequest then ev.satisfyingAmong f ev.sys.statesMask else ev.onAll f

def check (f : Formula) : Eval Bool := do
  let init := ev.sys.init
  let sat ← if ev.options.variant = .onRequest then ev.satisfyingAmong f init else ev.onAll f
  return init.subset sat

end Evaluator

end Coalition
