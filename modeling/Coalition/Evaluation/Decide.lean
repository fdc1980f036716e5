import Coalition.Evaluation.Memory
import Coalition.Evaluation.Temporal
import Coalition.Formula.Printer
import Coalition.Strategy.MoveGame
import Coalition.Strategy.Split
import Coalition.Strategy.StateGame

-- Deciding where a team reaches a goal, once the regions of the goal are known: on the whole state, or by uniform strategies that are
-- split and filtered in different orders or encoded with variables.

set_option autoImplicit false

namespace Coalition

structure Evaluator where
  sys : System
  options : Options
  cancelled : Bool := false

structure Task where
  formula : Formula
  ability : Ability
  team : Team
  goal : Goal

namespace Evaluator

variable (ev : Evaluator)

def splitter (t : Team) : Splitter := ⟨ev.sys, t, ev.options.semantics⟩

def winningMoves (t : Team) (protocol : Region) (goal : Goal) (moves : Region) : Eval Region :=
  .counted (MoveGame.winning ⟨ev.sys, t, protocol, moves⟩ goal)

/-- The states where one strategy wins as far as the team can tell. -/
def winningStates (t : Team) (protocol : Region) (goal : Goal) (strategy : Region) :
    Eval Region := do
  .count .strategies 1
  let won ← ev.winningMoves t protocol goal strategy
  return (ev.splitter t).surelyWinning (won.hide ev.sys.inputBits)

/-- Split the protocol into strategies and unite the states where each wins. -/
def splitFilter (t : Team) (goal : Goal) : Eval Region := do
  let protocol ← Eval.protocol ev.sys t
  Eval.unionEach (ev.winningStates t protocol goal)
    ((ev.splitter t).split protocol .empty) .empty

def filterSplitFilter (t : Team) (goal : Goal) : Eval Region := do
  let protocol ← Eval.protocol ev.sys t
  let won ← ev.winningMoves t protocol goal protocol
  if won.isEmpty then return .empty
  Eval.unionEach (ev.winningStates t protocol goal) ((ev.splitter t).split won .empty) .empty

def firstConflict (sp : Splitter) : (fuel : Nat) → Region → Except Error (Option Region)
  | 0, _ => .error .endless
  | fuel + 1, moves =>
      if moves.isEmpty then .ok none
      else do
        let move ← sp.pickMove moves
        let here := moves.inter (sp.classOfMove move)
        if ← sp.isConflicting here then return some here
        firstConflict sp fuel (moves.diff here)

/-- Filter the winning moves, split the first class that leaves a choice, and go on with each part:
every split takes moves away. -/
def filterSplitFrom (t : Team) (protocol : Region) (goal : Goal) : (fuel : Nat) → Region → Eval Region
  | 0, _ => throw .endless
  | fuel + 1, moves => do
      let sp := ev.splitter t
      let won ← ev.winningMoves t protocol goal moves
      if won.isEmpty then return won
      match ← Eval.ofExcept (firstConflict sp sp.bound won) with
      | none =>
          .count .strategies 1
          return sp.surelyWinning (won.hide ev.sys.inputBits)
      | some here =>
          let parts ← Eval.ofExcept (sp.splitClass .empty here).collect
          let rest := won.diff here
          parts.foldlM (fun sat part => do
            return sat.union (← filterSplitFrom t protocol goal fuel (rest.union part))) .empty

def filterSplit (t : Team) (goal : Goal) : Eval Region := do
  let protocol ← Eval.protocol ev.sys t
  ev.filterSplitFrom t protocol goal (ev.splitter t).bound protocol

/-- What an encoding is remembered under: the team, or the formula its moves are filtered for. -/
def encodingKey (task : Task) : String :=
  if ev.options.variant = .symbolicFiltered then task.formula.text else task.team.key

def encodingFor (task : Task) : Eval (Option EncodingEntry) := do
  let key := ev.encodingKey task
  if let some entry := (← get).encodings.lookup key then return some entry
  let protocol ← Eval.protocol ev.sys task.team
  let filtered := ev.options.variant = .symbolicFiltered
  let moves ← if filtered then ev.winningMoves task.team protocol task.goal protocol else pure protocol
  if filtered && moves.isEmpty then return none
  let before ← get
  let equivalence ← Eval.equivalence ev.sys task.team
  match Encoding.ofMoves ev.sys task.team equivalence moves with
  | .error e =>
      -- an encoding that does not fit leaves no trace
      set before
      throw e
  | .ok encoding =>
      .count .symbolicEncodings 1
      .count .strategyVariables encoding.bits.length
      modify fun m => { m with encodings := (key, ⟨encoding, none⟩) :: m.encodings }
      return some ⟨encoding, none⟩

def encodedUnfair (key : String) (entry : EncodingEntry) : Eval Region := do
  if let some unfair := entry.unfair then return unfair
  let unfair ← Eval.counted entry.encoding.unfair
  modify fun m => { m with encodings :=
    (key, { entry with unfair := some unfair }) :: m.encodings.filter (·.1 != key) }
  return unfair

def symbolic (task : Task) : Eval Region := do
  match ← ev.encodingFor task with
  | none => return .empty
  | some entry =>
      let unfair ← encodedUnfair (ev.encodingKey task) entry
      Eval.counted (entry.encoding.winning task.goal unfair)

def unfairFor (game : StateGame) : Eval Region := do
  if ev.sys.fairness.isEmpty then return .empty
  let key := game.team.key
  if let some region := (← get).forcesUnfair.lookup key then return region
  let region ← Eval.counted game.unfair
  modify fun m => { m with forcesUnfair := (key, region) :: m.forcesUnfair }
  return region

def fairFor (game : StateGame) : Eval Region := do
  let key := game.team.key
  if let some region := (← get).permitsFair.lookup key then return region
  let region ← Eval.counted game.fair
  modify fun m => { m with permitsFair := (key, region) :: m.permitsFair }
  return region

def fullObservation (task : Task) : Eval Region := do
  let protocol ← Eval.protocol ev.sys task.team
  let game : StateGame := ⟨ev.sys, task.team, protocol⟩
  let ⟨kind, left, right⟩ := task.goal
  let fairness := !ev.sys.fairness.isEmpty
  match task.ability, kind with
  | .canForce, .next => return game.forceNext (← ev.unfairFor game) right
  | .canForce, .strong => Eval.counted (game.forceStrong (← ev.unfairFor game) left right)
  | .canForce, .weak => Eval.counted (game.forceWeak (← ev.unfairFor game) left right)
  | .cannotAvoid, .next => return game.permitNext (← fairFor game) right
  | .cannotAvoid, .strong => Eval.counted (game.permitStrong (← fairFor game) left right)
  | .cannotAvoid, .weak =>
      let fair ← if fairness then fairFor game else pure .univ
      Eval.counted (game.permitWeak fair left right)

def decide (task : Task) : Eval Region := Eval.deciding do
  if ev.options.observability = .full then ev.fullObservation task
  else
    match ev.options.variant with
    | .filterSplit => ev.filterSplit task.team task.goal
    | .filterSplitFilter => ev.filterSplitFilter task.team task.goal
    | .symbolic | .symbolicFiltered => ev.symbolic task
    | .splitFilter | .onRequest => ev.splitFilter task.team task.goal

def fairStates : Eval Region := do
  if let some fair := (← get).fair then return fair
  let fair ← Eval.counted ev.sys.fairStates
  modify fun m => { m with fair := some fair }
  return fair

end Evaluator

end Coalition
