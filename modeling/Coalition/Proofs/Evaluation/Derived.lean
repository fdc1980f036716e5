import Coalition.Evaluation.OnStates
import Coalition.Proofs.Formula.Derived

-- Formulas are evaluated as what they come to, on all states and on requested ones.

set_option autoImplicit false

namespace Coalition.Evaluator

open Eval

variable {ev : Evaluator}

theorem everywhere_aim {f : Formula} {aim : Aim} (aims : f.aim? = some aim) (direct : ev.usesDual aim.ability = false) :
    ev.everywhere f = (do
      let team ← Eval.ofExcept (ev.sys.teamOf aim.names)
      let left ← ev.everywhere aim.left
      let right ← ev.everywhere aim.right
      ev.decide ⟨f, aim.ability, team, ⟨aim.kind, left, right⟩⟩) := by
  have plays : ¬ ev.usesDual aim.ability = true := by simp [direct]
  cases f <;> try cases aims
  · rename_i modality body
    cases modality <;> simp only [everywhere, if_neg plays] <;> rfl
  · rename_i kind left right
    cases kind <;> simp only [everywhere, if_neg plays] <;> rfl

theorem everywhere_spelled (f : Formula) : ev.everywhere (f.spelled ev.usesDual) = ev.everywhere f := by
  have forces : ¬ ev.usesDual .canForce = true := by simp [usesDual]
  cases f with
  | constant value => rfl
  | atom text => rfl
  | not body => rfl
  | binary op left right => cases op <;> rfl
  | path quantifier modality body => cases quantifier <;> cases modality <;> rfl
  | pathUntil quantifier kind left right => cases quantifier <;> cases kind <;> rfl
  | agentKnows certainty agent body => cases certainty <;> rfl
  | groupKnows certainty sharing names body => cases certainty <;> rfl
  | strategic ability names modality body =>
      rw [Formula.spelled]
      split
      · rename_i uses
        cases modality <;> simp only [everywhere, Modality.dual, if_pos uses, if_neg forces]
      · rfl
  | strategicUntil ability names kind left right =>
      rw [Formula.spelled]
      split
      · rename_i uses
        cases kind <;> simp only [everywhere, Until.dual, if_pos uses, if_neg forces]
      · rfl

theorem query_formula (ev : Evaluator) (f : Formula) : (ev.query f).formula = f := by
  induction f with
  | not body ih => exact congrArg Formula.not ih
  | _ => rfl

-- What is asked of the operands of an operator that is computed directly. There are no others in what a formula comes to.
def operation (ev : Evaluator) : Formula → Region → Eval Region
  | .constant value => fun states => pure ((ev.constant value).inter states)
  | .atom text => fun states => do return (← Eval.ofExcept (ev.sys.atom text)).inter states
  | .not f => Body.negate (ev.query f)
  | .binary .and f g => Body.both (ev.query f) (ev.query g)
  | .binary .iff f g => Body.equally (ev.query f) (ev.query g)
  | .binary _ f g => Body.either (ev.query f) (ev.query g)
  | .path _ .next f => Body.someNext ev (ev.query f)
  | .path _ _ f => Body.someAlways ev (ev.query f)
  | .pathUntil _ _ f g => Body.someUntil ev (ev.query f) (ev.query g)
  | .agentKnows _ agent f => Body.possibly ev .distributed [agent] (ev.query f)
  | .groupKnows _ sharing names f => Body.possibly ev sharing names (ev.query f)
  | .strategic ability names modality f => match modality with
      | .next => Body.achieve ev (.strategic ability names modality f) ability names .next ev.falseQuery (ev.query f)
      | .eventually => Body.achieve ev (.strategic ability names modality f) ability names .strong ev.trueQuery (ev.query f)
      | .always => Body.achieve ev (.strategic ability names modality f) ability names .weak (ev.query f) ev.falseQuery
  | .strategicUntil ability names kind f g =>
      Body.achieve ev (.strategicUntil ability names kind f g) ability names kind.goal (ev.query f) (ev.query g)

theorem operation_aim {f : Formula} {aim : Aim} (aims : f.aim? = some aim) :
    ev.operation f = Body.achieve ev f aim.ability aim.names aim.kind (ev.query aim.left) (ev.query aim.right) := by
  cases f <;> try cases aims
  · rename_i modality body
    cases modality <;> rfl
  · rfl

theorem true_query : ev.trueQuery = ev.query (.constant .true) := rfl

theorem not_query (f : Formula) : ev.notQuery (ev.query f) = ev.query (.not f) := rfl

theorem and_query (f g : Formula) : ev.andQuery (ev.query f) (ev.query g) = ev.query (.binary .and f g) := by
  rw [andQuery, query_formula, query_formula]
  rfl

theorem or_query (f g : Formula) : ev.orQuery (ev.query f) (ev.query g) = ev.query (.binary .or f g) := by
  rw [orQuery, query_formula, query_formula]
  rfl

theorem next_query (f : Formula) : ev.nextQuery (ev.query f) = ev.query (.path .some .next f) := by
  rw [nextQuery, query_formula]
  rfl

theorem always_query (f : Formula) : ev.alwaysQuery (ev.query f) = ev.query (.path .some .always f) := by
  rw [alwaysQuery, query_formula]
  rfl

theorem until_query (f g : Formula) : ev.untilQuery (ev.query f) (ev.query g) = ev.query (.pathUntil .some .strong f g) := by
  rw [untilQuery, query_formula, query_formula]
  rfl

theorem query_direct {f : Formula} {aim : Aim} (aims : f.aim? = some aim) (direct : ev.usesDual aim.ability = false) :
    ev.query f = ev.ask f (ev.operation f) := by
  have plays : ¬ ev.usesDual aim.ability = true := by simp [direct]
  cases f <;> try cases aims
  · rename_i ability names modality body
    refine congrArg (ev.ask (.strategic ability names modality body)) ?_
    cases modality <;> exact if_neg plays
  · rename_i ability names kind left right
    refine congrArg (ev.ask (.strategicUntil ability names kind left right)) ?_
    cases kind <;> exact if_neg plays

theorem query_operation (f : Formula) : ev.query f = ev.ask f (ev.operation (f.spelled ev.usesDual)) := by
  cases f with
  | constant value => rfl
  | atom text => rfl
  | not body =>
      show ev.notQuery (ev.query body) = _
      rw [notQuery, query_formula]
      rfl
  | binary op left right => cases op <;> rfl
  | path quantifier modality body =>
      refine congrArg (ev.ask (.path quantifier modality body)) ?_
      cases quantifier <;> cases modality <;>
        simp only [true_query, not_query, next_query, always_query, until_query, Formula.spelled, operation]
  | pathUntil quantifier kind left right =>
      refine congrArg (ev.ask (.pathUntil quantifier kind left right)) ?_
      cases quantifier <;> cases kind <;>
        simp only [not_query, and_query, or_query, always_query, until_query, Formula.spelled, Formula.lost, operation]
  | agentKnows certainty agent body =>
      refine congrArg (ev.ask (.agentKnows certainty agent body)) ?_
      cases certainty
      · rw [knowledgeBody, not_query, query_formula]
        rfl
      · rfl
  | groupKnows certainty sharing names body =>
      refine congrArg (ev.ask (.groupKnows certainty sharing names body)) ?_
      cases certainty
      · rw [knowledgeBody, not_query, query_formula]
        rfl
      · rfl
  | strategic ability names modality body =>
      refine congrArg (ev.ask (.strategic ability names modality body)) ?_
      rw [Formula.spelled]
      split
      · -- the node of the dual operator is asked for under its own text
        dsimp only
        rw [not_query, query_formula]
        cases modality
        · exact congrArg Body.negate (query_direct rfl rfl).symm
        · exact congrArg Body.negate (query_direct rfl rfl).symm
        · exact congrArg Body.negate (query_direct rfl rfl).symm
      · cases modality <;> rfl
  | strategicUntil ability names kind left right =>
      refine congrArg (ev.ask (.strategicUntil ability names kind left right)) ?_
      rw [Formula.spelled]
      split
      · dsimp only
        rw [not_query, not_query, and_query, query_formula, query_formula]
        cases kind
        · exact congrArg Body.negate (query_direct rfl rfl).symm
        · exact congrArg Body.negate (query_direct rfl rfl).symm
      · cases kind <;> rfl

end Coalition.Evaluator
