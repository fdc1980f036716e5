import Coalition.Strategy.Goal
import Coalition.Proofs.Formula.Printer

-- A formula comes to one that is put together from the operators that are computed directly, its own operands inside.

set_option autoImplicit false

namespace Coalition

-- What a strategic operator decides: who is to bring about which goal between two formulas.
structure Aim where
  ability : Ability
  names : List String
  kind : GoalKind
  left : Formula
  right : Formula

namespace Modality

-- The kind of goal that keeps off this one, for the negated operand.
def dual : Modality → Modality
  | .next => .next
  | .eventually => .always
  | .always => .eventually

end Modality

namespace Until

def dual : Until → Until
  | .strong => .weak
  | .weak => .strong

def goal : Until → GoalKind
  | .strong => .strong
  | .weak => .weak

end Until

namespace Formula

def aim? : Formula → Option Aim
  | .strategic ability names modality body => some <| match modality with
      | .next => ⟨ability, names, .next, .constant .false, body⟩
      | .eventually => ⟨ability, names, .strong, .constant .true, body⟩
      | .always => ⟨ability, names, .weak, body, .constant .false⟩
  | .strategicUntil ability names kind left right => some ⟨ability, names, kind.goal, left, right⟩
  | _ => none

def coalitions : Formula → List (List String)
  | .constant _ => []
  | .atom _ => []
  | .not body => body.coalitions
  | .binary _ left right => left.coalitions ++ right.coalitions
  | .path _ _ body => body.coalitions
  | .pathUntil _ _ left right => left.coalitions ++ right.coalitions
  | .agentKnows _ _ body => body.coalitions
  | .groupKnows _ _ _ body => body.coalitions
  | .strategic _ group _ body => group :: body.coalitions
  | .strategicUntil _ group _ left right => group :: (left.coalitions ++ right.coalitions)

-- The formulas that are decided when this one is evaluated, some of them by way of their duals.
def decided (dual : Ability → Bool) : Formula → List Formula
  | .constant _ => []
  | .atom _ => []
  | .not body => body.decided dual
  | .binary _ left right => left.decided dual ++ right.decided dual
  | .path _ _ body => body.decided dual
  | .pathUntil _ _ left right => left.decided dual ++ right.decided dual
  | .agentKnows _ _ body => body.decided dual
  | .groupKnows _ _ _ body => body.decided dual
  | .strategic ability names modality body =>
      (if dual ability then .strategic .canForce names modality.dual (.not body) else .strategic ability names modality body) ::
        body.decided dual
  | .strategicUntil ability names kind left right =>
      (if dual ability then .strategicUntil .canForce names kind.dual (.not right) (.binary .and (.not left) (.not right))
        else .strategicUntil ability names kind left right) :: (left.decided dual ++ right.decided dual)

-- On some path `right` fails until both fail. That no path is of this kind is the weak until on all paths.
def lost (left right : Formula) : Formula := .pathUntil .some .strong (.not right) (.binary .and (.not left) (.not right))

-- The formula that stands for this one where operators are computed, over the same operands.
def spelled (dual : Ability → Bool) : Formula → Formula
  | .binary .implies left right => .binary .or (.not left) right
  | .path .some .eventually body => .pathUntil .some .strong (.constant .true) body
  | .path .all .next body => .not (.path .some .next (.not body))
  | .path .all .eventually body => .not (.path .some .always (.not body))
  | .path .all .always body => .not (.pathUntil .some .strong (.constant .true) (.not body))
  | .pathUntil .some .weak left right => .binary .or (.pathUntil .some .strong left right) (.path .some .always left)
  | .pathUntil .all .strong left right => .not (.binary .or (lost left right) (.path .some .always (.not right)))
  | .pathUntil .all .weak left right => .not (lost left right)
  | .agentKnows .known agent body => .not (.agentKnows .possible agent (.not body))
  | .groupKnows .known sharing names body => .not (.groupKnows .possible sharing names (.not body))
  | .strategic ability names modality body =>
      if dual ability then .not (.strategic .canForce names modality.dual (.not body)) else .strategic ability names modality body
  | .strategicUntil ability names kind left right =>
      if dual ability then .not (.strategicUntil .canForce names kind.dual (.not right) (.binary .and (.not left) (.not right)))
      else .strategicUntil ability names kind left right
  | f => f

variable {dual : Ability → Bool}

-- What is so of the operators that are computed directly if `holds` of their operands, and passes from what a formula comes to on to it.
structure Built (dual : Ability → Bool) (direct holds : Formula → Prop) : Prop where
  forces : dual .canForce = false
  whole : ∀ f, direct (f.spelled dual) → holds f
  constant : ∀ value, direct (.constant value)
  atom : ∀ text, direct (.atom text)
  not : ∀ f, holds f → direct (.not f)
  and : ∀ f g, holds f → holds g → direct (.binary .and f g)
  or : ∀ f g, holds f → holds g → direct (.binary .or f g)
  iff : ∀ f g, holds f → holds g → direct (.binary .iff f g)
  next : ∀ f, holds f → direct (.path .some .next f)
  always : ∀ f, holds f → direct (.path .some .always f)
  strong : ∀ f g, holds f → holds g → direct (.pathUntil .some .strong f g)
  agent : ∀ name f, holds f → direct (.agentKnows .possible name f)
  group : ∀ sharing names f, holds f → direct (.groupKnows .possible sharing names f)
  aims : ∀ f aim, f.aim? = some aim → dual aim.ability = false → holds aim.left → holds aim.right → direct f

namespace Built

variable {direct holds : Formula → Prop} (built : Built dual direct holds) {f g : Formula}

include built

theorem negated (p : holds f) : holds (.not f) := built.whole (.not f) (built.not f p)

theorem conjoined (p : holds f) (q : holds g) : holds (.binary .and f g) := built.whole (.binary .and f g) (built.and f g p q)

theorem stays (p : holds f) : holds (.path .some .always f) := built.whole (.path .some .always f) (built.always f p)

theorem comes (p : holds f) (q : holds g) : holds (.pathUntil .some .strong f g) :=
  built.whole (.pathUntil .some .strong f g) (built.strong f g p q)

theorem loses (p : holds f) (q : holds g) : holds (lost f g) :=
  built.comes (built.negated q) (built.conjoined (built.negated p) (built.negated q))

theorem value (value : Constant) : holds (.constant value) := built.whole (.constant value) (built.constant value)

theorem strategic {ability : Ability} (direct_ : dual ability = false) (names : List String) (modality : Modality) (p : holds f) :
    direct (.strategic ability names modality f) := by
  cases modality with
  | next => exact built.aims _ _ rfl direct_ (built.value .false) p
  | eventually => exact built.aims _ _ rfl direct_ (built.value .true) p
  | always => exact built.aims _ _ rfl direct_ p (built.value .false)

theorem strategic_until {ability : Ability} (direct_ : dual ability = false) (names : List String) (kind : Until) (p : holds f)
    (q : holds g) : direct (.strategicUntil ability names kind f g) :=
  built.aims _ _ rfl direct_ p q

theorem all (f : Formula) : holds f := by
  -- each case goes from the operands through the operators between them and what the formula comes to
  induction f with
  | constant value => exact built.value value
  | atom text => exact built.whole (.atom text) (built.atom text)
  | not body p => exact built.negated p
  | binary op left right p q =>
      refine built.whole _ ?_
      cases op with
      | and => exact built.and left right p q
      | or => exact built.or left right p q
      | implies => exact built.or (.not left) right (built.negated p) q
      | iff => exact built.iff left right p q
  | path quantifier modality body p =>
      refine built.whole _ ?_
      have notP := built.negated p
      cases quantifier <;> cases modality
      · exact built.next body p
      · exact built.strong (.constant .true) body (built.value .true) p
      · exact built.always body p
      · exact built.not _ (built.whole (.path .some .next (.not body)) (built.next _ notP))
      · exact built.not _ (built.stays notP)
      · exact built.not _ (built.comes (built.value .true) notP)
  | pathUntil quantifier kind left right p q =>
      refine built.whole _ ?_
      cases quantifier <;> cases kind
      · exact built.strong left right p q
      · exact built.or _ _ (built.comes p q) (built.stays p)
      · exact built.not _ (built.whole (.binary .or _ _) (built.or _ _ (built.loses p q) (built.stays (built.negated q))))
      · exact built.not _ (built.loses p q)
  | agentKnows certainty agent body p =>
      refine built.whole _ ?_
      cases certainty with
      | possible => exact built.agent agent body p
      | known => exact built.not _ (built.whole (.agentKnows .possible agent _) (built.agent agent _ (built.negated p)))
  | groupKnows certainty sharing names body p =>
      refine built.whole _ ?_
      cases certainty with
      | possible => exact built.group sharing names body p
      | known =>
          exact built.not _ (built.whole (.groupKnows .possible sharing names _) (built.group sharing names _ (built.negated p)))
  | strategic ability names modality body p =>
      refine built.whole _ ?_
      cases uses : dual ability with
      | false =>
          rw [spelled, if_neg (by simp [uses])]
          exact built.strategic uses names modality p
      | true =>
          rw [spelled, if_pos uses]
          refine built.not _ (built.whole _ ?_)
          rw [spelled, if_neg (by simp [built.forces])]
          exact built.strategic built.forces names modality.dual (built.negated p)
  | strategicUntil ability names kind left right p q =>
      refine built.whole _ ?_
      cases uses : dual ability with
      | false =>
          rw [spelled, if_neg (by simp [uses])]
          exact built.strategic_until uses names kind p q
      | true =>
          rw [spelled, if_pos uses]
          refine built.not _ (built.whole _ ?_)
          rw [spelled, if_neg (by simp [built.forces])]
          exact built.strategic_until built.forces names kind.dual (built.negated q) (built.conjoined (built.negated p) (built.negated q))

end Built

section

variable {atom : String → Prop} {group coalition : List String → Prop}

theorem every_aim {f : Formula} {aim : Aim} (aims : f.aim? = some aim) : f.Every atom group coalition ↔
    coalition aim.names ∧ aim.left.Every atom group coalition ∧ aim.right.Every atom group coalition := by
  cases f <;> try cases aims
  · rename_i modality body
    cases modality <;> simp [Every]
  · rfl

theorem every_spelled (f : Formula) : (f.spelled dual).Every atom group coalition ↔ f.Every atom group coalition := by
  cases f with
  | constant value => rfl
  | atom text => rfl
  | not body => rfl
  | binary op left right => cases op <;> rfl
  | path quantifier modality body => cases quantifier <;> cases modality <;> simp [spelled, Every]
  | pathUntil quantifier kind left right =>
      cases quantifier <;> cases kind <;> simp only [spelled, lost, Every] <;> tauto
  | agentKnows certainty agent body => cases certainty <;> rfl
  | groupKnows certainty sharing names body => cases certainty <;> rfl
  | strategic ability names modality body =>
      rw [spelled]
      split <;> rfl
  | strategicUntil ability names kind left right =>
      rw [spelled]
      split
      · simp only [Every]
        tauto
      · rfl

theorem every_coalition (f : Formula) : f.Every (fun _ => True) (fun _ => True) coalition ↔ ∀ names ∈ f.coalitions, coalition names := by
  induction f with
  | constant => simp [Every, coalitions]
  | atom => simp [Every, coalitions]
  | not body ih => exact ih
  | binary op left right leftIh rightIh => simp [Every, coalitions, leftIh, rightIh, or_imp, forall_and]
  | path quantifier modality body ih => exact ih
  | pathUntil quantifier kind left right leftIh rightIh => simp [Every, coalitions, leftIh, rightIh, or_imp, forall_and]
  | agentKnows certainty agent body ih => simp [Every, coalitions, ih]
  | groupKnows certainty sharing names body ih => simp [Every, coalitions, ih]
  | strategic ability names modality body ih => simp [Every, coalitions, ih]
  | strategicUntil ability names kind left right leftIh rightIh =>
      simp [Every, coalitions, leftIh, rightIh, or_imp, forall_and]

end

theorem decided_spelled (forces : dual .canForce = false) (f : Formula) : (f.spelled dual).decided dual ⊆ f.decided dual := by
  cases f with
  | constant value => exact List.Subset.refl _
  | atom text => exact List.Subset.refl _
  | not body => exact List.Subset.refl _
  | binary op left right => cases op <;> exact List.Subset.refl _
  | path quantifier modality body => cases quantifier <;> cases modality <;> simp [spelled, decided]
  | pathUntil quantifier kind left right => cases quantifier <;> cases kind <;> simp [spelled, lost, decided]
  | agentKnows certainty agent body => cases certainty <;> exact List.Subset.refl _
  | groupKnows certainty sharing names body => cases certainty <;> exact List.Subset.refl _
  | strategic ability names modality body => cases uses : dual ability <;> simp [spelled, decided, uses, forces]
  | strategicUntil ability names kind left right => cases uses : dual ability <;> simp [spelled, decided, uses, forces]

theorem decided_coalitions {f g : Formula} {aim : Aim} (decides : g ∈ f.decided dual) (aims : g.aim? = some aim) :
    aim.names ∈ f.coalitions := by
  induction f with
  | constant value => cases decides
  | atom text => cases decides
  | not body ih => exact ih decides
  | binary op left right leftIh rightIh => exact List.mem_append.mpr ((List.mem_append.mp decides).imp leftIh rightIh)
  | path quantifier modality body ih => exact ih decides
  | pathUntil quantifier kind left right leftIh rightIh => exact List.mem_append.mpr ((List.mem_append.mp decides).imp leftIh rightIh)
  | agentKnows certainty agent body ih => exact ih decides
  | groupKnows certainty sharing names body ih => exact ih decides
  | strategic ability names modality body ih =>
      obtain rfl | inner := List.mem_cons.mp decides
      · refine List.mem_cons.mpr (.inl ?_)
        split at aims <;> cases modality <;> cases aims <;> rfl
      · exact List.mem_cons_of_mem _ (ih inner)
  | strategicUntil ability names kind left right leftIh rightIh =>
      obtain rfl | inner := List.mem_cons.mp decides
      · refine List.mem_cons.mpr (.inl ?_)
        split at aims <;> cases aims <;> rfl
      · exact List.mem_cons_of_mem _ (List.mem_append.mpr ((List.mem_append.mp inner).imp leftIh rightIh))

theorem decided_aim {f : Formula} {aim : Aim} (aims : f.aim? = some aim) (direct : dual aim.ability = false) :
    f ∈ f.decided dual ∧ aim.left.decided dual ⊆ f.decided dual ∧ aim.right.decided dual ⊆ f.decided dual := by
  cases f <;> try cases aims
  · rename_i ability names modality body
    have plays : ¬ dual ability = true := by cases modality <;> exact Bool.eq_false_iff.mp direct
    have whole : (strategic ability names modality body).decided dual = strategic ability names modality body :: body.decided dual := by
      rw [decided, if_neg plays]
    rw [whole]
    cases modality <;> exact ⟨List.mem_cons_self, by simp [decided], by simp [decided]⟩
  · rename_i ability names kind left right
    have whole : (strategicUntil ability names kind left right).decided dual =
        strategicUntil ability names kind left right :: (left.decided dual ++ right.decided dual) := by
      rw [decided, if_neg (Bool.eq_false_iff.mp direct)]
    rw [whole]
    exact ⟨List.mem_cons_self, List.subset_cons_of_subset _ (List.subset_append_left _ _),
      List.subset_cons_of_subset _ (List.subset_append_right _ _)⟩

end Formula

end Coalition
