import Coalition.Model.System
import Coalition.Proofs.Region.Members
import Coalition.Proofs.Yields

-- What parsed expressions mention: every reading names a declared variable in a way its scope allows, every value is one of its domain
-- and every named expression is a known one.

set_option autoImplicit false

namespace Coalition

namespace Expression

-- The readings are allowed and the names known; values belong to the domains they are compared with.
def Typed (allowed : Reading → Prop) (known : String → Prop) : Expression → Prop
  | .constant _ => True
  | .isValue reading index => allowed reading ∧ index < reading.var.domain.length
  | .isAmong reading indices => allowed reading ∧ ∀ index ∈ indices, index < reading.var.domain.length
  | .same left right => allowed left ∧ allowed right ∧ left.var.domain = right.var.domain
  | .named name => known name
  | .not body => body.Typed allowed known
  | .and left right => left.Typed allowed known ∧ right.Typed allowed known
  | .or left right => left.Typed allowed known ∧ right.Typed allowed known
  | .implies left right => left.Typed allowed known ∧ right.Typed allowed known
  | .iff left right => left.Typed allowed known ∧ right.Typed allowed known

theorem Typed.mono {allowed : Reading → Prop} {known more : String → Prop} {e : Expression} (typed : e.Typed allowed known)
    (le : ∀ name, known name → more name) : e.Typed allowed more := by
  induction e with
  | constant _ => trivial
  | isValue _ _ => exact typed
  | isAmong _ _ => exact typed
  | same _ _ => exact typed
  | named name => exact le name typed
  | not body ih => exact ih typed
  | and left right leftIh rightIh => exact ⟨leftIh typed.1, rightIh typed.2⟩
  | or left right leftIh rightIh => exact ⟨leftIh typed.1, rightIh typed.2⟩
  | implies left right leftIh rightIh => exact ⟨leftIh typed.1, rightIh typed.2⟩
  | iff left right leftIh rightIh => exact ⟨leftIh typed.1, rightIh typed.2⟩

theorem reads_region {allowed : Reading → Prop} {known : String → Prop} {named : List (String × Region)} {vars : Set Nat}
    (bits : ∀ r, allowed r → ∀ b ∈ r.var.bitsAt r.next, b ∈ vars) (ready : ∀ entry ∈ named, entry.2.Reads vars)
    {e : Expression} (fits : e.Typed allowed known) : (e.region named).Reads vars := by
  have value : ∀ r, allowed r → ∀ index, (r.region index).Reads vars := by
    intro r known index
    apply Region.reads_cell
    intro entry listed
    obtain ⟨place, member, rfl⟩ := List.mem_map.mp listed
    exact bits r known _ (List.fst_mem_of_mem_zipIdx member)
  induction e with
  | constant value =>
      cases value with
      | true => exact Region.reads_univ vars
      | false => exact Region.reads_empty vars
  | isValue reading index => exact value reading fits.1 index
  | isAmong reading indices =>
      apply Region.reads_union_all
      intro r listed
      obtain ⟨index, _, rfl⟩ := List.mem_map.mp listed
      exact value reading fits.1 index
  | same left right =>
      apply Region.reads_union_all
      intro r listed
      obtain ⟨index, _, rfl⟩ := List.mem_map.mp listed
      exact (value left fits.1 index).inter (value right fits.2.1 index)
  | named name =>
      unfold region
      cases found : named.lookup name with
      | none => exact Region.reads_empty vars
      | some r =>
          obtain ⟨before, _, listed, _⟩ := List.lookup_eq_some_iff.mp found
          exact ready (name, r) (by simp [listed])
  | not body ih => exact (ih fits).compl
  | and left right leftIh rightIh => exact (leftIh fits.1).inter (rightIh fits.2)
  | or left right leftIh rightIh => exact (leftIh fits.1).union (rightIh fits.2)
  | implies left right leftIh rightIh => exact (leftIh fits.1).implies (rightIh fits.2)
  | iff left right leftIh rightIh => exact (leftIh fits.1).iff (rightIh fits.2)

def Scope.Allows (scope : Scope) (vars : List Variable) (r : Reading) : Prop :=
  r.var ∈ vars ∧ (r.next = true → scope.next = true ∧ r.var.kind ≠ .input) ∧ (r.var.kind = .input → scope.inputs = true)

section

variable {names : Names} {scope : Scope}

def Term.Allowed (names : Names) (scope : Scope) (t : Term) : Prop :=
  ∀ r, t.reading = some r → scope.Allows names.vars r

def Gives {α : Type} (reader : Reader α) (property : α → Prop) : Prop :=
  ∀ ts, Yields (reader ts) fun read => property read.1

theorem gives_anything {α : Type} (reader : Reader α) : Gives reader fun _ => True := fun _ _ _ => trivial

theorem next_call_allowed : Gives (nextCall names scope) (Term.Allowed names scope) := by
  intro ts
  unfold nextCall
  generalize advance (advance ts) = rest
  cases rest with
  | nil => exact yields_error _
  | cons first others =>
      by_cases ended : first.isEnd = true
      · simp only [ended, if_true]
        exact yields_error _
      · simp only [ended]
        refine yields_bind (gives_anything _ _) fun read _ => ?_
        by_cases next : scope.next = true
        · simp only [next]
          cases found : names.find? first.text with
          | none => exact yields_error _
          | some v =>
              by_cases input : v.kind = .input
              · simp only [input, if_true]
                exact yields_error _
              · simp only [if_neg input]
                refine yields_ok fun r same => ?_
                cases same
                exact ⟨List.mem_of_find?_eq_some found, fun _ => ⟨next, input⟩, fun bad => absurd bad input⟩
        · simp only [next]
          exact yields_error _

theorem term_allowed : Gives (term names scope) (Term.Allowed names scope) := by
  intro ts
  cases ts with
  | nil => exact yields_error _
  | cons first others =>
      unfold term
      by_cases ended : first.isEnd = true
      · simp only [ended, if_true]
        exact yields_error _
      · by_cases sign : signs.contains first.text = true
        · simp only [ended, sign, if_true]
          exact yields_error _
        · by_cases call : (first.text == "next" && first.ahead == some '(') = true
          · simp only [ended, sign, call, if_true]
            exact next_call_allowed _
          · simp only [ended, sign, call]
            cases found : names.find? (Text.trimQuotes first.text) with
            | none => exact yields_ok fun r same => by cases same
            | some v =>
                by_cases hidden : (decide (v.kind = .input) && !scope.inputs) = true
                · simp only [hidden, if_true]
                  exact yields_error _
                · simp only [hidden]
                  refine yields_ok fun r same => ?_
                  cases same
                  refine ⟨List.mem_of_find?_eq_some found, fun bad => Bool.noConfusion bad, fun input => ?_⟩
                  have shown : v.kind = .input → scope.inputs = true := by simpa using hidden
                  exact shown input

theorem index_less {v : Variable} {value : String} {index : Nat} (found : v.index? value = some index) : index < v.domain.length :=
  (List.findIdx?_eq_some_iff_getElem.mp found).1

abbrev Read (names : Names) (scope : Scope) : Expression → Prop := Typed (scope.Allows names.vars) (· ∈ names.compiled)

theorem equal_to_typed {left : Reading} {right : Term} (known : scope.Allows names.vars left)
    (allowed : right.Allowed names scope) : Yields (equalTo left right) (Read names scope) := by
  unfold equalTo
  split
  · rename_i index _ found
    exact yields_ok ⟨known, index_less found⟩
  · exact yields_error _
  · rename_i reading same _
    by_cases domains : left.var.domain = reading.var.domain
    · rw [if_pos domains]
      exact yields_ok ⟨known, allowed reading same, domains⟩
    · rw [if_neg domains]
      exact yields_error _

theorem equal_typed {left right : Term} (leftAllowed : left.Allowed names scope) (rightAllowed : right.Allowed names scope) :
    Yields (equal names left right) (Read names scope) := by
  unfold equal
  split
  · rename_i reading same
    exact equal_to_typed (leftAllowed reading same) rightAllowed
  · rename_i reading _ same
    exact equal_to_typed (rightAllowed reading same) leftAllowed
  · split
    · exact yields_error _
    · split
      · exact yields_error _
      · exact yields_error _

theorem set_values_less (v : Variable) (fuel : Nat) : Gives (setValues v fuel) fun indices => ∀ index ∈ indices, index < v.domain.length := by
  induction fuel with
  | zero => exact fun ts => yields_error _
  | succ fuel ih =>
      intro ts
      cases ts with
      | nil => exact yields_error _
      | cons first others =>
          unfold setValues
          dsimp only
          split
          · exact yields_error _
          · split
            · exact yields_error _
            · rename_i index found
              split
              · refine yields_bind (ih _) fun others less => yields_ok ?_
                exact List.forall_mem_cons.mpr ⟨index_less found, less⟩
              · refine yields_bind (gives_anything _ _) fun close _ => yields_ok ?_
                exact List.forall_mem_singleton.mpr (index_less found)

theorem membership_typed {t : Term} (allowed : t.Allowed names scope) : Gives (membership t) (Read names scope) := by
  intro ts
  unfold membership
  split
  · exact yields_error _
  · rename_i reading same
    refine yields_bind (gives_anything _ _) fun open_ _ => ?_
    refine yields_bind (set_values_less _ _ _) fun values less => ?_
    exact yields_ok ⟨allowed reading same, less⟩

theorem bare_typed {t : Term} (allowed : t.Allowed names scope) : Yields (bare names t) (Read names scope) := by
  unfold bare
  split
  · rename_i reading same
    split
    · rename_i boolean
      refine yields_ok ⟨allowed reading same, ?_⟩
      rw [beq_iff_eq.mp boolean]
      exact Nat.one_lt_two
    · exact yields_error _
  · split
    · exact yields_ok trivial
    · split
      · exact yields_ok trivial
      · split
        · rename_i compiled
          exact yields_ok (List.contains_iff_mem.mp compiled)
        · split
          · exact yields_error _
          · exact yields_error _

theorem comparison_typed : Gives (comparison names scope) (Read names scope) := by
  intro ts
  unfold comparison
  refine yields_bind (term_allowed ts) fun left leftAllowed => ?_
  dsimp only
  split
  · refine yields_bind (term_allowed _) fun right rightAllowed => ?_
    exact yields_bind (equal_typed leftAllowed rightAllowed) fun e fits => yields_ok fits
  · split
    · refine yields_bind (gives_anything _ _) fun read _ => ?_
      refine yields_bind (term_allowed _) fun right rightAllowed => ?_
      exact yields_bind (equal_typed leftAllowed rightAllowed) fun e fits => yields_ok fits
    · split
      · exact membership_typed leftAllowed _
      · exact yields_bind (bare_typed leftAllowed) fun e fits => yields_ok fits

end

section

variable {allowed : Reading → Prop} {known : String → Prop} {operand : Reader Expression}

theorem more_operands_typed {make : Expression → Expression → Expression} (sign : String)
    (reads : Gives operand (Typed allowed known))
    (makes : ∀ l r, l.Typed allowed known → r.Typed allowed known → (make l r).Typed allowed known) (fuel : Nat) (left : Expression)
    (fits : left.Typed allowed known) : Gives (moreOperands sign make operand fuel left) (Typed allowed known) := by
  induction fuel generalizing left with
  | zero => exact fun ts => yields_ok fits
  | succ fuel ih =>
      intro ts
      unfold moreOperands
      split
      · exact yields_bind (reads _) fun right rightFits => ih _ (makes _ _ fits rightFits) _
      · exact yields_ok fits

theorem left_chain_typed {make : Expression → Expression → Expression} (sign : String) (reads : Gives operand (Typed allowed known))
    (makes : ∀ l r, l.Typed allowed known → r.Typed allowed known → (make l r).Typed allowed known) :
    Gives (leftChain sign make operand) (Typed allowed known) :=
  fun ts => yields_bind (reads ts) fun _ fits => more_operands_typed sign reads makes _ _ fits _

theorem implications_typed (reads : Gives operand (Typed allowed known)) (fuel : Nat) :
    Gives (implications operand fuel) (Typed allowed known) := by
  induction fuel with
  | zero => exact reads
  | succ fuel ih =>
      intro ts
      unfold implications
      refine yields_bind (reads ts) fun left fits => ?_
      dsimp only
      split
      · exact yields_bind (ih _) fun right rightFits => yields_ok ⟨fits, rightFits⟩
      · exact yields_ok fits

theorem equivalences_typed (reads : Gives operand (Typed allowed known)) (fuel : Nat) :
    Gives (equivalences operand fuel) (Typed allowed known) := by
  induction fuel with
  | zero => exact reads
  | succ fuel ih =>
      intro ts
      unfold equivalences
      refine yields_bind (reads ts) fun left fits => ?_
      dsimp only
      split
      · refine yields_bind (gives_anything _ _) fun arrow _ => ?_
        exact yields_bind (ih _) fun right rightFits => yields_ok ⟨fits, rightFits⟩
      · exact yields_ok fits

theorem chain_typed (reads : Gives operand (Typed allowed known)) : Gives (chain operand) (Typed allowed known) := by
  intro ts
  have products : Gives (leftChain "&" .and operand) (Typed allowed known) :=
    left_chain_typed "&" reads fun _ _ left right => ⟨left, right⟩
  have sums : Gives (leftChain "|" .or (leftChain "&" .and operand)) (Typed allowed known) :=
    left_chain_typed "|" products fun _ _ left right => ⟨left, right⟩
  exact equivalences_typed (fun ts => implications_typed sums _ ts) _ ts

end

theorem unary_typed (names : Names) (scope : Scope) (fuel : Nat) : Gives (unary names scope fuel) (Read names scope) := by
  induction fuel with
  | zero => exact fun ts => yields_error _
  | succ fuel ih =>
      intro ts
      unfold unary
      split
      · exact yields_bind (ih _) fun body fits => yields_ok fits
      · split
        · exact yields_error _
        · split
          · refine yields_bind (chain_typed ih _) fun body fits => ?_
            exact yields_bind (gives_anything _ _) fun close _ => yields_ok fits
          · exact comparison_typed ts

theorem parse_typed (names : Names) (scope : Scope) (text : String) : Yields (parse names scope text) (Read names scope) := by
  unfold parse
  dsimp only
  split
  · exact yields_error _
  · refine yields_bind (chain_typed (unary_typed names scope _) _) fun read fits => ?_
    split
    · exact yields_error _
    · split
      · exact yields_ok fits
      · exact yields_error _

end Expression

theorem reads_compile {names : Expression.Names} {defines : List (String × Region)} {scope : Expression.Scope}
    {vars : Set Nat} (text : String)
    (bits : ∀ r, scope.Allows names.vars r → ∀ b ∈ r.var.bitsAt r.next, b ∈ vars)
    (ready : ∀ entry ∈ defines, entry.2.Reads vars) :
    Yields (System.compile names defines scope text) fun region => region.Reads vars := by
  unfold System.compile
  cases read : Expression.parse names scope text with
  | error problem => exact yields_error _
  | ok e => exact yields_ok (Expression.reads_region bits ready (Expression.parse_typed names scope text e read))

end Coalition
