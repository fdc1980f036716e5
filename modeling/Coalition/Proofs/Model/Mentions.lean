import Coalition.Proofs.Model.Expression

-- When fewer named expressions are compiled, a text is read in the same way, or the reading stops at a mention of one that is not
-- compiled.

set_option autoImplicit false

namespace Coalition.Expression

def mentions : Expression → List String
  | .named name => [name]
  | .not body => body.mentions
  | .and left right => left.mentions ++ right.mentions
  | .or left right => left.mentions ++ right.mentions
  | .implies left right => left.mentions ++ right.mentions
  | .iff left right => left.mentions ++ right.mentions
  | _ => []

theorem Typed.mentioned {allowed : Reading → Prop} {known : String → Prop} {e : Expression} (typed : e.Typed allowed known) :
    ∀ name ∈ e.mentions, known name := by
  induction e with
  | constant _ => exact fun _ listed => absurd listed List.not_mem_nil
  | isValue _ _ => exact fun _ listed => absurd listed List.not_mem_nil
  | isAmong _ _ => exact fun _ listed => absurd listed List.not_mem_nil
  | same _ _ => exact fun _ listed => absurd listed List.not_mem_nil
  | named name => exact List.forall_mem_singleton.mpr typed
  | not body ih => exact ih typed
  | and left right leftIh rightIh => exact List.forall_mem_append.mpr ⟨leftIh typed.1, rightIh typed.2⟩
  | or left right leftIh rightIh => exact List.forall_mem_append.mpr ⟨leftIh typed.1, rightIh typed.2⟩
  | implies left right leftIh rightIh => exact List.forall_mem_append.mpr ⟨leftIh typed.1, rightIh typed.2⟩
  | iff left right leftIh rightIh => exact List.forall_mem_append.mpr ⟨leftIh typed.1, rightIh typed.2⟩

theorem region_same {named namedToo : List (String × Region)} {e : Expression}
    (same : ∀ name ∈ e.mentions, named.lookup name = namedToo.lookup name) : e.region named = e.region namedToo := by
  induction e with
  | constant _ => rfl
  | isValue _ _ => rfl
  | isAmong _ _ => rfl
  | same _ _ => rfl
  | named name => rw [region, region, same name List.mem_cons_self]
  | not body ih => rw [region, region, ih same]
  | and left right leftIh rightIh =>
      obtain ⟨first, second⟩ := List.forall_mem_append.mp same
      rw [region, region, leftIh first, rightIh second]
  | or left right leftIh rightIh =>
      obtain ⟨first, second⟩ := List.forall_mem_append.mp same
      rw [region, region, leftIh first, rightIh second]
  | implies left right leftIh rightIh =>
      obtain ⟨first, second⟩ := List.forall_mem_append.mp same
      rw [region, region, leftIh first, rightIh second]
  | iff left right leftIh rightIh =>
      obtain ⟨first, second⟩ := List.forall_mem_append.mp same
      rw [region, region, leftIh first, rightIh second]

-- The same variables and named expressions, of which more are compiled.
structure Names.Within (names namesToo : Names) : Prop where
  vars : namesToo.vars = names.vars
  defines : ∀ name, name ∈ namesToo.defines ↔ name ∈ names.defines
  compiled : names.compiled ⊆ namesToo.compiled
  known : namesToo.compiled ⊆ names.defines

def Settled {α : Type} (x : Except Problem α) : Prop := ∀ name, x ≠ .error (.pending name)

section

variable {α β : Type} {x : Except Problem α} {f : α → Except Problem β}

theorem settled_ok (a : α) : Settled (.ok a) := by rintro _ ⟨⟩

theorem settled_bind (first : Settled x) (next : ∀ a, Settled (f a)) : Settled (x >>= f) := by
  intro name waits
  obtain here | ⟨a, _, later⟩ := error_of_bind waits
  · exact first name here
  · exact next a name later

end

theorem settled_expect (word : String) (ts : List Token) : Settled (expect word ts) := by
  intro name
  unfold expect
  split_ifs <;> simp

theorem settled_term (names : Names) (scope : Scope) (ts : List Token) : Settled (term names scope ts) := by
  have call : ∀ ts, Settled (nextCall names scope ts) := by
    intro ts
    unfold nextCall
    generalize advance (advance ts) = rest
    cases rest with
    | nil => rintro _ ⟨⟩
    | cons first others =>
        dsimp only
        split
        · rintro _ ⟨⟩
        · refine settled_bind (settled_expect _ _) fun _ => ?_
          split
          · rintro _ ⟨⟩
          · split
            · rintro _ ⟨⟩
            · split <;> rintro _ ⟨⟩
  unfold term
  split
  · rintro _ ⟨⟩
  · split
    · rintro _ ⟨⟩
    · split
      · rintro _ ⟨⟩
      · split
        · exact call _
        · dsimp only
          split
          · rintro _ ⟨⟩
          · split <;> rintro _ ⟨⟩

theorem settled_equal (names : Names) (left right : Term) : Settled (equal names left right) := by
  have against : ∀ (reading : Reading) (t : Term), Settled (equalTo reading t) := by
    intro reading t
    unfold equalTo
    split
    · rintro _ ⟨⟩
    · rintro _ ⟨⟩
    · split <;> rintro _ ⟨⟩
  unfold equal
  split
  · exact against _ _
  · exact against _ _
  · split
    · rintro _ ⟨⟩
    · split <;> rintro _ ⟨⟩

theorem settled_membership (t : Term) (ts : List Token) : Settled (membership t ts) := by
  have values : ∀ (v : Variable) (fuel : Nat) (ts : List Token), Settled (setValues v fuel ts) := by
    intro v fuel
    induction fuel with
    | zero => rintro _ _ ⟨⟩
    | succ fuel ih =>
        intro ts
        unfold setValues
        split
        · rintro _ ⟨⟩
        · split
          · rintro _ ⟨⟩
          · dsimp only
            split
            · rintro _ ⟨⟩
            · split
              · exact settled_bind (ih _) fun _ => settled_ok _
              · exact settled_bind (settled_expect _ _) fun _ => settled_ok _
  unfold membership
  split
  · rintro _ ⟨⟩
  · exact settled_bind (settled_expect _ _) fun _ => settled_bind (values _ _ _) fun _ => settled_ok _

-- The first reading gives what the second one gives, unless it waits for a name that is not compiled: then the second one either fails,
-- or the name is mentioned.
structure Near (names : Names) (x y : Except Problem (Expression × List Token)) : Prop where
  waits : ∀ name, x = .error (.pending name) → name ∈ names.defines ∧ name ∉ names.compiled
  same : x = y ∨ ∃ name, x = .error (.pending name) ∧ Yields y fun read => name ∈ read.1.mentions

section

variable {names : Names} {x y : Except Problem (Expression × List Token)} {f g : Expression × List Token → Except Problem (Expression × List Token)}

theorem near_settled (settled : Settled x) : Near names x x := ⟨fun name waits => absurd waits (settled name), .inl rfl⟩

theorem near_pass {α : Type} {z : Except Problem α} {f g : α → Except Problem (Expression × List Token)} (first : Settled z)
    (each : ∀ a, Near names (f a) (g a)) : Near names (z >>= f) (z >>= g) := by
  cases z with
  | error problem =>
      refine near_settled fun name waits => ?_
      cases waits
      exact first name rfl
  | ok a => exact each a

theorem near_bind (first : Near names x y) (second : ∀ read, Near names (f read) (g read))
    (keeps : ∀ read, Yields (g read) fun last => read.1.mentions ⊆ last.1.mentions) : Near names (x >>= f) (y >>= g) := by
  obtain ⟨waits, rfl | ⟨name, rfl, mentioned⟩⟩ := first
  · cases x with
    | error problem => exact ⟨waits, .inl rfl⟩
    | ok read => exact second read
  · exact ⟨waits, .inr ⟨name, rfl, yields_bind mentioned fun read listed last done => keeps read last done listed⟩⟩

end

section

variable {names namesToo : Names} (within : names.Within namesToo) (scope : Scope)

include within

theorem bare_near (t : Term) (ts : List Token) :
    Near names (bare names t >>= fun e => return (e, ts)) (bare namesToo t >>= fun e => return (e, ts)) := by
  unfold bare
  cases t.reading with
  | some reading => exact near_pass (by dsimp only; split <;> rintro _ ⟨⟩) fun e => near_settled (settled_ok _)
  | none =>
      dsimp only
      by_cases yes : (t.text == "true" || t.text == "TRUE") = true
      · simp only [yes, if_true]
        exact near_settled (settled_ok _)
      · by_cases no : (t.text == "false" || t.text == "FALSE") = true
        · simp only [yes, no, if_true]
          exact near_settled (settled_ok _)
        · simp only [yes, no, List.contains_iff_mem, within.defines]
          by_cases ready : t.text ∈ names.compiled
          · simp only [ready, within.compiled ready, if_true]
            exact near_settled (settled_ok _)
          · by_cases later : t.text ∈ namesToo.compiled
            · have known := within.known later
              simp only [ready, later, known, if_true, if_false]
              refine ⟨fun name waits => ?_, .inr ⟨t.text, rfl, yields_ok List.mem_cons_self⟩⟩
              cases waits
              exact ⟨known, ready⟩
            · simp only [ready, later, if_false]
              refine ⟨fun name waits => ?_, .inl rfl⟩
              by_cases known : t.text ∈ names.defines
              · rw [if_pos known] at waits
                cases waits
                exact ⟨known, ready⟩
              · rw [if_neg known] at waits
                cases waits

theorem comparison_near (ts : List Token) : Near names (comparison names scope ts) (comparison namesToo scope ts) := by
  have vars := within.vars
  have sameTerm : term namesToo scope = term names scope := by
    obtain ⟨vars, defines, compiled⟩ := names
    obtain ⟨varsToo, definesToo, compiledToo⟩ := namesToo
    subst vars
    rfl
  have sameEqual : equal namesToo = equal names := by
    funext left right
    unfold equal Names.isValue
    rw [vars]
  unfold comparison
  rw [sameTerm, sameEqual]
  refine near_pass (settled_term _ _ _) fun read => ?_
  dsimp only
  split
  · exact near_settled (settled_bind (settled_term _ _ _) fun _ => settled_bind (settled_equal _ _ _) fun _ => settled_ok _)
  · split
    · exact near_settled (settled_bind (settled_expect _ _) fun _ => settled_bind (settled_term _ _ _) fun _ =>
        settled_bind (settled_equal _ _ _) fun _ => settled_ok _)
    · split
      · exact near_settled (settled_membership _ _)
      · exact bare_near within _ _

end

section

variable {names : Names} {operand operandToo : Reader Expression} (near : ∀ ts, Near names (operand ts) (operandToo ts))

theorem more_operands_keeps {sign : String} {make : Expression → Expression → Expression}
    (makes : ∀ l r, (make l r).mentions = l.mentions ++ r.mentions) (fuel : Nat) (left : Expression) (ts : List Token) :
    Yields (moreOperands sign make operand fuel left ts) fun read => left.mentions ⊆ read.1.mentions := by
  induction fuel generalizing left ts with
  | zero => exact yields_ok (List.Subset.refl _)
  | succ fuel ih =>
      unfold moreOperands
      split
      · intro last done
        obtain ⟨⟨right, ts⟩, _, later⟩ := ok_of_bind done
        have kept := ih _ _ last later
        rw [makes] at kept
        exact (List.append_subset.mp kept).1
      · exact yields_ok (List.Subset.refl _)

include near

theorem left_chain_near (sign : String) (make : Expression → Expression → Expression)
    (makes : ∀ l r, (make l r).mentions = l.mentions ++ r.mentions) (ts : List Token) :
    Near names (leftChain sign make operand ts) (leftChain sign make operandToo ts) := by
  have more : ∀ (fuel : Nat) (left : Expression) (ts : List Token),
      Near names (moreOperands sign make operand fuel left ts) (moreOperands sign make operandToo fuel left ts) := by
    intro fuel
    induction fuel with
    | zero => exact fun left ts => near_settled (settled_ok _)
    | succ fuel ih =>
        intro left ts
        unfold moreOperands
        split
        · refine near_bind (near _) (fun read => ih _ _) fun read last done => ?_
          have kept := more_operands_keeps makes _ _ _ last done
          rw [makes] at kept
          exact (List.append_subset.mp kept).2
        · exact near_settled (settled_ok _)
  exact near_bind (near ts) (fun read => more _ _ _) fun read => more_operands_keeps makes _ _ _

theorem implications_near (fuel : Nat) (ts : List Token) : Near names (implications operand fuel ts) (implications operandToo fuel ts) := by
  induction fuel generalizing ts with
  | zero => exact near ts
  | succ fuel ih =>
      unfold implications
      refine near_bind (near ts) (fun read => ?_) fun read => ?_
      · dsimp only
        split
        · exact near_bind (ih _) (fun read => near_settled (settled_ok _)) fun read => yields_ok (List.subset_append_right _ _)
        · exact near_settled (settled_ok _)
      · dsimp only
        split
        · exact yields_bind (fun _ _ => trivial) fun read _ => yields_ok (List.subset_append_left _ _)
        · exact yields_ok (List.Subset.refl _)

theorem equivalences_near (fuel : Nat) (ts : List Token) : Near names (equivalences operand fuel ts) (equivalences operandToo fuel ts) := by
  induction fuel generalizing ts with
  | zero => exact near ts
  | succ fuel ih =>
      unfold equivalences
      refine near_bind (near ts) (fun read => ?_) fun read => ?_
      · dsimp only
        split
        · refine near_pass (settled_expect _ _) fun _ => ?_
          exact near_bind (ih _) (fun read => near_settled (settled_ok _)) fun read => yields_ok (List.subset_append_right _ _)
        · exact near_settled (settled_ok _)
      · dsimp only
        split
        · refine yields_bind (fun _ _ => trivial) fun arrow _ => ?_
          exact yields_bind (fun _ _ => trivial) fun read _ => yields_ok (List.subset_append_left _ _)
        · exact yields_ok (List.Subset.refl _)

theorem chain_near (ts : List Token) : Near names (chain operand ts) (chain operandToo ts) := by
  have products := left_chain_near near "&" .and fun _ _ => rfl
  have sums := left_chain_near products "|" .or fun _ _ => rfl
  exact equivalences_near (fun ts => implications_near sums _ ts) _ ts

end

theorem unary_near {names namesToo : Names} (within : names.Within namesToo) (scope : Scope) (fuel : Nat) (ts : List Token) :
    Near names (unary names scope fuel ts) (unary namesToo scope fuel ts) := by
  induction fuel generalizing ts with
  | zero => exact near_settled (by rintro _ ⟨⟩)
  | succ fuel ih =>
      unfold unary
      split
      · exact near_bind (ih _) (fun read => near_settled (settled_ok _)) fun read => yields_ok (List.Subset.refl _)
      · split
        · exact near_settled (by rintro _ ⟨⟩)
        · split
          · refine near_bind (chain_near ih _) (fun read => near_settled ?_) fun read => ?_
            · exact settled_bind (settled_expect _ _) fun _ => settled_ok _
            · exact yields_bind (fun _ _ => trivial) fun _ _ => yields_ok (List.Subset.refl _)
          · exact comparison_near within scope ts

section

variable {names namesToo : Names} (within : names.Within namesToo) {scope : Scope} {text : String}

include within

variable (scope text) in

-- A text is read in the same way, or the reading waits for a name that is not compiled, and that is mentioned if the text can be read.
theorem parse_near : (∀ name, parse names scope text = .error (.pending name) → name ∈ names.defines ∧ name ∉ names.compiled) ∧
    (parse names scope text = parse namesToo scope text ∨ ∃ name, parse names scope text = .error (.pending name) ∧
      Yields (parse namesToo scope text) fun e => name ∈ e.mentions) := by
  unfold parse
  dsimp only
  by_cases ends : atEnd (tokens text.toList) = true
  · have empty (f : PUnit → Except Problem Expression) : (throw .empty >>= f) = .error .empty := rfl
    rw [if_pos ends, if_pos ends, empty, empty]
    exact ⟨by rintro _ ⟨⟩, .inl rfl⟩
  · rw [if_neg ends, if_neg ends]
    obtain ⟨waits, same⟩ := chain_near (unary_near within scope _) (tokens text.toList)
    refine ⟨fun name stopped => ?_, ?_⟩
    · obtain here | ⟨read, _, later⟩ := error_of_bind stopped
      · exact waits name here
      · -- the rest of the text is complained about in other ways
        split at later
        · cases later
        · split at later <;> cases later
    · obtain same | ⟨name, stopped, mentioned⟩ := same
      · exact .inl (by rw [same])
      · refine .inr ⟨name, by rw [stopped]; rfl, yields_bind mentioned fun read listed => ?_⟩
        split
        · exact yields_error _
        · split
          · exact yields_ok listed
          · exact yields_error _

theorem parse_within {e : Expression} (parsed : parse names scope text = .ok e) : parse namesToo scope text = .ok e := by
  obtain same | ⟨_, waits, _⟩ := (parse_near within scope text).2
  · rw [← same, parsed]
  · rw [parsed] at waits
    cases waits

end

end Coalition.Expression
