import Coalition.Model.Expression.Parser
import Coalition.Model.System
import Coalition.Proofs.Model.Token
import Coalition.Proofs.Yields

-- Two lists of tokens that the parser reads side by side.

set_option autoImplicit false

namespace Coalition.Expression

open Coalition.Text

def substitute (σ : String → Expression) : Expression → Expression
  | .named name => σ name
  | .not body => .not (body.substitute σ)
  | .and left right => .and (left.substitute σ) (right.substitute σ)
  | .or left right => .or (left.substitute σ) (right.substitute σ)
  | .implies left right => .implies (left.substitute σ) (right.substitute σ)
  | .iff left right => .iff (left.substitute σ) (right.substitute σ)
  | e => e

theorem substitute_named (e : Expression) : e.substitute .named = e := by
  induction e with
  | constant _ => rfl
  | isValue _ _ => rfl
  | isAmong _ _ => rfl
  | same _ _ => rfl
  | named _ => rfl
  | not body ih => rw [substitute, ih]
  | and left right leftIh rightIh => rw [substitute, leftIh, rightIh]
  | or left right leftIh rightIh => rw [substitute, leftIh, rightIh]
  | implies left right leftIh rightIh => rw [substitute, leftIh, rightIh]
  | iff left right leftIh rightIh => rw [substitute, leftIh, rightIh]

theorem advance_cons (t : Token) {ts : List Token} (some : ts ≠ []) : advance (t :: ts) = ts := by
  cases ts with
  | nil => exact absurd rfl some
  | cons u ts => rfl

theorem goes_on_of_at {word : String} {ts : List Token} (there : at? word ts = true) : atEnd ts = false := by
  cases ts with
  | nil => cases there
  | cons t ts =>
      simp only [at?, Bool.and_eq_true, Bool.not_eq_true'] at there
      exact there.1

-- Words that the parser looks for where it may find something else.
def branches : List String := ["~", "!", "(", "=", "in", ",", "&", "|", "->", "<"]

structure Stops (last : Token) (final : List Token) : Prop where
  ends : last.isEnd = true
  some : final ≠ []
  strange : ∀ word ∈ branches, at? word final = false

theorem stops_end {e f : Token} (ends : e.isEnd = true) (endsToo : f.isEnd = true) : Stops e [f] :=
  ⟨ends, List.cons_ne_nil _ _, fun _ _ => by simp [at?, endsToo]⟩

theorem stops_word {e q : Token} (ends : e.isEnd = true) (other : q.text ∉ branches) (later : List Token) : Stops e (q :: later) := by
  refine ⟨ends, List.cons_ne_nil _ _, fun word branch => ?_⟩
  have different : q.text ≠ word := fun same => other (same ▸ branch)
  simp [at?, different]

-- Whether an operand is expected behind a word, given whether one is expected in its place.
def opens (operand : Bool) (word : String) : Bool := if operand then ["(", "~", "!"].contains word else ["&", "|", "->"].contains word

theorem opens_plain {word : String} (plain : word ∉ signs) (operand : Bool) : opens operand word = false := by
  have none : ∀ words : List String, words ⊆ signs → words.contains word = false := by
    intro words within
    rw [Bool.eq_false_iff]
    exact fun listed => plain (within (List.contains_iff_mem.mp listed))
  cases operand with
  | true => exact none _ (by decide)
  | false => exact none _ (by decide)

-- Two tokens that are the same to the parser where no next values are read.
structure Token.Like (t u : Token) : Prop where
  goesOn : t.isEnd = false
  goesOnToo : u.isEnd = false
  text : u.text = t.text
  ahead : t.text = "next" → u.ahead = some '(' → t.ahead = some '('

-- A token in front of some others is an operand, and so is what stands in front of the same ones in the other list.
structure Stands (names : Names) (σ : String → Expression) (t : Token) (ts inner us : List Token) : Prop where
  goesOn : t.isEnd = false
  plain : t.text ∉ signs
  opened : ∃ u rest, inner = u :: rest ∧ u.isEnd = false ∧ u.text = "("
  shorter : us.length < inner.length
  reads : ∀ fuel fuelToo, inner.length ≤ fuelToo → Yields (unary names .state fuel (t :: ts)) fun read =>
    read.2 = ts ∧ unary names .state fuelToo inner = .ok (read.1.substitute σ, us)

-- Two lists of tokens, up to the last token of the first one and what the other one has there. An operand is expected in front of them,
-- or something behind one.
inductive Along (names : Names) (σ : String → Expression) (last : Token) (final : List Token) :
    Bool → List Token → List Token → Prop where
  | last {operand : Bool} : Along names σ last final operand [last] final
  | more {operand : Bool} {t u : Token} {ts us : List Token} (like : t.Like u)
      (alone : operand = true → ∀ name rest, comparison names .state (t :: ts) = .ok (.named name, rest) → σ name = .named name)
      (later : Along names σ last final (opens operand t.text) ts us) : Along names σ last final operand (t :: ts) (u :: us)
  | stands {t : Token} {ts inner us : List Token} (stands : Stands names σ t ts inner us)
      (later : Along names σ last final false ts us) : Along names σ last final true (t :: ts) inner

section

variable {names : Names} {σ : String → Expression} {last : Token} {final ts us : List Token} (stops : Stops last final)
  {operand : Bool} (along : Along names σ last final operand ts us) {word : String}

include along in
theorem Along.of_end (ends : atEnd ts = true) : ts = [last] ∧ us = final := by
  cases along with
  | last => exact ⟨rfl, rfl⟩
  | more like => exact absurd ends (by simp [atEnd, like.goesOn])
  | stands stands => exact absurd ends (by simp [atEnd, stands.goesOn])

include stops along

theorem Along.ne_nil : ts ≠ [] ∧ us ≠ [] := by
  cases along with
  | last => exact ⟨List.cons_ne_nil _ _, stops.some⟩
  | more => exact ⟨List.cons_ne_nil _ _, List.cons_ne_nil _ _⟩
  | stands stands =>
      obtain ⟨u, rest, rfl, _⟩ := stands.opened
      exact ⟨List.cons_ne_nil _ _, List.cons_ne_nil _ _⟩

theorem Along.goes_on (goesOn : atEnd ts = false) : atEnd us = false := by
  cases along with
  | last => exact absurd goesOn (by simp [atEnd, stops.ends])
  | more like => exact like.goesOnToo
  | stands stands =>
      obtain ⟨u, rest, rfl, turns, _⟩ := stands.opened
      exact turns

theorem Along.at_word (branch : word ∈ branches) (place : operand = true → word ∈ signs ∧ word ≠ "(") : at? word us = at? word ts := by
  cases along with
  | last =>
      rw [stops.strange word branch]
      simp [at?, stops.ends]
  | more like => simp [at?, like.goesOn, like.goesOnToo, like.text]
  | @stands t ts inner us stands =>
      obtain ⟨sign, other⟩ := place rfl
      obtain ⟨u, rest, rfl, _, text⟩ := stands.opened
      have different : t.text ≠ word := fun same => stands.plain (same ▸ sign)
      simp [at?, text, beq_eq_false_iff_ne.mpr other.symm, beq_eq_false_iff_ne.mpr different]

theorem Along.passed (here : at? word ts = true) (place : operand = true → word ∈ signs) : at? word us = true ∧
    Along names σ last final (opens operand word) (advance ts) (advance us) ∧ (advance ts).length < ts.length ∧
    (advance us).length < us.length := by
  cases along with
  | last => exact absurd here (by simp [at?, stops.ends])
  | @more operand t u ts us like _ later =>
      have same : t.text = word := by simpa [at?, like.goesOn] using here
      obtain ⟨some, someToo⟩ := later.ne_nil stops
      rw [advance_cons _ some, advance_cons _ someToo]
      refine ⟨by simp [at?, like.goesOnToo, like.text, same], same ▸ later, Nat.lt_succ_self _, Nat.lt_succ_self _⟩
  | stands stands =>
      have same := by simpa [at?, stands.goesOn] using here
      exact absurd (place rfl) (same ▸ stands.plain)

end

-- If the first reading succeeds, so does the second one, with a result that is the same in this sense, and what is left goes on side by
-- side.
def Alike (names : Names) (σ : String → Expression) (last : Token) (final : List Token) (operand : Bool) (n m : Nat) {α : Type}
    (same : α → α → Prop) (x y : Except Problem (α × List Token)) : Prop :=
  Yields x fun read => ∃ b us, y = .ok (b, us) ∧ same read.1 b ∧ Along names σ last final operand read.2 us ∧
    read.2.length ≤ n ∧ us.length ≤ m

section

variable {names : Names} {σ : String → Expression} {last : Token} {final ts us : List Token} {operand : Bool} {n m : Nat}
  {α β : Type} {same : α → α → Prop} {sameToo : β → β → Prop} {x y x' y' : Except Problem (α × List Token)}

theorem alike_error (e : Problem) : Alike names σ last final operand n m same (.error e) y := yields_error e

theorem alike_ok {a b : α} (result : same a b) (along : Along names σ last final operand ts us) (le : ts.length ≤ n)
    (leToo : us.length ≤ m) : Alike names σ last final operand n m same (.ok (a, ts)) (.ok (b, us)) :=
  yields_ok ⟨b, us, rfl, result, along, le, leToo⟩

theorem Alike.mono {n' m' : Nat} (alike : Alike names σ last final operand n m same x y) (le : n ≤ n') (leToo : m ≤ m') :
    Alike names σ last final operand n' m' same x y := fun read done => by
  obtain ⟨b, us, rest, result, along, less, lessToo⟩ := alike read done
  exact ⟨b, us, rest, result, along, Nat.le_trans less le, Nat.le_trans lessToo leToo⟩

theorem alike_bind {behind : Bool} {f g : α × List Token → Except Problem (β × List Token)}
    (first : Alike names σ last final behind n m same x y)
    (second : ∀ a b ts us, same a b → Along names σ last final behind ts us → ts.length ≤ n → us.length ≤ m →
      Alike names σ last final operand n m sameToo (f (a, ts)) (g (b, us))) :
    Alike names σ last final operand n m sameToo (x >>= f) (y >>= g) := by
  refine yields_bind first fun read found => ?_
  obtain ⟨b, us, rfl, result, along, le, leToo⟩ := found
  exact second read.1 b read.2 us result along le leToo

theorem alike_pass {z : Except Problem β} {f g : β → Except Problem (α × List Token)} {property : β → Prop} (first : Yields z property)
    (each : ∀ b, property b → Alike names σ last final operand n m same (f b) (g b)) :
    Alike names σ last final operand n m same (z >>= f) (z >>= g) := by
  cases z with
  | error e => exact alike_error e
  | ok b => exact each b (first b rfl)

theorem alike_at {behind : Bool} {word : String} (stops : Stops last final) (along : Along names σ last final operand ts us)
    (branch : word ∈ branches) (place : operand = true → word ∈ signs ∧ word ≠ "(")
    (there : Along names σ last final (opens operand word) (advance ts) (advance us) → (advance ts).length < ts.length →
      (advance us).length < us.length → Alike names σ last final behind n m same x y)
    (elsewhere : Alike names σ last final behind n m same x' y') :
    Alike names σ last final behind n m same (if at? word ts then x else x') (if at? word us then y else y') := by
  rw [along.at_word stops branch place]
  by_cases here : at? word ts = true
  · obtain ⟨_, later, less, lessToo⟩ := along.passed stops here fun opened => (place opened).1
    rw [if_pos here, if_pos here]
    exact there later less lessToo
  · rw [if_neg here, if_neg here]
    exact elsewhere

end

section

variable {names : Names} {σ : String → Expression} {last : Token} {final ts us : List Token} (stops : Stops last final)
  {operand : Bool}

include stops

theorem expect_follows (word : String) (along : Along names σ last final operand ts us) (place : operand = true → word ∈ signs) :
    Alike names σ last final (opens operand word) ts.length us.length Eq (expect word ts) (expect word us) := by
  unfold expect
  cases ends : atEnd ts with
  | true => exact alike_error _
  | false =>
      by_cases here : at? word ts = true
      · obtain ⟨there, later, less, lessToo⟩ := along.passed stops here place
        rw [if_pos here, goes_on_of_at there, if_pos there]
        exact alike_ok rfl later (Nat.le_of_lt less) (Nat.le_of_lt lessToo)
      · rw [if_neg here]
        exact alike_error _

omit stops in
theorem next_call_fails : Yields (nextCall names .state ts) fun _ => False := by
  unfold nextCall
  generalize advance (advance ts) = rest
  cases rest with
  | nil => exact yields_error _
  | cons first others =>
      dsimp only
      split
      · exact yields_error _
      · exact yields_bind (fun _ _ => trivial) fun _ _ => yields_error _

theorem term_follows {t u : Token} (like : t.Like u) (later : Along names σ last final (opens operand t.text) ts us) :
    Alike names σ last final false ts.length us.length Eq (term names .state (t :: ts)) (term names .state (u :: us)) := by
  obtain ⟨more, moreToo⟩ := later.ne_nil stops
  by_cases sign : t.text ∈ signs
  · simp only [term, like.goesOn, List.contains_iff_mem, sign, if_true, if_false, Bool.false_eq_true]
    exact alike_error _
  · rw [opens_plain sign] at later
    have rest := advance_cons t more
    have restToo := advance_cons u moreToo
    simp only [term, like.goesOn, like.goesOnToo, like.text, List.contains_iff_mem, sign, rest, restToo, if_false, Bool.false_eq_true]
    by_cases call : (t.text == "next" && t.ahead == some '(') = true
    · rw [if_pos call]
      exact fun read done => (next_call_fails read done).elim
    · have callToo : ¬ (t.text == "next" && u.ahead == some '(') = true := by
        simp only [Bool.and_eq_true, beq_iff_eq] at call ⊢
        exact fun both => call ⟨both.1, like.ahead both.1 both.2⟩
      rw [if_neg call, if_neg callToo]
      cases names.find? (trimQuotes t.text) with
      | none => exact alike_ok rfl later (Nat.le_refl _) (Nat.le_refl _)
      | some v =>
          dsimp only
          split
          · exact alike_error _
          · exact alike_ok rfl later (Nat.le_refl _) (Nat.le_refl _)

theorem right_term_follows (along : Along names σ last final false ts us) :
    Alike names σ last final false ts.length us.length Eq (term names .state ts) (term names .state us) := by
  cases along with
  | last =>
      simp only [term, stops.ends, if_true]
      exact alike_error _
  | more like _ later => exact (term_follows stops like later).mono (Nat.le_succ _) (Nat.le_succ _)

-- more fuel does no harm: a reading that succeeds did not run out of it
theorem set_values_follows (v : Variable) {fuel fuelToo : Nat} (along : Along names σ last final false ts us)
    (enough : us.length ≤ fuelToo) :
    Alike names σ last final false ts.length us.length Eq (setValues v fuel ts) (setValues v fuelToo us) := by
  induction fuel generalizing fuelToo ts us with
  | zero => exact alike_error _
  | succ fuel ih =>
      obtain - | fuelToo := fuelToo
      · exact absurd (List.length_pos_iff.mpr (along.ne_nil stops).2) (Nat.not_lt_of_le enough)
      cases along with
      | last =>
          simp only [setValues, stops.ends, if_true]
          exact alike_error _
      | @more _ t u ts us like alone later =>
          obtain ⟨some, someToo⟩ := later.ne_nil stops
          have rest := advance_cons t some
          have restToo := advance_cons u someToo
          simp only [setValues, like.goesOn, like.goesOnToo, like.text, rest, restToo, if_false, Bool.false_eq_true]
          cases v.index? (trimQuotes t.text) with
          | none => exact alike_error _
          | some index =>
              have comma : ∀ operand, opens operand "," = false := by decide
              have brace : ∀ operand, opens operand "\x7d" = false := by decide
              refine alike_at stops later (by decide) (fun _ => by decide) (fun passed less lessToo => ?_) ?_
              · rw [comma] at passed
                rw [List.length_cons] at enough
                refine alike_bind ((ih passed (by omega)).mono ?_ ?_) ?_
                · exact Nat.le_succ_of_le (Nat.le_of_lt less)
                · exact Nat.le_succ_of_le (Nat.le_of_lt lessToo)
                · rintro _ others ts us rfl along le leToo
                  exact alike_ok rfl along le leToo
              · have closed := expect_follows stops "\x7d" later fun _ => by decide
                rw [brace] at closed
                refine alike_bind (closed.mono (Nat.le_succ _) (Nat.le_succ _)) fun _ _ ts us _ along le leToo => ?_
                exact alike_ok rfl along le leToo

theorem membership_follows (t : Term) (along : Along names σ last final false ts us) :
    Alike names σ last final false ts.length us.length (fun e f => f = e ∧ (e.substitute σ = e ∨ ∃ name, e = .named name))
      (membership t ts) (membership t us) := by
  unfold membership
  split
  · exact alike_error _
  · refine alike_bind (expect_follows stops _ along nofun) fun _ _ ts us _ along le leToo => ?_
    refine alike_bind ((set_values_follows stops _ along (Nat.le_refl _)).mono le leToo) fun _ indices ts us same along le leToo => ?_
    cases same
    exact alike_ok ⟨rfl, .inl rfl⟩ along le leToo

omit stops in
theorem equal_plain (left right : Term) : Yields (equal names left right) fun e => e.substitute σ = e := by
  have against (reading : Reading) (t : Term) : Yields (equalTo reading t) fun e => e.substitute σ = e := by
    unfold equalTo
    split
    · exact yields_ok rfl
    · exact yields_error _
    · split
      · exact yields_ok rfl
      · exact yields_error _
  unfold equal
  split
  · exact against _ _
  · exact against _ _
  · split
    · exact yields_error _
    · split <;> exact yields_error _

omit stops in
theorem bare_plain (t : Term) : Yields (bare names t) fun e => e.substitute σ = e ∨ ∃ name, e = .named name := by
  unfold bare
  split
  · split
    · exact yields_ok (.inl rfl)
    · exact yields_error _
  · split
    · exact yields_ok (.inl rfl)
    · split
      · exact yields_ok (.inl rfl)
      · split
        · exact yields_ok (.inr ⟨_, rfl⟩)
        · split <;> exact yields_error _

theorem comparison_follows {t u : Token} (like : t.Like u) (later : Along names σ last final (opens operand t.text) ts us)
    (alone : ∀ name rest, comparison names .state (t :: ts) = .ok (.named name, rest) → σ name = .named name) :
    Alike names σ last final false ts.length us.length (fun e f => f = e.substitute σ)
      (comparison names .state (t :: ts)) (comparison names .state (u :: us)) := by
  have alike : Alike names σ last final false ts.length us.length (fun e f => f = e ∧ (e.substitute σ = e ∨ ∃ name, e = .named name))
      (comparison names .state (t :: ts)) (comparison names .state (u :: us)) := by
    unfold comparison
    refine alike_bind (term_follows stops like later) ?_
    rintro left _ ts us rfl along le leToo
    refine alike_at stops along (by decide) nofun (fun passed less lessToo => ?_) ?_
    · refine alike_bind ((right_term_follows stops passed).mono (by omega) (by omega)) ?_
      rintro right _ ts us rfl along le leToo
      exact alike_pass (equal_plain _ _) fun e plain => alike_ok ⟨rfl, .inl plain⟩ along le leToo
    · refine alike_at stops along (by decide) nofun (fun passed less lessToo => ?_) ?_
      · refine alike_bind ((expect_follows stops _ passed nofun).mono (by omega) (by omega)) fun _ _ ts us _ along le leToo => ?_
        refine alike_bind ((right_term_follows stops along).mono le leToo) ?_
        rintro right _ ts us rfl along le leToo
        exact alike_pass (equal_plain _ _) fun e plain => alike_ok ⟨rfl, .inl (by rw [substitute, plain])⟩ along le leToo
      · refine alike_at stops along (by decide) nofun (fun passed less lessToo => ?_) ?_
        · exact (membership_follows stops left passed).mono (by omega) (by omega)
        · exact alike_pass (bare_plain _) fun e plain => alike_ok ⟨rfl, plain⟩ along le leToo
  intro read done
  obtain ⟨_, us, ran, ⟨rfl, plain⟩, left⟩ := alike read done
  refine ⟨_, us, ran, ?_, left⟩
  obtain same | ⟨name, same⟩ := plain
  · exact same.symm
  · obtain ⟨_, rest⟩ := read
    subst same
    exact (alone name rest done).symm

end

-- What is said of two readers of expressions, on lists of which the second one is not longer than this.
def Follows (names : Names) (σ : String → Expression) (last : Token) (final : List Token) (m : Nat)
    (reader readerToo : Reader Expression) : Prop :=
  ∀ ts us, Along names σ last final true ts us → us.length ≤ m →
    Alike names σ last final false ts.length us.length (fun e f => f = e.substitute σ) (reader ts) (readerToo us)

section

variable {names : Names} {σ : String → Expression} {last : Token} {final : List Token} (stops : Stops last final) {m : Nat}
  {operand operandToo : Reader Expression} (follows : Follows names σ last final m operand operandToo)

include stops follows

theorem left_chain_follows {sign : String} (branch : sign ∈ branches) (opened : opens false sign = true)
    (make : Expression → Expression → Expression)
    (makes : ∀ l r, (make l r).substitute σ = make (l.substitute σ) (r.substitute σ)) :
    Follows names σ last final m (leftChain sign make operand) (leftChain sign make operandToo) := by
  have more : ∀ (fuel fuelToo : Nat) (left leftToo : Expression) (ts us : List Token), leftToo = left.substitute σ →
      Along names σ last final false ts us → ts.length ≤ fuel → us.length ≤ fuelToo → us.length ≤ m →
      Alike names σ last final false ts.length us.length (fun e f => f = e.substitute σ)
        (moreOperands sign make operand fuel left ts) (moreOperands sign make operandToo fuelToo leftToo us) := by
    intro fuel
    induction fuel with
    | zero =>
        intro fuelToo left leftToo ts us _ along enough
        exact absurd (List.length_pos_iff.mpr (along.ne_nil stops).1) (Nat.not_lt_of_le enough)
    | succ fuel ih =>
        intro fuelToo left leftToo ts us same along enough enoughToo bound
        obtain - | fuelToo := fuelToo
        · exact absurd (List.length_pos_iff.mpr (along.ne_nil stops).2) (Nat.not_lt_of_le enoughToo)
        unfold moreOperands
        refine alike_at stops along branch nofun (fun passed less lessToo => ?_) (alike_ok same along (Nat.le_refl _) (Nat.le_refl _))
        rw [opened] at passed
        refine Alike.mono (alike_bind (follows _ _ passed (by omega)) fun right rightToo ts us result along le leToo => ?_)
          (Nat.le_of_lt less) (Nat.le_of_lt lessToo)
        exact (ih fuelToo _ _ ts us (by rw [makes, same, result]) along (by omega) (by omega) (by omega)).mono le leToo
  intro ts us along enough
  refine alike_bind (follows _ _ along enough) fun left leftToo ts us same along le leToo => ?_
  exact (more _ _ _ _ _ _ same along (Nat.le_refl _) (Nat.le_refl _) (by omega)).mono le leToo

theorem implications_follows {fuel fuelToo : Nat} {ts us : List Token} (along : Along names σ last final true ts us)
    (enough : ts.length ≤ fuel) (enoughToo : us.length ≤ fuelToo) (bound : us.length ≤ m) :
    Alike names σ last final false ts.length us.length (fun e f => f = e.substitute σ)
      (implications operand fuel ts) (implications operandToo fuelToo us) := by
  induction fuel generalizing fuelToo ts us with
  | zero => exact absurd (List.length_pos_iff.mpr (along.ne_nil stops).1) (Nat.not_lt_of_le enough)
  | succ fuel ih =>
      obtain - | fuelToo := fuelToo
      · exact absurd (List.length_pos_iff.mpr (along.ne_nil stops).2) (Nat.not_lt_of_le enoughToo)
      unfold implications
      refine alike_bind (follows _ _ along bound) fun left leftToo ts us same along le leToo => ?_
      refine alike_at stops along (by decide) nofun (fun passed less lessToo => ?_) (alike_ok same along le leToo)
      refine alike_bind ((ih passed (by omega) (by omega) (by omega)).mono (by omega) (by omega)) ?_
      intro right rightToo ts us result along le leToo
      exact alike_ok (by rw [substitute, same, result]) along le leToo

theorem equivalences_follows {fuel fuelToo : Nat} {ts us : List Token} (along : Along names σ last final true ts us)
    (enough : ts.length ≤ fuel) (enoughToo : us.length ≤ fuelToo) (bound : us.length ≤ m) :
    Alike names σ last final false ts.length us.length (fun e f => f = e.substitute σ)
      (equivalences operand fuel ts) (equivalences operandToo fuelToo us) := by
  induction fuel generalizing fuelToo ts us with
  | zero => exact absurd (List.length_pos_iff.mpr (along.ne_nil stops).1) (Nat.not_lt_of_le enough)
  | succ fuel ih =>
      obtain - | fuelToo := fuelToo
      · exact absurd (List.length_pos_iff.mpr (along.ne_nil stops).2) (Nat.not_lt_of_le enoughToo)
      unfold equivalences
      refine alike_bind (follows _ _ along bound) fun left leftToo ts us same along le leToo => ?_
      refine alike_at stops along (by decide) nofun (fun passed less lessToo => ?_) (alike_ok same along le leToo)
      refine Alike.mono (alike_bind (expect_follows stops _ passed nofun) fun _ _ ts us _ along more moreToo => ?_)
        (by omega : _ ≤ _) (by omega : _ ≤ _)
      refine alike_bind ((ih along (by omega) (by omega) (by omega)).mono more moreToo) ?_
      intro right rightToo ts us result along le leToo
      exact alike_ok (by rw [substitute, same, result]) along le leToo

theorem chain_follows : Follows names σ last final m (chain operand) (chain operandToo) := by
  have products := left_chain_follows stops follows (by decide : "&" ∈ branches) rfl .and fun _ _ => rfl
  have sums := left_chain_follows stops products (by decide : "|" ∈ branches) rfl .or fun _ _ => rfl
  intro ts us along bound
  refine equivalences_follows stops (m := m) (fun ts us along bound => ?_) along (Nat.le_refl _) (Nat.le_refl _) bound
  exact implications_follows stops sums along (Nat.le_refl _) (Nat.le_refl _) bound

end

theorem unary_follows {names : Names} {σ : String → Expression} {last : Token} {final : List Token} (stops : Stops last final)
    (fuel fuelToo : Nat) : Follows names σ last final fuelToo (unary names .state fuel) (unary names .state fuelToo) := by
  induction fuel generalizing fuelToo with
  | zero => exact fun ts us along bound => alike_error _
  | succ fuel ih =>
      intro ts us along bound
      obtain - | fuelToo := fuelToo
      · exact absurd (List.length_pos_iff.mpr (along.ne_nil stops).2) (Nat.not_lt_of_le bound)
      cases along with
      | last =>
          unfold unary
          simp only [at?, atEnd, stops.ends, Bool.not_true, Bool.false_and, Bool.or_self, Bool.false_eq_true, if_false, if_true]
          exact alike_error _
      | @stands t ts inner us stands later =>
          intro read done
          obtain ⟨rest, ran⟩ := stands.reads (fuel + 1) (fuelToo + 1) bound read done
          subst rest
          exact ⟨_, us, ran, rfl, later, Nat.le_succ _, Nat.le_of_lt stands.shorter⟩
      | @more _ t u ts us like alone later =>
          obtain ⟨some, someToo⟩ := later.ne_nil stops
          have rest := advance_cons t some
          have restToo := advance_cons u someToo
          have bound := Nat.le_of_succ_le_succ bound
          have words (word : String) : at? word (u :: us) = (t.text == word) ∧ at? word (t :: ts) = (t.text == word) := by
            simp [at?, like.goesOn, like.goesOnToo, like.text]
          unfold unary
          simp only [words, rest, restToo, atEnd, like.goesOn, like.goesOnToo, if_false, Bool.false_eq_true]
          by_cases negated : (t.text == "~" || t.text == "!") = true
          · have opened : opens true t.text = true := by
              obtain same | same := (Bool.or_eq_true _ _).mp negated <;> rw [beq_iff_eq.mp same] <;> rfl
            rw [opened] at later
            rw [if_pos negated, if_pos negated]
            refine alike_bind ((ih fuelToo _ _ later bound).mono (Nat.le_succ _) (Nat.le_succ _)) ?_
            intro body bodyToo ts us same along le leToo
            exact alike_ok (by rw [substitute, same]) along le leToo
          · rw [if_neg negated, if_neg negated]
            by_cases parenthesis : (t.text == "(") = true
            · rw [beq_iff_eq.mp parenthesis] at later
              rw [if_pos parenthesis, if_pos parenthesis]
              refine alike_bind ((chain_follows stops (ih fuelToo) _ _ later bound).mono (Nat.le_succ _) (Nat.le_succ _)) ?_
              intro body bodyToo ts us same along le leToo
              refine alike_bind ((expect_follows stops _ along nofun).mono le leToo) fun _ _ ts us _ along le leToo => ?_
              exact alike_ok same along le leToo
            · rw [if_neg parenthesis, if_neg parenthesis]
              exact (comparison_follows stops like later (alone rfl)).mono (Nat.le_succ _) (Nat.le_succ _)

theorem chain_of_parse {names : Names} {scope : Scope} {text : String} {e : Expression} (parsed : parse names scope text = .ok e) :
    atEnd (tokens text.toList) = false ∧ ∃ rest, complaintSoFar rest = none ∧ atEnd rest = true ∧
      chain (unary names scope (tokens text.toList).length) (tokens text.toList) = .ok (e, rest) := by
  unfold parse at parsed
  dsimp only at parsed
  split at parsed
  · cases parsed
  · rename_i goesOn
    obtain ⟨⟨e', rest⟩, done, parsed⟩ := ok_of_bind parsed
    dsimp only at parsed
    split at parsed
    · cases parsed
    · rename_i quiet
      split at parsed
      · rename_i ends
        cases parsed
        exact ⟨eq_false_of_ne_true goesOn, rest, quiet, ends, done⟩
      · cases parsed

theorem parse_of_chain {names : Names} {scope : Scope} {text : String} {e : Expression} {rest : List Token}
    (goesOn : atEnd (tokens text.toList) = false) (quiet : complaintSoFar rest = none) (ends : atEnd rest = true)
    (done : chain (unary names scope (tokens text.toList).length) (tokens text.toList) = .ok (e, rest)) :
    parse names scope text = .ok e := by
  simp [parse, goesOn, done, ok_bind, pure_ok, quiet, ends]

def unmarked (text : List Char) : List Char := (Cursor.ofText text).1.unread

theorem of_text_append {text : List Char} (more : List Char) (some : text ≠ []) :
    (Cursor.ofText (text ++ more)).1.unread = (Cursor.ofText text).1.unread ++ more := by
  obtain - | ⟨c, rest⟩ := text
  · exact absurd rfl some
  · by_cases mark : c.toNat = 0xFEFF <;> simp [Text.Cursor.ofText, mark]

theorem of_text_length (text : List Char) : (Cursor.ofText text).1.unread.length ≤ text.length := by
  obtain - | ⟨c, rest⟩ := text
  · exact Nat.le_refl _
  · by_cases mark : c.toNat = 0xFEFF <;> simp [Text.Cursor.ofText, mark]

theorem tokens_text (text : List Char) : tokens text = tokensFrom (text.length + 1) (firstComplaint none (Cursor.ofText text).2)
    ⟨(Cursor.ofText text).1.unread, (Cursor.ofText text).1.position⟩ := rfl

theorem lexed_tokens {text : List Char} (silent : (unmarked text).head? ≠ some nul) : Lexed (unmarked text) (tokens text) := by
  have start : firstComplaint none (Cursor.ofText text).2 = none := first_complaint_none.mpr ⟨rfl, complain_ahead_nil.mpr silent⟩
  rw [tokens_text, start]
  exact ⟨_, _, Nat.lt_succ_of_le (of_text_length text), rfl⟩

section

variable (names : Names) (operand : Bool) {last : Token}

theorem along_self {init : List Token} (others : ∀ t ∈ init, t.isEnd = false) :
    Along names .named last [last] operand (init ++ [last]) (init ++ [last]) := by
  induction init generalizing operand with
  | nil => exact .last
  | cons t init ih =>
      obtain ⟨goesOn, later⟩ := List.forall_mem_cons.mp others
      exact .more ⟨goesOn, goesOn, rfl, fun _ => id⟩ (fun _ _ _ _ => rfl) (ih _ later)

variable {names} in
theorem read_of_parse {text : String} {e : Expression} (parsed : parse names .state text = .ok e) :
    ∃ init last, last.isEnd = true ∧ (∀ t ∈ init, t.isEnd = false) ∧ Lexed (unmarked text.toList) (init ++ [last]) ∧ Quiet (init ++ [last]) ∧
      (unmarked text.toList).head? ≠ some nul ∧ atEnd (init ++ [last]) = false ∧
      chain (unary names .state (init ++ [last]).length) (init ++ [last]) = .ok (e, [last]) := by
  obtain ⟨goesOn, rest, quiet, ends, done⟩ := chain_of_parse parsed
  have enough := Nat.lt_succ_of_le (of_text_length text.toList)
  obtain ⟨init, last, shape, isEnd, others, silent⟩ := quiet_of_last (firstComplaint none (Cursor.ofText text.toList).2)
    ⟨(Cursor.ofText text.toList).1.unread, (Cursor.ofText text.toList).1.position⟩ enough
  rw [tokens_text, shape] at done goesOn
  obtain ⟨_, _, _, _, left, _⟩ := chain_follows (stops_end isEnd isEnd) (unary_follows (stops_end isEnd isEnd) _ _) _ _
    (along_self names true others) (Nat.le_refl _) _ done
  obtain ⟨rfl, _⟩ := left.of_end ends
  obtain ⟨start, all⟩ := silent quiet
  have silence : (unmarked text.toList).head? ≠ some nul := complain_ahead_nil.mp (first_complaint_none.mp start).2
  refine ⟨init, last, isEnd, others, ⟨text.toList.length + 1, (Cursor.ofText text.toList).1.position, enough, ?_⟩, shape ▸ all, silence,
    goesOn, done⟩
  rw [← shape, start]
  rfl

theorem Lexed.along {init : List Token} {u s : List Char} {us : List Token} (ends : last.isEnd = true) (others : ∀ t ∈ init, t.isEnd = false)
    (lexed : Lexed u (init ++ [last])) (quiet : Quiet (init ++ [last])) {c : Char} (closes : c ∈ [')', '\'']) (lexedToo : Lexed (u ++ c :: s) us) :
    ∃ final, Lexed (c :: s) final ∧ Along names .named last final operand (init ++ [last]) us := by
  have closer : c ∈ closers ∧ c ≠ '(' ∧ c ≠ nul := by
    revert closes
    exact (List.all_iff_forall_prop.mp (by decide) : ∀ c ∈ [')', '\''], c ∈ closers ∧ c ≠ '(' ∧ c ≠ nul) c
  obtain ⟨closer, noCall, noNul⟩ := closer
  induction init generalizing u us operand with
  | nil =>
      obtain ⟨spaces, _⟩ | ⟨t, others, _, _, shape, _, goesOn, _⟩ := lexed.first quiet
      · exact ⟨us, lexedToo.skip spaces (by simpa using noNul), .last⟩
      · obtain ⟨rfl, _⟩ := List.cons.inj shape
        rw [ends] at goesOn
        cases goesOn
  | cons t init ih =>
      obtain ⟨goesOn, later⟩ := List.forall_mem_cons.mp others
      obtain ⟨_, e, shape, _⟩ | ⟨_, _, front, rest, shape, rfl, _, ahead, silent, lexedRest, reads⟩ := lexed.first quiet
      · exact absurd (congrArg List.length shape) (by simp)
      · obtain ⟨rfl, rfl⟩ := List.cons.inj shape
        have exchanged : Exchanged rest (rest ++ c :: s) := by
          cases rest with
          | nil => exact .inr ⟨c, closer, rfl⟩
          | cons d rest => exact .inl rfl
        have silentToo : (rest ++ c :: s).head? ≠ some nul := by
          cases rest with
          | nil => simpa using noNul
          | cons d rest => exact silent
        rw [List.append_assoc] at lexedToo
        obtain ⟨t', us', rfl, goesOnToo, text, aheadToo, _, lexedAfter⟩ := lexedToo.cons fun q => reads _ q exchanged silentToo
        obtain ⟨final, lexedFinal, along⟩ := ih (opens operand _) later lexedRest (List.forall_mem_cons.mp quiet).2 lexedAfter
        refine ⟨final, lexedFinal, .more ⟨goesOn, goesOnToo, text, fun _ call => ?_⟩ (fun _ _ _ _ => rfl) along⟩
        rw [ahead]
        rw [aheadToo] at call
        cases rest with
        | nil => exact absurd (Option.some.inj call) noCall
        | cons d rest => exact call

end

-- Of two texts that can be read, none goes on with a quote behind the other.
theorem parse_apart {names : Names} {a b : String} {e f : Expression} (parsed : parse names .state a = .ok e)
    (parsedToo : parse names .state b = .ok f) (more : List Char) : b.toList ≠ a.toList ++ '\'' :: more := by
  intro same
  have some : a.toList ≠ [] := by
    intro none
    have goesOn := (chain_of_parse parsed).1
    rw [none] at goesOn
    exact absurd goesOn (by decide)
  obtain ⟨init, last, ends, others, lexed, quiet, _, _, done⟩ := read_of_parse parsed
  obtain ⟨initToo, lastToo, endsToo, _, lexedToo, _, _, _, doneToo⟩ := read_of_parse parsedToo
  rw [unmarked, same, of_text_append _ some] at lexedToo
  obtain ⟨final, ⟨fuel, p, enough, rfl⟩, along⟩ := lexed.along names true ends others quiet (by decide) lexedToo
  obtain - | fuel := fuel
  · exact absurd enough (Nat.not_lt_zero _)
  obtain ⟨q, later, final, goesOn, quote⟩ : ∃ q later, tokensFrom (fuel + 1) none ⟨'\'' :: more, p⟩ = q :: later ∧ q.isEnd = false ∧
      q.text = "'" := by
    simp only [tokensFrom, next_token_lone (c := '\'') (by decide)]
    exact ⟨_, _, rfl, rfl, rfl⟩
  rw [final] at along
  have stops : Stops last (q :: later) := stops_word ends (by rw [quote]; decide) later
  obtain ⟨_, us, ran, _, left, _⟩ := chain_follows stops (unary_follows stops _ _) _ _ along (Nat.le_refl _) _ done
  obtain ⟨_, rfl⟩ := left.of_end ends
  rw [ran] at doneToo
  cases doneToo
  exact Bool.noConfusion (goesOn.symm.trans endsToo)

end Coalition.Expression

namespace Coalition

theorem System.atom_apart {sys : System} {a b : String} {r r' : Region} (found : sys.atom a = .ok r) (foundToo : sys.atom b = .ok r')
    (more : List Char) : b.toList ≠ a.toList ++ '\'' :: more := by
  have parsed : ∀ {text : String} {r : Region}, sys.atom text = .ok r → ∃ e, Expression.parse sys.names .state text = .ok e := by
    intro text r found
    obtain ⟨_, compiled, _⟩ := ok_of_bind found
    unfold System.compile at compiled
    split at compiled
    · rename_i e parsed
      exact ⟨e, parsed⟩
    · cases compiled
  obtain ⟨e, here⟩ := parsed found
  obtain ⟨f, there⟩ := parsed foundToo
  exact Expression.parse_apart here there more

end Coalition
