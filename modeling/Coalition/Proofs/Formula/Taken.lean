import Coalition.Proofs.Formula.Marks
import Coalition.Proofs.Yields

-- What the parser takes from the tokens, whatever they are: the names of a formula come from the tokens one after the other, every quoted
-- token is one of them, and what is left still ends.

set_option autoImplicit false

namespace Coalition.Formula

-- Tokens with the names among them that a reader took, in order. Quoted tokens are always taken.
inductive Leaves : List Token → List String → List Token → Prop where
  | done {ts : List Token} : Leaves ts [] ts
  | skip {t : Token} {ts rest : List Token} {names : List String} (goesOn : t.isEnd = false) (plain : t.isQuoted = false)
      (later : Leaves ts names rest) : Leaves (t :: ts) names rest
  | take {t : Token} {ts rest : List Token} {names : List String} (goesOn : t.isEnd = false)
      (name : t.isQuoted = true ∨ isName t.text = true) (later : Leaves ts names rest) : Leaves (t :: ts) (t.text :: names) rest

theorem Leaves.trans {ts us rest : List Token} {xs ys : List String} (first : Leaves ts xs us) (second : Leaves us ys rest) :
    Leaves ts (xs ++ ys) rest := by
  induction first with
  | done => exact second
  | skip goesOn plain _ ih => exact .skip goesOn plain (ih second)
  | take goesOn name _ ih => exact .take goesOn name (ih second)

structure Took (ts : List Token) (names : List String) (rest : List Token) : Prop where
  closed : Closed rest
  leaves : Leaves ts names rest

theorem Took.trans {ts us rest : List Token} {xs ys : List String} (first : Took ts xs us) (second : Took us ys rest) :
    Took ts (xs ++ ys) rest := ⟨second.closed, first.leaves.trans second.leaves⟩

theorem closed_advance {t : Token} {ts : List Token} (closed : Closed (t :: ts)) (goesOn : t.isEnd = false) :
    advance (t :: ts) = ts ∧ Closed ts := by
  cases closed with
  | last ends => exact absurd ends (by simp [goesOn])
  | more _ later =>
      cases ts with
      | nil => exact absurd rfl later.ne_nil
      | cons u ts => exact ⟨rfl, later⟩

theorem took_advance {ts : List Token} {word : String} (closed : Closed ts) (here : at? word ts = true) : Took ts [] (advance ts) := by
  cases ts with
  | nil => cases here
  | cons t ts =>
      simp only [at?, Bool.and_eq_true, Bool.not_eq_true'] at here
      obtain ⟨next, later⟩ := closed_advance closed here.1.1
      exact next.symm ▸ ⟨later, .skip here.1.1 here.1.2 .done⟩

theorem yields_fail {α : Type} {P : α × List Token → Prop} (reason : String) (ts : List Token) : Yields (failAt reason ts) P := by
  cases ts <;> exact nofun

theorem took_expect {ts : List Token} (word : String) (closed : Closed ts) : Yields (expect word ts) fun out => Took ts [] out.2 := by
  simp only [expect]
  split
  · exact yields_fail _ _
  · split
    · exact yields_ok (took_advance closed ‹_›)
    · exact yields_fail _ _

theorem took_read_group (closing : String) (fuel : Nat) {ts : List Token} (closed : Closed ts) :
    Yields (readGroup closing fuel ts) fun out => Took ts out.1 out.2 ∧ out.1 ≠ [] := by
  induction fuel generalizing ts with
  | zero => exact yields_fail _ _
  | succ fuel ih =>
      simp only [readGroup]
      split
      · exact yields_fail _ _
      · rename_i t ts
        split
        · exact yields_fail _ _
        · rename_i more
          have goesOn : t.isEnd = false := by simpa using more
          obtain ⟨next, later⟩ := closed_advance closed goesOn
          split
          · exact yields_fail _ _
          · rename_i known
            have name : t.isQuoted = true ∨ isName t.text = true := by
              by_contra neither
              exact known (by simpa using neither)
            have first (us : List Token) (names : List String) (took : Took ts names us) : Took (t :: ts) (t.text :: names) us :=
              ⟨took.closed, .take goesOn name took.leaves⟩
            rw [next]
            split
            · have comma := took_advance later ‹_›
              refine yields_bind (ih comma.closed) fun out others => ?_
              exact yields_ok ⟨first _ _ (comma.trans others.1), List.cons_ne_nil _ _⟩
            · refine yields_bind (took_expect closing later) fun out closes => ?_
              exact yields_ok ⟨first _ _ closes, List.cons_ne_nil _ _⟩

theorem took_group (closing : String) {ts : List Token} (closed : Closed ts) :
    Yields (group closing ts) fun out => Took ts out.1 out.2 ∧ out.1 ≠ [] := took_read_group closing _ closed

-- A reader of formulas takes the names of what it reads, and every group it reads has a member.
def Careful (operand : Reader Formula) : Prop :=
  ∀ ts, Closed ts → Yields (operand ts) fun out => Took ts out.1.names out.2 ∧ out.1.Grouped

theorem Took.before {ts us : List Token} (signs : Took ts [] us) {x : Except ParseError (Formula × List Token)}
    (read : Yields x fun out => Took us out.1.names out.2 ∧ out.1.Grouped) : Yields x fun out => Took ts out.1.names out.2 ∧ out.1.Grouped :=
  fun out done => ⟨signs.trans (read out done).1, (read out done).2⟩

section

variable {operand : Reader Formula}

@[simp] theorem pair_names (left right : List Mark) (word closing : String) :
    markNames (pairMarks left word right closing) = markNames left ++ markNames right := by
  simp [pairMarks, Mark.names]

theorem binary_names (op : Connective) (left right : Formula) : (binary op left right).names = left.names ++ right.names := by
  simp [names, marks, Mark.names]

theorem took_more_operands (careful : Careful operand) (op : Connective) (fuel : Nat) {left : Formula} {start ts : List Token}
    (took : Took start left.names ts) (grouped : left.Grouped) :
    Yields (moreOperands op operand fuel left ts) fun out => Took start out.1.names out.2 ∧ out.1.Grouped := by
  induction fuel generalizing left ts with
  | zero => exact yields_ok ⟨took, grouped⟩
  | succ fuel ih =>
      simp only [moreOperands]
      split
      · have sign := took_advance took.closed ‹_›
        refine yields_bind (careful _ sign.closed) fun out right => ?_
        refine ih ?_ ⟨grouped, right.2⟩
        rw [binary_names]
        exact took.trans (sign.trans right.1)
      · exact yields_ok ⟨took, grouped⟩

theorem careful_left_chain (careful : Careful operand) (op : Connective) : Careful (leftChain op operand) := by
  intro ts closed
  refine yields_bind (careful ts closed) fun out first => ?_
  exact took_more_operands careful op _ first.1 first.2

theorem careful_right_chain (careful : Careful operand) (op : Connective) : Careful (rightChain op operand) := by
  have reads (fuel : Nat) : Careful (readRightChain op operand fuel) := by
    induction fuel with
    | zero => exact careful
    | succ fuel ih =>
        intro ts closed
        refine yields_bind (careful ts closed) fun out first => ?_
        obtain ⟨left, us⟩ := out
        dsimp only
        split
        · have sign := took_advance first.1.closed ‹_›
          refine yields_bind (ih _ sign.closed) fun out second => ?_
          refine yields_ok ⟨?_, first.2, second.2⟩
          rw [binary_names]
          exact first.1.trans (sign.trans second.1)
        · exact yields_ok first
  exact fun ts => reads ts.length ts

theorem careful_chain (careful : Careful operand) : Careful (chain operand) :=
  careful_right_chain (careful_right_chain (careful_left_chain (careful_left_chain careful _) _) _) _

theorem took_until_body (careful : Careful operand) {ts : List Token} (closed : Closed ts) :
    Yields (untilBody operand ts) fun out =>
      Took ts (out.1.1.names ++ out.1.2.2.names) out.2 ∧ out.1.1.Grouped ∧ out.1.2.2.Grouped := by
  refine yields_bind (careful_chain careful ts closed) fun out first => ?_
  obtain ⟨left, us⟩ := out
  have finish (kind : Until) (word : String) (here : at? word us = true) :
      Yields (do
        let right ← chain operand (advance us)
        let closing ← expect "]" right.2
        return ((left, kind, right.1), closing.2)) fun out =>
      Took ts (out.1.1.names ++ out.1.2.2.names) out.2 ∧ out.1.1.Grouped ∧ out.1.2.2.Grouped := by
    have middle := took_advance first.1.closed here
    refine yields_bind (careful_chain careful _ middle.closed) fun out second => ?_
    refine yields_bind (took_expect "]" second.1.closed) fun out closes => ?_
    refine yields_ok ⟨?_, first.2, second.2⟩
    simpa using first.1.trans (middle.trans (second.1.trans closes))
  dsimp only
  split
  · exact finish _ _ ‹_›
  · split
    · exact finish _ _ ‹_›
    · exact yields_fail _ _

theorem took_strategic_body (careful : Careful operand) (ability : Ability) {names : List String} (some : names ≠ []) {ts : List Token}
    (closed : Closed ts) : Yields (strategicBody operand ability names ts) fun out =>
      ∃ later, out.1.names = names ++ later ∧ Took ts later out.2 ∧ out.1.Grouped := by
  have finish (modality : Modality) (word : String) (here : at? word ts = true) :
      Yields (do
        let body ← operand (advance ts)
        return (strategic ability names modality body.1, body.2)) fun out =>
      ∃ later, out.1.names = names ++ later ∧ Took ts later out.2 ∧ out.1.Grouped := by
    have letter := took_advance closed here
    refine yields_bind (careful _ letter.closed) fun out body => ?_
    exact yields_ok ⟨_, by simp [Formula.names, marks, Mark.names, group_names], letter.trans body.1, some, body.2⟩
  simp only [strategicBody]
  split
  · have bracket := took_advance closed ‹_›
    refine yields_bind (took_until_body careful bracket.closed) fun out body => ?_
    obtain ⟨⟨left, kind, right⟩, us⟩ := out
    exact yields_ok ⟨left.names ++ right.names, by simp [Formula.names, marks, Mark.names, group_names], bracket.trans body.1, some, body.2⟩
  · split
    · exact finish _ _ ‹_›
    · split
      · exact finish _ _ ‹_›
      · split
        · exact finish _ _ ‹_›
        · exact yields_fail _ _

theorem took_knowledge_body (careful : Careful operand) (certainty : Certainty) (sharing : Sharing) {ts : List Token} (closed : Closed ts) :
    Yields (knowledgeBody operand (groupKnows certainty sharing) ts) fun out => Took ts out.1.names out.2 ∧ out.1.Grouped := by
  refine yields_bind (took_group ">" closed) fun out group => ?_
  refine yields_bind (careful _ group.1.closed) fun out body => ?_
  refine yields_ok ⟨?_, group.2, body.2⟩
  simpa [names, marks, Mark.names, group_names] using group.1.trans body.1

theorem took_path_until (careful : Careful operand) (quantifier : Quantifier) {ts : List Token} (closed : Closed ts) :
    Yields (do
      let ((left, kind, right), us) ← untilBody operand ts
      return (pathUntil quantifier kind left right, us)) fun out => Took ts out.1.names out.2 ∧ out.1.Grouped := by
  refine yields_bind (took_until_body careful closed) fun out body => ?_
  refine yields_ok ⟨?_, body.2⟩
  simpa [names, marks, Mark.names] using body.1

theorem careful_unary (fuel : Nat) : Careful (unary fuel) := by
  -- operands are read with less fuel; the cases are the words a formula can start with
  induction fuel with
  | zero => exact fun ts closed => yields_fail _ _
  | succ fuel ih =>
      intro ts closed
      cases closed with
      | last ends => simp only [unary, ends, if_true]; exact yields_fail _ _
      | @more t ts goesOn later =>
          have next := (closed_advance (.more goesOn later) goesOn).1
          have quoted (quoted : t.isQuoted = true) : Took (t :: ts) [t.text] ts := ⟨later, .take goesOn (.inl quoted) .done⟩
          have bare (name : isName t.text = true) : Took (t :: ts) [t.text] ts := ⟨later, .take goesOn (.inr name) .done⟩
          simp only [unary, goesOn, next]
          cases kind : t.isQuoted with
          | true => exact yields_ok ⟨quoted kind, trivial⟩
          | false =>
              have opening : Took (t :: ts) [] ts := ⟨later, .skip goesOn kind .done⟩
              simp only [Bool.false_eq_true, if_false]
              cases Opening.ofWord t.text with
              | constant value => exact yields_ok ⟨opening, trivial⟩
              | negation => exact yields_bind (ih ts later) fun out body => yields_ok ⟨opening.trans body.1, body.2⟩
              | parenthesis =>
                  refine yields_bind (careful_chain ih ts later) fun out body => ?_
                  refine yields_bind (took_expect ")" body.1.closed) fun out closes => ?_
                  refine yields_ok ⟨?_, body.2⟩
                  simpa using opening.trans (body.1.trans closes)
              | strategic ability =>
                  refine yields_bind (took_group ability.closing later) fun out group => ?_
                  intro out done
                  obtain ⟨others, same, body, grouped⟩ := took_strategic_body ih ability group.2 group.1.closed out done
                  rw [same]
                  exact ⟨opening.trans (group.1.trans body), grouped⟩
              | agentKnows certainty =>
                  refine yields_bind (took_expect "<" later) fun out opens => ?_
                  refine yields_bind (took_group ">" opens.closed) fun out group => ?_
                  obtain ⟨names, us⟩ := out
                  dsimp only
                  split
                  · rename_i agent
                    refine yields_bind (ih us group.1.closed) fun out body => ?_
                    refine yields_ok ⟨?_, List.cons_ne_nil _ _, body.2⟩
                    exact opening.trans (opens.trans (group.1.trans body.1))
                  · exact yields_fail _ _
              | pathOrEveryone =>
                  dsimp only
                  split
                  · have bracket := took_advance later ‹_›
                    exact opening.before (bracket.before (took_path_until ih .some bracket.closed))
                  · split
                    · have angle := took_advance later ‹_›
                      exact opening.before (angle.before (took_knowledge_body ih .known .everyone angle.closed))
                    · exact yields_fail _ _
              | allPaths =>
                  dsimp only
                  split
                  · have bracket := took_advance later ‹_›
                    exact opening.before (bracket.before (took_path_until ih .all bracket.closed))
                  · exact yields_fail _ _
              | path quantifier modality => exact yields_bind (ih ts later) fun out body => yields_ok ⟨opening.trans body.1, body.2⟩
              | groupKnows certainty sharing =>
                  refine yields_bind (took_expect "<" later) fun out opens => ?_
                  exact opening.before (opens.before (took_knowledge_body ih certainty sharing opens.closed))
              | reserved => exact yields_fail _ _
              | name =>
                  dsimp only
                  split
                  · exact yields_ok ⟨bare ‹_›, trivial⟩
                  · exact yields_fail _ _

end

theorem of_tokens_took {ts : List Token} (closed : Closed ts) : Yields (ofTokens ts) fun f =>
    f.Grouped ∧ ∃ e, Leaves ts f.names [e] ∧ e.isEnd = true ∧ e.fault = none := by
  have fails (reason : String) (ts : List Token) {P : Formula → Prop} : Yields (Prod.fst <$> failAt reason ts) P := by
    cases ts <;> exact nofun
  rw [ofTokens]
  split
  · exact nofun
  · split
    · exact fails _ _
    · refine yields_bind (careful_chain (careful_unary _) ts closed) fun out read => ?_
      obtain ⟨f, us⟩ := out
      obtain ⟨took, grouped⟩ := read
      dsimp only
      split
      · exact nofun
      · rename_i quiet
        split
        · rename_i ended
          refine yields_ok ⟨grouped, ?_⟩
          cases took.closed with
          | last ends => exact ⟨_, took.leaves, ends, quiet⟩
          | more goesOn _ => exact absurd ended (by simp [atEnd, goesOn])
        · exact fails _ _

end Coalition.Formula
