import Coalition.Proofs.Formula.Printer
import Coalition.Proofs.Formula.Tokens

-- The text of a formula as a list of marks, and how the marks come back as tokens.

set_option autoImplicit false

namespace Coalition.Formula

open Coalition.Text

inductive Mark where
  | blank
  | word (text : String)
  | name (text : String)

def Mark.chars : Mark → List Char
  | .blank => [' ']
  | .word text => text.toList
  | .name text => '\'' :: (text.toList ++ ['\''])

def markChars (marks : List Mark) : List Char := marks.flatMap Mark.chars

def Mark.names : Mark → List String
  | .name text => [text]
  | _ => []

def markNames (marks : List Mark) : List String := marks.flatMap Mark.names

@[simp] theorem mark_chars_nil : markChars [] = [] := rfl

@[simp] theorem mark_chars_cons (m : Mark) (ms : List Mark) : markChars (m :: ms) = m.chars ++ markChars ms := List.flatMap_cons

@[simp] theorem mark_chars_append (as bs : List Mark) : markChars (as ++ bs) = markChars as ++ markChars bs := List.flatMap_append

@[simp] theorem mark_names_nil : markNames [] = [] := rfl

@[simp] theorem mark_names_cons (m : Mark) (ms : List Mark) : markNames (m :: ms) = m.names ++ markNames ms := List.flatMap_cons

@[simp] theorem mark_names_append (as bs : List Mark) : markNames (as ++ bs) = markNames as ++ markNames bs := List.flatMap_append

def groupMarks : List String → List Mark
  | [] => []
  | [name] => [.name name]
  | name :: other :: more => .name name :: .word "," :: groupMarks (other :: more)

def pairMarks (left : List Mark) (word : String) (right : List Mark) (closing : String) : List Mark :=
  left ++ .blank :: .word word :: .blank :: (right ++ [.word closing])

def marks : Formula → List Mark
  | .constant value => [.word value.text]
  | .atom text => [.name text]
  | .not body => .word "~" :: body.marks
  | .binary op left right => .word "(" :: pairMarks left.marks op.sign right.marks ")"
  | .path quantifier modality body => .word (quantifier.letter ++ modality.letter) :: .blank :: body.marks
  | .pathUntil quantifier kind left right =>
      .word quantifier.letter :: .word "[" :: pairMarks left.marks kind.letter right.marks "]"
  | .agentKnows certainty agent body =>
      .word (certainty.mark ++ "K") :: .word "<" :: .name agent :: .word ">" :: .blank :: body.marks
  | .groupKnows certainty sharing names body =>
      .word (certainty.mark ++ sharing.letter) :: .word "<" :: (groupMarks names ++ .word ">" :: .blank :: body.marks)
  | .strategic ability names modality body =>
      .word ability.opening ::
        (groupMarks names ++ .word ability.closing :: .blank :: .word modality.letter :: .blank :: body.marks)
  | .strategicUntil ability names kind left right =>
      .word ability.opening ::
        (groupMarks names ++ .word ability.closing :: .word "[" :: pairMarks left.marks kind.letter right.marks "]")

theorem group_text_marks (names : List String) : (groupText names).toList = markChars (groupMarks names) := by
  induction names with
  | nil => simp [groupText, groupMarks, String.intercalate_nil]
  | cons name more ih =>
      cases more with
      | nil => simp [groupText, groupMarks, Mark.chars, String.intercalate_singleton]
      | cons other more =>
          simp only [groupMarks, mark_chars_cons, ← ih]
          simp [groupText, Mark.chars, String.intercalate_cons_cons]

theorem text_marks (f : Formula) : f.text.toList = markChars f.marks := by
  induction f <;> simp [text, marks, pairMarks, Mark.chars, group_text_marks, *]

theorem group_names (names : List String) : markNames (groupMarks names) = names := by
  induction names with
  | nil => rfl
  | cons name more ih =>
      cases more with
      | nil => rfl
      | cons other more => simp [groupMarks, Mark.names, ih]

def names (f : Formula) : List String := markNames f.marks

def Grouped (f : Formula) : Prop := f.Every (fun _ => True) (· ≠ []) (· ≠ [])

def Mark.Leads : Mark → List Token → List Token → Prop
  | .blank, ts, us => ts = us
  | .word text, ts, us => Formula.Leads false text ts us
  | .name text, ts, us => Formula.Leads true text ts us

-- The marks come back as tokens, up to the remaining ones.
def Spells : List Mark → List Token → List Token → Prop
  | [], ts, rest => ts = rest
  | m :: ms, ts, rest => ∃ us, m.Leads ts us ∧ Spells ms us rest

theorem spells_append {as bs : List Mark} {ts rest : List Token} :
    Spells (as ++ bs) ts rest ↔ ∃ us, Spells as ts us ∧ Spells bs us rest := by
  induction as generalizing ts with
  | nil => simp [Spells]
  | cons m as ih => simp only [List.cons_append, Spells, ih]; grind

structure Scanner.Passes (firstLine : Int) (ms : List Mark) (s s' : Scanner) : Prop where
  spells : Spells ms (s.tokens firstLine) (s'.tokens firstLine)
  clear : s.Clear ↔ s'.Clear
  quiet : s.Clear → faultSoFar (s'.tokens firstLine) = none → faultSoFar (s.tokens firstLine) = none

theorem Scanner.Passes.trans {firstLine : Int} {as bs : List Mark} {s s' s'' : Scanner} (first : Passes firstLine as s s')
    (second : Passes firstLine bs s' s'') : Passes firstLine (as ++ bs) s s'' where
  spells := spells_append.mpr ⟨_, first.spells, second.spells⟩
  clear := first.clear.trans second.clear
  quiet clear later := first.quiet clear (second.quiet (first.clear.mp clear) later)

def Mark.Whole : Mark → List Char → Prop
  | .word text, rest => Formula.Whole text.toList rest
  | _, _ => True

def Orderly : List Mark → List Char → Prop
  | [], _ => True
  | m :: ms, rest => m.Whole (markChars ms ++ rest) ∧ Orderly ms rest

theorem orderly_append {as bs : List Mark} {rest : List Char} :
    Orderly (as ++ bs) rest ↔ Orderly as (markChars bs ++ rest) ∧ Orderly bs rest := by
  induction as with
  | nil => simp [Orderly]
  | cons m as ih => simp [Orderly, ih, and_assoc]

theorem orderly_group (names : List String) (rest : List Char) : Orderly (groupMarks names) rest := by
  induction names with
  | nil => trivial
  | cons name more ih =>
      cases more with
      | nil => exact ⟨trivial, trivial⟩
      | cons other more => exact ⟨trivial, .sign (by decide), ih⟩

theorem orderly_pair {left right : List Mark} {word closing : String} {rest : List Char}
    (first : ∀ {rest}, Stops rest → Orderly left rest) (second : ∀ {rest}, Stops rest → Orderly right rest)
    (middle : ∀ rest, Whole word.toList (' ' :: rest)) (last : closing = ")" ∨ closing = "]") :
    Orderly (pairMarks left word right closing) rest := by
  have blank (rest : List Char) : Stops (' ' :: rest) := stops_cons (by decide)
  refine orderly_append.mpr ⟨first (blank _), trivial, middle _, trivial, orderly_append.mpr ⟨second ?_, ?_, trivial⟩⟩
  · obtain rfl | rfl := last <;> exact stops_cons (by decide)
  · obtain rfl | rfl := last <;> exact .sign (by decide)

theorem orderly_bracketed (ability : Ability) (names : List String) {ms : List Mark} {rest : List Char} (later : Orderly ms rest) :
    Orderly (.word ability.opening :: (groupMarks names ++ .word ability.closing :: ms)) rest := by
  refine ⟨?_, orderly_append.mpr ⟨orderly_group _ _, ?_, later⟩⟩
  · cases ability with
    | canForce =>
        refine .opening ?_
        obtain - | ⟨name, - | ⟨other, more⟩⟩ := names <;> simp [groupMarks, Mark.chars, Ability.closing]
    | cannotAvoid => exact .sign (by decide)
  · cases ability <;> exact .sign (by decide)

-- Behind a formula no name may go on; inside it every word stops by itself.
theorem orderly_marks (f : Formula) {rest : List Char} (stops : Stops rest) : Orderly f.marks rest := by
  have blank (rest : List Char) : Stops (' ' :: rest) := stops_cons (by decide)
  have bracket (rest : List Char) : Stops ('[' :: rest) := stops_cons (by decide)
  have angle (rest : List Char) : Stops ('<' :: rest) := stops_cons (by decide)
  induction f generalizing rest with
  | constant value => exact ⟨whole_of_is_name (by cases value <;> decide) stops, trivial⟩
  | atom text => exact ⟨trivial, trivial⟩
  | not body ih => exact ⟨.sign (by decide), ih stops⟩
  | binary op left right leftIh rightIh =>
      refine ⟨.sign (by decide), orderly_pair leftIh rightIh (fun rest => ?_) (.inl rfl)⟩
      cases op with
      | and => exact .sign (by decide)
      | or => exact .sign (by decide)
      | implies => exact .implies
      | iff => exact .iff
  | path quantifier modality body ih =>
      exact ⟨whole_of_is_name (by cases quantifier <;> cases modality <;> decide) (blank _), trivial, ih stops⟩
  | pathUntil quantifier kind left right leftIh rightIh =>
      refine ⟨whole_of_is_name (by cases quantifier <;> decide) (bracket _), .sign (by decide), orderly_pair leftIh rightIh (fun rest => ?_) (.inr rfl)⟩
      exact whole_of_is_name (by cases kind <;> decide) (blank _)
  | agentKnows certainty agent body ih =>
      refine ⟨whole_of_is_name (by cases certainty <;> decide) (angle _), ?_⟩
      exact orderly_bracketed .canForce [agent] ⟨trivial, ih stops⟩
  | groupKnows certainty sharing names body ih =>
      refine ⟨whole_of_is_name (by cases certainty <;> cases sharing <;> decide) (angle _), ?_⟩
      exact orderly_bracketed .canForce names ⟨trivial, ih stops⟩
  | strategic ability names modality body ih =>
      refine orderly_bracketed ability names ⟨trivial, ?_, trivial, ih stops⟩
      exact whole_of_is_name (by cases modality <;> decide) (blank _)
  | strategicUntil ability names kind left right leftIh rightIh =>
      refine orderly_bracketed ability names ⟨.sign (by decide), orderly_pair leftIh rightIh (fun rest => ?_) (.inr rfl)⟩
      exact whole_of_is_name (by cases kind <;> decide) (blank _)

theorem passes_space (firstLine : Int) {space : Char} (blank : isSpace space = true) {rest : List Char} {s : Scanner}
    (start : s.cursor.unread = space :: rest) : ∃ s', s'.cursor.unread = rest ∧ s.Passes firstLine [] s' := by
  obtain ⟨fuel, previous, fault, ⟨unread, p⟩, enough⟩ := s
  obtain rfl : unread = space :: rest := start
  refine ⟨⟨fuel, previous, noteFault firstLine previous fault (complainAhead rest (p.after space)), ⟨rest, p.after space⟩,
    Nat.lt_of_succ_lt enough⟩, rfl, ?_⟩
  have same : Scanner.tokens firstLine ⟨fuel, previous, fault, ⟨space :: rest, p⟩, enough⟩ = Scanner.tokens firstLine
      ⟨fuel, previous, noteFault firstLine previous fault (complainAhead rest (p.after space)), ⟨rest, p.after space⟩,
        Nat.lt_of_succ_lt enough⟩ := by
    cases fuel with
    | zero => rfl
    | succ fuel => simp only [Scanner.tokens, tokensFrom, next_token_space _ _ _ _ blank]
  have other : nul ≠ space := by
    rintro rfl
    exact absurd blank (by decide)
  refine ⟨same, ?_, fun _ quiet => same ▸ quiet⟩
  simp [Scanner.Clear, note_fault_none, complain_ahead_nil, and_assoc, no_nul_ahead, other]

theorem passes_mark (firstLine : Int) {m : Mark} {rest : List Char} {s : Scanner} (start : s.cursor.unread = m.chars ++ rest)
    (whole : m.Whole rest) (plain : PlainNames m.names) : ∃ s', s'.cursor.unread = rest ∧ s.Passes firstLine [m] s' := by
  cases m with
  | blank =>
      obtain ⟨s', behind, passes⟩ := passes_space firstLine (by decide : isSpace ' ' = true) start
      exact ⟨s', behind, ⟨_, rfl, passes.spells⟩, passes.clear, passes.quiet⟩
  | word text =>
      obtain ⟨fuel, previous, fault, ⟨unread, p⟩, enough⟩ := s
      obtain rfl : unread = text.toList ++ rest := start
      obtain ⟨t, q, next, more, kind, same, quiet⟩ := next_token_word p firstLine previous fault whole
      obtain ⟨s', behind, leads, clear, first⟩ := leads_of_next (s := ⟨fuel, previous, fault, _, enough⟩) next more (by
        simp [Scanner.Clear, quiet, Whole.nul_not_mem whole, and_assoc, no_nul_ahead])
      rw [kind, same, String.ofList_toList] at leads
      exact ⟨s', congrArg Cursor.unread behind, ⟨_, leads, rfl⟩, clear, fun now _ => first now⟩
  | name text =>
      obtain ⟨fuel, previous, fault, ⟨unread, p⟩, enough⟩ := s
      obtain rfl : unread = '\'' :: (text.toList ++ '\'' :: rest) := start.trans (by simp [Mark.chars])
      obtain ⟨t, q, next, more, kind, same, quiet⟩ := next_token_name p firstLine previous fault (plain text List.mem_cons_self)
      obtain ⟨s', behind, leads, clear, first⟩ := leads_of_next (s := ⟨fuel, previous, fault, _, enough⟩) next more (by
        simp [Scanner.Clear, quiet, and_assoc, no_nul_ahead, (by decide : nul ≠ '\'')])
      rw [kind, same, String.ofList_toList] at leads
      exact ⟨s', congrArg Cursor.unread behind, ⟨_, leads, rfl⟩, clear, fun now _ => first now⟩

theorem passes_marks (firstLine : Int) {ms : List Mark} {rest : List Char} {s : Scanner} (start : s.cursor.unread = markChars ms ++ rest)
    (whole : Orderly ms rest) (plain : PlainNames (markNames ms)) : ∃ s', s'.cursor.unread = rest ∧ s.Passes firstLine ms s' := by
  induction ms generalizing s with
  | nil => exact ⟨s, start, rfl, Iff.rfl, fun _ quiet => quiet⟩
  | cons m ms ih =>
      rw [mark_chars_cons, List.append_assoc] at start
      rw [mark_names_cons] at plain
      obtain ⟨s', behind, first⟩ := passes_mark firstLine start whole.1 fun name listed => plain name (List.mem_append_left _ listed)
      obtain ⟨s'', done, second⟩ := ih behind whole.2 fun name listed => plain name (List.mem_append_right _ listed)
      exact ⟨s'', done, first.trans second⟩

end Coalition.Formula
