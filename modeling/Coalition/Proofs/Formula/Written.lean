import Mathlib.Data.List.TakeWhile
import Mathlib.Tactic.FinCases
import Coalition.Proofs.Formula.Marks

-- The texts of a formula have parentheses at least where the priorities ask for them, and white space where one likes, but always between
-- two words.

set_option autoImplicit false

namespace Coalition

inductive Formula.Priority where
  | iff
  | implies
  | or
  | and
  | unary

def Formula.Priority.next : Formula.Priority → Formula.Priority
  | .iff => .implies
  | .implies => .or
  | .or => .and
  | .and => .unary
  | .unary => .unary

def Connective.priority : Connective → Formula.Priority
  | .iff => .iff
  | .implies => .implies
  | .or => .or
  | .and => .and

def Connective.groupsLeft : Connective → Bool
  | .iff => false
  | .implies => false
  | .or => true
  | .and => true

-- The lowest priority that needs no parentheses on the left.
def Connective.left (op : Connective) : Formula.Priority := bif op.groupsLeft then op.priority else op.priority.next

def Connective.right (op : Connective) : Formula.Priority := bif op.groupsLeft then op.priority.next else op.priority

def Constant.words : Constant → List String
  | .true => ["True", "TRUE"]
  | .false => ["False", "FALSE"]
  | .init => ["Init"]
  | .reachable => ["Reachable"]

namespace Formula

open Coalition.Text

def untilMarks (left : List Mark) (kind : Until) (right : List Mark) : List Mark :=
  left ++ .word kind.letter :: (right ++ [.word "]"])

-- The marks of a formula, where connectives of the given priority or a higher one stand outside parentheses.
inductive Written : Priority → Formula → List Mark → Prop where
  | constant {value : Constant} {word : String} (listed : word ∈ value.words) : Written .unary (.constant value) [.word word]
  | atom (text : String) : Written .unary (.atom text) [.name text]
  | not {body : Formula} {ms : List Mark} {word : String} (negation : word ∈ ["~", "!"]) (operand : Written .unary body ms) :
      Written .unary (.not body) (.word word :: ms)
  | path {body : Formula} {ms : List Mark} (quantifier : Quantifier) (modality : Modality) (operand : Written .unary body ms) :
      Written .unary (.path quantifier modality body) (.word (quantifier.letter ++ modality.letter) :: ms)
  | pathUntil {l r : Formula} {left right : List Mark} (quantifier : Quantifier) (kind : Until) (first : Written .iff l left)
      (second : Written .iff r right) :
      Written .unary (.pathUntil quantifier kind l r) (.word quantifier.letter :: .word "[" :: untilMarks left kind right)
  | agentKnows {body : Formula} {ms : List Mark} (certainty : Certainty) (agent : String) (operand : Written .unary body ms) :
      Written .unary (.agentKnows certainty agent body)
        (.word (certainty.mark ++ "K") :: .word "<" :: .name agent :: .word ">" :: ms)
  | groupKnows {body : Formula} {ms : List Mark} (certainty : Certainty) (sharing : Sharing) (names : List String)
      (operand : Written .unary body ms) :
      Written .unary (.groupKnows certainty sharing names body)
        (.word (certainty.mark ++ sharing.letter) :: .word "<" :: (groupMarks names ++ .word ">" :: ms))
  | strategic {body : Formula} {ms : List Mark} (ability : Ability) (names : List String) (modality : Modality)
      (operand : Written .unary body ms) :
      Written .unary (.strategic ability names modality body)
        (.word ability.opening :: (groupMarks names ++ .word ability.closing :: .word modality.letter :: ms))
  | strategicUntil {l r : Formula} {left right : List Mark} (ability : Ability) (names : List String) (kind : Until)
      (first : Written .iff l left) (second : Written .iff r right) :
      Written .unary (.strategicUntil ability names kind l r)
        (.word ability.opening :: (groupMarks names ++ .word ability.closing :: .word "[" :: untilMarks left kind right))
  | parentheses {f : Formula} {ms : List Mark} (inside : Written .iff f ms) : Written .unary f (.word "(" :: (ms ++ [.word ")"]))
  | binary {l r : Formula} {left right : List Mark} (op : Connective) (first : Written op.left l left)
      (second : Written op.right r right) : Written op.priority (.binary op l r) (left ++ .word op.sign :: right)
  | higher {p : Priority} {f : Formula} {ms : List Mark} (above : Written p.next f ms) : Written p f ms

theorem Written.anywhere {f : Formula} {ms : List Mark} (written : Written .unary f ms) : ∀ p, Written p f ms
  | .unary => written
  | .and => .higher written
  | .or => .higher (.higher written)
  | .implies => .higher (.higher (.higher written))
  | .iff => .higher (.higher (.higher (.higher written)))

def Mark.isSolid : Mark → Bool
  | .blank => false
  | _ => true

@[simp] theorem blank_is_solid : Mark.blank.isSolid = false := rfl

@[simp] theorem word_is_solid (text : String) : (Mark.word text).isSolid = true := rfl

@[simp] theorem name_is_solid (text : String) : (Mark.name text).isSolid = true := rfl

theorem solid_group (names : List String) : (groupMarks names).filter Mark.isSolid = groupMarks names := by
  induction names with
  | nil => rfl
  | cons name more ih =>
      cases more with
      | nil => rfl
      | cons other more => simp only [groupMarks, List.filter_cons, word_is_solid, name_is_solid, ih, if_true]

theorem printed_written (f : Formula) : Written .unary f (f.marks.filter Mark.isSolid) := by
  induction f with
  | constant value => exact .constant (by cases value <;> decide)
  | atom text => exact .atom text
  | not body ih => exact .not (by decide) ih
  | binary op left right leftIh rightIh =>
      have inside : Written op.priority (.binary op left right) _ := .binary op (leftIh.anywhere _) (rightIh.anywhere _)
      have outside : Written .iff (.binary op left right) (left.marks.filter Mark.isSolid ++ .word op.sign :: right.marks.filter Mark.isSolid) := by
        cases op with
        | iff => exact inside
        | implies => exact .higher inside
        | or => exact .higher (.higher inside)
        | and => exact .higher (.higher (.higher inside))
      simpa [List.filter_cons, marks, pairMarks] using Written.parentheses outside
  | path quantifier modality body ih => simpa [List.filter_cons, marks] using ih.path quantifier modality
  | pathUntil quantifier kind left right leftIh rightIh =>
      simpa [List.filter_cons, marks, pairMarks, untilMarks] using
        (leftIh.anywhere .iff).pathUntil quantifier kind (rightIh.anywhere .iff)
  | agentKnows certainty agent body ih => simpa [List.filter_cons, marks] using ih.agentKnows certainty agent
  | groupKnows certainty sharing names body ih =>
      simpa [List.filter_cons, marks, solid_group] using ih.groupKnows certainty sharing names
  | strategic ability names modality body ih =>
      simpa [List.filter_cons, marks, solid_group] using ih.strategic ability names modality
  | strategicUntil ability names kind left right leftIh rightIh =>
      simpa [List.filter_cons, marks, pairMarks, untilMarks, solid_group] using
        (leftIh.anywhere .iff).strategicUntil ability names kind (rightIh.anywhere .iff)

theorem spells_solid {ms : List Mark} {ts rest : List Token} (spelled : Spells ms ts rest) : Spells (ms.filter Mark.isSolid) ts rest := by
  induction ms generalizing ts with
  | nil => exact spelled
  | cons m ms ih =>
      obtain ⟨us, leads, later⟩ := spelled
      cases m with
      | blank =>
          obtain rfl : ts = us := leads
          exact ih later
      | word text => exact ⟨us, leads, ih later⟩
      | name text => exact ⟨us, leads, ih later⟩

theorem written_names {p : Priority} {f : Formula} {ms : List Mark} (written : Written p f ms) : markNames ms = f.names := by
  induction written <;> simp_all [names, marks, pairMarks, untilMarks, Mark.names, group_names]

def Mark.isLettered : Mark → Bool
  | .word text => isName text
  | _ => false

-- A text of some marks, with white space around them. Between two words there is some.
inductive Spaced : List Mark → List Char → Prop where
  | ends {blanks : List Char} (spaces : ∀ c ∈ blanks, isSpace c = true) : Spaced [] blanks
  | more {blanks rest : List Char} {m : Mark} {ms : List Mark} (spaces : ∀ c ∈ blanks, isSpace c = true)
      (apart : m.isLettered = true → ms.head?.any Mark.isLettered = true → rest.head?.any isSpace = true) (later : Spaced ms rest) :
      Spaced (m :: ms) (blanks ++ (m.chars ++ rest))

def HasText (f : Formula) (text : String) : Prop := ∃ ms, Written .iff f ms ∧ Spaced ms text.toList

def isSpaced : List Mark → List Char → Bool
  | [], text => text.all isSpace
  | m :: ms, text =>
      let unread := text.dropWhile isSpace
      let rest := unread.drop m.chars.length
      let apart := !(m.isLettered && ms.head?.any Mark.isLettered) || rest.head?.any isSpace
      unread.take m.chars.length == m.chars && apart && isSpaced ms rest

theorem spaced_of_is_spaced {ms : List Mark} {text : List Char} (check : isSpaced ms text = true) : Spaced ms text := by
  induction ms generalizing text with
  | nil => exact .ends (List.all_eq_true.mp check)
  | cons m ms ih =>
      simp only [isSpaced, Bool.and_eq_true, beq_iff_eq] at check
      obtain ⟨⟨taken, apart⟩, later⟩ := check
      have blanks : ∀ c ∈ text.takeWhile isSpace, isSpace c = true := fun c listed => List.mem_takeWhile_imp listed
      have read : m.chars ++ (text.dropWhile isSpace).drop m.chars.length = text.dropWhile isSpace :=
        List.prefix_iff_eq_append.mp (List.prefix_iff_eq_take.mpr taken.symm)
      have between : m.isLettered = true → ms.head?.any Mark.isLettered = true →
          ((text.dropWhile isSpace).drop m.chars.length).head?.any isSpace = true := by
        intro first second
        rwa [first, second, Bool.true_and, Bool.not_true, Bool.false_or] at apart
      have spaced := Spaced.more blanks between (ih later)
      rwa [read, List.takeWhile_append_dropWhile] at spaced

def signWords : List String := ["~", "!", "(", ")", "[", "]", ",", ">", "&", "|", "->", "<->"]

-- A mark that is read on its own. The sign `<` becomes no arrow, as a name is the next mark.
def Mark.Fits : Mark → Option Mark → Prop
  | .blank, _ => False
  | .word text, next => isName text = true ∨ text ∈ signWords ∨ text = "<" ∧ ∃ name, next = some (.name name)
  | .name _, _ => True

def Regular : List Mark → Prop
  | [] => True
  | m :: ms => m.Fits ms.head? ∧ Regular ms

theorem Mark.Fits.anywhere {m : Mark} (fits : m.Fits none) (next : Option Mark) : m.Fits next := by
  cases m with
  | blank => exact fits
  | name text => trivial
  | word text =>
      obtain letters | sign | ⟨_, _, none⟩ := fits
      · exact .inl letters
      · exact .inr (.inl sign)
      · cases none

theorem Regular.append {as bs : List Mark} (first : Regular as) (second : Regular bs) : Regular (as ++ bs) := by
  induction as with
  | nil => exact second
  | cons m as ih =>
      obtain ⟨fits, later⟩ := first
      refine ⟨?_, ih later⟩
      cases as with
      | nil => exact fits.anywhere _
      | cons n as => exact fits

theorem regular_sign {sign : String} (listed : sign ∈ signWords) {ms : List Mark} (later : Regular ms) : Regular (.word sign :: ms) :=
  ⟨.inr (.inl listed), later⟩

theorem regular_letters {word : String} (letters : isName word = true) {ms : List Mark} (later : Regular ms) : Regular (.word word :: ms) :=
  ⟨.inl letters, later⟩

theorem regular_until {left right : List Mark} (first : Regular left) (kind : Until) (second : Regular right) :
    Regular (untilMarks left kind right) :=
  first.append (regular_letters (by cases kind <;> decide) (second.append (regular_sign (by decide) trivial)))

theorem regular_group : ∀ names, Regular (groupMarks names)
  | [] => trivial
  | [_] => ⟨trivial, trivial⟩
  | _ :: other :: more => ⟨trivial, regular_sign (by decide) (regular_group (other :: more))⟩

theorem regular_bracketed (ability : Ability) {names : List String} (some : names ≠ []) {ms : List Mark} (later : Regular ms) :
    Regular (.word ability.opening :: (groupMarks names ++ .word ability.closing :: ms)) := by
  refine ⟨?_, (regular_group names).append (regular_sign (by cases ability <;> decide) later)⟩
  cases ability with
  | cannotAvoid => exact .inr (.inl (by decide))
  | canForce =>
      obtain - | ⟨name, - | ⟨other, more⟩⟩ := names
      · exact absurd rfl some
      · exact .inr (.inr ⟨rfl, name, rfl⟩)
      · exact .inr (.inr ⟨rfl, name, rfl⟩)

theorem regular_written {p : Priority} {f : Formula} {ms : List Mark} (written : Written p f ms) (grouped : f.Grouped) : Regular ms := by
  induction written with
  | @constant value word listed =>
      refine regular_letters ?_ trivial
      cases value <;> unfold Constant.words at listed <;> fin_cases listed <;> decide
  | atom text => exact ⟨trivial, trivial⟩
  | not negation operand ih => exact regular_sign (by fin_cases negation <;> decide) (ih grouped)
  | path quantifier modality operand ih => exact regular_letters (by cases quantifier <;> cases modality <;> decide) (ih grouped)
  | pathUntil quantifier kind first second firstIh secondIh =>
      exact regular_letters (by cases quantifier <;> decide)
        (regular_sign (by decide) (regular_until (firstIh grouped.1) kind (secondIh grouped.2)))
  | agentKnows certainty agent operand ih =>
      exact regular_letters (by cases certainty <;> decide) (regular_bracketed .canForce (List.cons_ne_nil agent []) (ih grouped.2))
  | groupKnows certainty sharing names operand ih =>
      exact regular_letters (by cases certainty <;> cases sharing <;> decide) (regular_bracketed .canForce grouped.1 (ih grouped.2))
  | strategic ability names modality operand ih =>
      exact regular_bracketed ability grouped.1 (regular_letters (by cases modality <;> decide) (ih grouped.2))
  | strategicUntil ability names kind first second firstIh secondIh =>
      exact regular_bracketed ability grouped.1
        (regular_sign (by decide) (regular_until (firstIh grouped.2.1) kind (secondIh grouped.2.2)))
  | parentheses inside ih => exact regular_sign (by decide) ((ih grouped).append (regular_sign (by decide) trivial))
  | binary op first second firstIh secondIh =>
      exact (firstIh grouped.1).append (regular_sign (by cases op <;> decide) (secondIh grouped.2))
  | higher above ih => exact ih grouped

theorem first_of_letters {text : String} (letters : isName text = true) : ∃ c cs, text.toList = c :: cs ∧ startsName c = true := by
  unfold isName at letters
  cases shape : text.toList with
  | nil => simp [shape] at letters
  | cons c cs =>
      rw [shape, Bool.and_eq_true] at letters
      exact ⟨c, cs, rfl, letters.1⟩

def signChars : List Char := ['~', '!', '(', ')', '[', ']', ',', '>', '&', '|', '-', '<', '\'']

theorem first_of_fits {m : Mark} {next : Option Mark} (fits : m.Fits next) : ∃ c cs, m.chars = c :: cs ∧
    (m.isLettered = true ∧ startsName c = true ∨ c ∈ signChars) := by
  cases m with
  | blank => exact absurd fits id
  | name text => exact ⟨'\'', _, rfl, .inr (by decide)⟩
  | word text =>
      obtain letters | sign | ⟨rfl, _⟩ := fits
      · obtain ⟨c, cs, shape, starts⟩ := first_of_letters letters
        exact ⟨c, cs, shape, .inl ⟨letters, starts⟩⟩
      · have shapes : ∀ word ∈ signWords, word.toList.head?.any signChars.contains = true := by decide
        have first := shapes text sign
        cases shape : text.toList with
        | nil =>
            rw [shape] at first
            cases first
        | cons c cs =>
            rw [shape] at first
            exact ⟨c, cs, shape, .inr (List.contains_iff_mem.mp first)⟩
      · exact ⟨'<', [], rfl, .inr (by decide)⟩

theorem Spaced.first {ms : List Mark} {text : List Char} (spaced : Spaced ms text) (regular : Regular ms) :
    ∀ c ∈ text.head?, isSpace c = true ∨ ∃ m cs, ms.head? = some m ∧ m.chars = c :: cs ∧
      (m.isLettered = true ∧ startsName c = true ∨ c ∈ signChars) := by
  intro c head
  cases spaced with
  | ends spaces => exact .inl (spaces c (List.mem_of_mem_head? head))
  | @more blanks rest m ms spaces apart later =>
      cases blanks with
      | cons blank blanks =>
          obtain rfl := Option.some.inj head
          exact .inl (spaces _ List.mem_cons_self)
      | nil =>
          obtain ⟨d, cs, shape, kind⟩ := first_of_fits regular.1
          rw [List.nil_append, shape] at head
          obtain rfl := Option.some.inj head
          exact .inr ⟨m, cs, rfl, shape, kind⟩

theorem Spaced.whole {m : Mark} {ms : List Mark} {rest : List Char} (fits : m.Fits ms.head?) (regular : Regular ms)
    (apart : m.isLettered = true → ms.head?.any Mark.isLettered = true → rest.head?.any isSpace = true) (later : Spaced ms rest) :
    m.Whole rest := by
  cases m with
  | blank => trivial
  | name text => trivial
  | word text =>
      have start := later.first regular
      obtain letters | sign | ⟨rfl, name, named⟩ := fits
      · -- what stands behind a word is white space, a sign or a quote
        refine whole_of_is_name letters fun d head => ?_
        have blank : isSpace d = true → continuesName d = false := fun space => by
          have listed : d ∈ [' ', '\t', '\n', '\r'] := by simpa [isSpace, or_assoc] using space
          fin_cases listed <;> decide
        obtain space | ⟨n, cs, first, _, ⟨lettered, _⟩ | listed⟩ := start d head
        · exact blank space
        · have space := apart letters (by rw [first]; exact lettered)
          rw [Option.mem_def.mp head] at space
          exact blank space
        · unfold signChars at listed
          fin_cases listed <;> decide
      · fin_cases sign
        all_goals first | exact .sign (by decide) | exact .implies | exact .iff
      · refine .opening fun arrow => ?_
        obtain space | ⟨n, cs, first, shape, _⟩ := start '-' arrow
        · exact absurd space (by decide)
        · obtain rfl := Option.some.inj (named.symm.trans first)
          exact absurd (List.cons.inj shape).1 (by decide)

theorem passes_spaces (firstLine : Int) {blanks rest : List Char} (spaces : ∀ c ∈ blanks, isSpace c = true) {s : Scanner}
    (start : s.cursor.unread = blanks ++ rest) : ∃ s', s'.cursor.unread = rest ∧ s.Passes firstLine [] s' := by
  induction blanks generalizing s with
  | nil => exact ⟨s, start, rfl, Iff.rfl, fun _ quiet => quiet⟩
  | cons blank blanks ih =>
      obtain ⟨s', behind, first⟩ := passes_space firstLine (spaces blank List.mem_cons_self) start
      obtain ⟨s'', done, second⟩ := ih (fun c listed => spaces c (List.mem_cons_of_mem _ listed)) behind
      exact ⟨s'', done, first.trans second⟩

theorem Spaced.passes (firstLine : Int) {ms : List Mark} {text : List Char} (spaced : Spaced ms text) (regular : Regular ms)
    (plain : PlainNames (markNames ms)) {s : Scanner} (start : s.cursor.unread = text) :
    ∃ s', s'.cursor.unread = [] ∧ s.Passes firstLine ms s' := by
  induction spaced generalizing s with
  | ends spaces => exact passes_spaces firstLine spaces (start.trans (List.append_nil _).symm)
  | more spaces apart later ih =>
      rw [mark_names_cons] at plain
      obtain ⟨fits, regular⟩ := regular
      obtain ⟨s₁, here, blanks⟩ := passes_spaces firstLine spaces start
      obtain ⟨s₂, behind, mark⟩ := passes_mark firstLine here (Spaced.whole fits regular apart later) fun name listed =>
        plain name (List.mem_append_left _ listed)
      obtain ⟨s₃, done, others⟩ := ih regular (fun name listed => plain name (List.mem_append_right _ listed)) behind
      exact ⟨s₃, done, blanks.trans (mark.trans others)⟩

theorem Spaced.no_nul {ms : List Mark} {text : List Char} (spaced : Spaced ms text) (regular : Regular ms)
    (plain : ∀ name ∈ markNames ms, nul ∉ name.toList) : nul ∉ text := by
  have blank {blanks : List Char} (spaces : ∀ c ∈ blanks, isSpace c = true) : nul ∉ blanks := fun listed =>
    absurd (spaces nul listed) (by decide)
  induction spaced with
  | ends spaces => exact blank spaces
  | @more blanks rest m ms spaces apart later ih =>
      rw [mark_names_cons] at plain
      have others := ih regular.2 fun name listed => plain name (List.mem_append_right _ listed)
      have here : nul ∉ m.chars := by
        have whole := Spaced.whole regular.1 regular.2 apart later
        cases m with
        | blank => decide
        | word text => exact Whole.nul_not_mem whole
        | name text =>
            have inside : nul ∉ text.toList := plain text List.mem_cons_self
            simp [Mark.chars, inside, (by decide : nul ≠ '\'')]
      simp [blank spaces, here, others]

theorem Spaced.unmarked {ms : List Mark} {text : List Char} (spaced : Spaced ms text) (regular : Regular ms) :
    ∀ c ∈ text.head?, c.toNat ≠ 0xFEFF := by
  rintro c head mark
  obtain rfl : c = Char.ofNat 0xFEFF := by rw [← mark, Char.ofNat_toNat]
  obtain space | ⟨_, _, _, _, ⟨_, starts⟩ | listed⟩ := spaced.first regular _ head
  · exact absurd space (by decide)
  · exact absurd starts (by decide +kernel)
  · exact absurd listed (by decide)

theorem Spaced.tokens (firstLine : Int) {ms : List Mark} {text : List Char} (spaced : Spaced ms text) (regular : Regular ms)
    (plain : PlainNames (markNames ms)) (quiet : ∀ name ∈ markNames ms, nul ∉ name.toList) :
    faultSoFar (Formula.tokens firstLine text) = none ∧
      ∃ last, Spells ms (Formula.tokens firstLine text) [last] ∧ last.isEnd = true ∧ last.fault = none := by
  obtain ⟨s, same, unread, clear⟩ := scanner_of_text firstLine (spaced.unmarked regular)
  obtain ⟨s', done, passes⟩ := spaced.passes firstLine regular plain unread
  obtain ⟨last, one, ends, fault⟩ := s'.tokens_end firstLine done
  have clear := clear.mpr (spaced.no_nul regular quiet)
  have silent : last.fault = none := fault.trans (passes.clear.mp clear).1
  have spelled := passes.spells
  have first := passes.quiet clear
  rw [same, one] at spelled first
  exact ⟨first silent, last, spelled, ends, silent⟩

end Formula

end Coalition
