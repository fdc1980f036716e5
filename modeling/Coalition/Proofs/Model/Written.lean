import Mathlib.Data.List.TakeWhile
import Mathlib.Tactic.FinCases
import Coalition.Model.Expression.Parser
import Coalition.Proofs.Model.Token

-- The texts of an expression have parentheses at least where the priorities ask for them, white space where one likes, and values as
-- names or in quotation marks.

set_option autoImplicit false

namespace Coalition.Expression

open Coalition.Text

def isName (word : String) : Bool :=
  match word.toList with
  | [] => false
  | c :: cs => startsName c && cs.all continuesName

inductive Mark where
  | word (text : String)
  | quotation (text : String)
  | sign (c : Char)
  | arrow
  | call

def Mark.chars : Mark → List Char
  | .word text => text.toList
  | .quotation text => '"' :: (text.toList ++ ['"'])
  | .sign c => [c]
  | .arrow => ['-', '>']
  | .call => ['n', 'e', 'x', 't', '(']

def signChars : List Char := ['(', ')', '&', '|', '~', '!', '=', '<', '\x7b', '\x7d', ',']

-- The mark is read whole before the rest of a text: no name goes on behind it, and no quotation has an end inside it.
def Mark.Whole : Mark → List Char → Prop
  | .word text, rest => isName text = true ∧ ∀ d ∈ rest.head?, continuesName d = false
  | .quotation text, _ => Quotable text.toList
  | .sign c, _ => c ∈ signChars
  | .arrow, _ => True
  | .call, _ => True

-- A text of some marks, with white space around them.
inductive Spaced : List Mark → List Char → Prop where
  | ends {blanks : List Char} (spaces : ∀ c ∈ blanks, isSpace c = true) : Spaced [] blanks
  | more {blanks rest : List Char} {m : Mark} {ms : List Mark} (spaces : ∀ c ∈ blanks, isSpace c = true) (whole : m.Whole rest)
      (later : Spaced ms rest) : Spaced (m :: ms) (blanks ++ (m.chars ++ rest))

def Mark.isWhole : Mark → List Char → Bool
  | .word text, rest => isName text && !rest.head?.any continuesName
  | .quotation text, _ => text.toList.all fun c => c != '"' && c != '\\' && c != '\n' && c != nul
  | .sign c, _ => signChars.contains c
  | .arrow, _ => true
  | .call, _ => true

theorem Mark.whole_iff {m : Mark} {rest : List Char} : m.Whole rest ↔ m.isWhole rest = true := by
  cases m with
  | word text => cases rest <;> simp [Whole, isWhole]
  | quotation text => simp [Whole, isWhole, Quotable, and_assoc]
  | sign c => simp [Whole, isWhole]
  | arrow => simp [Whole, isWhole]
  | call => simp [Whole, isWhole]

def isSpaced : List Mark → List Char → Bool
  | [], text => text.all isSpace
  | m :: ms, text =>
      let unread := text.dropWhile isSpace
      let rest := unread.drop m.chars.length
      unread.take m.chars.length == m.chars && m.isWhole rest && isSpaced ms rest

theorem spaced_of_is_spaced {ms : List Mark} {text : List Char} (check : isSpaced ms text = true) : Spaced ms text := by
  induction ms generalizing text with
  | nil => exact .ends (List.all_eq_true.mp check)
  | cons m ms ih =>
      simp only [isSpaced, Bool.and_eq_true, beq_iff_eq] at check
      obtain ⟨⟨taken, whole⟩, later⟩ := check
      have blanks : ∀ c ∈ text.takeWhile isSpace, isSpace c = true := fun c listed => List.mem_takeWhile_imp listed
      have read : m.chars ++ (text.dropWhile isSpace).drop m.chars.length = text.dropWhile isSpace :=
        List.prefix_iff_eq_append.mp (List.prefix_iff_eq_take.mpr taken.symm)
      have spaced := Spaced.more blanks (Mark.whole_iff.mpr whole) (ih later)
      rwa [read, List.takeWhile_append_dropWhile] at spaced

def readingMarks (r : Reading) : List Mark :=
  if r.next then [.call, .word r.var.name, .sign ')'] else [.word r.var.name]

inductive ValueMark (domain : List String) (index : Nat) : Mark → Prop where
  | word {value : String} (listed : domain[index]? = some value) : ValueMark domain index (.word value)
  | quotation {value : String} (listed : domain[index]? = some value) : ValueMark domain index (.quotation value)

inductive ValueMarks (domain : List String) : List Nat → List Mark → Prop where
  | one {index : Nat} {m : Mark} (value : ValueMark domain index m) : ValueMarks domain [index] [m]
  | more {index : Nat} {m : Mark} {indices : List Nat} {ms : List Mark} (value : ValueMark domain index m)
      (later : ValueMarks domain indices ms) : ValueMarks domain (index :: indices) (m :: .sign ',' :: ms)

inductive Sides : Expression → List Mark → List Mark → Prop where
  | value {r : Reading} {index : Nat} {m : Mark} (valued : ValueMark r.var.domain index m) :
      Sides (.isValue r index) (readingMarks r) [m]
  | reversed {r : Reading} {index : Nat} {m : Mark} (valued : ValueMark r.var.domain index m) :
      Sides (.isValue r index) [m] (readingMarks r)
  | same (left right : Reading) : Sides (.same left right) (readingMarks left) (readingMarks right)

inductive Priority where
  | iff
  | implies
  | or
  | and
  | unary

def constantWords (value : Bool) : List String := if value then ["true", "TRUE"] else ["false", "FALSE"]

-- The marks of an expression, where an operator of the given priority or a higher one stands outside parentheses.
inductive Written : Priority → Expression → List Mark → Prop where
  | constant {value : Bool} {word : String} (listed : word ∈ constantWords value) : Written .unary (.constant value) [.word word]
  | boolean {r : Reading} (boolean : r.var.domain = ["false", "true"]) : Written .unary (.isValue r 1) (readingMarks r)
  | named (name : String) : Written .unary (.named name) [.word name]
  | equal {e : Expression} {left right : List Mark} (sides : Sides e left right) : Written .unary e (left ++ .sign '=' :: right)
  | differs {e : Expression} {left right : List Mark} (sides : Sides e left right) :
      Written .unary (.not e) (left ++ .sign '!' :: .sign '=' :: right)
  | among {r : Reading} {indices : List Nat} {ms : List Mark} (values : ValueMarks r.var.domain indices ms) :
      Written .unary (.isAmong r indices) (readingMarks r ++ .word "in" :: .sign '\x7b' :: (ms ++ [.sign '\x7d']))
  | not {e : Expression} {ms : List Mark} {c : Char} (negation : c ∈ ['~', '!']) (body : Written .unary e ms) :
      Written .unary (.not e) (.sign c :: ms)
  | parentheses {e : Expression} {ms : List Mark} (body : Written .iff e ms) : Written .unary e (.sign '(' :: (ms ++ [.sign ')']))
  | product {e : Expression} {ms : List Mark} (higher : Written .unary e ms) : Written .and e ms
  | and {l r : Expression} {left right : List Mark} (first : Written .and l left) (second : Written .and r right) :
      Written .and (.and l r) (left ++ .sign '&' :: right)
  | sum {e : Expression} {ms : List Mark} (higher : Written .and e ms) : Written .or e ms
  | or {l r : Expression} {left right : List Mark} (first : Written .or l left) (second : Written .or r right) :
      Written .or (.or l r) (left ++ .sign '|' :: right)
  | consequence {e : Expression} {ms : List Mark} (higher : Written .or e ms) : Written .implies e ms
  | implies {l r : Expression} {left right : List Mark} (first : Written .or l left) (second : Written .implies r right) :
      Written .implies (.implies l r) (left ++ .arrow :: right)
  | equivalence {e : Expression} {ms : List Mark} (higher : Written .implies e ms) : Written .iff e ms
  | iff {l r : Expression} {left right : List Mark} (first : Written .implies l left) (second : Written .iff r right) :
      Written .iff (.iff l r) (left ++ .sign '<' :: .arrow :: right)

def HasText (e : Expression) (text : String) : Prop := ∃ ms, Written .iff e ms ∧ Spaced ms text.toList

-- The current token has this text, and the end comes later. A parenthesis right behind it is the next token.
def Leads (text : String) (ts us : List Token) : Prop :=
  ∃ t, ts = t :: us ∧ us ≠ [] ∧ t.isEnd = false ∧ t.text = text ∧ (t.ahead = some '(' → at? "(" us = true)

def Mark.Leads : Mark → List Token → List Token → Prop
  | .word text, ts, us => isName text = true ∧ Expression.Leads text ts us
  | .quotation text, ts, us => Quotable text.toList ∧ Expression.Leads (String.ofList ('"' :: (text.toList ++ ['"']))) ts us
  | .sign c, ts, us => Expression.Leads (String.singleton c) ts us
  | .arrow, ts, us => Expression.Leads "->" ts us
  | .call, ts, vs => ∃ t us, ts = t :: us ∧ t.isEnd = false ∧ t.text = "next" ∧ t.ahead = some '(' ∧ Expression.Leads "(" us vs

def Spells : List Mark → List Token → List Token → Prop
  | [], ts, rest => ts = rest
  | m :: ms, ts, rest => ∃ us, m.Leads ts us ∧ Spells ms us rest

theorem spells_append {as bs : List Mark} {ts rest : List Token} :
    Spells (as ++ bs) ts rest ↔ ∃ us, Spells as ts us ∧ Spells bs us rest := by
  induction as generalizing ts with
  | nil => simp [Spells]
  | cons m as ih => simp only [List.cons_append, Spells, ih]; grind

theorem cons_of_name {word : String} (name : isName word = true) :
    ∃ c cs, word.toList = c :: cs ∧ startsName c = true ∧ ∀ d ∈ cs, continuesName d = true := by
  unfold isName at name
  cases shape : word.toList with
  | nil => simp [shape] at name
  | cons c cs =>
      rw [shape, Bool.and_eq_true, List.all_eq_true] at name
      exact ⟨c, cs, rfl, name.1, name.2⟩

theorem tokens_from_ne_nil (fuel : Nat) (complaint : Option String) (cursor : Cursor) : tokensFrom (fuel + 1) complaint cursor ≠ [] := by
  simp only [tokensFrom]
  split <;> exact List.cons_ne_nil _ _

section

variable {rest : List Char} (quiet : nul ∉ rest)

include quiet

theorem still (p : Position) : complainAhead rest p = [] := complain_ahead_nil.mpr (no_nul_ahead.mpr quiet).1

theorem takes_word {word : String} (name : isName word = true) (stops : ∀ d ∈ rest.head?, continuesName d = false) (p : Position) :
    Takes word ⟨word.toList ++ rest, p⟩ rest := by
  obtain ⟨c, cs, shape, starts, continues⟩ := cons_of_name name
  have read : Cursor.lexeme lexemeRules ⟨c :: (cs ++ rest), p⟩ = _ := lexeme_name p (solid_of_starts (by decide) starts) starts continues stops
  rw [← List.cons_append, ← shape] at read
  have taken := takes_of_lexeme read LexemeKind.noConfusion (still quiet p) fun minus => by
    obtain ⟨rfl, _⟩ := List.cons.inj (shape.symm.trans minus)
    exact absurd starts (by decide)
  rwa [String.ofList_toList] at taken

theorem takes_quotation {text : List Char} (quotable : Quotable text) (p : Position) :
    Takes (String.ofList ('"' :: (text ++ ['"']))) ⟨'"' :: (text ++ '"' :: rest), p⟩ rest :=
  takes_of_lexeme (lexeme_quotation p quotable (by decide)) LexemeKind.noConfusion (still quiet p) (by simp)

theorem takes_sign {c : Char} (listed : c ∈ signChars) (p : Position) : Takes (String.singleton c) ⟨c :: rest, p⟩ rest := by
  refine takes_lone ?_ (no_nul_ahead.mpr quiet).1 p
  unfold signChars at listed
  fin_cases listed <;> decide

theorem takes_arrow (p : Position) : Takes "->" ⟨'-' :: '>' :: rest, p⟩ rest := by
  have read : Cursor.lexeme lexemeRules ⟨'-' :: '>' :: rest, p⟩ = _ := lexeme_sign p (by decide) (by decide) (by decide) (by decide)
  have minus : (Cursor.lexeme lexemeRules ⟨'-' :: '>' :: rest, p⟩).1.text = ['-'] := by rw [read]
  obtain ⟨q, next⟩ := next_token_arrow none minus (by rw [read])
  refine ⟨_, q, next, rfl, rfl, rfl, ?_⟩
  rw [read, still quiet q]
  rfl

theorem Takes.leads {text : String} {cursor : Cursor} (takes : Takes text cursor rest) {fuel : Nat} (enough : cursor.unread.length < fuel) :
    ∃ t fuel' q, rest.length < fuel' ∧ tokensFrom fuel none cursor = t :: tokensFrom fuel' none ⟨rest, q⟩ ∧ t.isEnd = false ∧
      t.text = text ∧ t.ahead = rest.head? ∧ Leads text (tokensFrom fuel none cursor) (tokensFrom fuel' none ⟨rest, q⟩) := by
  obtain ⟨t, q, next, goesOn, same, ahead, silent⟩ := takes
  have shorter := next_token_shorter none cursor (by rw [next]; exact goesOn)
  rw [next] at shorter
  obtain ⟨fuel, rfl⟩ : ∃ more, fuel = more + 2 := ⟨fuel - 2, by dsimp only at shorter; omega⟩
  have shape : tokensFrom (fuel + 2) none cursor = t :: tokensFrom (fuel + 1) none ⟨rest, q⟩ := by
    rw [tokensFrom]
    simp [next, goesOn, silent]
  refine ⟨t, fuel + 1, q, Nat.lt_of_lt_of_le shorter (Nat.le_of_lt_succ enough), shape, goesOn, same, ahead, t, shape,
    tokens_from_ne_nil _ _ _, goesOn, same, fun parenthesis => ?_⟩
  obtain ⟨more, rfl⟩ := List.head?_eq_some_iff.mp (ahead.symm.trans parenthesis)
  obtain ⟨u, q', nextToo, goesOnToo, opens, _⟩ := takes_sign (fun inside => quiet (List.mem_cons_of_mem _ inside)) (by decide : '(' ∈ signChars) q
  have word : u.text = "(" := opens
  simp [tokensFrom, nextToo, goesOnToo, at?, word]

end

theorem Mark.Whole.no_nul {m : Mark} {rest : List Char} (whole : m.Whole rest) : nul ∉ m.chars := by
  cases m with
  | word text =>
      obtain ⟨c, cs, shape, starts, continues⟩ := cons_of_name whole.1
      rw [Mark.chars, shape]
      rintro (_ | ⟨_, listed⟩)
      · exact absurd starts (by decide)
      · exact absurd (continues nul listed) (by decide)
  | quotation text =>
      intro listed
      have inside : nul ∈ text.toList := by simpa [Mark.chars, (by decide : nul ≠ '"')] using listed
      exact (whole nul inside).2.2.2 rfl
  | sign c =>
      have listed : c ∈ signChars := whole
      unfold signChars at listed
      fin_cases listed <;> decide
  | arrow => decide
  | call => decide

theorem Spaced.no_nul {ms : List Mark} {text : List Char} (spaced : Spaced ms text) : nul ∉ text := by
  have blank {blanks : List Char} (spaces : ∀ c ∈ blanks, isSpace c = true) : nul ∉ blanks := fun listed =>
    absurd (spaces nul listed) (by decide)
  induction spaced with
  | ends spaces => exact blank spaces
  | more spaces whole _ ih => simp [blank spaces, whole.no_nul, ih]

theorem mark_leads {m : Mark} {blanks rest : List Char} (spaces : ∀ c ∈ blanks, isSpace c = true) (whole : m.Whole rest) (quiet : nul ∉ rest)
    (p : Position) {fuel : Nat} (enough : (blanks ++ (m.chars ++ rest)).length < fuel) :
    ∃ fuel' q, rest.length < fuel' ∧ m.Leads (tokensFrom fuel none ⟨blanks ++ (m.chars ++ rest), p⟩) (tokensFrom fuel' none ⟨rest, q⟩) := by
  have ahead : (m.chars ++ rest).head? ≠ some nul := (no_nul_ahead.mpr (by simp [whole.no_nul, quiet])).1
  cases m with
  | word text =>
      have takes := Takes.spaced (takes_word quiet whole.1 whole.2) spaces ahead p
      obtain ⟨_, fuel', q, less, _, _, _, _, leads⟩ := takes.leads quiet enough
      exact ⟨fuel', q, less, whole.1, leads⟩
  | quotation text =>
      have shape : (Mark.quotation text).chars ++ rest = '"' :: (text.toList ++ '"' :: rest) := by simp [Mark.chars]
      rw [shape] at ahead enough ⊢
      have takes := Takes.spaced (takes_quotation quiet whole) spaces ahead p
      obtain ⟨_, fuel', q, less, _, _, _, _, leads⟩ := takes.leads quiet enough
      exact ⟨fuel', q, less, whole, leads⟩
  | sign c =>
      have takes := Takes.spaced (takes_sign quiet whole) spaces ahead p
      obtain ⟨_, fuel', q, less, _, _, _, _, leads⟩ := takes.leads quiet enough
      exact ⟨fuel', q, less, leads⟩
  | arrow =>
      have takes := Takes.spaced (takes_arrow quiet) spaces ahead p
      obtain ⟨_, fuel', q, less, _, _, _, _, leads⟩ := takes.leads quiet enough
      exact ⟨fuel', q, less, leads⟩
  | call =>
      have quietToo : nul ∉ '(' :: rest := by simp [quiet, (by decide : nul ≠ '(')]
      have takes := Takes.spaced (takes_word quietToo (by decide : isName "next" = true) (by rintro _ ⟨⟩; decide)) spaces ahead p
      obtain ⟨t, fuel', q, less, shape, goesOn, word, next, _⟩ := takes.leads quietToo enough
      obtain ⟨_, fuel'', q', lessToo, _, _, _, _, leads⟩ := (takes_sign quiet (by decide : '(' ∈ signChars) q).leads quiet less
      exact ⟨fuel'', q', lessToo, t, _, shape, goesOn, word, next, leads⟩

theorem Spaced.unmarked {ms : List Mark} {text : List Char} (spaced : Spaced ms text) : text.head? ≠ some (Char.ofNat 0xFEFF) := by
  have blank {blanks : List Char} (spaces : ∀ c ∈ blanks, isSpace c = true) : Char.ofNat 0xFEFF ∉ blanks := fun listed =>
    absurd (spaces _ listed) (by decide)
  intro head
  cases spaced with
  | ends spaces => exact blank spaces (List.mem_of_mem_head? head)
  | @more blanks rest m ms spaces whole later =>
      rw [List.head?_append, Option.or_eq_some_iff] at head
      obtain here | ⟨_, there⟩ := head
      · exact blank spaces (List.mem_of_mem_head? here)
      · cases m with
        | word text =>
            obtain ⟨c, cs, shape, starts, _⟩ := cons_of_name whole.1
            rw [Mark.chars, shape] at there
            cases there
            exact absurd starts (by decide +kernel)
        | quotation text => exact absurd (Option.some.inj there) (by decide)
        | sign c =>
            have listed : c ∈ signChars := whole
            cases there
            exact absurd listed (by decide)
        | arrow => exact absurd (Option.some.inj there) (by decide)
        | call => exact absurd (Option.some.inj there) (by decide)

theorem Spaced.spells {ms : List Mark} {text : List Char} (spaced : Spaced ms text) (p : Position) {fuel : Nat} (enough : text.length < fuel) :
    ∃ last, last.isEnd = true ∧ last.complaint = none ∧ Spells ms (tokensFrom fuel none ⟨text, p⟩) [last] := by
  induction spaced generalizing p fuel with
  | @ends blanks spaces =>
      obtain ⟨fuel, rfl⟩ : ∃ more, fuel = more + 1 := ⟨fuel - 1, by omega⟩
      obtain ⟨q, same⟩ := next_token_spaces none spaces (by simp : ([] : List Char).head? ≠ some nul) p
      rw [List.append_nil] at same
      have next : nextToken none ⟨blanks, p⟩ = (⟨"", true, some q, none, none⟩, ⟨[], q⟩) := same
      refine ⟨⟨"", true, some q, none, none⟩, rfl, rfl, ?_⟩
      simp [Spells, tokensFrom, next]
  | more spaces whole later ih =>
      obtain ⟨fuel', q, less, leads⟩ := mark_leads spaces whole later.no_nul p enough
      obtain ⟨last, ends, quiet, spelled⟩ := ih q less
      exact ⟨last, ends, quiet, _, leads, spelled⟩

theorem Spaced.tokens {ms : List Mark} {text : String} (spaced : Spaced ms text.toList) :
    ∃ last, last.isEnd = true ∧ last.complaint = none ∧ Spells ms (Expression.tokens text.toList) [last] := by
  have start : Cursor.ofText text.toList = (⟨text.toList, 1, 1⟩, []) := by
    have unmarked := spaced.unmarked
    have quiet := still spaced.no_nul ⟨1, 1⟩
    cases shape : text.toList with
    | nil => rfl
    | cons c rest =>
        rw [shape] at quiet unmarked
        have other : c.toNat ≠ 0xFEFF := fun mark => unmarked (by rw [List.head?_cons, ← Char.ofNat_toNat c, mark])
        simp [Cursor.ofText, other, quiet]
  have same : Expression.tokens text.toList = tokensFrom (text.toList.length + 1) none ⟨text.toList, 1, 1⟩ := by
    simp only [Expression.tokens, start, firstComplaint]
    rfl
  rw [same]
  exact spaced.spells _ (Nat.lt_succ_self _)

end Coalition.Expression
