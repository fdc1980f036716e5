import Mathlib.Tactic.FinCases
import Coalition.Formula.Parser
import Coalition.Proofs.Text.Lexeme

-- How tokens come off the front of a text: a word is read whole when nothing behind it belongs to it, a name up to its first quote, and
-- what is left of the text gets shorter until the end.

set_option autoImplicit false

namespace Coalition.Formula

open Coalition.Text

theorem note_fault_none {firstLine : Int} {token : String} {fault : Option ParseError} {said : List Complaint} :
    noteFault firstLine token fault said = none ↔ fault = none ∧ said = [] := by
  cases fault <;> cases said <;> simp [noteFault]

theorem note_fault_append {firstLine : Int} {token : String} {fault : Option ParseError} {said more : List Complaint} :
    noteFault firstLine token fault (said ++ more) = noteFault firstLine token (noteFault firstLine token fault said) more := by
  cases fault <;> cases said <;> simp [noteFault]

def Stops (rest : List Char) : Prop := ∀ d ∈ rest.head?, continuesName d = false

theorem stops_cons {c : Char} {rest : List Char} (stops : continuesName c = false) : Stops (c :: rest) := by
  rintro _ ⟨⟩
  exact stops

inductive Whole : List Char → List Char → Prop where
  | name {c : Char} {cs rest : List Char} (starts : startsName c = true) (continues : ∀ d ∈ cs, continuesName d = true)
      (stops : Stops rest) : Whole (c :: cs) rest
  | sign {c : Char} {rest : List Char} (listed : c ∈ ['~', '!', '(', ')', '[', ']', ',', '>', '&', '|']) : Whole [c] rest
  | opening {rest : List Char} (stops : rest.head? ≠ some '-') : Whole ['<'] rest
  | implies {rest : List Char} : Whole ['-', '>'] rest
  | iff {rest : List Char} : Whole ['<', '-', '>'] rest

theorem whole_of_is_name {word : String} {rest : List Char} (name : isName word = true) (stops : Stops rest) :
    Whole word.toList rest := by
  unfold isName at name
  cases shape : word.toList with
  | nil => simp [shape] at name
  | cons c cs =>
      rw [shape, Bool.and_eq_true, List.all_eq_true] at name
      exact .name name.1 name.2 stops

theorem Whole.nul_not_mem {word rest : List Char} (whole : Whole word rest) : nul ∉ word := by
  cases whole with
  | name starts continues stops =>
      rintro (_ | ⟨_, listed⟩)
      · exact absurd starts (by decide)
      · exact absurd (continues nul listed) (by decide)
  | sign listed =>
      rintro (_ | ⟨_, ⟨⟩⟩)
      exact absurd listed (by decide)
  | opening => decide
  | implies => decide
  | iff => decide

section

variable {rest : List Char} (p : Position)

theorem lexeme_name {c : Char} {cs : List Char} (starts : startsName c = true) (continues : ∀ d ∈ cs, continuesName d = true)
    (stops : Stops rest) :
    Cursor.lexeme lexemeRules ⟨c :: (cs ++ rest), p⟩ =
      (⟨.name, c :: cs, p, complainAhead rest p⟩, ⟨rest, (c :: cs).foldl Position.after p⟩) :=
  Text.lexeme_name p (solid_of_starts (by decide) starts) starts continues stops

theorem lexeme_sign {c : Char} (plain : startsName c = false) (solid : isSpace c = false) (other : c ≠ '"') :
    Cursor.lexeme lexemeRules ⟨c :: rest, p⟩ = (⟨.sign, [c], p, complainAhead rest p⟩, ⟨rest, p.after c⟩) :=
  Text.lexeme_sign p plain solid other rfl

variable {word : List Char} (firstLine : Int) (previous : String) (fault : Option ParseError)

theorem next_token_word (whole : Whole word rest) :
    ∃ t q, nextToken firstLine previous fault ⟨word ++ rest, p⟩ = (t, ⟨rest, q⟩) ∧ t.isEnd = false ∧ t.isQuoted = false ∧
      t.text = String.ofList word ∧ (t.fault = none ↔ fault = none ∧ rest.head? ≠ some nul) := by
  cases whole with
  | name starts continues stops =>
      simp only [nextToken, List.cons_append, lexeme_name p starts continues stops]
      exact ⟨_, _, rfl, rfl, rfl, rfl, by simp [note_fault_none, complain_ahead_nil]⟩
  | @sign c _ listed =>
      have shape : startsName c = false ∧ isSpace c = false ∧ c ≠ '"' ∧ c ≠ '\'' ∧ c ≠ '-' ∧ c ≠ '<' := by
        fin_cases listed <;> decide
      obtain ⟨plain, solid, other, noQuote, noArrow, noOpening⟩ := shape
      simp only [nextToken, List.cons_append, List.nil_append, lexeme_sign p plain solid other]
      split <;> simp_all [note_fault_none, complain_ahead_nil]
  | opening stops =>
      simp only [nextToken, List.cons_append, List.nil_append, lexeme_sign p (by decide : startsName '<' = false) (by decide) (by decide)]
      split <;> simp_all [note_fault_none, complain_ahead_nil]
  | implies =>
      simp only [nextToken, List.cons_append, List.nil_append, lexeme_sign p (by decide : startsName '-' = false) (by decide) (by decide)]
      exact ⟨_, _, rfl, rfl, rfl, rfl, by simp [note_fault_none, complain_ahead_nil, nul]⟩
  | iff =>
      simp only [nextToken, List.cons_append, List.nil_append, lexeme_sign p (by decide : startsName '<' = false) (by decide) (by decide)]
      exact ⟨_, _, rfl, rfl, rfl, rfl, by simp [note_fault_none, complain_ahead_nil, nul]⟩

theorem read_quoted_go {name : List Char} (plain : '\'' ∉ name) (taken : List Char) (said : List Complaint) :
    ∃ q heard, readQuoted.go (name ++ '\'' :: rest) p taken said = (some (taken.reverse ++ name), ⟨rest, q⟩, said ++ heard) ∧
      (heard = [] ↔ nul ∉ name.tail ∧ rest.head? ≠ some nul) := by
  induction name generalizing p taken said with
  | nil =>
      refine ⟨p.after '\'', complainAhead rest (p.after '\''), ?_, ?_⟩
      · simp [readQuoted.go]
      · simp [complain_ahead_nil]
  | cons c name ih =>
      obtain ⟨other, plain⟩ := List.ne_and_not_mem_of_not_mem_cons plain
      obtain ⟨q, heard, reads, quiet⟩ := ih (p.after c) plain (c :: taken) (said ++ complainAhead (name ++ '\'' :: rest) (p.after c))
      refine ⟨q, complainAhead (name ++ '\'' :: rest) (p.after c) ++ heard, ?_, ?_⟩
      · simpa [readQuoted.go, other.symm] using reads
      · rw [List.append_eq_nil_iff, complain_ahead_nil, quiet]
        cases name with
        | nil => simp [nul]
        | cons d name => simp [eq_comm, and_assoc]

theorem next_token_name {name : List Char} (plain : '\'' ∉ name) :
    ∃ t q, nextToken firstLine previous fault ⟨'\'' :: (name ++ '\'' :: rest), p⟩ = (t, ⟨rest, q⟩) ∧ t.isEnd = false ∧
      t.isQuoted = true ∧ t.text = String.ofList name ∧ (t.fault = none ↔ fault = none ∧ nul ∉ name ∧ rest.head? ≠ some nul) := by
  obtain ⟨q, heard, reads, quiet⟩ := @read_quoted_go rest (p.after '\'') name plain [] []
  simp only [nextToken, lexeme_sign p (by decide : startsName '\'' = false) (by decide) (by decide), readQuoted, reads]
  refine ⟨_, _, rfl, rfl, rfl, rfl, ?_⟩
  simp only [note_fault_none, complain_ahead_nil, List.nil_append, quiet, and_assoc]
  cases name with
  | nil => simp [nul]
  | cons c name => simp [eq_comm, and_assoc]

theorem next_token_space {space : Char} (blank : isSpace space = true) :
    nextToken firstLine previous fault ⟨space :: rest, p⟩ =
      nextToken firstLine previous (noteFault firstLine previous fault (complainAhead rest (p.after space))) ⟨rest, p.after space⟩ := by
  simp only [nextToken, lexeme_space lexemeRules blank, note_fault_append]

theorem next_token_end :
    ∃ t q, nextToken firstLine previous fault ⟨[], p⟩ = (t, ⟨[], q⟩) ∧ t.isEnd = true ∧ t.fault = fault := by
  refine ⟨_, _, rfl, rfl, ?_⟩
  cases fault <;> rfl

end

theorem read_quoted_length (cs : List Char) (p : Position) (taken : List Char) (said : List Complaint) :
    (readQuoted.go cs p taken said).2.1.unread.length ≤ cs.length := by
  induction cs generalizing p taken said with
  | nil => simp [readQuoted.go]
  | cons c cs ih =>
      simp only [readQuoted.go]
      split
      · exact Nat.le_succ _
      · exact Nat.le_succ_of_le (ih ..)

theorem next_token_shorter (firstLine : Int) (previous : String) (fault : Option ParseError) (cursor : Cursor)
    (more : (nextToken firstLine previous fault cursor).1.isEnd = false) :
    (nextToken firstLine previous fault cursor).2.unread.length < cursor.unread.length := by
  have shorter := lexeme_shorter lexemeRules cursor
  revert more
  simp only [nextToken]
  generalize cursor.lexeme lexemeRules = result at shorter ⊢
  obtain ⟨lexeme, behind⟩ := result
  dsimp only at shorter ⊢
  -- by the kind of the lexeme: the arrows and a name in quotes take more characters behind it
  split
  · exact fun more => absurd more.symm Bool.false_ne_true
  · rename_i kind
    exact fun _ => shorter.resolve_left (by simp [kind])
  · rename_i kind _
    have shorter := shorter.resolve_left (by simp [kind])
    have within := read_quoted_length behind.unread behind.position [] []
    rw [← readQuoted] at within
    split <;> rename_i reads <;> rw [reads] at within
    · exact fun _ => Nat.lt_of_le_of_lt within shorter
    · exact fun more => absurd more.symm Bool.false_ne_true
  · rename_i kind _ unread
    have shorter := shorter.resolve_left (by simp [kind])
    rw [unread] at shorter
    exact fun _ => Nat.lt_of_succ_lt shorter
  · rename_i kind _ unread
    have shorter := shorter.resolve_left (by simp [kind])
    rw [unread] at shorter
    split
    · exact fun _ => Nat.lt_of_succ_lt (Nat.lt_of_succ_lt shorter)
    · exact fun _ => Nat.lt_of_succ_lt shorter
  · rename_i other _ _ _ _
    exact fun _ => shorter.resolve_left other

inductive Closed : List Token → Prop where
  | last {t : Token} (ends : t.isEnd = true) : Closed [t]
  | more {t : Token} {ts : List Token} (goesOn : t.isEnd = false) (later : Closed ts) : Closed (t :: ts)

theorem closed_tokens_from (firstLine : Int) {fuel : Nat} (previous : String) (fault : Option ParseError) {cursor : Cursor}
    (enough : cursor.unread.length < fuel) : Closed (tokensFrom firstLine fuel previous fault cursor) := by
  induction fuel generalizing previous fault cursor with
  | zero => exact absurd enough (Nat.not_lt_zero _)
  | succ fuel ih =>
      simp only [tokensFrom]
      split
      · exact .last ‹_›
      · rename_i more
        rw [Bool.not_eq_true] at more
        exact .more more (ih _ _ (Nat.lt_of_lt_of_le (next_token_shorter _ _ _ _ more) (Nat.le_of_lt_succ enough)))

theorem Closed.ne_nil {ts : List Token} (closed : Closed ts) : ts ≠ [] := by
  cases closed <;> exact List.cons_ne_nil _ _

structure Scanner where
  fuel : Nat
  previous : String
  fault : Option ParseError
  cursor : Cursor
  enough : cursor.unread.length < fuel

def Scanner.tokens (firstLine : Int) (s : Scanner) : List Token := tokensFrom firstLine s.fuel s.previous s.fault s.cursor

def Scanner.Clear (s : Scanner) : Prop := s.fault = none ∧ nul ∉ s.cursor.unread

def Leads (quoted : Bool) (text : String) (ts us : List Token) : Prop :=
  ∃ t, ts = t :: us ∧ us ≠ [] ∧ t.isEnd = false ∧ t.isQuoted = quoted ∧ t.text = text

theorem leads_of_next {firstLine : Int} {s : Scanner} {t : Token} {behind : Cursor}
    (next : nextToken firstLine s.previous s.fault s.cursor = (t, behind)) (more : t.isEnd = false)
    (clear : s.Clear ↔ t.fault = none ∧ nul ∉ behind.unread) :
    ∃ s' : Scanner, s'.cursor = behind ∧ Leads t.isQuoted t.text (s.tokens firstLine) (s'.tokens firstLine) ∧
      (s.Clear ↔ s'.Clear) ∧ (s.Clear → faultSoFar (s.tokens firstLine) = none) := by
  obtain ⟨fuel, previous, fault, cursor, enough⟩ := s
  cases fuel with
  | zero => exact absurd enough (Nat.not_lt_zero _)
  | succ fuel =>
      dsimp only at next
      have shorter := next_token_shorter firstLine previous fault cursor (by rw [next]; exact more)
      rw [next] at shorter
      have enough : behind.unread.length < fuel := Nat.lt_of_lt_of_le shorter (Nat.le_of_lt_succ enough)
      have shape : tokensFrom firstLine (fuel + 1) previous fault cursor = t :: tokensFrom firstLine fuel t.text t.fault behind := by
        simp [tokensFrom, next, more]
      refine ⟨⟨fuel, t.text, t.fault, behind, enough⟩, rfl, ?_, clear, fun quiet => ?_⟩
      · exact ⟨t, shape, (closed_tokens_from _ _ _ enough).ne_nil, more, rfl, rfl⟩
      · rw [Scanner.tokens, shape]
        exact (clear.mp quiet).1

theorem Scanner.tokens_end (firstLine : Int) (s : Scanner) (done : s.cursor.unread = []) :
    ∃ t, s.tokens firstLine = [t] ∧ t.isEnd = true ∧ t.fault = s.fault := by
  obtain ⟨fuel, previous, fault, ⟨unread, p⟩, enough⟩ := s
  obtain rfl : unread = [] := done
  obtain ⟨t, q, next, ends, same⟩ := next_token_end p firstLine previous fault
  cases fuel with
  | zero => exact absurd enough (Nat.not_lt_zero _)
  | succ fuel => exact ⟨t, by simp [Scanner.tokens, tokensFrom, next, ends], ends, same⟩

theorem closed_tokens (firstLine : Int) (text : List Char) : Closed (Formula.tokens firstLine text) := by
  have within : (Cursor.ofText text).1.unread.length ≤ text.length := by
    cases text with
    | nil => exact Nat.le_refl _
    | cons c rest =>
        simp only [Cursor.ofText]
        split
        · exact Nat.le_succ _
        · exact Nat.le_refl _
  exact closed_tokens_from _ _ _ (Nat.lt_succ_of_le within)

theorem scanner_of_text (firstLine : Int) {text : List Char} (unmarked : ∀ c ∈ text.head?, c.toNat ≠ 0xFEFF) :
    ∃ s : Scanner, s.tokens firstLine = Formula.tokens firstLine text ∧ s.cursor.unread = text ∧ (s.Clear ↔ nul ∉ text) := by
  have start : Cursor.ofText text = (⟨text, 1, 1⟩, complainAhead text ⟨1, 1⟩) := by
    cases text with
    | nil => rfl
    | cons c rest => simp [Cursor.ofText, unmarked c rfl]
  refine ⟨⟨text.length + 1, "", noteFault firstLine "" none (complainAhead text ⟨1, 1⟩), ⟨text, 1, 1⟩, Nat.lt_succ_self _⟩, ?_, rfl, ?_⟩
  · simp only [Scanner.tokens, Formula.tokens, start]
  · simp [Scanner.Clear, note_fault_none, complain_ahead_nil, no_nul_ahead]

end Coalition.Formula
