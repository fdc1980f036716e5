import Mathlib.Data.Bool.AllAny
import Mathlib.Data.List.TakeWhile
import Coalition.Text.Lexeme

-- Every lexeme but the end takes a character, and one that is read without complaint is read in the same way when something else stands
-- behind it that it does not go on with.

set_option autoImplicit false

namespace Coalition.Text

theorem complain_ahead_nil {unread : List Char} {position : Position} : complainAhead unread position = [] ↔ unread.head? ≠ some nul := by
  simp [complainAhead]

theorem no_nul_ahead {rest : List Char} : rest.head? ≠ some nul ∧ nul ∉ rest ↔ nul ∉ rest :=
  and_iff_right_of_imp fun none head => none (List.mem_of_mem_head? head)

theorem lexeme_space (rules : LexemeRules) {space : Char} (blank : isSpace space = true) (rest : List Char) (p : Position) :
    Cursor.lexeme rules ⟨space :: rest, p⟩ =
      let next := Cursor.lexeme rules ⟨rest, p.after space⟩
      ({ next.1 with complaints := complainAhead rest (p.after space) ++ next.1.complaints }, next.2) := by
  cases rest with
  | nil => simp [Cursor.lexeme, blank, complainAhead]
  | cons c rest =>
      by_cases solid : isSpace c = true
      · have other : c ≠ nul := by
          rintro rfl
          exact absurd solid (by decide)
        simp [Cursor.lexeme, blank, solid, complainAhead, other]
      · simp only [Cursor.lexeme, List.takeWhile_cons, List.dropWhile_cons, blank, solid]
        simp only [if_true, if_false, Bool.false_eq_true, List.isEmpty_cons, List.isEmpty_nil, List.foldl_cons, List.foldl_nil, List.nil_append]
        split_ifs <;> simp

theorem solid_of_starts {starts : Char → Bool} (blanks : [' ', '\t', '\n', '\r'].any starts = false) {c : Char} (here : starts c = true) :
    isSpace c = false := by
  rw [Bool.eq_false_iff]
  intro space
  have listed : c ∈ [' ', '\t', '\n', '\r'] := by simpa [isSpace, or_assoc] using space
  exact List.any_eq_false.mp blanks c listed here

section

variable {rules : LexemeRules} {c : Char} {rest : List Char} (p : Position)

theorem lexeme_name {cs : List Char} (solid : isSpace c = false) (starts : rules.startsName c = true)
    (continues : ∀ d ∈ cs, rules.continuesName d = true) (stops : ∀ d ∈ rest.head?, rules.continuesName d = false) :
    Cursor.lexeme rules ⟨c :: (cs ++ rest), p⟩ =
      (⟨.name, c :: cs, p, complainAhead rest p⟩, ⟨rest, (c :: cs).foldl Position.after p⟩) := by
  have none : rest.takeWhile rules.continuesName = [] ∧ rest.dropWhile rules.continuesName = rest := by
    cases rest with
    | nil => exact ⟨rfl, rfl⟩
    | cons d rest => simp [stops d rfl]
  simp [Cursor.lexeme, solid, starts, List.takeWhile_append_of_pos continues, List.dropWhile_append_of_pos continues, none]

theorem lexeme_sign (plain : rules.startsName c = false) (solid : isSpace c = false) (other : c ≠ '"')
    (digitless : (rules.numbers && c.isDigit) = false) :
    Cursor.lexeme rules ⟨c :: rest, p⟩ = (⟨.sign, [c], p, complainAhead rest p⟩, ⟨rest, p.after c⟩) := by
  simp [Cursor.lexeme, solid, plain, other, digitless]

theorem lexeme_spaces {blanks : List Char} (spaces : ∀ c ∈ blanks, isSpace c = true) (quiet : rest.head? ≠ some nul) :
    ∃ q, Cursor.lexeme rules ⟨blanks ++ rest, p⟩ = Cursor.lexeme rules ⟨rest, q⟩ := by
  induction blanks generalizing p with
  | nil => exact ⟨p, rfl⟩
  | cons space blanks ih =>
      obtain ⟨blank, later⟩ := List.forall_mem_cons.mp spaces
      have still : (blanks ++ rest).head? ≠ some nul := by
        cases blanks with
        | nil => exact quiet
        | cons c blanks =>
            rintro ⟨⟩
            exact absurd (later nul List.mem_cons_self) (by decide)
      obtain ⟨q, same⟩ := ih (p.after space) later
      refine ⟨q, ?_⟩
      rw [List.cons_append, lexeme_space rules blank, complain_ahead_nil.mpr still]
      exact same

def Quotable (text : List Char) : Prop := ∀ c ∈ text, c ≠ '"' ∧ c ≠ '\\' ∧ c ≠ '\n' ∧ c ≠ nul

theorem read_quotation_plain {text : List Char} (quotable : Quotable text) :
    readQuotation .plain (text ++ '"' :: rest) [] = ('"' :: rest, []) := by
  induction text with
  | nil => simp [readQuotation, QuotationState.settle, nul]
  | cons c text ih =>
      obtain ⟨⟨mark, escape, line, other⟩, later⟩ := List.forall_mem_cons.mp quotable
      simpa [readQuotation, QuotationState.settle, QuotationState.step, mark, escape, line, other] using ih later

theorem quotation_text (text : List Char) : ('"' :: (text ++ '"' :: rest)).take ((text ++ '"' :: rest).length + 1 - rest.length) =
    '"' :: (text ++ ['"']) := by
  have length : (text ++ '"' :: rest).length + 1 - rest.length = ('"' :: (text ++ ['"'])).length := by
    simp only [List.length_append, List.length_cons, List.length_nil]
    omega
  have shape : '"' :: (text ++ '"' :: rest) = ('"' :: (text ++ ['"'])) ++ rest := by simp
  rw [length, shape, List.take_left]

theorem lexeme_quotation {text : List Char} (quotable : Quotable text) (starts : rules.startsName '"' = false) :
    Cursor.lexeme rules ⟨'"' :: (text ++ '"' :: rest), p⟩ =
      (⟨.quotation, '"' :: (text ++ ['"']), p, complainAhead rest p⟩, ⟨rest, ('"' :: (text ++ ['"'])).foldl Position.after p⟩) := by
  have solid : isSpace '"' = false := by decide
  have digitless : '"'.isDigit = false := by decide
  simp only [Cursor.lexeme, List.takeWhile_cons, List.dropWhile_cons, solid, starts, digitless, Bool.and_false, Bool.false_eq_true, if_false,
    if_true, read_quotation_plain quotable, List.drop_succ_cons, List.drop_zero, quotation_text, List.foldl_nil, List.isEmpty_nil,
    List.map_nil, List.nil_append]

end

theorem read_quotation_length (state : QuotationState) (cs : List Char) (said : List String) :
    (readQuotation state cs said).1.length ≤ cs.length := by
  induction cs generalizing state said with
  | nil => simp [readQuotation]
  | cons c cs ih =>
      have later (state : QuotationState) (said : List String) : (readQuotation state cs said).1.length ≤ (c :: cs).length :=
        Nat.le_succ_of_le (ih state said)
      simp only [readQuotation]
      split
      · split
        · exact Nat.le_refl _
        · split
          · exact Nat.le_refl _
          · exact later _ _
      · exact later _ _

theorem radix_of_cons (c : Char) (rest : List Char) :
    radixOf (c :: rest) = (.decimal, c :: rest) ∨ (radixOf (c :: rest)).2.length ≤ rest.length := by
  unfold radixOf
  split
  · rename_i d later same
    obtain ⟨rfl, rfl⟩ := List.cons.inj same
    refine .inr ?_
    split_ifs <;> simp
  · rename_i same
    obtain ⟨rfl, rfl⟩ := List.cons.inj same
    exact .inr (Nat.le_refl _)
  · exact .inl rfl

theorem read_number_shorter {c : Char} (digit : c.isDigit = true) (rest : List Char) :
    (readNumber (c :: rest)).2.1.length ≤ rest.length := by
  simp only [readNumber]
  obtain decimal | shorter := radix_of_cons c rest
  · simp only [decimal]
    rw [List.dropWhile_cons_of_pos (by simp [digit])]
    exact (List.dropWhile_suffix _).length_le
  · exact Nat.le_trans (List.dropWhile_suffix _).length_le shorter

theorem lexeme_shorter (rules : LexemeRules) (cursor : Cursor) :
    (cursor.lexeme rules).1.kind = .ending ∨ (cursor.lexeme rules).2.unread.length < cursor.unread.length := by
  have solid : (cursor.unread.dropWhile isSpace).length ≤ cursor.unread.length := (List.dropWhile_suffix _).length_le
  simp only [Cursor.lexeme]
  split
  · exact .inl rfl
  · rename_i c rest shape
    rw [shape, List.length_cons] at solid
    refine .inr (Nat.lt_of_lt_of_le (Nat.lt_succ_of_le ?_) solid)
    split
    · exact (List.dropWhile_suffix _).length_le
    · split
      · rename_i number
        exact read_number_shorter ((Bool.and_eq_true _ _).mp number).2 rest
      · split
        · exact Nat.le_trans (List.drop_suffix _ _).length_le (read_quotation_length _ _ _)
        · exact Nat.le_refl _

theorem lexeme_ending {rules : LexemeRules} {cursor : Cursor} (ends : (cursor.lexeme rules).1.kind = .ending) :
    (cursor.lexeme rules).1.text = [] ∧ (cursor.lexeme rules).2.unread = [] := by
  simp only [Cursor.lexeme] at ends ⊢
  split at ends
  · exact ⟨rfl, rfl⟩
  · split_ifs at ends

theorem lexeme_ending_blank {rules : LexemeRules} {cursor : Cursor} (ends : (cursor.lexeme rules).1.kind = .ending) :
    ∀ c ∈ cursor.unread, isSpace c = true := by
  simp only [Cursor.lexeme] at ends
  split at ends
  · rename_i none
    exact List.dropWhile_eq_nil_iff.mp none
  · split_ifs at ends

def closers : List Char := ['(', ')', '\'', ' ']

-- Another text stands behind a lexeme: it starts with the same character, or with one that the lexeme does not go on with.
def Exchanged (rest restToo : List Char) : Prop := restToo.head? = rest.head? ∨ ∃ c ∈ closers, restToo.head? = some c

theorem exchanged_append (run : List Char) {rest restToo : List Char} (exchanged : Exchanged rest restToo) :
    Exchanged (run ++ rest) (run ++ restToo) := by
  cases run with
  | nil => exact exchanged
  | cons c run => exact .inl rfl

section

variable {p : Char → Bool} (stops : ∀ c ∈ closers, p c = false)

include stops

theorem take_while_exchanged {xs restToo : List Char} (exchanged : Exchanged (xs.dropWhile p) restToo) :
    (xs.takeWhile p ++ restToo).takeWhile p = xs.takeWhile p ∧ (xs.takeWhile p ++ restToo).dropWhile p = restToo := by
  have stopped : ∀ c ∈ restToo.head?, p c = false := by
    intro c here
    obtain same | ⟨d, sign, head⟩ := exchanged
    · rw [same] at here
      have last := List.head?_dropWhile_not p xs
      rw [here] at last
      exact last
    · rw [head] at here
      cases here
      exact stops c sign
  have none : restToo.takeWhile p = [] ∧ restToo.dropWhile p = restToo := by
    cases restToo with
    | nil => exact ⟨rfl, rfl⟩
    | cons c restToo => simp [stopped c rfl]
  have all : ∀ c ∈ xs.takeWhile p, p c = true := fun c => List.mem_takeWhile_imp
  simp [List.takeWhile_append_of_pos all, List.dropWhile_append_of_pos all, none]

end

theorem radix_of_exchanged {cs : List Char} (some : cs ≠ []) : ∃ front, cs = front ++ (radixOf cs).2 ∧
    ∀ bodyToo, Exchanged (radixOf cs).2 bodyToo → radixOf (front ++ bodyToo) = ((radixOf cs).1, bodyToo) := by
  obtain - | ⟨c, rest⟩ := cs
  · exact absurd rfl some
  · by_cases zero : c = '0'
    · subst zero
      by_cases based : ∃ d r, rest = d :: r ∧ (d = 'x' ∨ d = 'X' ∨ d = 'o' ∨ d = 'O' ∨ d = 'b' ∨ d = 'B')
      · -- the letter belongs to the number, whatever stands behind it
        obtain ⟨d, r, rfl, letter⟩ := based
        refine ⟨['0', d], ?_, fun bodyToo _ => ?_⟩
        · obtain rfl | rfl | rfl | rfl | rfl | rfl := letter <;> rfl
        · obtain rfl | rfl | rfl | rfl | rfl | rfl := letter <;> rfl
      · have leading {body : List Char} (plain : ∀ d ∈ body.head?, ¬ (d = 'x' ∨ d = 'X' ∨ d = 'o' ∨ d = 'O' ∨ d = 'b' ∨ d = 'B')) :
            radixOf ('0' :: body) = (.leadingZero, body) := by
          cases body with
          | nil => rfl
          | cons d body =>
              have other := plain d rfl
              simp only [not_or] at other
              simp [radixOf, other]
        have plain : ∀ d ∈ rest.head?, ¬ (d = 'x' ∨ d = 'X' ∨ d = 'o' ∨ d = 'O' ∨ d = 'b' ∨ d = 'B') := by
          intro d head letter
          obtain ⟨r, rfl⟩ := List.head?_eq_some_iff.mp head
          exact based ⟨d, r, rfl, letter⟩
        rw [leading plain]
        refine ⟨['0'], rfl, fun bodyToo exchanged => leading fun d head => ?_⟩
        obtain same | ⟨e, sign, here⟩ := exchanged
        · exact plain d (same ▸ head)
        · cases here.symm.trans head
          exact (List.all_iff_forall_prop.mp (by decide) : ∀ d ∈ closers, ¬ (d = 'x' ∨ d = 'X' ∨ d = 'o' ∨ d = 'O' ∨ d = 'b' ∨ d = 'B')) d sign
    · have decimal {d : Char} (other : d ≠ '0') (later : List Char) : radixOf (d :: later) = (.decimal, d :: later) := by
        cases later <;> simp [radixOf, other]
      rw [decimal zero]
      refine ⟨[], rfl, fun bodyToo exchanged => ?_⟩
      obtain same | ⟨d, sign, here⟩ := exchanged
      · obtain ⟨later, rfl⟩ := List.head?_eq_some_iff.mp same
        exact decimal zero later
      · obtain ⟨later, rfl⟩ := List.head?_eq_some_iff.mp here
        refine decimal ?_ later
        rintro rfl
        exact absurd sign (by decide)

section

variable (radix : Radix)

def inNumber (c : Char) : Bool := c == '_' || (if radix = .hexadecimal then isHexDigit c else c.isDigit)

theorem read_number_run (front run : List Char) : ∃ said, ∀ rest, radixOf (front ++ (run ++ rest)) = (radix, run ++ rest) →
    (run ++ rest).takeWhile (inNumber radix) = run → (run ++ rest).dropWhile (inNumber radix) = rest →
    readNumber (front ++ (run ++ rest)) = (front ++ run, rest, said) := by
  apply Exists.intro
  intro rest read takes drops
  have text : (front ++ (run ++ rest)).take ((front ++ (run ++ rest)).length - rest.length) = front ++ run := by
    rw [← List.append_assoc, List.length_append, Nat.add_sub_cancel, List.take_left]
  unfold inNumber at takes drops
  simp only [readNumber, read, takes, drops, text]
  rfl

end

theorem read_number_exchanged {cs restToo : List Char} (some : cs ≠ []) (exchanged : Exchanged (readNumber cs).2.1 restToo) :
    cs = (readNumber cs).1 ++ (readNumber cs).2.1 ∧
      readNumber ((readNumber cs).1 ++ restToo) = ((readNumber cs).1, restToo, (readNumber cs).2.2) := by
  obtain ⟨front, shape, same⟩ := radix_of_exchanged some
  obtain ⟨radix, body, read⟩ : ∃ radix body, radixOf cs = (radix, body) := ⟨_, _, rfl⟩
  rw [read] at shape same
  have stops : ∀ c ∈ closers, inNumber radix c = false := by cases radix <;> exact List.all_iff_forall_prop.mp (by decide)
  have split := List.takeWhile_append_dropWhile (p := inNumber radix) (l := body)
  obtain ⟨said, reads⟩ := read_number_run radix front (body.takeWhile (inNumber radix))
  have here := reads (body.dropWhile (inNumber radix))
  rw [split, ← shape] at here
  have number := here read rfl rfl
  rw [number] at exchanged ⊢
  refine ⟨by rw [shape, List.append_assoc, split], ?_⟩
  have again := take_while_exchanged stops exchanged
  rw [List.append_assoc]
  refine reads restToo ?_ again.1 again.2
  have appended := exchanged_append (body.takeWhile (inNumber radix)) exchanged
  rw [split] at appended
  exact same _ appended

theorem read_quotation_exchanged {state : QuotationState} {cs : List Char} {said : List String} (quiet : (readQuotation state cs said).2 = []) :
    ∃ body rest, cs = body ++ '"' :: rest ∧
      ∀ restToo, readQuotation state (body ++ '"' :: restToo) said = ('"' :: restToo, []) := by
  induction cs generalizing state said with
  | nil => simp [readQuotation] at quiet
  | cons c cs ih =>
      have later {next : QuotationState} {heard : List String} (quiet : (readQuotation next cs heard).2 = [])
          (step : ∀ more, readQuotation state (c :: more) said = readQuotation next more heard) : ∃ body rest, c :: cs = body ++ '"' :: rest ∧
            ∀ restToo, readQuotation state (body ++ '"' :: restToo) said = ('"' :: restToo, []) := by
        obtain ⟨body, rest, rfl, reads⟩ := ih quiet
        exact ⟨c :: body, rest, rfl, fun restToo => (step _).trans (reads restToo)⟩
      simp only [readQuotation] at quiet
      generalize heard : (if c = nul then said ++ [nulMessage] else said) ++ (state.settle c).2 = noted at quiet
      cases settled : (state.settle c).1 with
      | plain =>
          simp only [settled] at quiet
          by_cases closes : c = '"'
          · subst closes
            refine ⟨[], cs, rfl, fun restToo => ?_⟩
            rw [if_pos rfl] at quiet
            simp only [List.nil_append, readQuotation, settled, heard, if_true]
            exact congrArg _ quiet
          · rw [if_neg closes] at quiet
            by_cases newline : c = '\n'
            · rw [if_pos newline] at quiet
              exact absurd quiet (by simp)
            · rw [if_neg newline] at quiet
              exact later quiet fun more => by simp only [readQuotation, settled, heard, if_neg closes, if_neg newline]
      | escape =>
          simp only [settled] at quiet
          exact later quiet fun more => by simp only [readQuotation, settled, heard]
      | digits base left =>
          simp only [settled] at quiet
          exact later quiet fun more => by simp only [readQuotation, settled, heard]

structure Segment where
  kind : LexemeKind
  text : List Char
  rest : List Char
  said : List String

def LexemeRules.segment (rules : LexemeRules) (c : Char) (tail : List Char) : Segment :=
  if rules.startsName c then ⟨.name, c :: tail.takeWhile rules.continuesName, tail.dropWhile rules.continuesName, []⟩
  else if rules.numbers && c.isDigit then
    let (number, rest, said) := readNumber (c :: tail)
    ⟨.number, number, rest, said⟩
  else if c = '"' then
    let (ending, said) := readQuotation .plain tail []
    ⟨.quotation, (c :: tail).take (tail.length + 1 - (ending.drop 1).length), ending.drop 1, said⟩
  else ⟨.sign, [c], tail, []⟩

structure Segment.Read (segment : Segment) (ahead : Prop) (out : Lexeme × Cursor) : Prop where
  kind : out.1.kind = segment.kind
  text : out.1.text = segment.text
  unread : out.2.unread = segment.rest
  quiet : out.1.complaints = [] ↔ ahead ∧ segment.rest.head? ≠ some nul ∧ segment.said = []

section

variable {rules : LexemeRules} {c : Char} {tail : List Char}

theorem lexeme_segment {blanks : List Char} (spaces : ∀ b ∈ blanks, isSpace b = true) (solid : isSpace c = false) (p : Position) :
    (rules.segment c tail).Read (blanks = [] ∨ c ≠ nul) (Cursor.lexeme rules ⟨blanks ++ c :: tail, p⟩) := by
  have taken : (blanks ++ c :: tail).takeWhile isSpace = blanks := by simp [List.takeWhile_append_of_pos spaces, solid]
  have dropped : (blanks ++ c :: tail).dropWhile isSpace = c :: tail := by simp [List.dropWhile_append_of_pos spaces, solid]
  have before {start : Position} : (if blanks.isEmpty = true then [] else complainAhead (c :: tail) start) = [] ↔ blanks = [] ∨ c ≠ nul := by
    cases blanks <;> simp [complainAhead]
  simp only [Cursor.lexeme, taken, dropped, LexemeRules.segment]
  split
  · refine ⟨rfl, rfl, rfl, ?_⟩
    simp only [List.append_eq_nil_iff, before, complain_ahead_nil, and_true]
  · split
    · refine ⟨rfl, rfl, rfl, ?_⟩
      simp only [List.append_eq_nil_iff, List.map_eq_nil_iff, before, complain_ahead_nil, and_assoc]
    · split
      · refine ⟨rfl, rfl, rfl, ?_⟩
        simp only [List.append_eq_nil_iff, List.map_eq_nil_iff, before, complain_ahead_nil, and_assoc]
        rw [and_comm (a := _ = [])]
      · refine ⟨rfl, rfl, rfl, ?_⟩
        simp only [List.append_eq_nil_iff, before, complain_ahead_nil, and_true]

theorem number_exchanged (number : (rules.numbers && c.isDigit) = true) : ∃ more, tail = more ++ (readNumber (c :: tail)).2.1 ∧
    ∀ restToo, Exchanged (readNumber (c :: tail)).2.1 restToo →
      readNumber (c :: (more ++ restToo)) = ((readNumber (c :: tail)).1, restToo, (readNumber (c :: tail)).2.2) := by
  have shorter := read_number_shorter ((Bool.and_eq_true _ _).mp number).2 tail
  have reads {restToo : List Char} (exchanged : Exchanged (readNumber (c :: tail)).2.1 restToo) :=
    read_number_exchanged (List.cons_ne_nil c tail) exchanged
  obtain ⟨shape, _⟩ := reads (.inl rfl)
  generalize readNumber (c :: tail) = number at shorter reads shape ⊢
  obtain ⟨text, rest, said⟩ := number
  obtain - | ⟨d, more⟩ := text
  · rw [← List.nil_append rest, ← shape] at shorter
    exact absurd shorter (Nat.not_succ_le_self _)
  · obtain ⟨rfl, tails⟩ := List.cons.inj shape
    exact ⟨more, tails, fun restToo exchanged => (reads exchanged).2⟩

theorem segment_exchanged (stops : ∀ c ∈ closers, rules.continuesName c = false) (quiet : (rules.segment c tail).said = []) :
    ∃ more, tail = more ++ (rules.segment c tail).rest ∧ ∀ restToo, Exchanged (rules.segment c tail).rest restToo →
      rules.segment c (more ++ restToo) = { rules.segment c tail with rest := restToo } := by
  by_cases name : rules.startsName c = true
  · simp only [LexemeRules.segment, name, if_true]
    refine ⟨tail.takeWhile rules.continuesName, List.takeWhile_append_dropWhile.symm, fun restToo exchanged => ?_⟩
    obtain ⟨takes, drops⟩ := take_while_exchanged stops exchanged
    rw [takes, drops]
  · by_cases number : (rules.numbers && c.isDigit) = true
    · obtain ⟨more, shape, reads⟩ := @number_exchanged rules c tail number
      simp only [LexemeRules.segment, name, number, if_true, if_false, Bool.false_eq_true]
      exact ⟨more, shape, fun restToo exchanged => by rw [reads restToo exchanged]⟩
    · by_cases quotation : c = '"'
      · subst quotation
        simp only [LexemeRules.segment, name, number, if_true, if_false, Bool.false_eq_true] at quiet ⊢
        obtain ⟨text, rest, rfl, reads⟩ := read_quotation_exchanged quiet
        simp only [reads, List.drop_succ_cons, List.drop_zero, quotation_text]
        refine ⟨text ++ ['"'], by simp, fun restToo _ => ?_⟩
        simp only [List.append_assoc, List.cons_append, List.nil_append, reads, List.drop_succ_cons, List.drop_zero, quotation_text]
      · simp only [LexemeRules.segment, name, number, quotation, if_false, Bool.false_eq_true]
        exact ⟨[], rfl, fun restToo _ => rfl⟩

end

-- A lexeme without complaint is read in the same way when something else stands behind it.
theorem lexeme_exchanged {rules : LexemeRules} (stops : ∀ c ∈ closers, rules.continuesName c = false) {u : List Char} {p : Position}
    (other : (Cursor.lexeme rules ⟨u, p⟩).1.kind ≠ .ending) (quiet : (Cursor.lexeme rules ⟨u, p⟩).1.complaints = []) :
    (Cursor.lexeme rules ⟨u, p⟩).2.unread.head? ≠ some nul ∧ ∃ front, u = front ++ (Cursor.lexeme rules ⟨u, p⟩).2.unread ∧
      ∀ restToo q, Exchanged (Cursor.lexeme rules ⟨u, p⟩).2.unread restToo →
        (Cursor.lexeme rules ⟨front ++ restToo, q⟩).1.kind = (Cursor.lexeme rules ⟨u, p⟩).1.kind ∧
        (Cursor.lexeme rules ⟨front ++ restToo, q⟩).1.text = (Cursor.lexeme rules ⟨u, p⟩).1.text ∧
        (Cursor.lexeme rules ⟨front ++ restToo, q⟩).2.unread = restToo ∧
        (restToo.head? ≠ some nul → (Cursor.lexeme rules ⟨front ++ restToo, q⟩).1.complaints = []) := by
  have spaces : ∀ c ∈ u.takeWhile isSpace, isSpace c = true := fun c => List.mem_takeWhile_imp
  have whole := List.takeWhile_append_dropWhile (p := isSpace) (l := u)
  have solid := List.head?_dropWhile_not isSpace u
  cases body : u.dropWhile isSpace with
  | nil => exact absurd (by simp only [Cursor.lexeme, body]) other
  | cons c tail =>
      rw [body] at solid whole
      generalize u.takeWhile isSpace = blanks at spaces whole
      subst whole
      have read := @lexeme_segment rules c tail blanks spaces solid p
      obtain ⟨ahead, noNul, said⟩ := read.quiet.mp quiet
      obtain ⟨more, shape, reads⟩ := segment_exchanged stops said
      rw [read.unread]
      refine ⟨noNul, blanks ++ c :: more, ?_, fun restToo q exchanged => ?_⟩
      · rw [List.append_assoc, List.cons_append, ← shape]
      have again := @lexeme_segment rules c (more ++ restToo) blanks spaces solid q
      rw [reads restToo exchanged] at again
      rw [List.append_assoc, List.cons_append]
      exact ⟨again.kind.trans read.kind.symm, again.text.trans read.text.symm, again.unread, fun silent => again.quiet.mpr ⟨ahead, silent, said⟩⟩

end Coalition.Text
