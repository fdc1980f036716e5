import Coalition.Model.Expression.Token
import Coalition.Proofs.Text.Lexeme

-- Tokens come off the front of a text, as lexemes do.

set_option autoImplicit false

namespace Coalition.Expression

open Coalition.Text

theorem first_complaint_none {sofar : Option String} {said : List Complaint} :
    firstComplaint sofar said = none ↔ sofar = none ∧ said = [] := by
  cases sofar <;> cases said <;> simp [firstComplaint]

section

variable (complaint : Option String) {cursor : Cursor}

theorem next_token_arrow {rest : List Char} (minus : (cursor.lexeme lexemeRules).1.text = ['-'])
    (unread : (cursor.lexeme lexemeRules).2.unread = '>' :: rest) : ∃ q, nextToken complaint cursor =
      (⟨"->", false, none, rest.head?,
        firstComplaint (firstComplaint complaint (cursor.lexeme lexemeRules).1.complaints) (complainAhead rest q)⟩, ⟨rest, q⟩) := by
  refine ⟨(cursor.lexeme lexemeRules).2.position.after '>', ?_⟩
  simp only [nextToken]
  split
  · rename_i same
    rw [unread] at same
    obtain ⟨_, rfl⟩ := List.cons.inj same
    rfl
  · rename_i other
    exact (other _ minus unread).elim

theorem next_token_other (other : ¬ ((cursor.lexeme lexemeRules).1.text = ['-'] ∧ (cursor.lexeme lexemeRules).2.unread.head? = some '>')) :
    nextToken complaint cursor = (⟨String.ofList (cursor.lexeme lexemeRules).1.text, (cursor.lexeme lexemeRules).1.kind = .ending,
      some (cursor.lexeme lexemeRules).1.start, (cursor.lexeme lexemeRules).2.unread.head?,
      firstComplaint complaint (cursor.lexeme lexemeRules).1.complaints⟩, (cursor.lexeme lexemeRules).2) := by
  simp only [nextToken]
  split
  · rename_i minus unread
    exact absurd ⟨minus, by rw [unread]; rfl⟩ other
  · rfl

theorem arrow_or_other (cursor : Cursor) :
    (∃ rest, (cursor.lexeme lexemeRules).1.text = ['-'] ∧ (cursor.lexeme lexemeRules).2.unread = '>' :: rest) ∨
      ¬ ((cursor.lexeme lexemeRules).1.text = ['-'] ∧ (cursor.lexeme lexemeRules).2.unread.head? = some '>') := by
  cases (cursor.lexeme lexemeRules).2.unread with
  | nil => simp
  | cons c rest => by_cases same : c = '>' <;> by_cases minus : (cursor.lexeme lexemeRules).1.text = ['-'] <;> simp [same, minus]

theorem next_token_shorter (cursor : Cursor) (goesOn : (nextToken complaint cursor).1.isEnd = false) :
    (nextToken complaint cursor).2.unread.length < cursor.unread.length := by
  have shorter := lexeme_shorter lexemeRules cursor
  obtain ⟨rest, minus, unread⟩ | other := arrow_or_other cursor
  · obtain ⟨q, same⟩ := next_token_arrow complaint minus unread
    have more : (cursor.lexeme lexemeRules).1.kind ≠ .ending := fun ends => by simp [(lexeme_ending ends).1] at minus
    have taken := shorter.resolve_left more
    rw [unread] at taken
    rw [same]
    exact Nat.lt_of_succ_lt taken
  · rw [next_token_other complaint other] at goesOn ⊢
    exact shorter.resolve_left (of_decide_eq_false goesOn)

end

theorem next_token_quiet {complaint : Option String} {cursor : Cursor} (quiet : (nextToken complaint cursor).1.complaint = none) :
    complaint = none ∧ (cursor.lexeme lexemeRules).1.complaints = [] := by
  obtain ⟨rest, minus, unread⟩ | other := arrow_or_other cursor
  · obtain ⟨q, same⟩ := next_token_arrow complaint minus unread
    rw [same] at quiet
    exact first_complaint_none.mp (first_complaint_none.mp quiet).1
  · rw [next_token_other complaint other] at quiet
    exact first_complaint_none.mp quiet

-- The next token is this text, and it leaves the rest. Nothing is complained about.
def Takes (text : String) (cursor : Cursor) (rest : List Char) : Prop :=
  ∃ t q, nextToken none cursor = (t, ⟨rest, q⟩) ∧ t.isEnd = false ∧ t.text = text ∧ t.ahead = rest.head? ∧ t.complaint = none

theorem takes_of_lexeme {cursor : Cursor} {rest : List Char} {lexeme : Lexeme} {q : Position}
    (read : cursor.lexeme lexemeRules = (lexeme, ⟨rest, q⟩)) (goesOn : lexeme.kind ≠ .ending) (still : lexeme.complaints = [])
    (other : lexeme.text ≠ ['-']) : Takes (String.ofList lexeme.text) cursor rest := by
  have noArrow : ¬ ((cursor.lexeme lexemeRules).1.text = ['-'] ∧ (cursor.lexeme lexemeRules).2.unread.head? = some '>') := by
    rw [read]
    exact fun arrow => other arrow.1
  have next := next_token_other none noArrow
  rw [read] at next
  exact ⟨_, q, next, decide_eq_false goesOn, rfl, rfl, by simp [still, firstComplaint]⟩

theorem next_token_spaces (complaint : Option String) {blanks text : List Char} (spaces : ∀ c ∈ blanks, isSpace c = true)
    (silent : text.head? ≠ some nul) (p : Position) : ∃ q, nextToken complaint ⟨blanks ++ text, p⟩ = nextToken complaint ⟨text, q⟩ := by
  obtain ⟨q, same⟩ : ∃ q, Cursor.lexeme lexemeRules ⟨blanks ++ text, p⟩ = Cursor.lexeme lexemeRules ⟨text, q⟩ :=
    lexeme_spaces p spaces silent
  exact ⟨q, by simp only [nextToken, same]⟩

theorem Takes.spaced {text : String} {chars blanks rest : List Char} (takes : ∀ p, Takes text ⟨chars, p⟩ rest)
    (spaces : ∀ c ∈ blanks, isSpace c = true) (still : chars.head? ≠ some nul) (p : Position) : Takes text ⟨blanks ++ chars, p⟩ rest := by
  obtain ⟨q, same⟩ := next_token_spaces none spaces still p
  obtain ⟨t, q', next, taken⟩ := takes q
  exact ⟨t, q', same.trans next, taken⟩

section

variable {c : Char} (shape : startsName c = false ∧ isSpace c = false ∧ c ≠ '"' ∧ c.isDigit = false ∧ c ≠ '-') {rest : List Char}

include shape

theorem next_token_lone (p : Position) : nextToken none ⟨c :: rest, p⟩ =
    (⟨String.singleton c, false, some p, rest.head?, firstComplaint none (complainAhead rest p)⟩, ⟨rest, p.after c⟩) := by
  obtain ⟨plain, solid, other, digitless, noArrow⟩ := shape
  have read : Cursor.lexeme lexemeRules ⟨c :: rest, p⟩ = _ := lexeme_sign p plain solid other digitless
  have otherToo : ¬ ((Cursor.lexeme lexemeRules ⟨c :: rest, p⟩).1.text = ['-'] ∧
      (Cursor.lexeme lexemeRules ⟨c :: rest, p⟩).2.unread.head? = some '>') := by
    rw [read]
    exact fun arrow => noArrow (List.cons.inj arrow.1).1
  rw [next_token_other none otherToo, read]
  rfl

theorem takes_lone (silent : rest.head? ≠ some nul) (p : Position) : Takes (String.singleton c) ⟨c :: rest, p⟩ rest :=
  ⟨_, _, next_token_lone shape p, rfl, rfl, rfl, by simp [complain_ahead_nil.mpr silent, firstComplaint]⟩

end

-- A token without complaint is read in the same way when something else stands behind it.
theorem next_token_exchanged {complaint : Option String} {u : List Char} {p : Position} {t : Token} {behind : Cursor}
    (read : nextToken complaint ⟨u, p⟩ = (t, behind)) (goesOn : t.isEnd = false) (quiet : t.complaint = none) :
    t.ahead = behind.unread.head? ∧ behind.unread.head? ≠ some nul ∧ ∃ front, u = front ++ behind.unread ∧
      ∀ restToo q, Exchanged behind.unread restToo → restToo.head? ≠ some nul → Takes t.text ⟨front ++ restToo, q⟩ restToo := by
  obtain ⟨_, said⟩ := next_token_quiet (by rw [read]; exact quiet)
  have stops : ∀ c ∈ closers, lexemeRules.continuesName c = false := List.all_iff_forall_prop.mp (by decide)
  obtain ⟨rest, minus, unread⟩ | other := arrow_or_other ⟨u, p⟩
  · obtain ⟨q, same⟩ := next_token_arrow complaint minus unread
    obtain ⟨rfl, rfl⟩ := Prod.mk.inj (same.symm.trans read)
    have notEnd : (Cursor.lexeme lexemeRules ⟨u, p⟩).1.kind ≠ .ending := fun ends => by simp [(lexeme_ending ends).1] at minus
    obtain ⟨_, front, shape, reads⟩ := lexeme_exchanged stops notEnd said
    rw [unread] at shape reads
    refine ⟨rfl, complain_ahead_nil.mp (first_complaint_none.mp quiet).2, front ++ ['>'], by simpa using shape, fun restToo q' _ quietToo => ?_⟩
    obtain ⟨_, text, left, silent⟩ := reads ('>' :: restToo) q' (.inl rfl)
    have noNul : ('>' :: restToo).head? ≠ some nul := by simp [nul]
    rw [List.append_assoc, List.singleton_append]
    obtain ⟨q'', next⟩ := next_token_arrow none (text.trans minus) left
    refine ⟨_, q'', next, rfl, rfl, rfl, ?_⟩
    exact first_complaint_none.mpr ⟨first_complaint_none.mpr ⟨rfl, silent noNul⟩, complain_ahead_nil.mpr quietToo⟩
  · obtain ⟨rfl, rfl⟩ := Prod.mk.inj ((next_token_other complaint other).symm.trans read)
    obtain ⟨noNul, front, shape, reads⟩ := lexeme_exchanged stops (of_decide_eq_false goesOn) said
    refine ⟨rfl, noNul, front, shape, fun restToo q exchanged quietToo => ?_⟩
    obtain ⟨kind, text, left, silent⟩ := reads restToo q exchanged
    have otherToo : ¬ ((Cursor.lexeme lexemeRules ⟨front ++ restToo, q⟩).1.text = ['-'] ∧
        (Cursor.lexeme lexemeRules ⟨front ++ restToo, q⟩).2.unread.head? = some '>') := by
      rw [text, left]
      rintro ⟨minus, arrow⟩
      obtain same | ⟨c, closer, head⟩ := exchanged
      · exact other ⟨minus, same ▸ arrow⟩
      · cases head.symm.trans arrow
        exact absurd closer (by decide)
    obtain ⟨left', q', same⟩ : ∃ left' q', (Cursor.lexeme lexemeRules ⟨front ++ restToo, q⟩).2 = ⟨left', q'⟩ := ⟨_, _, rfl⟩
    have readToo := next_token_other none otherToo
    rw [same] at left readToo
    subst left
    refine ⟨_, q', readToo, ?_, congrArg String.ofList text, rfl, ?_⟩
    · simpa [kind] using goesOn
    · exact first_complaint_none.mpr ⟨rfl, silent quietToo⟩

theorem next_token_end (complaint : Option String) (cursor : Cursor) (ends : (nextToken complaint cursor).1.isEnd = true) :
    (∀ c ∈ cursor.unread, isSpace c = true) ∧ (nextToken complaint cursor).1.text = "" := by
  obtain ⟨rest, minus, unread⟩ | other := arrow_or_other cursor
  · obtain ⟨q, same⟩ := next_token_arrow complaint minus unread
    rw [same] at ends
    cases ends
  · rw [next_token_other complaint other] at ends ⊢
    have ending := of_decide_eq_true ends
    exact ⟨lexeme_ending_blank ending, by rw [(lexeme_ending ending).1]⟩

def Quiet (ts : List Token) : Prop := ∀ t ∈ ts, t.complaint = none

-- The tokens of an unread text, wherever it starts, if nothing was complained about before.
def Lexed (text : List Char) (ts : List Token) : Prop := ∃ fuel p, text.length < fuel ∧ ts = tokensFrom fuel none ⟨text, p⟩

theorem quiet_of_last {fuel : Nat} (complaint : Option String) (cursor : Cursor) (enough : cursor.unread.length < fuel) :
    ∃ init last, tokensFrom fuel complaint cursor = init ++ [last] ∧ last.isEnd = true ∧ (∀ t ∈ init, t.isEnd = false) ∧
      (last.complaint = none → complaint = none ∧ Quiet (tokensFrom fuel complaint cursor)) := by
  induction fuel generalizing complaint cursor with
  | zero => exact absurd enough (Nat.not_lt_zero _)
  | succ fuel ih =>
      obtain ⟨t, behind, read⟩ : ∃ t behind, nextToken complaint cursor = (t, behind) := ⟨_, _, rfl⟩
      have before : t.complaint = none → complaint = none := fun quiet => (next_token_quiet (by rw [read]; exact quiet)).1
      simp only [tokensFrom, read]
      cases goesOn : t.isEnd with
      | true => exact ⟨[], t, rfl, goesOn, List.forall_mem_nil _, fun quiet => ⟨before quiet, List.forall_mem_singleton.mpr quiet⟩⟩
      | false =>
          have shorter := next_token_shorter complaint cursor (by rw [read]; exact goesOn)
          rw [read] at shorter
          obtain ⟨init, last, shape, ends, others, quiet⟩ := ih t.complaint behind (Nat.lt_of_lt_of_le shorter (Nat.le_of_lt_succ enough))
          refine ⟨t :: init, last, by simp [shape], ends, List.forall_mem_cons.mpr ⟨goesOn, others⟩, fun silent => ?_⟩
          obtain ⟨here, later⟩ := quiet silent
          exact ⟨before here, List.forall_mem_cons.mpr ⟨here, later⟩⟩

theorem Lexed.skip {blanks text : List Char} {ts : List Token} (spaces : ∀ c ∈ blanks, isSpace c = true) (silent : text.head? ≠ some nul)
    (lexed : Lexed (blanks ++ text) ts) : Lexed text ts := by
  obtain ⟨fuel, p, enough, rfl⟩ := lexed
  obtain - | fuel := fuel
  · exact absurd enough (Nat.not_lt_zero _)
  obtain ⟨q, next⟩ := next_token_spaces none spaces silent p
  refine ⟨fuel + 1, q, Nat.lt_of_le_of_lt (by simp) enough, ?_⟩
  rw [tokensFrom, tokensFrom, next]

theorem Lexed.nil {ts : List Token} (lexed : Lexed [] ts) : ∃ e, ts = [e] ∧ e.isEnd = true ∧ e.complaint = none := by
  obtain ⟨fuel, p, enough, rfl⟩ := lexed
  obtain - | fuel := fuel
  · exact absurd enough (Nat.not_lt_zero _)
  exact ⟨⟨"", true, some p, none, none⟩, rfl, rfl, rfl⟩

theorem Lexed.cons {word : String} {text rest : List Char} {ts : List Token} (takes : ∀ p, Takes word ⟨text, p⟩ rest) (lexed : Lexed text ts) :
    ∃ t us, ts = t :: us ∧ t.isEnd = false ∧ t.text = word ∧ t.ahead = rest.head? ∧ t.complaint = none ∧ Lexed rest us := by
  obtain ⟨fuel, p, enough, rfl⟩ := lexed
  obtain - | fuel := fuel
  · exact absurd enough (Nat.not_lt_zero _)
  obtain ⟨t, q, next, goesOn, same, ahead, silent⟩ := takes p
  have shorter := next_token_shorter none ⟨text, p⟩ (by rw [next]; exact goesOn)
  rw [next] at shorter
  refine ⟨t, tokensFrom fuel none ⟨rest, q⟩, ?_, goesOn, same, ahead, silent, fuel, q, ?_, rfl⟩
  · simp [tokensFrom, next, goesOn, silent]
  · exact Nat.lt_of_lt_of_le shorter (Nat.le_of_lt_succ enough)

theorem Lexed.first {text : List Char} {ts : List Token} (lexed : Lexed text ts) (quiet : Quiet ts) :
    ((∀ c ∈ text, isSpace c = true) ∧ ∃ e, ts = [e] ∧ e.isEnd = true ∧ e.text = "") ∨
      ∃ t us front rest, ts = t :: us ∧ text = front ++ rest ∧ t.isEnd = false ∧ t.ahead = rest.head? ∧ rest.head? ≠ some nul ∧
        Lexed rest us ∧ ∀ restToo q, Exchanged rest restToo → restToo.head? ≠ some nul → Takes t.text ⟨front ++ restToo, q⟩ restToo := by
  obtain ⟨fuel, p, enough, rfl⟩ := lexed
  obtain - | fuel := fuel
  · exact absurd enough (Nat.not_lt_zero _)
  obtain ⟨t, ⟨rest, q⟩, read⟩ : ∃ t behind, nextToken none ⟨text, p⟩ = (t, behind) := ⟨_, _, rfl⟩
  cases goesOn : t.isEnd with
  | true =>
      obtain ⟨spaces, none⟩ := next_token_end none ⟨text, p⟩ (by rw [read]; exact goesOn)
      rw [read] at none
      exact .inl ⟨spaces, t, by simp [tokensFrom, read, goesOn], goesOn, none⟩
  | false =>
      have shape : tokensFrom (fuel + 1) none ⟨text, p⟩ = t :: tokensFrom fuel t.complaint ⟨rest, q⟩ := by simp [tokensFrom, read, goesOn]
      have silent : t.complaint = none := quiet t (by rw [shape]; exact List.mem_cons_self)
      have shorter := next_token_shorter none ⟨text, p⟩ (by rw [read]; exact goesOn)
      rw [read] at shorter
      obtain ⟨ahead, noNul, front, split, reads⟩ := next_token_exchanged read goesOn silent
      rw [silent] at shape
      exact .inr ⟨t, _, front, rest, shape, split, goesOn, ahead, noNul,
        ⟨fuel, q, Nat.lt_of_lt_of_le shorter (Nat.le_of_lt_succ enough), rfl⟩, reads⟩

end Coalition.Expression
