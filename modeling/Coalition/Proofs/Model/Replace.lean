import Coalition.Proofs.Model.Follows

-- Texts in which the mentions of named expressions are replaced by other texts in parentheses.

set_option autoImplicit false

namespace Coalition.Expression

open Coalition.Text

-- The named expression that a word mentions where an operand is expected, given the character and the word behind it.
def Names.mentioned? (names : Names) (word : String) (ahead : Option Char) (behind : String) : Option String :=
  let name := trimQuotes word
  if signs.contains word || (word == "next" && ahead == some '(') || ["=", "!", "in"].contains behind then none
  else if ["true", "TRUE", "false", "FALSE"].contains name || (names.find? name).isSome then none
  else if names.defines.contains name then some name
  else none

def nextOf (text : List Char) : Token × List Char :=
  let (token, behind) := nextToken none ⟨text, 1, 1⟩
  (token, behind.unread)

-- An unread text in which the mentions are replaced. White space in front of them stays.
def replaceFrom (names : Names) (piece : String → List Char) : (fuel : Nat) → (operand : Bool) → List Char → List Char
  | 0, _, unread => unread
  | fuel + 1, operand, unread =>
      let (token, behind) := nextOf unread
      if token.isEnd then unread
      else
        let later := replaceFrom names piece fuel (opens operand token.text) behind
        match operand, names.mentioned? token.text token.ahead (nextOf behind).1.text with
        | true, some name => unread.takeWhile isSpace ++ '(' :: (piece name ++ ')' :: later)
        | _, _ => unread.take (unread.length - behind.length) ++ later

def replace (names : Names) (piece : String → List Char) (text : String) : String :=
  let unread := unmarked text.toList
  String.ofList (text.toList.take (text.toList.length - unread.length) ++ replaceFrom names piece (unread.length + 1) true unread)

section

variable {names : Names} {piece : String → List Char}

theorem mentioned_eq_some {word behind name : String} {ahead : Option Char} (mentioned : names.mentioned? word ahead behind = some name) :
    word ∉ signs ∧ (word == "next" && ahead == some '(') = false ∧ behind ∉ ["=", "!", "in"] ∧ trimQuotes word = name ∧
      name ∉ ["true", "TRUE", "false", "FALSE"] ∧ names.find? name = none ∧ name ∈ names.defines := by
  unfold Names.mentioned? at mentioned
  dsimp only at mentioned
  split at mentioned
  · cases mentioned
  · rename_i plain
    split at mentioned
    · cases mentioned
    · rename_i other
      split at mentioned
      · rename_i known
        obtain rfl := Option.some.inj mentioned
        simp only [Bool.or_eq_true, not_or, List.contains_iff_mem, Bool.not_eq_true] at plain other known
        exact ⟨plain.1.1, plain.1.2, plain.2, rfl, other.1, Option.isNone_iff_eq_none.mp (by simpa using other.2), known⟩
      · cases mentioned

theorem comparison_mention {t n : Token} {ts : List Token} {name : String} (goesOn : t.isEnd = false)
    (mentioned : names.mentioned? t.text t.ahead n.text = some name) (compiled : name ∈ names.compiled) :
    comparison names .state (t :: n :: ts) = .ok (.named name, n :: ts) := by
  obtain ⟨plain, noCall, behind, rfl, constant, unknown, _⟩ := mentioned_eq_some mentioned
  have read : term names .state (t :: n :: ts) = .ok (⟨none, false, trimQuotes t.text⟩, n :: ts) := by
    simp [term, goesOn, plain, noCall, unknown, advance]
  have notAt : ∀ word ∈ ["=", "!", "in"], at? word (n :: ts) = false := by
    intro word listed
    have other : n.text ≠ word := fun same => behind (same ▸ listed)
    simp [at?, other]
  have noValue : (trimQuotes t.text == "true" || trimQuotes t.text == "TRUE") = false ∧
      (trimQuotes t.text == "false" || trimQuotes t.text == "FALSE") = false := by
    simp only [List.mem_cons, List.not_mem_nil, or_false, not_or] at constant
    simp [constant]
  have alone : bare names ⟨none, false, trimQuotes t.text⟩ = .ok (.named (trimQuotes t.text)) := by
    simp only [bare, noValue, List.contains_iff_mem, compiled, if_true, if_false, Bool.false_eq_true]
  unfold comparison
  rw [read]
  simp only [ok_bind, notAt "=" (by decide), notAt "!" (by decide), notAt "in" (by decide), alone, pure_ok, if_false, Bool.false_eq_true]

theorem term_read {t n : Token} {ts : List Token} : Yields (term names .state (t :: n :: ts)) fun read =>
    t.text ∉ signs ∧ (t.text == "next" && t.ahead == some '(') = false ∧ read.2 = n :: ts ∧
      (read.1.reading = none → read.1.text = trimQuotes t.text ∧ names.find? (trimQuotes t.text) = none) := by
  unfold term
  dsimp only
  split
  · exact yields_error _
  · split
    · exact yields_error _
    · rename_i plain
      split
      · exact fun read done => (next_call_fails read done).elim
      · rename_i noCall
        have facts := And.intro (fun listed => plain (List.contains_iff_mem.mpr listed)) (eq_false_of_ne_true noCall)
        split
        · rename_i unknown
          exact yields_ok ⟨facts.1, facts.2, rfl, fun _ => ⟨rfl, unknown⟩⟩
        · split
          · exact yields_error _
          · exact yields_ok ⟨facts.1, facts.2, rfl, nofun⟩

theorem named_of_bare {read : Term} {name : String} (alone : bare names read = .ok (.named name)) :
    read.reading = none ∧ read.text = name ∧ name ∉ ["true", "TRUE", "false", "FALSE"] ∧ name ∈ names.compiled := by
  unfold bare at alone
  split at alone
  · split at alone <;> cases alone
  · rename_i none
    split at alone
    · cases alone
    · rename_i noTrue
      split at alone
      · cases alone
      · rename_i noFalse
        split at alone
        · rename_i compiled
          cases alone
          simp only [Bool.or_eq_true, beq_iff_eq, not_or] at noTrue noFalse
          exact ⟨none, rfl, by simp [noTrue, noFalse], List.contains_iff_mem.mp compiled⟩
        · split at alone <;> cases alone

theorem bare_of_comparison {ts rest : List Token} {name : String} (read : comparison names .state ts = .ok (.named name, rest)) :
    ∃ left, term names .state ts = .ok (left, rest) ∧ bare names left = .ok (.named name) ∧
      at? "=" rest = false ∧ at? "!" rest = false ∧ at? "in" rest = false := by
  have noEqual {left right : Term} : equal names left right ≠ .ok (.named name) := fun same =>
    Expression.noConfusion (equal_plain (σ := fun _ => .constant true) left right _ same)
  unfold comparison at read
  obtain ⟨⟨left, us⟩, first, later⟩ := ok_of_bind read
  dsimp only at later
  split at later
  · obtain ⟨right, _, ended⟩ := ok_of_bind later
    obtain ⟨e, same, ended⟩ := ok_of_bind ended
    cases ended
    exact absurd same noEqual
  · rename_i noEquals
    split at later
    · obtain ⟨_, _, ended⟩ := ok_of_bind later
      obtain ⟨right, _, ended⟩ := ok_of_bind ended
      obtain ⟨e, same, ended⟩ := ok_of_bind ended
      cases ended
    · rename_i noBang
      split at later
      · unfold membership at later
        split at later
        · cases later
        · obtain ⟨_, _, ended⟩ := ok_of_bind later
          obtain ⟨indices, _, ended⟩ := ok_of_bind ended
          cases ended
      · rename_i noIn
        obtain ⟨e, alone, ended⟩ := ok_of_bind later
        cases ended
        exact ⟨left, first, alone, eq_false_of_ne_true noEquals, eq_false_of_ne_true noBang, eq_false_of_ne_true noIn⟩

theorem mentioned_of_comparison {t n : Token} {ts rest : List Token} {name : String} (known : names.compiled ⊆ names.defines)
    (last : n.isEnd = true → n.text = "") (read : comparison names .state (t :: n :: ts) = .ok (.named name, rest)) :
    names.mentioned? t.text t.ahead n.text = some name := by
  obtain ⟨left, first, alone, noEquals, noBang, noIn⟩ := bare_of_comparison read
  obtain ⟨plain, noCall, rfl, unread⟩ := term_read _ first
  obtain ⟨none, called, constant, compiled⟩ := named_of_bare alone
  obtain ⟨text, unknown⟩ := unread none
  obtain rfl := text.symm.trans called
  have behind : n.text ∉ ["=", "!", "in"] := by
    cases ends : n.isEnd with
    | true =>
        rw [last ends]
        decide
    | false =>
        simp only [at?, ends, Bool.not_false, Bool.true_and, beq_eq_false_iff_ne] at noEquals noBang noIn
        simp [noEquals, noBang, noIn]
  have listed := known compiled
  simp only [List.mem_cons, List.not_mem_nil, or_false, not_or] at constant
  simp [Names.mentioned?, plain, noCall, behind, constant, unknown, listed]

variable (names piece) in
theorem replace_from_exchanged (fuel : Nat) (operand : Bool) (unread : List Char) :
    (replaceFrom names piece fuel operand unread).head? = unread.head? ∨
      operand = true ∧ (replaceFrom names piece fuel operand unread).head? = some '(' := by
  cases fuel with
  | zero => exact .inl rfl
  | succ fuel =>
      simp only [replaceFrom]
      split
      · exact .inl rfl
      · rename_i goesOn
        have shorter := next_token_shorter none ⟨unread, 1, 1⟩ (eq_false_of_ne_true goesOn)
        split
        · obtain - | ⟨c, rest⟩ := unread
          · exact absurd shorter (Nat.not_lt_zero _)
          · by_cases space : isSpace c = true
            · simp [space]
            · simp [space]
        · obtain - | ⟨c, rest⟩ := unread
          · exact absurd shorter (Nat.not_lt_zero _)
          · have more : (c :: rest).length - (nextOf (c :: rest)).2.length = rest.length - (nextOf (c :: rest)).2.length + 1 :=
              Nat.succ_sub (Nat.le_of_lt_succ shorter)
            rw [more]
            exact .inl rfl

theorem next_of_blank {text : List Char} (spaces : ∀ c ∈ text, isSpace c = true) :
    (nextOf text).1.isEnd = true ∧ (nextOf text).1.text = "" := by
  obtain ⟨q, same⟩ := next_token_spaces none spaces (by simp : ([] : List Char).head? ≠ some nul) ⟨1, 1⟩
  rw [List.append_nil] at same
  simp only [nextOf, same]
  exact ⟨rfl, rfl⟩

theorem Lexed.end_text {text : List Char} {n : Token} {ts : List Token} (lexed : Lexed text (n :: ts)) (quiet : Quiet (n :: ts))
    (ends : n.isEnd = true) : n.text = "" := by
  obtain ⟨_, e, shape, _, none⟩ | ⟨t, us, front, rest, shape, _, goesOn, _⟩ := lexed.first quiet
  · obtain ⟨rfl, _⟩ := List.cons.inj shape
    exact none
  · obtain ⟨rfl, _⟩ := List.cons.inj shape
    exact Bool.noConfusion (ends.symm.trans goesOn)

theorem Lexed.next_text {text : List Char} {n : Token} {ts : List Token} (lexed : Lexed text (n :: ts)) (quiet : Quiet (n :: ts)) :
    (nextOf text).1.text = n.text := by
  obtain ⟨spaces, e, shape, _, none⟩ | ⟨t, us, front, rest, shape, rfl, _, _, silent, _, reads⟩ := lexed.first quiet
  · obtain ⟨rfl, _⟩ := List.cons.inj shape
    exact (next_of_blank spaces).2.trans none.symm
  · obtain ⟨rfl, _⟩ := List.cons.inj shape
    obtain ⟨t', q, next, _, same, _⟩ := reads rest ⟨1, 1⟩ (.inl rfl) silent
    simp only [nextOf, next, same]

def Pieces (names : Names) (σ : String → Expression) (piece : String → List Char) : Prop :=
  ∀ name ∈ names.defines, ∃ text, piece name = unmarked text.toList ∧ parse names .state text = .ok (σ name)

variable {σ : String → Expression}

theorem takes_parenthesis {c : Char} (parenthesis : c ∈ ['(', ')']) {rest : List Char} (silent : rest.head? ≠ some nul) (p : Position) :
    Takes (String.singleton c) ⟨c :: rest, p⟩ rest := by
  refine takes_lone ?_ silent p
  obtain rfl | rfl : c = '(' ∨ c = ')' := by simpa using parenthesis
  · decide
  · decide

theorem unary_mention (fuel : Nat) {t n : Token} (ts : List Token) {name : String} (goesOn : t.isEnd = false)
    (mentioned : names.mentioned? t.text t.ahead n.text = some name) (compiled : name ∈ names.compiled) :
    unary names .state (fuel + 1) (t :: n :: ts) = .ok (.named name, n :: ts) := by
  have plain := (mentioned_eq_some mentioned).1
  have word (w : String) (sign : w ∈ signs) : at? w (t :: n :: ts) = false := by
    have other : t.text ≠ w := fun same => plain (same ▸ sign)
    simp [at?, other]
  simp only [unary, word "~" (by decide), word "!" (by decide), word "(" (by decide), atEnd, goesOn, Bool.or_self, Bool.false_eq_true,
    if_false]
  exact comparison_mention goesOn mentioned compiled

theorem stands_of_mention (ready : names.defines ⊆ names.compiled) (pieces : Pieces names σ piece) {t n : Token} (ts : List Token)
    {inner : List Token} {name : String} {rest : List Char} (goesOn : t.isEnd = false)
    (mentioned : names.mentioned? t.text t.ahead n.text = some name) (silent : rest.head? ≠ some nul)
    (lexed : Lexed ('(' :: (piece name ++ ')' :: rest)) inner) : ∃ us, Lexed rest us ∧ Stands names σ t (n :: ts) inner us := by
  obtain ⟨plain, _, _, _, _, _, known⟩ := mentioned_eq_some mentioned
  obtain ⟨text, same, parsed⟩ := pieces name known
  obtain ⟨init, last, ends, others, lexedText, quiet, silentText, _, done⟩ := read_of_parse parsed
  rw [← same] at lexedText silentText
  have silentPiece : (piece name ++ ')' :: rest).head? ≠ some nul := by
    cases shape : piece name with
    | nil => simp [nul]
    | cons c others => rwa [shape] at silentText
  obtain ⟨u, ws, rfl, turns, opened, _, _, lexedInner⟩ := lexed.cons fun p => takes_parenthesis (by decide) silentPiece p
  obtain ⟨final, lexedFinal, along⟩ := lexedText.along names true ends others quiet
    (by decide : ')' ∈ [')', '\'']) lexedInner
  obtain ⟨v, us, rfl, turnsToo, closed, _, _, lexedRest⟩ := lexedFinal.cons fun p => takes_parenthesis (by decide) silent p
  have opened : u.text = "(" := opened
  have closed : v.text = ")" := closed
  have stops : Stops last (v :: us) := stops_word ends (by rw [closed]; decide) us
  have follows (fuel : Nat) (bound : ws.length ≤ fuel) := chain_follows stops (unary_follows stops (init ++ [last]).length fuel) _ _ along bound
  have some : us ≠ [] := by
    obtain ⟨fuel, p, enough, rfl⟩ := lexedRest
    obtain - | fuel := fuel
    · exact absurd enough (Nat.not_lt_zero _)
    simp only [tokensFrom]
    split <;> exact List.cons_ne_nil _ _
  refine ⟨us, lexedRest, goesOn, plain, ⟨u, ws, rfl, turns, opened⟩, ?_, fun fuel fuelToo bound => ?_⟩
  · obtain ⟨_, _, _, _, left, _, less⟩ := follows ws.length (Nat.le_refl _) _ done
    obtain ⟨_, rfl⟩ := left.of_end ends
    rw [List.length_cons] at less ⊢
    exact Nat.lt_succ_of_lt less
  · obtain - | fuelToo := fuelToo
    · exact absurd bound (Nat.not_succ_le_zero _)
    obtain ⟨g, rest', ran, alike, left, _⟩ := follows fuelToo (Nat.le_of_succ_le_succ bound) _ done
    obtain ⟨_, rfl⟩ := left.of_end ends
    rw [substitute_named] at alike
    have read : unary names .state (fuelToo + 1) (u :: ws) = .ok (g, us) := by
      have word (w : String) : at? w (u :: ws) = ("(" == w) := by simp [at?, turns, opened]
      have here : Along names .named last (v :: us) true (init ++ [last]) ws := along
      have rest := advance_cons u (here.ne_nil stops).2
      have closing : expect ")" (v :: us) = .ok ((), us) := by simp [expect, atEnd, at?, turnsToo, closed, advance_cons v some]
      simp only [unary, word, atEnd, turns, rest, ran, closing, ok_bind]
      rfl
    obtain - | fuel := fuel
    · exact yields_error _
    rw [unary_mention fuel ts goesOn mentioned (ready known)]
    exact yields_ok ⟨rfl, by rw [read, alike]; rfl⟩

-- A text with its mentions replaced is read side by side with the text itself.
theorem Lexed.replaced (ready : names.defines ⊆ names.compiled) (known : names.compiled ⊆ names.defines) (pieces : Pieces names σ piece)
    {init : List Token} {last : Token} {unread : List Char} {fuel : Nat} {operand : Bool} {us : List Token} (ends : last.isEnd = true)
    (others : ∀ t ∈ init, t.isEnd = false)
    (lexed : Lexed unread (init ++ [last])) (quiet : Quiet (init ++ [last])) (enough : unread.length < fuel)
    (lexedToo : Lexed (replaceFrom names piece fuel operand unread) us) :
    ∃ final, final.isEnd = true ∧ final.complaint = none ∧ Along names σ last [final] operand (init ++ [last]) us := by
  obtain - | fuel := fuel
  · exact absurd enough (Nat.not_lt_zero _)
  induction init generalizing unread fuel operand us with
  | nil =>
      obtain ⟨spaces, _⟩ | ⟨t, others, _, _, shape, _, goesOn, _⟩ := lexed.first quiet
      · simp only [replaceFrom, (next_of_blank spaces).1, if_true] at lexedToo
        rw [← List.append_nil unread] at lexedToo
        obtain ⟨e, rfl, endsToo, silent⟩ := (lexedToo.skip spaces (by simp)).nil
        exact ⟨e, endsToo, silent, .last⟩
      · obtain ⟨rfl, _⟩ := List.cons.inj shape
        rw [ends] at goesOn
        cases goesOn
  | cons t init ih =>
      obtain ⟨goesOn, later⟩ := List.forall_mem_cons.mp others
      obtain ⟨_, e, shape, _⟩ | ⟨_, _, front, rest, shape, rfl, _, ahead, silent, lexedRest, reads⟩ := lexed.first quiet
      · exact absurd (congrArg List.length shape) (by simp)
      obtain ⟨rfl, rfl⟩ := List.cons.inj shape
      have lexedRest : Lexed rest (init ++ [last]) := lexedRest
      have quietRest : Quiet (init ++ [last]) := (List.forall_mem_cons.mp quiet).2
      obtain ⟨t', q, next, goesOnToo, text, aheadToo, _⟩ := reads rest ⟨1, 1⟩ (.inl rfl) silent
      have shorter := next_token_shorter none ⟨front ++ rest, 1, 1⟩ (by rw [next]; exact goesOnToo)
      rw [next] at shorter
      obtain ⟨n, ns, follower⟩ := List.exists_cons_of_ne_nil (List.append_ne_nil_of_right_ne_nil init (List.cons_ne_nil last []))
      rw [follower] at lexedRest quietRest
      have endless := lexedRest.end_text quietRest
      have here : nextOf (front ++ rest) = (t', rest) := by simp only [nextOf, next]
      obtain - | fuel := fuel
      · exact absurd (Nat.lt_of_lt_of_le shorter (Nat.le_of_lt_succ enough)) (Nat.not_lt_zero _)
      have enoughRest : rest.length < fuel + 1 := Nat.lt_of_lt_of_le shorter (Nat.le_of_lt_succ enough)
      rw [replaceFrom] at lexedToo
      simp only [here, goesOnToo, text, aheadToo, ← ahead, lexedRest.next_text quietRest, if_false, Bool.false_eq_true] at lexedToo
      generalize awaits : opens operand t.text = behind at lexedToo
      have exchanged := replace_from_exchanged names piece (fuel + 1) behind rest
      have silentToo : (replaceFrom names piece (fuel + 1) behind rest).head? ≠ some nul := by
        obtain same | ⟨_, opening⟩ := exchanged
        · rwa [same]
        · rw [opening]
          decide
      rw [← follower] at lexedRest quietRest
      split at lexedToo
      · -- the token is a mention
        rename_i name mentioned
        have plain := (mentioned_eq_some mentioned).1
        obtain rfl : false = behind := (opens_plain plain _).symm.trans awaits
        have blank : ∀ c ∈ (front ++ rest).takeWhile isSpace, isSpace c = true := fun c => List.mem_takeWhile_imp
        obtain ⟨us, lexedBehind, stands⟩ := stands_of_mention ready pieces ns goesOn mentioned silentToo
          (lexedToo.skip blank (by simp [nul]))
        obtain ⟨final, endsToo, silence, along⟩ := ih later lexedRest quietRest fuel enoughRest lexedBehind
        rw [← follower] at stands
        exact ⟨final, endsToo, silence, .stands stands along⟩
      · rename_i unmentioned
        have kept : (front ++ rest).take ((front ++ rest).length - rest.length) = front := by
          rw [List.length_append, Nat.add_sub_cancel, List.take_left]
        rw [kept] at lexedToo
        have stays : Exchanged rest (replaceFrom names piece (fuel + 1) behind rest) :=
          exchanged.imp id fun replaced => ⟨'(', by decide, replaced.2⟩
        obtain ⟨u, us, rfl, turns, word, next', _, lexedBehind⟩ := lexedToo.cons fun p => reads _ p stays silentToo
        obtain ⟨final, endsToo, silence, along⟩ := ih later lexedRest quietRest fuel enoughRest lexedBehind
        rw [← awaits] at along
        refine ⟨final, endsToo, silence, .more ⟨goesOn, turns, word, fun call parenthesis => ?_⟩ (fun awaited name left done => ?_) along⟩
        · -- nothing is replaced right behind this word
          obtain same | ⟨opened, _⟩ := exchanged
          · rw [ahead, ← same, ← next', parenthesis]
          · rw [← awaits, call, opens_plain (by decide)] at opened
            cases opened
        · -- a mention would have been replaced
          have done : comparison names .state (t :: (init ++ [last])) = .ok (.named name, left) := done
          rw [follower] at done
          exact absurd (mentioned_of_comparison known endless done) (unmentioned name awaited)

variable (names piece) in
theorem unmarked_replace {text : String} (some : text.toList ≠ []) : unmarked (replace names piece text).toList =
    replaceFrom names piece ((unmarked text.toList).length + 1) true (unmarked text.toList) := by
  unfold replace
  rw [String.toList_ofList]
  obtain ⟨c, rest, shape⟩ := List.exists_cons_of_ne_nil some
  rw [shape]
  by_cases mark : c.toNat = 0xFEFF
  · simp [unmarked, Cursor.ofText, mark]
  · have same {d : Char} (other : d.toNat ≠ 0xFEFF) (more : List Char) : unmarked (d :: more) = d :: more := by
      simp [unmarked, Cursor.ofText, other]
    rw [same mark, Nat.sub_self, List.take_zero, List.nil_append]
    obtain head | ⟨_, head⟩ := replace_from_exchanged names piece ((c :: rest).length + 1) true (c :: rest)
    · obtain ⟨more, shape⟩ := List.head?_eq_some_iff.mp head
      rw [shape, same mark]
    · obtain ⟨more, shape⟩ := List.head?_eq_some_iff.mp head
      rw [shape, same (by decide)]

-- A text with its mentions replaced is read as its expression with others in place of the named ones.
theorem parse_replace (ready : names.defines ⊆ names.compiled) (known : names.compiled ⊆ names.defines) (pieces : Pieces names σ piece)
    {text : String} {e : Expression} (parsed : parse names .state text = .ok e) :
    parse names .state (replace names piece text) = .ok (e.substitute σ) := by
  obtain ⟨init, last, ends, others, lexed, quiet, silent, goesOn, done⟩ := read_of_parse parsed
  have filled : text.toList ≠ [] := by
    intro none
    have more := (chain_of_parse parsed).1
    rw [none] at more
    exact absurd more (by decide)
  have unread := unmarked_replace names piece filled
  have silentToo : (unmarked (replace names piece text).toList).head? ≠ some nul := by
    rw [unread]
    obtain same | ⟨_, opening⟩ := replace_from_exchanged names piece ((unmarked text.toList).length + 1) true
      (unmarked text.toList)
    · rwa [same]
    · rw [opening]
      decide
  have lexedToo := lexed_tokens silentToo
  rw [unread] at lexedToo
  obtain ⟨final, endsToo, silence, along⟩ := lexed.replaced ready known pieces ends others quiet (Nat.lt_succ_self _) lexedToo
  have stops := stops_end ends endsToo
  obtain ⟨_, us, ran, rfl, left, _⟩ := chain_follows stops (unary_follows stops _ _) _ _ along (Nat.le_refl _) _ done
  obtain ⟨_, rfl⟩ := left.of_end ends
  have quietToo : complaintSoFar [final] = none := silence
  exact parse_of_chain (along.goes_on stops goesOn) quietToo endsToo ran

end

end Coalition.Expression
