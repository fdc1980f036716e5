import Coalition.Proofs.Model.Compiled

-- The right side of a comparison is taken for a value of the variable on the left before it is taken for a variable, so the order of the
-- sides matters where a variable is named like a value of the other; and it matters only there.

set_option autoImplicit false

namespace Coalition

namespace Expression

open Coalition.Text

-- Two tokens between which the parser sees no difference.
structure Token.Twin (t u : Token) : Prop where
  goesOn : t.isEnd = false
  goesOnToo : u.isEnd = false
  text : u.text = t.text
  call : u.ahead = some '(' ↔ t.ahead = some '('

def Parted (rest : List Char) : Prop := ∀ c ∈ rest.head?, c = ' '

theorem Parted.silent {rest : List Char} (parted : Parted rest) : rest.head? ≠ some nul := fun head => absurd (parted nul head) (by decide)

theorem Lexed.twins {init us : List Token} {last : Token} {text rest : List Char} (ends : last.isEnd = true)
    (others : ∀ t ∈ init, t.isEnd = false) (lexed : Lexed text (init ++ [last])) (quiet : Quiet (init ++ [last])) (parted : Parted rest)
    (lexedToo : Lexed (text ++ rest) us) : ∃ vs ws, us = vs ++ ws ∧ List.Forall₂ Token.Twin init vs ∧ Lexed rest ws := by
  induction init generalizing text us with
  | nil =>
      obtain ⟨spaces, _⟩ | ⟨t, _, _, _, shape, _, goesOn, _⟩ := lexed.first quiet
      · exact ⟨[], us, rfl, .nil, lexedToo.skip spaces parted.silent⟩
      · obtain ⟨rfl, _⟩ := List.cons.inj shape
        exact Bool.noConfusion (ends.symm.trans goesOn)
  | cons t init ih =>
      obtain ⟨goesOn, later⟩ := List.forall_mem_cons.mp others
      obtain ⟨_, e, shape, _⟩ | ⟨_, _, front, left, shape, rfl, _, ahead, silent, lexedLeft, reads⟩ := lexed.first quiet
      · exact absurd (congrArg List.length shape) (by simp)
      · obtain ⟨rfl, rfl⟩ := List.cons.inj shape
        have exchanged : Exchanged left (left ++ rest) := by
          obtain - | ⟨d, left⟩ := left
          · obtain - | ⟨c, rest⟩ := rest
            · exact .inl rfl
            · exact .inr ⟨c, by rw [parted c rfl]; decide, rfl⟩
          · exact .inl rfl
        have silentToo : (left ++ rest).head? ≠ some nul := by
          obtain - | ⟨d, left⟩ := left
          · exact parted.silent
          · exact silent
        have call : (left ++ rest).head? = some '(' ↔ left.head? = some '(' := by
          obtain - | ⟨d, left⟩ := left
          · exact iff_of_false (fun head => absurd (parted '(' head) (by decide)) (by simp)
          · exact Iff.rfl
        rw [List.append_assoc] at lexedToo
        obtain ⟨u, us, rfl, goesOnToo, text, aheadToo, _, lexedAfter⟩ := lexedToo.cons fun q => reads _ q exchanged silentToo
        obtain ⟨vs, ws, rfl, twins, lexedRest⟩ := ih later lexedLeft (List.forall_mem_cons.mp quiet).2 lexedAfter
        exact ⟨u :: vs, ws, rfl, .cons ⟨goesOn, goesOnToo, text, by rw [ahead, aheadToo, call]⟩ twins, lexedRest⟩

-- A term as it is written: a word, which names a variable or a value, or `next(..)` around a word.
inductive Spelling where
  | word (text : String)
  | call (name : String)

-- The tokens of a term. Only the first one of `next(..)` is looked at with what stands right behind it.
def Spelling.IsOf : Spelling → List Token → Prop
  | .word text, [t] => t.isEnd = false ∧ t.text = text ∧ text ∉ signs ∧ ¬ (text = "next" ∧ t.ahead = some '(')
  | .call name, [n, opens, t, closes] => (n.isEnd = false ∧ n.text = "next" ∧ n.ahead = some '(') ∧ opens.isEnd = false ∧
      (t.isEnd = false ∧ t.text = name) ∧ closes.isEnd = false ∧ closes.text = ")"
  | _, _ => False

theorem Spelling.is_of_word {text : String} {ts : List Token} : (word text).IsOf ts ↔
    ∃ t, ts = [t] ∧ t.isEnd = false ∧ t.text = text ∧ text ∉ signs ∧ ¬ (text = "next" ∧ t.ahead = some '(') := by
  obtain - | ⟨t, - | ⟨_, _⟩⟩ := ts <;> simp [IsOf]

theorem Spelling.is_of_call {name : String} {ts : List Token} : (call name).IsOf ts ↔
    ∃ n opens t closes, ts = [n, opens, t, closes] ∧ (n.isEnd = false ∧ n.text = "next" ∧ n.ahead = some '(') ∧ opens.isEnd = false ∧
      (t.isEnd = false ∧ t.text = name) ∧ closes.isEnd = false ∧ closes.text = ")" := by
  obtain - | ⟨n, - | ⟨opens, - | ⟨t, - | ⟨closes, - | ⟨_, _⟩⟩⟩⟩⟩ := ts <;> simp [IsOf]

theorem Spelling.IsOf.twins {s : Spelling} {ts us : List Token} (spelled : s.IsOf ts) (twins : List.Forall₂ Token.Twin ts us) :
    s.IsOf us := by
  cases s with
  | word text =>
      obtain ⟨t, rfl, _, spelt, plain, noCall⟩ := is_of_word.mp spelled
      obtain - | ⟨twin, - | _⟩ := twins
      exact ⟨twin.goesOnToo, twin.text.trans spelt, plain, fun both => noCall ⟨both.1, twin.call.mp both.2⟩⟩
  | call name =>
      obtain ⟨n, opens, t, closes, rfl, ⟨_, next, ahead⟩, _, ⟨_, spelt⟩, _, sign⟩ := is_of_call.mp spelled
      obtain - | ⟨first, - | ⟨second, - | ⟨third, - | ⟨fourth, - | _⟩⟩⟩⟩ := twins
      exact ⟨⟨first.goesOnToo, first.text.trans next, first.call.mpr ahead⟩, second.goesOnToo, ⟨third.goesOnToo, third.text.trans spelt⟩,
        fourth.goesOnToo, fourth.text.trans sign⟩

theorem Spelling.IsOf.starts {s : Spelling} {ts : List Token} (spelled : s.IsOf ts) (us : List Token) :
    atEnd (ts ++ us) = false ∧ ∀ sign ∈ signs, at? sign (ts ++ us) = false := by
  have starts {t : Token} {later : List Token} (goesOn : t.isEnd = false) (plain : t.text ∉ signs) :
      atEnd (t :: later) = false ∧ ∀ sign ∈ signs, at? sign (t :: later) = false := by
    refine ⟨goesOn, fun sign listed => ?_⟩
    have other : t.text ≠ sign := fun same => plain (same ▸ listed)
    simp [at?, other]
  cases s with
  | word text =>
      obtain ⟨t, rfl, goesOn, spelt, plain, _⟩ := is_of_word.mp spelled
      exact starts goesOn (spelt ▸ plain)
  | call name =>
      obtain ⟨n, opens, t, closes, rfl, ⟨goesOn, next, _⟩, _⟩ := is_of_call.mp spelled
      exact starts goesOn (by rw [next]; decide)

section

variable (names : Names) (scope : Scope)

def Spelling.read : Spelling → Except Problem Term
  | .word text =>
      match names.find? (trimQuotes text) with
      | none => .ok ⟨none, false, trimQuotes text⟩
      | some v =>
          if v.kind = .input && !scope.inputs then .error (.inputNotAllowed (trimQuotes text))
          else .ok ⟨some ⟨v, false⟩, false, trimQuotes text⟩
  | .call name =>
      if !scope.next then .error (.nextNotAllowed name)
      else
        match names.find? name with
        | none => .error (.unknownVariable name)
        | some v => if v.kind = .input then .error (.nextOfInput name) else .ok ⟨some ⟨v, true⟩, true, name⟩

theorem Spelling.IsOf.term {s : Spelling} {ts us : List Token} (spelled : s.IsOf ts) (more : us ≠ []) :
    Expression.term names scope (ts ++ us) = (s.read names scope).map (·, us) := by
  cases s with
  | word text =>
      obtain ⟨t, rfl, goesOn, spelt, plain, noCall⟩ := is_of_word.mp spelled
      subst spelt
      have noCall : (t.text == "next" && t.ahead == some '(') = false := by
        rw [Bool.eq_false_iff]
        simpa using noCall
      rw [List.singleton_append, term_text rfl more goesOn (by simpa using plain) noCall rfl]
      simp only [read]
      cases names.find? (trimQuotes t.text) with
      | none => rfl
      | some v => by_cases hidden : (v.kind = .input && !scope.inputs) = true <;> simp [hidden, Except.map]
  | call name =>
      obtain ⟨n, opens, t, closes, rfl, ⟨goesOn, next, ahead⟩, opened, ⟨goesOnToo, spelt⟩, closed, sign⟩ := is_of_call.mp spelled
      subst spelt
      have plain : n.text ∉ signs := by rw [next]; decide
      have closing : at? ")" (closes :: us) = true := by simp [at?, closed, sign]
      simp only [List.cons_append, List.nil_append, Expression.term, nextCall, goesOn, next, ahead, List.contains_iff_mem,
        next ▸ plain, advance_cons _ (List.cons_ne_nil _ _), goesOnToo, expect, atEnd, closed, closing, advance_cons _ more, read,
        beq_self_eq_true, Bool.and_self, if_true, if_false, Bool.false_eq_true, ok_bind, pure_ok]
      cases scope.next with
      | false => rfl
      | true =>
          cases names.find? t.text with
          | none => rfl
          | some v =>
              by_cases input : v.kind = .input
              · simp only [input, if_true]
                rfl
              · simp only [input, if_false]
                rfl

def ofReading (r : Reading) : Term := ⟨some r, r.next, r.var.name⟩

theorem of_reading_injective : Function.Injective ofReading := fun _ _ equal => Option.some.inj (Term.mk.inj equal).1

variable {names scope} in
theorem Spelling.read_variable {s : Spelling} {t : Term} {r : Reading} (read : s.read names scope = .ok t) (reads : t.reading = some r) :
    t = ofReading r := by
  have found {name : String} {v : Variable} (known : names.find? name = some v) : v.name = name := by simpa using List.find?_some known
  cases s with
  | word text =>
      simp only [Spelling.read] at read
      split at read
      · cases read
        cases reads
      · rename_i v known
        split at read
        · cases read
        · cases read
          cases reads
          rw [ofReading, found known]
  | call name =>
      simp only [Spelling.read] at read
      split at read
      · cases read
      · split at read
        · cases read
        · rename_i v known
          split at read
          · cases read
          · cases read
            cases reads
            rw [ofReading, found known]

end

def Spelling.Writes (s : Spelling) (text : String) : Prop :=
  unmarked text.toList = text.toList ∧ ∃ init last, tokens text.toList = init ++ [last] ∧ last.complaint = none ∧ s.IsOf init

def IsTerm (text : String) : Prop := ∃ s : Spelling, s.Writes text

example : IsTerm "next( \"c\" )" := ⟨.call "\"c\"", rfl, [_, _, _, _], _, rfl, rfl, ⟨rfl, rfl, rfl⟩, rfl, ⟨rfl, rfl⟩, rfl, rfl⟩

section

variable {text : String} {s : Spelling} (writes : s.Writes text)

include writes

theorem Spelling.Writes.lexed : text.toList ≠ [] ∧ text.toList.head? ≠ some nul ∧ ∃ init last, s.IsOf init ∧ last.isEnd = true ∧
    (∀ t ∈ init, t.isEnd = false) ∧ Lexed text.toList (init ++ [last]) ∧ Quiet (init ++ [last]) := by
  obtain ⟨plain, init, last, shape, silent, spelled⟩ := writes
  obtain ⟨initToo, lastToo, same, ends, others, quiet⟩ := quiet_of_last (firstComplaint none (Cursor.ofText text.toList).2)
    ⟨(Cursor.ofText text.toList).1.unread, (Cursor.ofText text.toList).1.position⟩ (Nat.lt_succ_of_le (of_text_length text.toList))
  rw [← tokens_text, shape] at same quiet
  obtain ⟨rfl, ⟨⟩⟩ := List.append_inj' same rfl
  obtain ⟨start, all⟩ := quiet silent
  have silence : (unmarked text.toList).head? ≠ some nul := complain_ahead_nil.mp (first_complaint_none.mp start).2
  have lexed := lexed_tokens silence
  rw [plain, shape] at lexed
  rw [plain] at silence
  refine ⟨fun none => ?_, silence, init, last, spelled, ends, others, lexed, all⟩
  rw [none] at shape
  obtain rfl : init = [] := by
    have length : (init ++ [last]).length = 1 := by rw [← shape]; rfl
    simpa using length
  cases s <;> exact spelled

theorem Spelling.Writes.begins {rest : List Char} (parted : Parted rest) {ts : List Token} (lexed : Lexed (text.toList ++ rest) ts) :
    ∃ us vs, ts = us ++ vs ∧ s.IsOf us ∧ Lexed rest vs := by
  obtain ⟨_, _, init, last, spelled, ends, others, lexedText, quiet⟩ := writes.lexed
  obtain ⟨us, vs, shape, twins, lexedRest⟩ := lexedText.twins ends others quiet parted lexed
  exact ⟨us, vs, shape, spelled.twins twins, lexedRest⟩

end

theorem Spelling.Writes.term {text : String} {s : Spelling} (writes : s.Writes text) (names : Names) (scope : Scope) :
    ∃ last, Expression.term names scope (tokens text.toList) = (s.read names scope).map (·, [last]) := by
  obtain ⟨_, init, last, shape, _, spelled⟩ := writes
  exact ⟨last, by rw [shape, spelled.term names scope (List.cons_ne_nil last [])]⟩

theorem Spelling.Writes.allowed {text : String} {s : Spelling} (writes : s.Writes text) {names : Names} {scope : Scope} {t : Term}
    (read : s.read names scope = .ok t) : t.Allowed names scope := by
  obtain ⟨last, same⟩ := writes.term names scope
  rw [read] at same
  exact term_allowed _ _ same

def comparisonSign (negated : Bool) : String := if negated then " != " else " = "

def Signed (negated : Bool) (ts us : List Token) : Prop := if negated then ∃ vs, Leads "!" ts vs ∧ Leads "=" vs us else Leads "=" ts us

theorem Lexed.ne_nil {text : List Char} {ts : List Token} (lexed : Lexed text ts) : ts ≠ [] := by
  obtain ⟨fuel, p, enough, rfl⟩ := lexed
  obtain ⟨fuel, rfl⟩ : ∃ more, fuel = more + 1 := Nat.exists_eq_succ_of_ne_zero (Nat.ne_zero_of_lt enough)
  exact tokens_from_ne_nil _ _ _

theorem Lexed.leads {c : Char} (sign : c ∈ ['=', '!']) {rest : List Char} {ts : List Token} (silent : rest.head? ≠ some nul)
    (apart : rest.head? ≠ some '(') (lexed : Lexed (c :: rest) ts) : ∃ us, Leads (String.singleton c) ts us ∧ Lexed rest us := by
  have lone : startsName c = false ∧ isSpace c = false ∧ c ≠ '"' ∧ c.isDigit = false ∧ c ≠ '-' := by
    fin_cases sign <;> decide
  obtain ⟨t, us, shape, goesOn, same, ahead, _, lexedRest⟩ := lexed.cons fun p => takes_lone lone silent p
  exact ⟨us, ⟨t, shape, lexedRest.ne_nil, goesOn, same, fun opened => absurd (ahead ▸ opened) apart⟩, lexedRest⟩

theorem Lexed.signed {negated : Bool} {rest : List Char} {ts : List Token} (silent : rest.head? ≠ some nul)
    (lexed : Lexed ((comparisonSign negated).toList ++ rest) ts) : ∃ us, Signed negated ts us ∧ Lexed rest us := by
  have blank : ∀ c ∈ [' '], isSpace c = true := List.all_iff_forall_prop.mp (by decide)
  cases negated with
  | false =>
      have lexed : Lexed ([' '] ++ '=' :: ' ' :: rest) ts := lexed
      obtain ⟨us, leads, lexed⟩ := (lexed.skip blank (by simp [nul])).leads (by decide) (by simp [nul]) (by simp)
      have lexed : Lexed ([' '] ++ rest) us := lexed
      exact ⟨us, leads, lexed.skip blank silent⟩
  | true =>
      have lexed : Lexed ([' '] ++ '!' :: '=' :: ' ' :: rest) ts := lexed
      obtain ⟨us, bang, lexed⟩ := (lexed.skip blank (by simp [nul])).leads (by decide) (by simp [nul]) (by simp)
      obtain ⟨vs, leads, lexed⟩ := lexed.leads (by decide) (by simp [nul]) (by simp)
      have lexed : Lexed ([' '] ++ rest) vs := lexed
      exact ⟨vs, ⟨us, bang, leads⟩, lexed.skip blank silent⟩

section

variable (names : Names) (scope : Scope)

def compared (negated : Bool) (s z : Spelling) : Except Problem Expression := do
  let left ← s.read names scope
  let right ← z.read names scope
  let e ← equal names left right
  return if negated then .not e else e

theorem Signed.comparison {negated : Bool} {s z : Spelling} {ts us vs : List Token} {last : Token} (first : s.IsOf ts)
    (signed : Signed negated us (vs ++ [last])) (second : z.IsOf vs) :
    Expression.comparison names scope (ts ++ us) = (compared names scope negated s z).map (·, [last]) := by
  have more : us ≠ [] := by
    cases negated with
    | false =>
        have leads : Leads "=" us (vs ++ [last]) := signed
        exact List.ne_nil_of_length_pos (Nat.zero_lt_of_lt leads.shorter)
    | true =>
        obtain ⟨ms, bang, _⟩ := signed
        exact List.ne_nil_of_length_pos (Nat.zero_lt_of_lt bang.shorter)
  unfold Expression.comparison compared
  rw [first.term names scope more]
  cases s.read names scope with
  | error _ => rfl
  | ok left =>
      have later := second.term names scope (List.cons_ne_nil last [])
      cases negated with
      | false =>
          have leads : Leads "=" us (vs ++ [last]) := signed
          simp only [Except.map, ok_bind, leads.here, leads.advance, later, if_true]
          cases z.read names scope with
          | error _ => rfl
          | ok right =>
              simp only [ok_bind]
              cases equal names left right <;> rfl
      | true =>
          obtain ⟨ms, bang, leads⟩ := signed
          simp only [Except.map, ok_bind, bang.elsewhere (by decide : "!" ≠ "="), bang.here, bang.advance, leads.expect, later, if_true,
            if_false, Bool.false_eq_true]
          cases z.read names scope with
          | error _ => rfl
          | ok right =>
              simp only [ok_bind]
              cases equal names left right <;> rfl

theorem chain_alone {operand : Reader Expression} {ts : List Token} {last : Token} (ends : last.isEnd = true) {x : Except Problem Expression}
    (reads : operand ts = x.map (·, [last])) : chain operand ts = x.map (·, [last]) := by
  have stops (word : String) : at? word [last] = false := by simp [at?, ends]
  have left (sign : String) (make : Expression → Expression → Expression) {operand : Reader Expression}
      (reads : operand ts = x.map (·, [last])) : leftChain sign make operand ts = x.map (·, [last]) := by
    unfold leftChain
    rw [reads]
    cases x with
    | error _ => rfl
    | ok e => simp [Except.map, ok_bind, moreOperands, stops]
  have implied (fuel : Nat) {operand : Reader Expression} (reads : operand ts = x.map (·, [last])) :
      implications operand fuel ts = x.map (·, [last]) := by
    cases fuel with
    | zero => exact reads
    | succ fuel =>
        unfold implications
        rw [reads]
        cases x with
        | error _ => rfl
        | ok e => simp [Except.map, ok_bind, pure_ok, stops]
  have consequence := implied ts.length (left "|" .or (left "&" .and reads))
  unfold chain
  cases ts.length with
  | zero => exact consequence
  | succ fuel =>
      unfold equivalences
      rw [consequence]
      cases x with
      | error _ => rfl
      | ok e => simp [Except.map, ok_bind, pure_ok, stops]

theorem parse_comparison {t u : String} {s z : Spelling} (first : s.Writes t) (second : z.Writes u) (negated : Bool) :
    parse names scope (t ++ comparisonSign negated ++ u) = compared names scope negated s z := by
  obtain ⟨filled, silent, _⟩ := first.lexed
  obtain ⟨_, silentToo, _⟩ := second.lexed
  have text : (t ++ comparisonSign negated ++ u).toList = t.toList ++ ((comparisonSign negated).toList ++ u.toList) := by simp
  have unread : unmarked (t ++ comparisonSign negated ++ u).toList = (t ++ comparisonSign negated ++ u).toList := by
    rw [text, unmarked, of_text_append _ filled]
    exact congrArg (· ++ _) first.1
  have silence : (t ++ comparisonSign negated ++ u).toList.head? ≠ some nul := by
    obtain ⟨c, rest, shape⟩ := List.exists_cons_of_ne_nil filled
    rw [shape] at silent
    simpa [text, shape] using silent
  have lexed := lexed_tokens (unread ▸ silence)
  rw [unread, text] at lexed
  have behind : Parted ((comparisonSign negated).toList ++ u.toList) := by
    cases negated <;> exact fun c head => (Option.some.inj head).symm
  obtain ⟨ts, us, shape, spelled, lexed⟩ := first.begins behind lexed
  obtain ⟨vs, signed, lexed⟩ := lexed.signed silentToo
  rw [← List.append_nil u.toList] at lexed
  obtain ⟨ws, rest, rfl, spelledToo, lexed⟩ := second.begins (by simp [Parted]) lexed
  obtain ⟨last, rfl, ends, quiet⟩ := lexed.nil
  obtain ⟨goesOn, starts⟩ := spelled.starts us
  have reads (fuel : Nat) : unary names scope (fuel + 1) (ts ++ us) = (compared names scope negated s z).map (·, [last]) := by
    rw [← Signed.comparison names scope spelled signed spelledToo]
    simp [unary, goesOn, starts "~" (by decide), starts "!" (by decide), starts "(" (by decide)]
  obtain ⟨fuel, length⟩ : ∃ fuel, (ts ++ us).length = fuel + 1 := by
    cases whole : ts ++ us with
    | nil => exact absurd goesOn (by simp [whole, atEnd])
    | cons t rest => exact ⟨rest.length, rfl⟩
  have read := chain_alone ends (reads fuel)
  unfold parse
  rw [text, shape]
  simp only [goesOn, length, read, Bool.false_eq_true, if_false]
  cases compared names scope negated s z with
  | error _ => rfl
  | ok e => simp [Except.map, ok_bind, pure_ok, complaintSoFar, quiet, atEnd, ends]

end

end Expression

-- The current value of a variable, which is named like a value of the other one.
def Reading.NamesValueOf (a b : Reading) : Prop := a.next = false ∧ a.var.name ∈ b.var.domain

namespace Expression

variable {a b : Reading}

theorem index_of_mem {v : Variable} {value : String} (listed : value ∈ v.domain) :
    ∃ index < v.domain.length, v.index? value = some index := by
  cases found : v.index? value with
  | none =>
      have none := List.findIdx?_eq_none_iff.mp found value listed
      simp at none
  | some index => exact ⟨index, index_less found, rfl⟩

theorem equal_to_value (value : b.NamesValueOf a) : ∃ index < a.var.domain.length, equalTo a (ofReading b) = .ok (.isValue a index) := by
  obtain ⟨index, less, found⟩ := index_of_mem value.2
  exact ⟨index, less, by simp [equalTo, ofReading, value.1, found]⟩

theorem equal_to_variable (other : ¬ b.NamesValueOf a) : equalTo a (ofReading b) =
    if a.var.domain = b.var.domain then .ok (.same a b) else .error (.differentDomains a.var.name b.var.name) := by
  cases call : b.next with
  | true => simp [equalTo, ofReading, call]
  | false =>
      have absent : a.var.index? b.var.name = none := by
        refine List.findIdx?_eq_none_iff.mpr fun value listed => beq_eq_false_iff_ne.mpr ?_
        rintro rfl
        exact other ⟨call, listed⟩
      simp [equalTo, ofReading, call, absent]

theorem region_same_symm (domains : a.var.domain = b.var.domain) (named : List (String × Region)) :
    (Expression.same a b).region named = (Expression.same b a).region named := by
  unfold region
  rw [domains]
  congr 2
  funext index
  apply Region.members_injective
  rw [Region.members_inter, Region.members_inter, Set.inter_comm]

end Expression

namespace Frame

section

variable {f : Frame} (laid : f.Laid) (sized : ∀ v ∈ f.vars, v.Sized) {a b : Reading} (known : a.Of f.vars) (knownToo : b.Of f.vars)
  (different : a ≠ b)

include laid sized known knownToo different

theorem Laid.exists_apart (i j : Nat) : ∃ ρ ∈ (a.region i).members, ρ ∉ (b.region j).members := by
  classical
  let other := if j.testBit 0 then 0 else 1
  obtain ⟨ρ, codes⟩ := laid.exists_codes fun r => if r = a then i else other
  have here := codes a known
  have there := codes b knownToo
  rw [if_pos rfl] at here
  rw [if_neg different.symm] at there
  refine ⟨ρ, here, fun member => ?_⟩
  have wide : 0 < (b.var.bitsAt b.next).length := by
    rw [knownToo.wide sized]
    unfold width
    split <;> omega
  have entry : ((b.var.bitsAt b.next)[0], 0) ∈ (b.var.bitsAt b.next).zipIdx := by
    rw [List.mem_zipIdx_iff_getElem?]
    exact List.getElem?_eq_getElem wide
  have same : other.testBit 0 = j.testBit 0 := (Frame.mem_code.mp there _ entry).symm.trans (Frame.mem_code.mp member _ entry)
  cases low : j.testBit 0 <;> simp [other, low] at same

theorem Laid.equations_differ (named : List (String × Region)) (value : b.NamesValueOf a) :
    ∃ e, Expression.equalTo a (Expression.ofReading b) = .ok e ∧
      ∀ e', Expression.equalTo b (Expression.ofReading a) = .ok e' → e.region named ≠ e'.region named := by
  obtain ⟨i, less, first⟩ := Expression.equal_to_value value
  refine ⟨_, first, fun e' second same => ?_⟩
  by_cases valueToo : a.NamesValueOf b
  · obtain ⟨j, _, third⟩ := Expression.equal_to_value valueToo
    cases second.symm.trans third
    obtain ⟨ρ, here, away⟩ := laid.exists_apart sized known knownToo different i j
    have member : ρ ∈ ((Expression.isValue a i).region named).members := here
    rw [same] at member
    exact away member
  · rw [Expression.equal_to_variable valueToo] at second
    split at second
    · rename_i domains
      cases second
      obtain ⟨ρ, here, away⟩ := laid.exists_apart sized known knownToo different i i
      have member : ρ ∈ ((Expression.isValue a i).region named).members := here
      rw [same] at member
      simp only [Expression.region, Region.mem_union_all, List.mem_map, List.mem_range, exists_exists_and_eq_and, Region.members_inter,
        Set.mem_inter_iff] at member
      obtain ⟨j, lessToo, there, own⟩ := member
      obtain rfl := Variable.code_unique (known.wide sized) less (domains ▸ lessToo) here own
      exact away there
    · cases second

end

end Frame

namespace System

open Expression

section

variable (names : Names) (defines : List (String × Region))

-- The region of an equation of two terms, if there is one.
def Equates (left right : Term) (r : Region) : Prop := ∃ e, equal names left right = .ok e ∧ r = e.region defines

def signed (negated : Bool) (r : Region) : Region := if negated then r.compl else r

theorem signed_injective (negated : Bool) : Function.Injective (signed negated) := by
  cases negated with
  | false => exact fun _ _ same => same
  | true =>
      intro r s same
      have same : r.compl = s.compl := same
      apply Region.members_injective
      ext ρ
      have outside : ρ ∈ r.compl.members ↔ ρ ∈ s.compl.members := by rw [same]
      rwa [Region.mem_compl, Region.mem_compl, not_iff_not] at outside

theorem signed_iff {negated : Bool} {P Q : Region → Prop} :
    (∀ r, (∃ s, P s ∧ r = signed negated s) ↔ ∃ s, Q s ∧ r = signed negated s) ↔ ∀ s, P s ↔ Q s := by
  constructor
  · intro both s
    have here := both (signed negated s)
    simpa [(signed_injective negated).eq_iff] using here
  · exact fun both r => exists_congr fun s => and_congr_left fun _ => both s

variable {names defines} {scope : Scope} {t u : String} {first second : Spelling}

theorem compile_comparison (writes : first.Writes t) (writesToo : second.Writes u) (negated : Bool) {r : Region} :
    compile names defines scope (t ++ comparisonSign negated ++ u) = .ok r ↔ ∃ left right, first.read names scope = .ok left ∧
      second.read names scope = .ok right ∧ ∃ s, Equates names defines left right s ∧ r = signed negated s := by
  rw [compile_ok, parse_comparison names scope writes writesToo]
  constructor
  · rintro ⟨e, done, rfl⟩
    obtain ⟨left, read, done⟩ := ok_of_bind done
    obtain ⟨right, readToo, done⟩ := ok_of_bind done
    obtain ⟨f, same, done⟩ := ok_of_bind done
    cases done
    refine ⟨left, right, read, readToo, _, ⟨f, same, rfl⟩, ?_⟩
    cases negated <;> rfl
  · rintro ⟨left, right, read, readToo, _, ⟨f, same, rfl⟩, rfl⟩
    refine ⟨if negated then .not f else f, ?_, ?_⟩
    · simp [compared, read, readToo, same, ok_bind, pure_ok]
    · cases negated <;> rfl

theorem constants_fail {left right : Term} (constant : left.reading = none) (constantToo : right.reading = none) (e : Expression) :
    equal names left right ≠ .ok e := by
  unfold equal
  rw [constant, constantToo]
  dsimp only
  split
  · simp
  · split <;> simp

theorem equates_symm {left right : Term} (constant : left.reading = none ∨ right.reading = none) (r : Region) :
    Equates names defines left right r ↔ Equates names defines right left r := by
  cases read : left.reading with
  | some a =>
      have constant : right.reading = none := constant.resolve_left (by simp [read])
      simp only [Equates, equal, read, constant]
  | none =>
      cases readToo : right.reading with
      | some b => simp only [Equates, equal, read, readToo]
      | none => simp [Equates, constants_fail read readToo, constants_fail readToo read]

end

variable (sys : System)

def ReadsVariable (scope : Scope) (text : String) (r : Reading) : Prop :=
  ∃ last, term sys.names scope (tokens text.toList) = .ok (ofReading r, [last])

-- Two terms are read as variables, or as the current and the next value of one, of which one is named like a value of the other.
def Confuses (scope : Scope) (t u : String) : Prop :=
  ∃ a b, sys.ReadsVariable scope t a ∧ sys.ReadsVariable scope u b ∧ a ≠ b ∧ (a.NamesValueOf b ∨ b.NamesValueOf a)

variable {sys} {scope : Scope} {t u : String}

theorem reads_variable {s : Spelling} (writes : s.Writes t) {r : Reading} :
    sys.ReadsVariable scope t r ↔ s.read sys.names scope = .ok (ofReading r) := by
  obtain ⟨last, read⟩ := writes.term sys.names scope
  unfold ReadsVariable
  rw [read]
  cases s.read sys.names scope <;> simp [Except.map]

-- Different variables are equated in the same way in both orders when none is taken for a value of the other.
theorem Compiled.equates_iff {d : Description} (compiled : sys.Compiled d) (wf : sys.WellFormed) {a b : Reading} (known : a.Of sys.toFrame.vars)
    (knownToo : b.Of sys.toFrame.vars) : (∀ r, Equates sys.names sys.defines (ofReading a) (ofReading b) r ↔
      Equates sys.names sys.defines (ofReading b) (ofReading a) r) ↔ ¬ (a ≠ b ∧ (a.NamesValueOf b ∨ b.NamesValueOf a)) := by
  have sized := fun v member => (compiled.sized v member).1
  have differs {a b : Reading} (known : a.Of sys.toFrame.vars) (knownToo : b.Of sys.toFrame.vars) (different : a ≠ b)
      (value : b.NamesValueOf a) : ∃ r, Equates sys.names sys.defines (ofReading a) (ofReading b) r ∧
        ¬ Equates sys.names sys.defines (ofReading b) (ofReading a) r := by
    obtain ⟨e, first, others⟩ := wf.laid.equations_differ sized known knownToo different sys.defines value
    refine ⟨_, ⟨e, first, rfl⟩, ?_⟩
    rintro ⟨e', second, equal⟩
    exact others e' second equal
  constructor
  · rintro both ⟨different, value | value⟩
    · obtain ⟨r, here, away⟩ := differs knownToo known different.symm value
      exact away ((both r).mpr here)
    · obtain ⟨r, here, away⟩ := differs known knownToo different value
      exact away ((both r).mp here)
  · intro plain r
    by_cases same : a = b
    · rw [same]
    · obtain ⟨other, otherToo⟩ := not_or.mp fun value => plain ⟨same, value⟩
      have reads : equal sys.names (ofReading a) (ofReading b) = equalTo a (ofReading b) := rfl
      have readsToo : equal sys.names (ofReading b) (ofReading a) = equalTo b (ofReading a) := rfl
      unfold Equates
      rw [reads, readsToo, equal_to_variable otherToo, equal_to_variable other]
      by_cases domains : a.var.domain = b.var.domain
      · rw [if_pos domains, if_pos domains.symm]
        simp [region_same_symm domains]
      · rw [if_neg domains, if_neg (Ne.symm domains)]
        simp

/-- A comparison of two terms compiles to the same region in both orders, or in neither, exactly when they are not two variables of which
one is named like a value of the other. -/
theorem comparison_symmetric {d : Description} (built : d.build = .ok sys) (scope : Scope) (isTerm : IsTerm t) (isTermToo : IsTerm u)
    (negated : Bool) : (∀ r, compile sys.names sys.defines scope (t ++ comparisonSign negated ++ u) = .ok r ↔
      compile sys.names sys.defines scope (u ++ comparisonSign negated ++ t) = .ok r) ↔ ¬ sys.Confuses scope t u := by
  have wf := d.build_well_formed sys built
  have compiled := d.build_compiled sys built
  obtain ⟨first, writes⟩ := isTerm
  obtain ⟨second, writesToo⟩ := isTermToo
  simp only [compile_comparison writes writesToo, compile_comparison writesToo writes, Confuses, reads_variable writes,
    reads_variable writesToo]
  cases read : first.read sys.names scope with
  | error _ => simp
  | ok left =>
      cases readToo : second.read sys.names scope with
      | error _ => simp
      | ok right =>
          simp only [Except.ok.injEq, exists_and_left, exists_eq_left']
          rw [signed_iff]
          cases here : left.reading with
          | none =>
              refine iff_of_true (equates_symm (.inl here)) ?_
              rintro ⟨a, rfl, _⟩
              cases here
          | some a =>
              cases there : right.reading with
              | none =>
                  refine iff_of_true (equates_symm (.inr there)) ?_
                  rintro ⟨a, _, b, rfl, _⟩
                  cases there
              | some b =>
                  obtain rfl := Spelling.read_variable read here
                  obtain rfl := Spelling.read_variable readToo there
                  have vars : sys.names.vars = sys.toFrame.vars := by rw [compiled.names]
                  have known := (writes.allowed read a rfl).of
                  have knownToo := (writesToo.allowed readToo b rfl).of
                  rw [vars] at known knownToo
                  rw [compiled.equates_iff wf known knownToo]
                  simp [of_reading_injective.eq_iff]

def signals : Description where
  name := "signals"
  vars := [⟨"red", ["false", "true"]⟩, ⟨"c", ["red", "green"]⟩]

theorem comparison_symmetric_signals : ∃ sys, signals.build = .ok sys ∧ IsTerm "c" ∧ IsTerm "green" ∧ IsTerm "red" ∧
    (∀ r, compile sys.names sys.defines .state "c = green" = .ok r ↔ compile sys.names sys.defines .state "green = c" = .ok r) ∧
    ¬ ∀ r, compile sys.names sys.defines .state "c = red" = .ok r ↔ compile sys.names sys.defines .state "red = c" = .ok r := by
  obtain ⟨sys, built⟩ : ∃ sys, signals.build = .ok sys := ok_of_is_ok (by decide +kernel)
  let red : Variable := ⟨"red", .state, ["false", "true"], [0], [1]⟩
  let c : Variable := ⟨"c", .state, ["red", "green"], [2], [3]⟩
  have names : sys.names.vars = [red, c] := by
    have compiled := signals.build_compiled sys built
    rw [compiled.names, Frame.vars, compiled.stateVars, compiled.inputVars]
    rfl
  have writes : ∀ text ∈ ["c", "green", "red"], (Spelling.word text).Writes text := by
    intro text listed
    fin_cases listed <;> exact ⟨rfl, [_], _, rfl, rfl, rfl, rfl, by decide, by decide⟩
  have isC := writes "c" (by decide)
  have isGreen := writes "green" (by decide)
  have isRed := writes "red" (by decide)
  refine ⟨sys, built, ⟨_, isC⟩, ⟨_, isGreen⟩, ⟨_, isRed⟩, ?_, ?_⟩
  · refine (comparison_symmetric built .state ⟨_, isC⟩ ⟨_, isGreen⟩ false).mpr ?_
    rintro ⟨a, b, _, second, _⟩
    rw [reads_variable isGreen] at second
    simp only [Spelling.read, Names.find?, names] at second
    cases second
  · intro both
    refine (comparison_symmetric built .state ⟨_, isC⟩ ⟨_, isRed⟩ false).mp both ⟨⟨c, false⟩, ⟨red, false⟩, ?_, ?_, ?_, .inr ?_⟩
    · rw [reads_variable isC]
      simp only [Spelling.read, Names.find?, names]
      rfl
    · rw [reads_variable isRed]
      simp only [Spelling.read, Names.find?, names]
      rfl
    · exact fun same => absurd (congrArg (·.var.name) same) (by decide)
    · exact ⟨rfl, by decide⟩

end System

end Coalition
