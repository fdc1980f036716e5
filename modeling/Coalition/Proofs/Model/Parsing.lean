import Coalition.Proofs.Model.Follows
import Coalition.Proofs.Model.Meaning
import Coalition.Proofs.Model.Written
import Coalition.Text.Character

-- The parser reads a text of an expression as one with the same meaning: the operands of `|` and of `&` may be grouped in another way.

set_option autoImplicit false

namespace Coalition

namespace Expression

open Coalition.Text

section

variable {text word : String} {ts us rest : List Token}

theorem Leads.advance (leads : Leads text ts us) : Expression.advance ts = us := by
  obtain ⟨t, rfl, more, _⟩ := leads
  exact advance_cons t more

theorem Leads.shorter (leads : Leads text ts us) : us.length < ts.length := by
  obtain ⟨t, rfl, _⟩ := leads
  exact Nat.lt_succ_self _

theorem Leads.at_word (leads : Leads text ts us) : at? word ts = (text == word) := by
  obtain ⟨t, rfl, _, goesOn, same, _⟩ := leads
  simp [at?, goesOn, same]

theorem Leads.here (leads : Leads word ts us) : at? word ts = true := leads.at_word.trans (beq_self_eq_true word)

theorem Leads.elsewhere (leads : Leads text ts us) (other : text ≠ word) : at? word ts = false :=
  leads.at_word.trans (beq_eq_false_iff_ne.mpr other)

theorem Leads.expect (leads : Leads word ts us) : Expression.expect word ts = .ok ((), us) := by
  have known : atEnd ts = false := goes_on_of_at leads.here
  simp [Expression.expect, known, leads.here, leads.advance]

end

theorem Mark.Leads.shorter {m : Mark} {ts us : List Token} (leads : m.Leads ts us) : us.length < ts.length := by
  cases m with
  | word text => exact Expression.Leads.shorter leads.2
  | quotation text => exact Expression.Leads.shorter leads.2
  | sign c => exact Expression.Leads.shorter leads
  | arrow => exact Expression.Leads.shorter leads
  | call =>
      obtain ⟨t, vs, rfl, _, _, _, later⟩ := leads
      exact Nat.lt_succ_of_lt (Expression.Leads.shorter later)

theorem Mark.Leads.goes_on {m : Mark} {ts us : List Token} (leads : m.Leads ts us) : atEnd ts = false := by
  have first {text : String} (leads : Expression.Leads text ts us) : atEnd ts = false := goes_on_of_at leads.here
  cases m with
  | word text => exact first leads.2
  | quotation text => exact first leads.2
  | sign c => exact first leads
  | arrow => exact first leads
  | call =>
      obtain ⟨t, vs, rfl, goesOn, _⟩ := leads
      exact goesOn

theorem Spells.shorter {ms : List Mark} {ts rest : List Token} (spelled : Spells ms ts rest) : rest.length ≤ ts.length := by
  induction ms generalizing ts with
  | nil => exact Nat.le_of_eq (congrArg List.length spelled.symm)
  | cons m ms ih =>
      obtain ⟨us, leads, later⟩ := spelled
      exact Nat.le_trans (ih later) (Nat.le_of_lt leads.shorter)

theorem drop_while_plain {cs : List Char} (plain : '"' ∉ cs) : cs.dropWhile (· == '"') = cs := by
  cases cs with
  | nil => rfl
  | cons c cs =>
      obtain ⟨other, _⟩ := List.ne_and_not_mem_of_not_mem_cons plain
      simp [other.symm]

theorem trim_quotes_plain {word : String} (plain : '"' ∉ word.toList) : trimQuotes word = word := by
  unfold trimQuotes trimList
  rw [drop_while_plain plain, drop_while_plain (by simpa using plain), List.reverse_reverse, String.ofList_toList]

theorem trim_quotes_quotation {text : String} (plain : '"' ∉ text.toList) :
    trimQuotes (String.ofList ('"' :: (text.toList ++ ['"']))) = text := by
  have inner : (('"' :: (text.toList ++ ['"'])).dropWhile (· == '"')).reverse.dropWhile (· == '"') = text.toList.reverse := by
    cases shape : text.toList with
    | nil => rfl
    | cons c cs =>
        rw [shape] at plain
        obtain ⟨other, _⟩ := List.ne_and_not_mem_of_not_mem_cons plain
        have back : (c :: cs).reverse.dropWhile (· == '"') = (c :: cs).reverse := drop_while_plain (by simpa [and_comm] using plain)
        simpa [other.symm] using back
  unfold trimQuotes trimList
  rw [String.toList_ofList, inner, List.reverse_reverse, String.ofList_toList]

theorem plain_of_name {word : String} (name : isName word = true) : '"' ∉ word.toList := by
  obtain ⟨c, cs, shape, starts, continues⟩ := cons_of_name name
  rw [shape]
  rintro (_ | ⟨_, listed⟩)
  · exact absurd starts (by decide)
  · exact absurd (continues '"' listed) (by decide)

theorem not_sign_of_name {word : String} (name : isName word = true) : signs.contains word = false := by
  rw [Bool.eq_false_iff]
  intro listed
  have sign := List.contains_iff_mem.mp listed
  unfold signs at sign
  fin_cases sign <;> exact absurd name (by decide)

def reserved : List String := ["true", "TRUE", "false", "FALSE", "next", "in"]

-- Names that cannot be mistaken for each other, for a value or for a word with a meaning of its own.
structure Names.Plain (names : Names) : Prop where
  distinct : (names.vars.map (·.name)).Nodup
  domains : ∀ v ∈ names.vars, v.domain.Nodup
  vars : ∀ v ∈ names.vars, v.name ∉ reserved
  values : ∀ v ∈ names.vars, ∀ w ∈ names.vars, v.name ∉ w.domain
  compiled : ∀ name ∈ names.compiled, name ∉ reserved ∧ ∀ v ∈ names.vars, v.name ≠ name

theorem index_of_listed {v : Variable} (nodup : v.domain.Nodup) {index : Nat} {value : String} (listed : v.domain[index]? = some value) :
    v.index? value = some index := by
  obtain ⟨less, rfl⟩ := List.getElem?_eq_some_iff.mp listed
  refine List.findIdx?_eq_some_iff_getElem.mpr ⟨less, beq_self_eq_true _, fun j before => ?_⟩
  rw [Bool.not_eq_true, beq_eq_false_iff_ne]
  intro same
  exact absurd (nodup.getElem_inj_iff.mp same) (Nat.ne_of_lt before)

-- The current token is this value without its quotation marks. It is no sign, and it starts no `next(..)`.
def LeadsValue (value : String) (ts us : List Token) : Prop :=
  ∃ t, ts = t :: us ∧ us ≠ [] ∧ t.isEnd = false ∧ trimQuotes t.text = value ∧ signs.contains t.text = false ∧
    (at? "(" us = false → (t.text == "next" && t.ahead == some '(') = false)

section

variable {names : Names} (plain : names.Plain) {scope : Scope} {ts us : List Token}

theorem find_none {name : String} (absent : ∀ v ∈ names.vars, v.name ≠ name) : names.find? name = none :=
  List.find?_eq_none.mpr fun v member same => absent v member (beq_iff_eq.mp same)

theorem term_text {t : Token} {text : String} (shape : ts = t :: us) (more : us ≠ []) (goesOn : t.isEnd = false)
    (plain : signs.contains t.text = false) (noCall : (t.text == "next" && t.ahead == some '(') = false) (same : trimQuotes t.text = text) :
    term names scope ts = match names.find? text with
      | none => .ok (⟨none, false, text⟩, us)
      | some v =>
          if v.kind = .input && !scope.inputs then .error (.inputNotAllowed text)
          else .ok (⟨some ⟨v, false⟩, false, text⟩, us) := by
  subst shape
  cases found : names.find? text with
  | none => simp only [term, goesOn, plain, noCall, same, found, advance_cons t more, Bool.false_eq_true, if_false]
  | some v => simp only [term, goesOn, plain, noCall, same, found, advance_cons t more, Bool.false_eq_true, if_false]

theorem term_word {word : String} (name : isName word = true) (leads : Leads word ts us) (other : word = "next" → at? "(" us = false) :
    term names scope ts = match names.find? word with
      | none => .ok (⟨none, false, word⟩, us)
      | some v =>
          if v.kind = .input && !scope.inputs then .error (.inputNotAllowed word)
          else .ok (⟨some ⟨v, false⟩, false, word⟩, us) := by
  obtain ⟨t, shape, more, goesOn, rfl, ahead⟩ := leads
  refine term_text shape more goesOn (not_sign_of_name name) ?_ (trim_quotes_plain (plain_of_name name))
  rw [Bool.and_eq_false_iff, beq_eq_false_iff_ne, beq_eq_false_iff_ne, or_iff_not_imp_left, not_not]
  intro next parenthesis
  rw [other next] at ahead
  cases ahead parenthesis

include plain

theorem find_name {v : Variable} (member : v ∈ names.vars) : names.find? v.name = some v := by
  unfold Names.find?
  cases found : names.vars.find? (·.name == v.name) with
  | none => exact absurd (beq_self_eq_true v.name) (List.find?_eq_none.mp found v member)
  | some w =>
      have same : w.name = v.name := by simpa using List.find?_some found
      rw [List.inj_on_of_nodup_map plain.distinct (List.mem_of_find?_eq_some found) member same]

theorem term_reading {r : Reading} (allowed : scope.Allows names.vars r) (spelled : Spells (readingMarks r) ts us) :
    term names scope ts = .ok (⟨some r, r.next, r.var.name⟩, us) := by
  obtain ⟨v, next⟩ := r
  obtain ⟨member, later, input⟩ := allowed
  have found := find_name plain member
  cases next with
  | false =>
      obtain ⟨_, ⟨name, leads⟩, rfl⟩ := spelled
      have other : v.name ≠ "next" := fun same => plain.vars v member (by rw [same]; decide)
      rw [term_word name leads fun same => absurd same other, found]
      dsimp only at input ⊢
      rw [if_neg]
      simpa using input
  | true =>
      obtain ⟨vs, ⟨t, as, rfl, goesOn, word, ahead, opens⟩, ws, ⟨_, leads⟩, _, closes, rfl⟩ := spelled
      have closes : Leads ")" ws _ := closes
      obtain ⟨nextAllowed, state⟩ := later rfl
      have opened : advance (advance (t :: as)) = vs := by
        rw [advance_cons t (List.ne_nil_of_length_pos (Nat.zero_lt_of_lt opens.shorter)), opens.advance]
      have closed := leads.advance
      obtain ⟨u, rfl, _, goesOnToo, same, _⟩ := leads
      have sign : "next" ∉ signs := by decide
      simp [term, goesOn, word, ahead, sign, nextCall, opened, goesOnToo, same, closed, closes.expect, nextAllowed, found, state, ok_bind, pure_ok]

theorem find_value {v : Variable} (member : v ∈ names.vars) {value : String} (listed : value ∈ v.domain) : names.find? value = none :=
  find_none fun w known same => plain.values w known v member (same ▸ listed)

omit plain in
theorem value_leads {domain : List String} {index : Nat} {m : Mark} (valued : ValueMark domain index m) :
    ∃ value, domain[index]? = some value ∧ ∀ ts us, m.Leads ts us → LeadsValue value ts us := by
  cases valued with
  | @word value listed =>
      refine ⟨value, listed, fun ts us leads => ?_⟩
      obtain ⟨name, t, shape, more, goesOn, rfl, ahead⟩ := leads
      refine ⟨t, shape, more, goesOn, trim_quotes_plain (plain_of_name name), not_sign_of_name name, fun closed => ?_⟩
      rw [closed] at ahead
      simpa using fun _ => ahead
  | @quotation value listed =>
      refine ⟨value, listed, fun ts us leads => ?_⟩
      obtain ⟨quotable, t, shape, more, goesOn, same, _⟩ := leads
      have plain : '"' ∉ value.toList := fun inside => (quotable _ inside).1 rfl
      have head : t.text.toList.head? = some '"' := by rw [same, String.toList_ofList]; rfl
      refine ⟨t, shape, more, goesOn, by rw [same, trim_quotes_quotation plain], ?_, fun _ => ?_⟩
      · rw [Bool.eq_false_iff]
        exact fun listed => absurd head ((by decide : ∀ sign ∈ signs, sign.toList.head? ≠ some '"') _ (List.contains_iff_mem.mp listed))
      · rw [Bool.and_eq_false_iff, beq_eq_false_iff_ne]
        refine .inl fun next => ?_
        rw [next] at head
        exact absurd head (by decide)

def ReadsTerm (names : Names) (scope : Scope) (side : List Mark) (t : Term) : Prop :=
  ∀ ts us, Spells side ts us → at? "(" us = false → term names scope ts = .ok (t, us)

theorem reads_reading {r : Reading} (allowed : scope.Allows names.vars r) :
    ReadsTerm names scope (readingMarks r) ⟨some r, r.next, r.var.name⟩ :=
  fun _ _ spelled _ => term_reading plain allowed spelled

theorem reads_value {v : Variable} (member : v ∈ names.vars) {index : Nat} {m : Mark} (valued : ValueMark v.domain index m) :
    ∃ value, v.index? value = some index ∧ ReadsTerm names scope [m] ⟨none, false, value⟩ := by
  obtain ⟨value, listed, leads⟩ := value_leads valued
  refine ⟨value, index_of_listed (plain.domains v member) listed, fun ts us spelled closed => ?_⟩
  obtain ⟨_, spelled, rfl⟩ := spelled
  obtain ⟨t, shape, more, goesOn, same, sign, noCall⟩ := leads ts _ spelled
  rw [term_text shape more goesOn sign (noCall closed) same, find_value plain member (List.mem_of_getElem? listed)]

theorem sides_read {e : Expression} {left right : List Mark} (sides : Sides e left right) (typed : Read names scope e) :
    ∃ l r, ReadsTerm names scope left l ∧ ReadsTerm names scope right r ∧ equal names l r = .ok e := by
  cases sides with
  | value valued =>
      obtain ⟨value, found, reads⟩ := reads_value plain typed.1.1 valued
      exact ⟨_, _, reads_reading plain typed.1, reads, by simp [equal, equalTo, found]⟩
  | reversed valued =>
      obtain ⟨value, found, reads⟩ := reads_value plain typed.1.1 valued
      exact ⟨_, _, reads, reads_reading plain typed.1, by simp [equal, equalTo, found]⟩
  | same left right =>
      obtain ⟨leftAllowed, rightAllowed, domains⟩ := typed
      refine ⟨_, _, reads_reading plain leftAllowed, reads_reading plain rightAllowed, ?_⟩
      have absent : left.var.index? right.var.name = none := by
        refine List.findIdx?_eq_none_iff.mpr fun value listed => beq_eq_false_iff_ne.mpr ?_
        rintro rfl
        exact plain.values _ rightAllowed.1 _ leftAllowed.1 listed
      simp only [equal, equalTo, absent]
      cases right.next <;> simp [domains]

theorem set_values_spelled {v : Variable} (member : v ∈ names.vars) {indices : List Nat} {ms : List Mark}
    (values : ValueMarks v.domain indices ms) {rest : List Token} {fuel : Nat} (spelled : Spells ms ts us) (closes : Leads "\x7d" us rest)
    (enough : ts.length ≤ fuel) : setValues v fuel ts = .ok (indices, rest) := by
  induction values generalizing ts fuel with
  | one valued =>
      obtain ⟨value, listed, leads⟩ := value_leads valued
      obtain ⟨_, spelled, rfl⟩ := spelled
      obtain ⟨t, rfl, more, goesOn, same, _⟩ := leads ts _ spelled
      obtain ⟨fuel, rfl⟩ : ∃ more, fuel = more + 1 := Nat.exists_eq_succ_of_ne_zero (Nat.ne_zero_of_lt enough)
      have found := index_of_listed (plain.domains v member) listed
      simp [setValues, goesOn, same, found, advance_cons t more, closes.elsewhere, closes.expect, ok_bind, pure_ok]
  | more valued _ ih =>
      obtain ⟨value, listed, leads⟩ := value_leads valued
      obtain ⟨_, spelled, vs, comma, later⟩ := spelled
      obtain ⟨t, rfl, more, goesOn, same, _⟩ := leads ts _ spelled
      have comma : Leads "," _ vs := comma
      obtain ⟨fuel, rfl⟩ : ∃ more, fuel = more + 1 := Nat.exists_eq_succ_of_ne_zero (Nat.ne_zero_of_lt enough)
      have shorter := comma.shorter
      rw [List.length_cons] at enough
      have found := index_of_listed (plain.domains v member) listed
      have others : setValues v fuel vs = _ := ih later (by omega)
      simp [setValues, goesOn, same, found, advance_cons t more, comma.here, comma.advance, others, ok_bind, pure_ok]

end

section

variable {names : Names} {scope : Scope} {ts us vs ws rest : List Token} {l r : Term} {e : Expression}

theorem comparison_equal (first : term names scope ts = .ok (l, us)) (sign : Leads "=" us vs) (second : term names scope vs = .ok (r, rest))
    (same : equal names l r = .ok e) : comparison names scope ts = .ok (e, rest) := by
  simp [comparison, ok_bind, pure_ok, first, sign.here, sign.advance, second, same]

theorem comparison_differs (first : term names scope ts = .ok (l, us)) (bang : Leads "!" us vs) (sign : Leads "=" vs ws)
    (second : term names scope ws = .ok (r, rest)) (same : equal names l r = .ok e) : comparison names scope ts = .ok (.not e, rest) := by
  simp [comparison, ok_bind, pure_ok, first, bang.elsewhere, bang.here, bang.advance, sign.expect, second, same]

theorem comparison_among {reading : Reading} {indices : List Nat} (read : l.reading = some reading) (first : term names scope ts = .ok (l, us))
    (word : Leads "in" us vs) (opens : Leads "\x7b" vs ws) (values : setValues reading.var ws.length ws = .ok (indices, rest)) :
    comparison names scope ts = .ok (.isAmong reading indices, rest) := by
  simp [comparison, membership, ok_bind, pure_ok, first, word.elsewhere, word.here, word.advance, read, opens.expect, values]

theorem comparison_bare (first : term names scope ts = .ok (l, rest)) (stops : ∀ word ∈ ["=", "!", "in"], at? word rest = false)
    (same : bare names l = .ok e) : comparison names scope ts = .ok (e, rest) := by
  obtain ⟨noSign, noBang, noWord⟩ : at? "=" rest = false ∧ at? "!" rest = false ∧ at? "in" rest = false := by simpa using stops
  simp [comparison, ok_bind, pure_ok, first, noSign, noBang, noWord, same]

theorem unary_comparison (first : term names scope ts = .ok (l, us)) (fuel : Nat) :
    unary names scope (fuel + 1) ts = comparison names scope ts := by
  -- no term starts with a sign, so neither a negation nor parentheses are read
  have starts : atEnd ts = false ∧ ∀ sign ∈ signs, at? sign ts = false := by
    cases ts with
    | nil => cases first
    | cons t later =>
        cases ends : t.isEnd with
        | true => simp [term, ends] at first
        | false =>
            refine ⟨ends, fun sign listed => ?_⟩
            cases here : at? sign (t :: later) with
            | false => rfl
            | true =>
                have same : t.text = sign := by simpa [at?, ends] using here
                simp [term, ends, same, listed] at first
  obtain ⟨goesOn, other⟩ := starts
  simp [unary, goesOn, other "~" (by decide), other "!" (by decide), other "(" (by decide)]

end

def Like (e f : Expression) : Prop := ∀ meaning values, e.Holds meaning values ↔ f.Holds meaning values

inductive Operands (sign : String) (operand : Reader Expression) : List Expression → List Token → List Token → Prop where
  | one {e : Expression} {ts rest : List Token} (reads : operand ts = .ok (e, rest)) (shorter : rest.length ≤ ts.length) :
      Operands sign operand [e] ts rest
  | more {e : Expression} {es : List Expression} {ts us vs rest : List Token} (reads : operand ts = .ok (e, us))
      (shorter : us.length ≤ ts.length) (goesOn : Leads sign us vs) (later : Operands sign operand es vs rest) :
      Operands sign operand (e :: es) ts rest

namespace Operands

variable {sign : String} {operand : Reader Expression} {es fs : List Expression} {ts us vs rest : List Token}

theorem append (first : Operands sign operand es ts us) (goesOn : Leads sign us vs) (second : Operands sign operand fs vs rest) :
    Operands sign operand (es ++ fs) ts rest := by
  induction first with
  | one reads shorter => exact .more reads shorter goesOn second
  | more reads shorter between _ ih => exact .more reads shorter between (ih goesOn)

theorem more_operands (operands : Operands sign operand es vs rest) (stops : at? sign rest = false)
    (make : Expression → Expression → Expression) (left : Expression) (goesOn : Leads sign us vs) {fuel : Nat} (enough : us.length ≤ fuel) :
    moreOperands sign make operand fuel left us = .ok (es.foldl make left, rest) := by
  induction operands generalizing us fuel left with
  | one reads shorter =>
      have less := goesOn.shorter
      obtain ⟨fuel, rfl⟩ : ∃ more, fuel = more + 1 := Nat.exists_eq_succ_of_ne_zero (by omega)
      cases fuel <;> simp [moreOperands, goesOn.here, goesOn.advance, reads, ok_bind, stops]
  | more reads shorter between _ ih =>
      have less := goesOn.shorter
      obtain ⟨fuel, rfl⟩ : ∃ more, fuel = more + 1 := Nat.exists_eq_succ_of_ne_zero (by omega)
      simp only [moreOperands, goesOn.here, goesOn.advance, reads, ok_bind, if_true]
      exact ih stops _ between (by omega)

theorem left_chain (operands : Operands sign operand es ts rest) (stops : at? sign rest = false)
    (make : Expression → Expression → Expression) :
    ∃ e fs, es = e :: fs ∧ leftChain sign make operand ts = .ok (fs.foldl make e, rest) := by
  cases operands with
  | @one e _ _ reads =>
      refine ⟨e, [], rfl, ?_⟩
      simp only [leftChain, reads, ok_bind]
      cases rest.length <;> simp [moreOperands, stops]
  | @more e es _ us vs _ reads shorter goesOn later =>
      refine ⟨e, es, rfl, ?_⟩
      simp only [leftChain, reads, ok_bind]
      exact later.more_operands stops make e goesOn (Nat.le_refl _)

end Operands

theorem holds_products {meaning : String → Values → Prop} {values : Values} (es : List Expression) (e : Expression) :
    (es.foldl .and e).Holds meaning values ↔ ∀ x ∈ e :: es, x.Holds meaning values := by
  induction es generalizing e with
  | nil => simp
  | cons f es ih => simp [ih, Holds, and_assoc]

theorem holds_sums {meaning : String → Values → Prop} {values : Values} (es : List Expression) (e : Expression) :
    (es.foldl .or e).Holds meaning values ↔ ∃ x ∈ e :: es, x.Holds meaning values := by
  induction es generalizing e with
  | nil => simp
  | cons f es ih => simp [ih, Holds, or_assoc]

section

variable (names : Names) (scope : Scope) (fuel : Nat)

def product : Reader Expression := leftChain "&" .and (unary names scope fuel)

def sum : Reader Expression := leftChain "|" .or (product names scope fuel)

def consequence : Reader Expression := fun ts => implications (sum names scope fuel) ts.length ts

-- What the parser makes of an expression with operators of a priority outside parentheses.
def ReadsAs (e : Expression) (ts rest : List Token) : Priority → Prop
  | .unary => ∃ f, Like f e ∧ unary names scope fuel ts = .ok (f, rest)
  | .and => ∃ es, Operands "&" (unary names scope fuel) es ts rest ∧
      ∀ meaning values, (∀ x ∈ es, x.Holds meaning values) ↔ e.Holds meaning values
  | .or => ∃ es, Operands "|" (product names scope fuel) es ts rest ∧
      ∀ meaning values, (∃ x ∈ es, x.Holds meaning values) ↔ e.Holds meaning values
  | .implies => ∃ f, Like f e ∧ ∀ steps, ts.length ≤ steps → implications (sum names scope fuel) steps ts = .ok (f, rest)
  | .iff => ∃ f, Like f e ∧ ∀ steps, ts.length ≤ steps → equivalences (consequence names scope fuel) steps ts = .ok (f, rest)

end

section

variable {names : Names} {scope : Scope} {fuel : Nat} {e l r : Expression} {ts us vs ws rest : List Token}

theorem reads_product (reads : ReadsAs names scope fuel e ts rest .unary) (shorter : rest.length ≤ ts.length) :
    ReadsAs names scope fuel e ts rest .and := by
  obtain ⟨f, like, reads⟩ := reads
  exact ⟨[f], .one reads shorter, fun meaning values => by simpa using like meaning values⟩

theorem reads_and (first : ReadsAs names scope fuel l ts us .and) (sign : Leads "&" us vs)
    (second : ReadsAs names scope fuel r vs rest .and) : ReadsAs names scope fuel (.and l r) ts rest .and := by
  obtain ⟨es, operands, left⟩ := first
  obtain ⟨fs, others, right⟩ := second
  refine ⟨es ++ fs, operands.append sign others, fun meaning values => ?_⟩
  rw [List.forall_mem_append, left, right, Holds]

theorem reads_sum (reads : ReadsAs names scope fuel e ts rest .and) (shorter : rest.length ≤ ts.length) (stops : at? "&" rest = false) :
    ReadsAs names scope fuel e ts rest .or := by
  obtain ⟨es, operands, like⟩ := reads
  obtain ⟨f, fs, rfl, reads⟩ := operands.left_chain stops .and
  refine ⟨[fs.foldl .and f], .one reads shorter, fun meaning values => ?_⟩
  rw [← like, ← holds_products]
  simp

theorem reads_or (first : ReadsAs names scope fuel l ts us .or) (sign : Leads "|" us vs)
    (second : ReadsAs names scope fuel r vs rest .or) : ReadsAs names scope fuel (.or l r) ts rest .or := by
  obtain ⟨es, operands, left⟩ := first
  obtain ⟨fs, others, right⟩ := second
  refine ⟨es ++ fs, operands.append sign others, fun meaning values => ?_⟩
  rw [Holds, ← left, ← right]
  simp [or_and_right, exists_or]

theorem sum_reads (reads : ReadsAs names scope fuel e ts rest .or) (stops : at? "|" rest = false) :
    ∃ f, Like f e ∧ sum names scope fuel ts = .ok (f, rest) := by
  obtain ⟨es, operands, like⟩ := reads
  obtain ⟨f, fs, rfl, reads⟩ := operands.left_chain stops .or
  exact ⟨fs.foldl .or f, fun meaning values => (holds_sums fs f).trans (like meaning values), reads⟩

theorem reads_consequence (reads : ReadsAs names scope fuel e ts rest .or) (noSum : at? "|" rest = false)
    (stops : at? "->" rest = false) : ReadsAs names scope fuel e ts rest .implies := by
  obtain ⟨f, like, reads⟩ := sum_reads reads noSum
  refine ⟨f, like, fun steps _ => ?_⟩
  cases steps with
  | zero => exact reads
  | succ steps => simp [implications, reads, ok_bind, pure_ok, stops]

theorem reads_implies (first : ReadsAs names scope fuel l ts us .or) (sign : Leads "->" us vs) (shorter : vs.length < ts.length)
    (second : ReadsAs names scope fuel r vs rest .implies) : ReadsAs names scope fuel (.implies l r) ts rest .implies := by
  obtain ⟨f, left, reads⟩ := sum_reads first (sign.elsewhere (by decide))
  obtain ⟨g, right, others⟩ := second
  refine ⟨.implies f g, fun meaning values => imp_congr (left meaning values) (right meaning values), fun steps enough => ?_⟩
  obtain ⟨steps, rfl⟩ : ∃ more, steps = more + 1 := Nat.exists_eq_succ_of_ne_zero (by omega)
  simp [implications, reads, ok_bind, pure_ok, sign.here, sign.advance, others steps (by omega)]

theorem consequence_reads (reads : ReadsAs names scope fuel e ts rest .implies) :
    ∃ f, Like f e ∧ consequence names scope fuel ts = .ok (f, rest) := by
  obtain ⟨f, like, reads⟩ := reads
  exact ⟨f, like, reads ts.length (Nat.le_refl _)⟩

theorem reads_equivalence (reads : ReadsAs names scope fuel e ts rest .implies) (stops : at? "<" rest = false) :
    ReadsAs names scope fuel e ts rest .iff := by
  obtain ⟨f, like, reads⟩ := consequence_reads reads
  refine ⟨f, like, fun steps _ => ?_⟩
  cases steps with
  | zero => exact reads
  | succ steps => simp [equivalences, reads, ok_bind, pure_ok, stops]

theorem reads_iff (first : ReadsAs names scope fuel l ts us .implies) (sign : Leads "<" us vs) (arrow : Leads "->" vs ws)
    (shorter : ws.length < ts.length) (second : ReadsAs names scope fuel r ws rest .iff) :
    ReadsAs names scope fuel (.iff l r) ts rest .iff := by
  obtain ⟨f, left, reads⟩ := consequence_reads first
  obtain ⟨g, right, others⟩ := second
  refine ⟨.iff f g, fun meaning values => iff_congr (left meaning values) (right meaning values), fun steps enough => ?_⟩
  obtain ⟨steps, rfl⟩ : ∃ more, steps = more + 1 := Nat.exists_eq_succ_of_ne_zero (by omega)
  simp [equivalences, reads, ok_bind, pure_ok, sign.here, sign.advance, arrow.expect, others steps (by omega)]

end

-- The words with which an expression would go on, if it has operators of the priority outside parentheses.
def Priority.stops : Priority → List String
  | .unary => ["=", "!", "in", "("]
  | .and => ["=", "!", "in", "("]
  | .or => ["=", "!", "in", "(", "&"]
  | .implies => ["=", "!", "in", "(", "&", "|", "->"]
  | .iff => ["=", "!", "in", "(", "&", "|", "->", "<"]

def Rests (p : Priority) (ts : List Token) : Prop := ∀ word ∈ p.stops, at? word ts = false

theorem Leads.rests {text : String} {ts us : List Token} (leads : Leads text ts us) {p : Priority} (other : text ∉ p.stops) : Rests p ts :=
  fun _ listed => leads.elsewhere fun same => other (same ▸ listed)

theorem Rests.weaken {p q : Priority} {ts : List Token} (rests : Rests p ts) (fewer : q.stops ⊆ p.stops) : Rests q ts :=
  fun word listed => rests word (fewer listed)

section

variable {names : Names} (plain : names.Plain) {scope : Scope}

theorem bare_constant {value : Bool} {word : String} (listed : word ∈ constantWords value) :
    bare names ⟨none, false, word⟩ = .ok (.constant value) := by
  cases value with
  | true =>
      obtain rfl | rfl : word = "true" ∨ word = "TRUE" := by simpa [constantWords] using listed
      · rfl
      · rfl
  | false =>
      obtain rfl | rfl : word = "false" ∨ word = "FALSE" := by simpa [constantWords] using listed
      · rfl
      · rfl

theorem constant_reserved {value : Bool} {word : String} (listed : word ∈ constantWords value) : word ∈ reserved := by
  cases value <;> simp only [constantWords, Bool.false_eq_true, if_false, if_true] at listed <;> fin_cases listed <;> decide

theorem Rests.comparison {rest : List Token} (rests : Rests .unary rest) : ∀ word ∈ ["=", "!", "in"], at? word rest = false :=
  fun word listed => rests word (List.mem_append_left ["("] listed)

theorem reads_atom {e : Expression} {t : Term} {fuel : Nat} {ts us rest : List Token} (first : term names scope ts = .ok (t, us))
    (read : comparison names scope ts = .ok (e, rest)) (enough : ts.length ≤ fuel) : ReadsAs names scope fuel e ts rest .unary := by
  cases fuel with
  | zero =>
      obtain rfl := List.length_eq_zero_iff.mp (Nat.le_zero.mp enough)
      cases first
  | succ fuel => exact ⟨e, fun _ _ => Iff.rfl, (unary_comparison first fuel).trans read⟩

theorem reads_not {e : Expression} {fuel : Nat} {ts us rest : List Token} {c : Char} (negation : c ∈ ['~', '!'])
    (leads : Leads (String.singleton c) ts us) (reads : ReadsAs names scope fuel e us rest .unary) :
    ReadsAs names scope (fuel + 1) (.not e) ts rest .unary := by
  obtain ⟨f, like, reads⟩ := reads
  refine ⟨.not f, fun meaning values => not_congr (like meaning values), ?_⟩
  have here : (at? "~" ts || at? "!" ts) = true := by
    rw [leads.at_word, leads.at_word]
    fin_cases negation <;> rfl
  simp [unary, here, leads.advance, reads, ok_bind, pure_ok]

theorem reads_parentheses {e : Expression} {fuel : Nat} {ts us vs rest : List Token} (opens : Leads "(" ts us) (closes : Leads ")" vs rest)
    (reads : ReadsAs names scope fuel e us vs .iff) : ReadsAs names scope (fuel + 1) e ts rest .unary := by
  obtain ⟨f, like, reads⟩ := reads
  have chained : chain (unary names scope fuel) us = .ok (f, vs) := reads us.length (Nat.le_refl _)
  refine ⟨f, like, ?_⟩
  simp [unary, opens.elsewhere, goes_on_of_at opens.here, opens.here, opens.advance, chained, closes.expect, ok_bind, pure_ok]

include plain

theorem bare_named {name : String} (compiled : name ∈ names.compiled) : bare names ⟨none, false, name⟩ = .ok (.named name) := by
  have free := (plain.compiled name compiled).1
  simp only [reserved, List.mem_cons, not_or] at free
  simp [bare, compiled, free.1, free.2.1, free.2.2.1, free.2.2.2.1]

theorem find_reserved {word : String} (listed : word ∈ reserved) : names.find? word = none :=
  find_none fun v member same => plain.vars v member (same ▸ listed)

theorem written_reads {p : Priority} {e : Expression} {ms : List Mark} (written : Written p e ms) (typed : Read names scope e) {fuel : Nat}
    {ts rest : List Token} (enough : ts.length ≤ fuel) (spelled : Spells ms ts rest) (rests : Rests p rest) :
    ReadsAs names scope fuel e ts rest p := by
  -- a sign stands before every expression in parentheses or behind a negation, so that the fuel is enough for it
  induction written generalizing fuel ts rest with
  | constant listed =>
      obtain ⟨_, ⟨name, leads⟩, rfl⟩ := spelled
      have read := @term_word names scope _ _ _ name leads fun _ => rests "(" (by decide)
      rw [find_reserved plain (constant_reserved listed)] at read
      exact reads_atom read (comparison_bare read rests.comparison (bare_constant listed)) enough
  | boolean boolean =>
      have read := term_reading plain typed.1 spelled
      exact reads_atom read (comparison_bare read rests.comparison (by simp [bare, Variable.isBoolean, boolean])) enough
  | named name =>
      obtain ⟨_, ⟨word, leads⟩, rfl⟩ := spelled
      have read := @term_word names scope _ _ _ word leads fun _ => rests "(" (by decide)
      rw [find_none (plain.compiled name typed).2] at read
      exact reads_atom read (comparison_bare read rests.comparison (bare_named plain typed)) enough
  | equal sides =>
      obtain ⟨l, r, left, right, same⟩ := sides_read plain sides typed
      obtain ⟨us, first, vs, sign, second⟩ := spells_append.mp spelled
      have sign : Leads "=" us vs := sign
      have read := left ts us first (sign.elsewhere (by decide))
      exact reads_atom read (comparison_equal read sign (right vs rest second (rests "(" (by decide))) same) enough
  | differs sides =>
      obtain ⟨l, r, left, right, same⟩ := sides_read plain sides typed
      obtain ⟨us, first, vs, bang, ws, sign, second⟩ := spells_append.mp spelled
      have bang : Leads "!" us vs := bang
      have read := left ts us first (bang.elsewhere (by decide))
      exact reads_atom read (comparison_differs read bang sign (right ws rest second (rests "(" (by decide))) same) enough
  | among values =>
      obtain ⟨us, first, vs, ⟨_, word⟩, ws, opens, later⟩ := spells_append.mp spelled
      obtain ⟨xs, listed, _, closes, rfl⟩ := spells_append.mp later
      have read := term_reading plain typed.1 first
      have found := set_values_spelled plain typed.1.1 values listed closes (Nat.le_refl _)
      exact reads_atom read (comparison_among rfl read word opens found) enough
  | not negation body ih =>
      obtain ⟨us, leads, later⟩ := spelled
      have leads : Leads (String.singleton _) ts us := leads
      have shorter := leads.shorter
      obtain ⟨fuel, rfl⟩ : ∃ more, fuel = more + 1 := Nat.exists_eq_succ_of_ne_zero (by omega)
      exact reads_not negation leads (ih typed (by omega) later rests)
  | parentheses body ih =>
      obtain ⟨us, opens, later⟩ := spelled
      obtain ⟨vs, inner, _, closes, rfl⟩ := spells_append.mp later
      have opens : Leads "(" ts us := opens
      have closes : Leads ")" vs _ := closes
      have shorter := opens.shorter
      obtain ⟨fuel, rfl⟩ : ∃ more, fuel = more + 1 := Nat.exists_eq_succ_of_ne_zero (by omega)
      exact reads_parentheses opens closes (ih typed (by omega) inner (closes.rests (by decide)))
  | product higher ih => exact reads_product (ih typed enough spelled (rests.weaken (by decide))) spelled.shorter
  | and first second firstIh secondIh =>
      obtain ⟨us, left, vs, sign, right⟩ := spells_append.mp spelled
      have sign : Leads "&" us vs := sign
      have shorter := Nat.lt_of_lt_of_le sign.shorter left.shorter
      exact reads_and (firstIh typed.1 enough left (sign.rests (by decide))) sign (secondIh typed.2 (by omega) right rests)
  | sum higher ih =>
      exact reads_sum (ih typed enough spelled (rests.weaken (by decide))) spelled.shorter (rests "&" (by decide))
  | or first second firstIh secondIh =>
      obtain ⟨us, left, vs, sign, right⟩ := spells_append.mp spelled
      have sign : Leads "|" us vs := sign
      have shorter := Nat.lt_of_lt_of_le sign.shorter left.shorter
      exact reads_or (firstIh typed.1 enough left (sign.rests (by decide))) sign (secondIh typed.2 (by omega) right rests)
  | consequence higher ih =>
      exact reads_consequence (ih typed enough spelled (rests.weaken (by decide))) (rests "|" (by decide)) (rests "->" (by decide))
  | implies first second firstIh secondIh =>
      obtain ⟨us, left, vs, sign, right⟩ := spells_append.mp spelled
      have sign : Leads "->" us vs := sign
      have shorter := Nat.lt_of_lt_of_le sign.shorter left.shorter
      exact reads_implies (firstIh typed.1 enough left (sign.rests (by decide))) sign shorter (secondIh typed.2 (by omega) right rests)
  | equivalence higher ih => exact reads_equivalence (ih typed enough spelled (rests.weaken (by decide))) (rests "<" (by decide))
  | iff first second firstIh secondIh =>
      obtain ⟨us, left, vs, sign, ws, arrow, right⟩ := spells_append.mp spelled
      have sign : Leads "<" us vs := sign
      have arrow : Leads "->" vs ws := arrow
      have shorter := Nat.lt_of_lt_of_le (Nat.lt_trans arrow.shorter sign.shorter) left.shorter
      exact reads_iff (firstIh typed.1 enough left (sign.rests (by decide))) sign arrow shorter (secondIh typed.2 (by omega) right rests)

omit plain in
theorem Written.ne_nil {p : Priority} {e : Expression} {ms : List Mark} (written : Written p e ms) : ms ≠ [] := by
  induction written with
  | @boolean r =>
      unfold readingMarks
      split <;> exact List.cons_ne_nil _ _
  | _ => simp_all

-- Every text of an expression can be read, as an expression with the same meaning.
theorem parse_text {e : Expression} {text : String} (typed : Read names scope e) (written : e.HasText text) :
    ∃ f, Like f e ∧ parse names scope text = .ok f := by
  obtain ⟨ms, written, spaced⟩ := written
  obtain ⟨last, ends, quiet, spelled⟩ := spaced.tokens
  have rests : Rests .iff [last] := fun word _ => by simp [at?, ends]
  obtain ⟨f, like, reads⟩ := written_reads plain written typed (Nat.le_refl _) spelled rests
  have chained : chain (unary names scope (tokens text.toList).length) (tokens text.toList) = .ok (f, [last]) := reads _ (Nat.le_refl _)
  obtain ⟨m, ms, rfl⟩ := List.exists_cons_of_ne_nil written.ne_nil
  obtain ⟨_, leads, _⟩ := spelled
  have silent : complaintSoFar [last] = none := quiet
  exact ⟨f, like, parse_of_chain leads.goes_on silent ends chained⟩

end

end Expression

end Coalition
