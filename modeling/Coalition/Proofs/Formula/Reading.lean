import Coalition.Proofs.Formula.Written
import Coalition.Proofs.Yields

-- The parser on tokens that spell a formula: it reads that formula and leaves what comes behind it.

set_option autoImplicit false

namespace Coalition.Formula

section

variable {quoted : Bool} {text word : String} {ts us rest : List Token}

theorem Leads.advance (leads : Leads quoted text ts us) : Formula.advance ts = us := by
  obtain ⟨t, rfl, more, _⟩ := leads
  cases us with
  | nil => exact absurd rfl more
  | cons u us => rfl

theorem Leads.shorter (leads : Leads quoted text ts us) : us.length < ts.length := by
  obtain ⟨t, rfl, _⟩ := leads
  exact Nat.lt_succ_self _

theorem Leads.at_word (leads : Leads false text ts us) : at? word ts = (text == word) := by
  obtain ⟨t, rfl, _, goesOn, kind, same⟩ := leads
  simp [at?, goesOn, kind, same]

theorem Leads.here (leads : Leads false word ts us) : at? word ts = true := leads.at_word.trans (beq_self_eq_true word)

theorem Leads.elsewhere (leads : Leads false text ts us) (other : text ≠ word) : at? word ts = false :=
  leads.at_word.trans (beq_eq_false_iff_ne.mpr other)

theorem Leads.goes_on (leads : Leads quoted text ts us) : atEnd ts = false := by
  obtain ⟨t, rfl, _, goesOn, _⟩ := leads
  exact goesOn

theorem Leads.expect (leads : Leads false word ts us) : Formula.expect word ts = .ok ((), us) := by
  simp [Formula.expect, leads.goes_on, leads.here, leads.advance]

end

theorem Mark.Leads.shorter {m : Mark} {ts us : List Token} (leads : m.Leads ts us) : us.length ≤ ts.length := by
  cases m with
  | blank => exact Nat.le_of_eq (congrArg List.length leads.symm)
  | word text => exact Nat.le_of_lt (Formula.Leads.shorter leads)
  | name text => exact Nat.le_of_lt (Formula.Leads.shorter leads)

theorem Spells.shorter {ms : List Mark} {ts rest : List Token} (spelled : Spells ms ts rest) : rest.length ≤ ts.length := by
  induction ms generalizing ts with
  | nil => exact Nat.le_of_eq (congrArg List.length spelled.symm)
  | cons m ms ih =>
      obtain ⟨us, leads, later⟩ := spelled
      exact Nat.le_trans (ih later) leads.shorter

theorem read_group_spelled {names : List String} (some : names ≠ []) {closing : String} (other : closing ≠ ",") {fuel : Nat}
    {ts us rest : List Token} (enough : ts.length ≤ fuel) (spelled : Spells (groupMarks names) ts us) (closes : Leads false closing us rest) :
    readGroup closing fuel ts = .ok (names, rest) := by
  induction names generalizing ts fuel with
  | nil => exact absurd rfl some
  | cons name more ih =>
      cases fuel with
      | zero =>
          cases more <;> obtain ⟨_, ⟨t, rfl, _⟩, _⟩ := spelled <;> exact absurd enough (Nat.not_succ_le_zero _)
      | succ fuel =>
          cases more with
          | nil =>
              obtain ⟨_, first, rfl⟩ := spelled
              have next := first.advance
              obtain ⟨t, rfl, _, goesOn, kind, rfl⟩ := first
              simp [readGroup, goesOn, kind, next, closes.elsewhere other, closes.expect]
          | cons second more =>
              obtain ⟨_, first, _, comma, later⟩ := spelled
              have shorter := comma.shorter
              have next := first.advance
              obtain ⟨t, rfl, _, goesOn, kind, rfl⟩ := first
              rw [List.length_cons] at enough
              have others : readGroup closing fuel _ = _ := ih (List.cons_ne_nil _ _) (by omega) later
              simp [readGroup, goesOn, kind, next, comma.here, comma.advance, others]

theorem group_spelled {names : List String} (some : names ≠ []) {closing : String} (other : closing ≠ ",") {ms : List Mark}
    {ts rest : List Token} (spelled : Spells (groupMarks names ++ .word closing :: ms) ts rest) :
    ∃ us, group closing ts = .ok (names, us) ∧ Spells ms us rest ∧ us.length < ts.length := by
  obtain ⟨us, listed, vs, closes, later⟩ := spells_append.mp spelled
  have shorter := Nat.lt_of_lt_of_le (Formula.Leads.shorter closes) listed.shorter
  exact ⟨vs, read_group_spelled some other (Nat.le_refl _) listed closes, later, shorter⟩

inductive LeftOperands (op : Connective) (operand : Reader Formula) : Formula → List Token → List Token → Prop where
  | one {f : Formula} {ts rest : List Token} (reads : operand ts = .ok (f, rest)) : LeftOperands op operand f ts rest
  | more {l r : Formula} {ts us vs rest : List Token} (before : LeftOperands op operand l ts us) (sign : Leads false op.sign us vs)
      (reads : operand vs = .ok (r, rest)) (shorter : rest.length ≤ vs.length) : LeftOperands op operand (.binary op l r) ts rest

inductive RightOperands (op : Connective) (operand : Reader Formula) : Formula → List Token → List Token → Prop where
  | one {f : Formula} {ts rest : List Token} (reads : operand ts = .ok (f, rest)) : RightOperands op operand f ts rest
  | more {l r : Formula} {ts us vs rest : List Token} (reads : operand ts = .ok (l, us)) (shorter : us.length ≤ ts.length)
      (sign : Leads false op.sign us vs) (later : RightOperands op operand r vs rest) : RightOperands op operand (.binary op l r) ts rest

section

variable {operand : Reader Formula} {op : Connective} {f l r : Formula} {ts us vs rest : List Token}

theorem LeftOperands.more_operands (operands : LeftOperands op operand f ts rest) : ∃ e us steps, operand ts = .ok (e, us) ∧
    rest.length ≤ steps ∧ moreOperands op operand us.length e us = moreOperands op operand steps f rest := by
  induction operands with
  | one reads => exact ⟨_, _, _, reads, Nat.le_refl _, rfl⟩
  | more _ sign reads shorter ih =>
      obtain ⟨e, as, steps, first, enough, same⟩ := ih
      have less := sign.shorter
      obtain ⟨steps, rfl⟩ : ∃ more, steps = more + 1 := Nat.exists_eq_succ_of_ne_zero (by omega)
      refine ⟨e, as, steps, first, by omega, same.trans ?_⟩
      simp [moreOperands, sign.here, sign.advance, reads, ok_bind]

theorem LeftOperands.left_chain (operands : LeftOperands op operand f ts rest) (stops : at? op.sign rest = false) :
    leftChain op operand ts = .ok (f, rest) := by
  obtain ⟨e, us, steps, first, _, same⟩ := operands.more_operands
  simp only [leftChain, first, ok_bind, same]
  cases steps <;> simp [moreOperands, stops]

theorem RightOperands.read_right_chain (operands : RightOperands op operand f ts rest) (stops : at? op.sign rest = false) {steps : Nat}
    (enough : ts.length ≤ steps) : readRightChain op operand steps ts = .ok (f, rest) := by
  induction operands generalizing steps with
  | one reads =>
      cases steps with
      | zero => exact reads
      | succ steps => simp [readRightChain, reads, stops, ok_bind, pure_ok]
  | more reads shorter sign _ ih =>
      have less := sign.shorter
      obtain ⟨steps, rfl⟩ : ∃ more, steps = more + 1 := Nat.exists_eq_succ_of_ne_zero (by omega)
      have later : readRightChain op operand steps _ = _ := ih stops (by omega)
      simp [readRightChain, reads, sign.here, sign.advance, later, ok_bind, pure_ok]

theorem RightOperands.right_chain (operands : RightOperands op operand f ts rest) (stops : at? op.sign rest = false) :
    rightChain op operand ts = .ok (f, rest) := operands.read_right_chain stops (Nat.le_refl _)

def reader (operand : Reader Formula) : Priority → Reader Formula
  | .unary => operand
  | .and => leftChain .and operand
  | .or => leftChain .or (leftChain .and operand)
  | .implies => rightChain .implies (leftChain .or (leftChain .and operand))
  | .iff => chain operand

-- What is read of a formula, while more operands of the same priority may follow.
def ReadsAs (operand : Reader Formula) (f : Formula) (ts rest : List Token) : Priority → Prop
  | .unary => operand ts = .ok (f, rest)
  | .and => LeftOperands .and operand f ts rest
  | .or => LeftOperands .or (reader operand .and) f ts rest
  | .implies => RightOperands .implies (reader operand .or) f ts rest
  | .iff => RightOperands .iff (reader operand .implies) f ts rest

def Priority.above : Priority → List Connective
  | .unary => []
  | .and => []
  | .or => [.and]
  | .implies => [.and, .or]
  | .iff => [.and, .or, .implies]

def Rests (p : Priority) (ts : List Token) : Prop := ∀ op ∈ p.above, at? op.sign ts = false

theorem Rests.weaken {p q : Priority} (rests : Rests p ts) (fewer : q.above ⊆ p.above) : Rests q ts :=
  fun op listed => rests op (fewer listed)

theorem Leads.rests {text : String} (leads : Leads false text ts us) {p : Priority} (other : ∀ op ∈ p.above, text ≠ op.sign) : Rests p ts :=
  fun op listed => leads.elsewhere (other op listed)

theorem reader_of_reads {p : Priority} (reads : ReadsAs operand f ts rest p)
    (stops : ∀ op : Connective, op.priority = p → at? op.sign rest = false) : reader operand p ts = .ok (f, rest) := by
  cases p with
  | unary => exact reads
  | and => exact LeftOperands.left_chain reads (stops .and rfl)
  | or => exact LeftOperands.left_chain reads (stops .or rfl)
  | implies => exact RightOperands.right_chain reads (stops .implies rfl)
  | iff => exact RightOperands.right_chain reads (stops .iff rfl)

theorem reads_higher {p : Priority} (above : ReadsAs operand f ts rest p.next) (rests : Rests p rest) : ReadsAs operand f ts rest p := by
  have reads : reader operand p.next ts = .ok (f, rest) := by
    refine reader_of_reads above fun op same => rests op ?_
    cases p <;> cases op <;> cases same <;> decide
  cases p with
  | unary => exact above
  | and => exact .one reads
  | or => exact .one reads
  | implies => exact .one reads
  | iff => exact .one reads

theorem reads_binary (first : ReadsAs operand l ts us op.left) (fewer : us.length ≤ ts.length) (sign : Leads false op.sign us vs)
    (second : ReadsAs operand r vs rest op.right) (shorter : rest.length ≤ vs.length) (rests : Rests op.priority rest) :
    ReadsAs operand (.binary op l r) ts rest op.priority := by
  cases op with
  | and => exact .more first sign second shorter
  | or =>
      refine .more first sign (reader_of_reads second fun op same => ?_) shorter
      cases op <;> cases same
      exact rests .and (by decide)
  | implies =>
      refine .more (reader_of_reads first fun op same => ?_) fewer sign second
      cases op <;> cases same
      exact sign.elsewhere (by decide)
  | iff =>
      refine .more (reader_of_reads first fun op same => ?_) fewer sign second
      cases op <;> cases same
      exact sign.elsewhere (by decide)

theorem chain_of_reads (reads : ReadsAs operand f ts rest .iff) (stops : at? "<->" rest = false) : chain operand ts = .ok (f, rest) := by
  refine reader_of_reads reads fun op same => ?_
  cases op <;> cases same
  exact stops

end

theorem until_body_spelled {operand : Reader Formula} {left right : Formula} {kind : Until} {ts us vs ws rest : List Token}
    (first : chain operand ts = .ok (left, us)) (middle : Leads false kind.letter us vs) (second : chain operand vs = .ok (right, ws))
    (closes : Leads false "]" ws rest) : untilBody operand ts = .ok ((left, kind, right), rest) := by
  cases kind <;> simp [untilBody, ok_bind, pure_ok, first, middle.at_word, middle.advance, Until.letter, second, closes.expect]

theorem strategic_body_spelled {operand : Reader Formula} {body : Formula} (ability : Ability) (names : List String) {modality : Modality}
    {ts us rest : List Token} (leads : Leads false modality.letter ts us) (reads : operand us = .ok (body, rest)) :
    strategicBody operand ability names ts = .ok (.strategic ability names modality body, rest) := by
  cases modality <;> simp [strategicBody, ok_bind, pure_ok, leads.at_word, leads.advance, Modality.letter, reads]

theorem Leads.start {quoted : Bool} {text : String} {ts us : List Token} (leads : Leads quoted text ts us) {fuel : Nat} (enough : ts.length ≤ fuel) :
    ∃ fuel' t, fuel = fuel' + 1 ∧ us.length ≤ fuel' ∧ ts = t :: us ∧ t.isEnd = false ∧ t.isQuoted = quoted ∧ t.text = text ∧
      Formula.advance (t :: us) = us := by
  have next := leads.advance
  obtain ⟨t, rfl, _, goesOn, kind, same⟩ := leads
  cases fuel with
  | zero => exact absurd enough (Nat.not_succ_le_zero _)
  | succ fuel => exact ⟨fuel, t, rfl, Nat.le_of_succ_le_succ enough, rfl, goesOn, kind, same, next⟩

theorem knowledge_body_spelled {operand : Reader Formula} {make : List String → Formula → Formula} {body : Formula} {names : List String}
    {ts us rest : List Token} (first : group ">" ts = .ok (names, us)) (reads : operand us = .ok (body, rest)) :
    knowledgeBody operand make ts = .ok (make names body, rest) := by
  simp [knowledgeBody, ok_bind, pure_ok, first, reads]

theorem until_spelled {left right : List Mark} {kind : Until} {ts rest : List Token}
    (spelled : Spells (untilMarks left kind right) ts rest) : ∃ us vs ws, Spells left ts us ∧ Leads false kind.letter us vs ∧
      Spells right vs ws ∧ Leads false "]" ws rest ∧ vs.length < ts.length := by
  obtain ⟨us, first, vs, middle, later⟩ := spells_append.mp spelled
  obtain ⟨ws, second, _, closes, rfl⟩ := spells_append.mp later
  exact ⟨us, vs, ws, first, middle, second, closes, Nat.lt_of_lt_of_le (Formula.Leads.shorter middle) first.shorter⟩

theorem until_reads {operand : Reader Formula} {l r : Formula} {left right : List Mark} {kind : Until} {ts rest : List Token}
    (first : ∀ us, Spells left ts us → Rests .iff us → ReadsAs operand l ts us .iff)
    (second : ∀ vs ws, vs.length < ts.length → Spells right vs ws → Rests .iff ws → ReadsAs operand r vs ws .iff)
    (spelled : Spells (untilMarks left kind right) ts rest) : untilBody operand ts = .ok ((l, kind, r), rest) := by
  obtain ⟨us, vs, ws, before, middle, behind, closes, shorter⟩ := until_spelled spelled
  have left := first us before (middle.rests (by cases kind <;> decide))
  have right := second vs ws shorter behind (closes.rests (by decide))
  exact until_body_spelled (chain_of_reads left (middle.elsewhere (by cases kind <;> decide))) middle
    (chain_of_reads right (closes.elsewhere (by decide))) closes

theorem written_reads {p : Priority} {f : Formula} {ms : List Mark} (written : Written p f ms) (grouped : f.Grouped) {fuel : Nat}
    {ts rest : List Token} (enough : ts.length ≤ fuel) (spelled : Spells ms ts rest) (rests : Rests p rest) :
    ReadsAs (unary fuel) f ts rest p := by
  -- every operand of the highest priority starts with a token of its own, so that the fuel is enough for what comes behind it
  induction written generalizing fuel ts rest with
  | @constant value word listed =>
      obtain ⟨_, leads, rfl⟩ := spelled
      obtain ⟨fuel, t, rfl, _, rfl, goesOn, kind, same, next⟩ := leads.start enough
      have known : Opening.ofWord word = .constant value := by
        cases value <;> unfold Constant.words at listed <;> fin_cases listed <;> rfl
      simp [ReadsAs, unary, goesOn, kind, same, next, known]
  | atom text =>
      obtain ⟨_, leads, rfl⟩ := spelled
      obtain ⟨fuel, t, rfl, _, rfl, goesOn, kind, same, next⟩ := leads.start enough
      simp [ReadsAs, unary, goesOn, kind, same, next]
  | @not body ms word negation operand ih =>
      obtain ⟨us, leads, later⟩ := spelled
      obtain ⟨fuel, t, rfl, within, rfl, goesOn, kind, same, next⟩ := leads.start enough
      have known : Opening.ofWord word = .negation := by fin_cases negation <;> rfl
      have reads : unary fuel us = _ := ih grouped within later rests
      simp [ReadsAs, unary, goesOn, kind, same, next, known, reads, ok_bind, pure_ok]
  | path quantifier modality operand ih =>
      obtain ⟨us, leads, later⟩ := spelled
      obtain ⟨fuel, t, rfl, within, rfl, goesOn, kind, same, next⟩ := leads.start enough
      have known : Opening.ofWord (quantifier.letter ++ modality.letter) = .path quantifier modality := by
        cases quantifier <;> cases modality <;> rfl
      have reads : unary fuel us = _ := ih grouped within later rests
      simp [ReadsAs, unary, goesOn, kind, same, next, known, reads, ok_bind, pure_ok]
  | pathUntil quantifier untilKind first second firstIh secondIh =>
      obtain ⟨us, leads, as, bracket, later⟩ := spelled
      obtain ⟨fuel, t, rfl, within, rfl, goesOn, kind, same, next⟩ := leads.start enough
      have inner := Formula.Leads.shorter bracket
      have body : untilBody (unary fuel) as = _ :=
        until_reads (fun _ => firstIh grouped.1 (by omega)) (fun _ _ shorter => secondIh grouped.2 (by omega)) later
      cases quantifier with
      | some =>
          have known : Opening.ofWord Quantifier.some.letter = .pathOrEveryone := rfl
          simp [ReadsAs, unary, goesOn, kind, same, next, known, Leads.here bracket, Leads.advance bracket, body, ok_bind, pure_ok]
      | all =>
          have known : Opening.ofWord Quantifier.all.letter = .allPaths := rfl
          simp [ReadsAs, unary, goesOn, kind, same, next, known, Leads.here bracket, Leads.advance bracket, body, ok_bind, pure_ok]
  | agentKnows certainty agent operand ih =>
      obtain ⟨us, leads, vs, opens, later⟩ := spelled
      obtain ⟨fuel, t, rfl, within, rfl, goesOn, kind, same, next⟩ := leads.start enough
      have inner := Formula.Leads.shorter opens
      obtain ⟨ws, listed, later, shorter⟩ := group_spelled (List.cons_ne_nil agent []) (by decide) later
      have known : Opening.ofWord (certainty.mark ++ "K") = .agentKnows certainty := by cases certainty <;> rfl
      have reads : unary fuel ws = _ := ih grouped.2 (by omega) later rests
      simp [ReadsAs, unary, goesOn, kind, same, next, known, Leads.expect opens, listed, reads, ok_bind, pure_ok]
  | groupKnows certainty sharing names operand ih =>
      obtain ⟨us, leads, vs, opens, later⟩ := spelled
      obtain ⟨fuel, t, rfl, within, rfl, goesOn, kind, same, next⟩ := leads.start enough
      have inner := Formula.Leads.shorter opens
      obtain ⟨ws, listed, later, shorter⟩ := group_spelled grouped.1 (by decide) later
      have reads : unary fuel ws = _ := ih grouped.2 (by omega) later rests
      have body : ∀ make, knowledgeBody (unary fuel) make vs = _ := fun make => knowledge_body_spelled listed reads
      -- what everyone knows starts like a path formula, and the sign behind the word decides
      have known : Opening.ofWord (certainty.mark ++ sharing.letter) = .groupKnows certainty sharing ∨
          certainty = .known ∧ sharing = .everyone := by
        cases certainty <;> cases sharing <;> first | exact .inl rfl | exact .inr ⟨rfl, rfl⟩
      obtain known | ⟨rfl, rfl⟩ := known
      · simp [ReadsAs, unary, goesOn, kind, same, next, known, Leads.expect opens, body, ok_bind]
      · have known : Opening.ofWord (Certainty.known.mark ++ Sharing.everyone.letter) = .pathOrEveryone := rfl
        simp [ReadsAs, unary, goesOn, kind, same, next, known, Leads.at_word opens, Leads.advance opens, body]
  | strategic ability names modality operand ih =>
      obtain ⟨us, leads, later⟩ := spelled
      obtain ⟨fuel, t, rfl, within, rfl, goesOn, kind, same, next⟩ := leads.start enough
      obtain ⟨vs, listed, ⟨ws, letter, later⟩, shorter⟩ := group_spelled grouped.1 (by cases ability <;> decide) later
      have inner := Formula.Leads.shorter letter
      have reads : unary fuel ws = _ := ih grouped.2 (by omega) later rests
      have body := strategic_body_spelled ability names letter reads
      have known : Opening.ofWord ability.opening = .strategic ability := by cases ability <;> rfl
      simp [ReadsAs, unary, goesOn, kind, same, next, known, listed, ok_bind, body]
  | strategicUntil ability names untilKind first second firstIh secondIh =>
      obtain ⟨us, leads, later⟩ := spelled
      obtain ⟨fuel, t, rfl, within, rfl, goesOn, kind, same, next⟩ := leads.start enough
      obtain ⟨vs, listed, ⟨as, bracket, later⟩, shorter⟩ := group_spelled grouped.1 (by cases ability <;> decide) later
      have inner := Formula.Leads.shorter bracket
      have body : untilBody (unary fuel) as = _ :=
        until_reads (fun _ => firstIh grouped.2.1 (by omega)) (fun _ _ shorter => secondIh grouped.2.2 (by omega)) later
      have known : Opening.ofWord ability.opening = .strategic ability := by cases ability <;> rfl
      simp [ReadsAs, unary, goesOn, kind, same, next, known, listed, strategicBody, Leads.here bracket, Leads.advance bracket, body, ok_bind, pure_ok]
  | parentheses inside ih =>
      obtain ⟨us, leads, later⟩ := spelled
      obtain ⟨fuel, t, rfl, within, rfl, goesOn, kind, same, next⟩ := leads.start enough
      obtain ⟨vs, body, _, closes, rfl⟩ := spells_append.mp later
      have closes : Leads false ")" vs _ := closes
      have chained : chain (unary fuel) us = _ :=
        chain_of_reads (ih grouped within body (closes.rests (by decide))) (closes.elsewhere (by decide))
      have known : Opening.ofWord "(" = .parenthesis := rfl
      simp [ReadsAs, unary, goesOn, kind, same, next, known, chained, closes.expect, ok_bind, pure_ok]
  | binary op first second firstIh secondIh =>
      obtain ⟨us, left, vs, sign, right⟩ := spells_append.mp spelled
      have sign : Leads false op.sign us vs := sign
      have shorter := Nat.lt_of_lt_of_le sign.shorter left.shorter
      have before := firstIh grouped.1 enough left (sign.rests (by cases op <;> decide))
      have behind := secondIh grouped.2 (Nat.le_trans (Nat.le_of_lt shorter) enough) right (rests.weaken (by cases op <;> decide))
      exact reads_binary before left.shorter sign behind right.shorter rests
  | @higher p _ _ above ih => exact reads_higher (ih grouped enough spelled (rests.weaken (by cases p <;> decide))) rests

theorem Written.goes_on {p : Priority} {f : Formula} {ms : List Mark} (written : Written p f ms) {ts rest : List Token}
    (spelled : Spells ms ts rest) : atEnd ts = false := by
  induction written generalizing rest with
  | binary op first second firstIh _ =>
      obtain ⟨us, left, _⟩ := spells_append.mp spelled
      exact firstIh left
  | higher above ih => exact ih spelled
  | _ =>
      obtain ⟨_, leads, _⟩ := spelled
      exact Leads.goes_on leads

theorem chain_written {f : Formula} {ms : List Mark} (written : Written .iff f ms) (grouped : f.Grouped) {ts : List Token} {e : Token}
    (spelled : Spells ms ts [e]) (ends : e.isEnd = true) : chain (unary ts.length) ts = .ok (f, [e]) := by
  have stops (word : String) : at? word [e] = false := by simp [at?, ends]
  exact chain_of_reads (written_reads written grouped (Nat.le_refl _) spelled fun op _ => stops op.sign) (stops "<->")

theorem of_tokens_written {f : Formula} {ms : List Mark} (written : Written .iff f ms) (grouped : f.Grouped) {ts : List Token} {e : Token}
    (spelled : Spells ms ts [e]) (ends : e.isEnd = true) :
    ofTokens ts = .ok f ↔ faultSoFar ts = none ∧ e.fault = none := by
  have read := chain_written written grouped spelled ends
  have goesOn := written.goes_on spelled
  rw [ofTokens]
  cases faultSoFar ts with
  | some fault => simp
  | none =>
      simp only [goesOn, read, ok_bind, Bool.false_eq_true, if_false, true_and]
      cases fault : e.fault with
      | some fault => simp [faultSoFar, fault, throw, throwThe, MonadExceptOf.throw]
      | none => simp [faultSoFar, fault, atEnd, ends, pure_ok]

end Coalition.Formula
