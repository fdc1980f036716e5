import Coalition.Proofs.Formula.Reading
import Coalition.Proofs.Formula.Taken

-- Which formulas come back from their own text, and from the other texts of them.

set_option autoImplicit false

namespace Coalition.Formula

open Coalition.Text

theorem quote_not_mem_of_is_name {word : String} (name : isName word = true) : '\'' ∉ word.toList := by
  unfold isName at name
  cases shape : word.toList with
  | nil => exact List.not_mem_nil
  | cons c cs =>
      rw [shape, Bool.and_eq_true, List.all_eq_true] at name
      rintro (_ | ⟨_, listed⟩)
      · exact absurd name.1 (by decide)
      · exact absurd (name.2 _ listed) (by decide)

theorem taken_of_spelled {ms : List Mark} {ts us : List Token} {names : List String} {e : Token} (leaves : Leaves ts names [e])
    (ends : e.isEnd = true) (spelled : Spells ms ts us) (plain : PlainNames (markNames ms)) :
    ∃ taken later, names = taken ++ later ∧ PlainNames taken ∧ (markNames ms).length ≤ taken.length := by
  -- a word may be taken as a name too, so there may be more names than marks for them
  induction ms generalizing ts names with
  | nil => exact ⟨[], names, rfl, nofun, Nat.le_refl _⟩
  | cons m ms ih =>
      obtain ⟨vs, leads, later⟩ := spelled
      cases m with
      | blank =>
          cases leads
          exact ih leaves later plain
      | word text =>
          obtain ⟨t, rfl, _, goesOn, kind, _⟩ := leads
          cases leaves with
          | done => exact absurd ends (by simp [goesOn])
          | skip _ _ leaves => exact ih leaves later plain
          | take _ name leaves =>
              obtain ⟨taken, others, rfl, plain, many⟩ := ih leaves later plain
              refine ⟨t.text :: taken, others, rfl, List.forall_mem_cons.mpr ⟨?_, plain⟩, Nat.le_succ_of_le many⟩
              exact quote_not_mem_of_is_name (name.resolve_left (by simp [kind]))
      | name text =>
          obtain ⟨t, rfl, _, goesOn, kind, rfl⟩ := leads
          cases leaves with
          | done => exact absurd ends (by simp [goesOn])
          | skip _ bare _ => exact absurd kind (by simp [bare])
          | take _ _ leaves =>
              obtain ⟨first, plain⟩ := List.forall_mem_cons.mp plain
              obtain ⟨taken, others, rfl, plain, many⟩ := ih leaves later plain
              exact ⟨t.text :: taken, others, rfl, List.forall_mem_cons.mpr ⟨first, plain⟩, Nat.succ_le_succ many⟩

def LegibleText (text : String) : Prop := '\'' ∉ text.toList ∧ nul ∉ text.toList

def LegibleGroup (names : List String) : Prop := names ≠ [] ∧ ∀ name ∈ names, LegibleText name

-- Every group has a member, and no name or atom holds a quote or a NUL.
def Legible (f : Formula) : Prop := f.Every LegibleText LegibleGroup LegibleGroup

theorem legible_iff (f : Formula) : f.Legible ↔ f.Grouped ∧ ∀ name ∈ f.names, LegibleText name := by
  have both {p q p' q' : Prop} : (p ∧ q) ∧ p' ∧ q' ↔ (p ∧ p') ∧ q ∧ q' := and_and_and_comm
  unfold Legible Grouped names
  induction f with
  | constant value => simp [Every, marks, Mark.names]
  | atom text => simp [Every, marks, Mark.names]
  | not body ih => simpa [Every, marks, Mark.names] using ih
  | binary op left right leftIh rightIh => simp [Every, marks, Mark.names, leftIh, rightIh, or_imp, forall_and, both]
  | path quantifier modality body ih => simpa [Every, marks, Mark.names] using ih
  | pathUntil quantifier kind left right leftIh rightIh => simp [Every, marks, Mark.names, leftIh, rightIh, or_imp, forall_and, both]
  | agentKnows certainty agent body ih => simp [Every, marks, Mark.names, ih, LegibleGroup, and_left_comm]
  | groupKnows certainty sharing names body ih =>
      simp [Every, marks, Mark.names, ih, LegibleGroup, group_names, or_imp, forall_and, both]
  | strategic ability names modality body ih =>
      simp [Every, marks, Mark.names, ih, LegibleGroup, group_names, or_imp, forall_and, both]
  | strategicUntil ability names kind left right leftIh rightIh =>
      simp [Every, marks, Mark.names, leftIh, rightIh, LegibleGroup, group_names, or_imp, forall_and, both]

theorem nul_mem_chars {ms : List Mark} {rest : List Char} (orderly : Orderly ms rest) :
    nul ∈ markChars ms ↔ ∃ name ∈ markNames ms, nul ∈ name.toList := by
  induction ms with
  | nil => simp
  | cons m ms ih =>
      obtain ⟨whole, orderly⟩ := orderly
      rw [mark_chars_cons, mark_names_cons, List.mem_append, ih orderly]
      cases m with
      | blank => simp [Mark.chars, Mark.names, (by decide : nul ≠ ' ')]
      | word text => simp [Mark.chars, Mark.names, Whole.nul_not_mem whole]
      | name text => simp [Mark.chars, Mark.names, (by decide : nul ≠ '\'')]

theorem scanner_of_formula (firstLine : Int) (f : Formula) : ∃ s : Scanner, s.tokens firstLine = tokens firstLine f.text.toList ∧
    s.cursor.unread = markChars f.marks ∧ (s.Clear ↔ ∀ name ∈ f.names, nul ∉ name.toList) := by
  have unmarked : ∀ c ∈ f.text.toList.head?, c.toNat ≠ 0xFEFF := by
    have openings : ∀ h ∈ Head.all, h.opening.toList ≠ [] ∧ h.opening.toList.head?.all (·.toNat != 0xFEFF) := by decide
    obtain ⟨some, first⟩ := openings f.head (Head.mem_all _)
    rw [text_head_tail, List.head?_append_of_ne_nil _ some]
    simpa [Option.all_eq_true] using first
  obtain ⟨s, same, start, clear⟩ := scanner_of_text firstLine unmarked
  refine ⟨s, same, start.trans (text_marks f), clear.trans ?_⟩
  have orderly : Orderly f.marks [] := orderly_marks f nofun
  rw [text_marks, nul_mem_chars orderly]
  simp [names]

theorem exists_first_quote {ms : List Mark} (quoted : ¬ PlainNames (markNames ms)) :
    ∃ as name bs, ms = as ++ .name name :: bs ∧ PlainNames (markNames as) ∧ '\'' ∈ name.toList := by
  induction ms with
  | nil => exact absurd nofun quoted
  | cons m ms ih =>
      by_cases plain : PlainNames m.names
      · have later : ¬ PlainNames (markNames ms) := fun others => quoted fun name listed => by
          rw [mark_names_cons, List.mem_append] at listed
          exact listed.elim (plain name) (others name)
        obtain ⟨as, name, bs, rfl, before, here⟩ := ih later
        refine ⟨m :: as, name, bs, rfl, fun other listed => ?_, here⟩
        rw [mark_names_cons, List.mem_append] at listed
        exact listed.elim (plain other) (before other)
      · cases m with
        | blank => exact absurd nofun plain
        | word text => exact absurd nofun plain
        | name text => exact ⟨[], text, ms, rfl, nofun, by simpa [PlainNames, Mark.names] using plain⟩

-- The first name with a quote is cut short there, so the formula read back has another name in its place.
theorem plain_of_parse_line {firstLine : Int} {f : Formula} (done : parseLine firstLine f.text = .ok f) : PlainNames f.names := by
  by_contra quoted
  obtain ⟨as, name, bs, shape, before, here⟩ := exists_first_quote quoted
  obtain ⟨start, finish, split, plain⟩ := List.eq_append_cons_of_mem here
  obtain ⟨s, same, unread, _⟩ := scanner_of_formula firstLine f
  have chars : markChars f.marks = markChars (as ++ [.name (String.ofList start)]) ++ (finish ++ '\'' :: markChars bs) := by
    simp [shape, Mark.chars, split]
  have orderly : Orderly (as ++ [.name (String.ofList start)]) (finish ++ '\'' :: markChars bs) := by
    have whole : Orderly f.marks [] := orderly_marks f (by simp [Stops])
    rw [shape] at whole
    refine orderly_append.mpr ⟨?_, trivial, trivial⟩
    simpa [Mark.chars, split] using (orderly_append.mp whole).1
  have unquoted : PlainNames (markNames (as ++ [.name (String.ofList start)])) := by
    intro other listed
    rw [mark_names_append, List.mem_append] at listed
    refine listed.elim (before other) fun cut => ?_
    obtain rfl : other = String.ofList start := by simpa [Mark.names] using cut
    rwa [String.toList_ofList]
  -- the text is read as if that name ended at its quote
  obtain ⟨s', _, passes⟩ := passes_marks firstLine (unread.trans chars) orderly unquoted
  obtain ⟨_, e, leaves, ends, _⟩ := of_tokens_took (closed_tokens firstLine f.text.toList) f done
  obtain ⟨taken, later, names, plainTaken, many⟩ := taken_of_spelled (same ▸ leaves) ends passes.spells unquoted
  -- the name itself is among the ones that were taken
  have prefixed : markNames (as ++ [.name name]) <+: taken := by
    have first : markNames (as ++ [.name name]) <+: f.names := ⟨markNames bs, by simp [Formula.names, shape, Mark.names]⟩
    exact List.prefix_of_prefix_length_le first ⟨later, names.symm⟩ (by simpa [Mark.names] using many)
  exact plainTaken name (prefixed.subset (by simp [Mark.names])) here

-- Without quotes the text is read as it was printed, and only a NUL in it is a fault.
theorem parse_line_plain (firstLine : Int) {f : Formula} (grouped : f.Grouped) (plain : PlainNames f.names) :
    parseLine firstLine f.text = .ok f ↔ ∀ name ∈ f.names, nul ∉ name.toList := by
  obtain ⟨s, same, unread, clear⟩ := scanner_of_formula firstLine f
  obtain ⟨s', done, passes⟩ := passes_marks firstLine (unread.trans (List.append_nil _).symm) (orderly_marks f nofun) plain
  obtain ⟨e, last, ends, fault⟩ := s'.tokens_end firstLine done
  have clearEnd : s.Clear ↔ e.fault = none := by
    rw [passes.clear, fault]
    simp [Scanner.Clear, done]
  have spelled := passes.spells
  have quiet := passes.quiet
  rw [same, last] at spelled quiet
  rw [parseLine, of_tokens_written ((printed_written f).anywhere .iff) grouped (spells_solid spelled) ends, ← clear]
  exact ⟨fun now => clearEnd.mpr now.2, fun now => ⟨quiet now (clearEnd.mp now), clearEnd.mp now⟩⟩

theorem parse_line_text (firstLine : Int) (f : Formula) : parseLine firstLine f.text = .ok f ↔ f.Legible := by
  rw [legible_iff]
  constructor
  · intro done
    obtain ⟨grouped, _⟩ := of_tokens_took (closed_tokens firstLine f.text.toList) f done
    have plain := plain_of_parse_line done
    exact ⟨grouped, fun name listed => ⟨plain name listed, (parse_line_plain firstLine grouped plain).mp done name listed⟩⟩
  · rintro ⟨grouped, legible⟩
    exact (parse_line_plain firstLine grouped fun name listed => (legible name listed).1).mpr fun name listed => (legible name listed).2

/-- A formula comes back from its text exactly when its groups have members and its names hold no quote and no NUL. -/
theorem parse_text_iff (f : Formula) : parse f.text = .ok f ↔ f.Legible := parse_line_text 1 f

theorem parse_line_written (firstLine : Int) {f : Formula} (legible : f.Legible) {text : String} (written : f.HasText text) :
    parseLine firstLine text = .ok f := by
  obtain ⟨ms, written, spaced⟩ := written
  obtain ⟨grouped, plain⟩ := (legible_iff f).mp legible
  rw [← written_names written] at plain
  obtain ⟨first, last, spelled, ends, silent⟩ := spaced.tokens firstLine (regular_written written grouped)
    (fun name listed => (plain name listed).1) fun name listed => (plain name listed).2
  exact (of_tokens_written written grouped spelled ends).mpr ⟨first, silent⟩

/-- A legible formula comes back from every text of it: with or without the parentheses that the priorities leave out, and with any white
space that keeps its words apart. -/
theorem parse_written {f : Formula} (legible : f.Legible) {text : String} (written : f.HasText text) : parse text = .ok f :=
  parse_line_written 1 legible written

theorem parse_written_few_parentheses :
    let f : Formula := .binary .iff
      (.binary .implies
        (.binary .or (.binary .and (.not (.atom "p")) (.atom "q"))
          (.binary .and (.atom "r") (.agentKnows .known "a" (.path .all .next (.atom "p")))))
        (.strategicUntil .cannotAvoid ["a", "b"] .weak (.binary .implies (.atom "p") (.atom "q")) (.binary .iff (.atom "r") (.atom "p"))))
      (.binary .iff (.atom "q") (.constant .true))
    let text := "~'p'&'q' | 'r' & K<'a'>AX'p'\n  -> ['a', 'b']['p' -> 'q' W 'r' <-> 'p'] <-> (( 'q' )) <-> TRUE"
    f.Legible ∧ f.HasText text ∧ parse text = .ok f := by
  intro f text
  have legible : f.Legible := by
    have plain : ∀ name ∈ ["p", "q", "r", "a", "b"], LegibleText name := by
      unfold LegibleText
      decide
    simp [f, Legible, Every, LegibleGroup, plain]
  have written : f.HasText text := by
    have atom (text : String) (p : Priority) : Written p (.atom text) [.name text] := (Written.atom text).anywhere p
    have condition : Written .or _ _ :=
      .binary .or (.higher (.binary .and (.higher (.not List.mem_cons_self (atom "p" .unary))) (atom "q" .unary)))
        (.binary .and (atom "r" .and) (.agentKnows .known "a" (.path .all .next (atom "p" .unary))))
    have goal := Written.strategicUntil .cannotAvoid ["a", "b"] .weak (.higher (.binary .implies (atom "p" .or) (atom "q" .implies)))
      (.binary .iff (atom "r" .implies) (atom "p" .iff))
    have parentheses := Written.parentheses ((Written.parentheses (atom "q" .iff)).anywhere .iff)
    have word := Written.constant (by decide : "TRUE" ∈ Constant.true.words)
    have whole : Written .iff f _ :=
      .binary .iff (.binary .implies condition (goal.anywhere .implies)) (.binary .iff (parentheses.anywhere .implies) (word.anywhere .iff))
    exact ⟨_, whole, spaced_of_is_spaced (by decide +kernel)⟩
  exact ⟨legible, written, parse_written legible written⟩

end Coalition.Formula
