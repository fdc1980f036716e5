import Mathlib.Data.List.Basic
import Coalition.Formula.Printer

-- Every operator has an opening that starts no other one, so without quotes in atoms and names the text of a formula can be taken apart
-- in one way only.

set_option autoImplicit false

namespace Coalition

theorem append_cons_cancel {α : Type} {a : α} {xs ys rest rest' : List α} (none : a ∉ xs) (noneToo : a ∉ ys)
    (same : xs ++ a :: rest = ys ++ a :: rest') : xs = ys ∧ rest = rest' := by
  induction xs generalizing ys with
  | nil =>
      cases ys with
      | nil => exact ⟨rfl, (List.cons.inj same).2⟩
      | cons y ys => exact absurd (List.cons.inj same).1 (List.ne_of_not_mem_cons noneToo)
  | cons x xs ih =>
      cases ys with
      | nil => exact absurd (List.cons.inj same).1.symm (List.ne_of_not_mem_cons none)
      | cons y ys =>
          obtain ⟨rfl, later⟩ := List.cons.inj same
          obtain ⟨rfl, tails⟩ := ih (fun member => none (List.mem_cons_of_mem _ member))
            (fun member => noneToo (List.mem_cons_of_mem _ member)) later
          exact ⟨rfl, tails⟩

-- A property of the atoms of a formula, of the names that know something, and of the coalitions.
def Formula.Every (atom : String → Prop) (group coalition : List String → Prop) : Formula → Prop
  | .constant _ => True
  | .atom text => atom text
  | .not body => body.Every atom group coalition
  | .binary _ left right => left.Every atom group coalition ∧ right.Every atom group coalition
  | .path _ _ body => body.Every atom group coalition
  | .pathUntil _ _ left right => left.Every atom group coalition ∧ right.Every atom group coalition
  | .agentKnows _ agent body => group [agent] ∧ body.Every atom group coalition
  | .groupKnows _ _ names body => group names ∧ body.Every atom group coalition
  | .strategic _ names _ body => coalition names ∧ body.Every atom group coalition
  | .strategicUntil _ names _ left right =>
      coalition names ∧ left.Every atom group coalition ∧ right.Every atom group coalition

def PlainNames (names : List String) : Prop := ∀ name ∈ names, '\'' ∉ name.toList

def Formula.Plain (f : Formula) : Prop := f.Every (fun text => '\'' ∉ text.toList) PlainNames PlainNames

-- No text goes on with a quote behind another one.
def TextsApart (texts : String → Prop) : Prop := ∀ a b, texts a → texts b → ∀ more, b.toList ≠ a.toList ++ '\'' :: more

theorem plain_apart : TextsApart fun text => '\'' ∉ text.toList := fun a b _ plain more same => plain (by simp [same])

def Formula.Keyed (texts : String → Prop) (f : Formula) : Prop := f.Every texts PlainNames PlainNames

theorem atom_text_cancel {texts : String → Prop} (apart : TextsApart texts) {a b : String} (here : texts a) (there : texts b)
    {rest rest' : List Char} (same : a.toList ++ '\'' :: rest = b.toList ++ '\'' :: rest') : a = b ∧ rest = rest' := by
  have whole : ∀ {a b : String} {rest rest' more : List Char}, texts a → texts b → b.toList = a.toList ++ more →
      '\'' :: rest = more ++ '\'' :: rest' → more = [] := by
    intro a b rest rest' more here there longer tail
    cases more with
    | nil => rfl
    | cons c more =>
        obtain ⟨rfl, _⟩ := List.cons.inj tail
        exact absurd longer (apart a b here there more)
  obtain ⟨more, longer, tail⟩ | ⟨more, longer, tail⟩ := List.append_eq_append_iff.mp same
  · obtain rfl := whole here there longer tail
    exact ⟨String.toList_inj.mp (longer.trans (List.append_nil _)).symm, (List.cons.inj tail).2⟩
  · obtain rfl := whole there here longer tail
    exact ⟨String.toList_inj.mp (longer.trans (List.append_nil _)), (List.cons.inj tail).2.symm⟩

theorem group_text_cancel {xs ys : List String} (plain : PlainNames xs) (plainToo : PlainNames ys) {c d : Char} {rest rest' : List Char}
    (ends : c ≠ ',' ∧ c ≠ '\'') (endsToo : d ≠ ',' ∧ d ≠ '\'')
    (same : (groupText xs).toList ++ c :: rest = (groupText ys).toList ++ d :: rest') : xs = ys ∧ c :: rest = d :: rest' := by
  have first : ∀ (x : String) (more : List String), ∃ later, (groupText (x :: more)).toList = '\'' :: (x.toList ++ '\'' :: later) ∧
      (more = [] ∧ later = [] ∨ more ≠ [] ∧ later = ',' :: (groupText more).toList) := by
    intro x more
    cases more with
    | nil => exact ⟨[], by simp [groupText, String.intercalate_singleton], .inl ⟨rfl, rfl⟩⟩
    | cons y more => exact ⟨',' :: (groupText (y :: more)).toList, by simp [groupText, String.intercalate_cons_cons], .inr ⟨by simp, rfl⟩⟩
  have none : (groupText []).toList = [] := by simp [groupText, String.intercalate_nil]
  induction xs generalizing ys with
  | nil =>
      cases ys with
      | nil => exact ⟨rfl, by rwa [none] at same⟩
      | cons y ys =>
          obtain ⟨later, shape, _⟩ := first y ys
          rw [none, shape] at same
          exact absurd (List.cons.inj same).1 ends.2
  | cons x xs ih =>
      obtain ⟨later, shape, split⟩ := first x xs
      cases ys with
      | nil =>
          rw [none, shape] at same
          exact absurd (List.cons.inj same).1.symm endsToo.2
      | cons y ys =>
          obtain ⟨later', shape', split'⟩ := first y ys
          rw [shape, shape', List.cons_append, List.cons_append, List.append_assoc, List.append_assoc] at same
          obtain ⟨head, tails⟩ := append_cons_cancel (plain x (List.mem_cons_self ..)) (plainToo y (List.mem_cons_self ..))
            (List.cons.inj same).2
          obtain rfl := String.toList_inj.mp head
          obtain ⟨rfl, rfl⟩ | ⟨some, rfl⟩ := split <;> obtain ⟨rfl, rfl⟩ | ⟨someToo, rfl⟩ := split'
          · exact ⟨rfl, tails⟩
          · exact absurd (List.cons.inj tails).1 ends.1
          · exact absurd (List.cons.inj tails).1.symm endsToo.1
          · obtain ⟨rfl, rest⟩ := ih (fun name listed => plain name (List.mem_cons_of_mem _ listed))
              (fun name listed => plainToo name (List.mem_cons_of_mem _ listed)) (List.cons.inj tails).2
            exact ⟨rfl, rest⟩

namespace Formula

-- What the opening of a formula tells: the operator, apart from what stands behind a group or between two operands.
inductive Head where
  | constant (value : Constant)
  | atom
  | not
  | binary
  | path (quantifier : Quantifier) (modality : Modality)
  | pathUntil (quantifier : Quantifier)
  | agentKnows (certainty : Certainty)
  | groupKnows (certainty : Certainty) (sharing : Sharing)
  | strategic (ability : Ability)
deriving DecidableEq

namespace Head

def opening : Head → String
  | .constant value => value.text
  | .atom => "'"
  | .not => "~"
  | .binary => "("
  | .path quantifier modality => quantifier.letter ++ modality.letter
  | .pathUntil quantifier => quantifier.letter ++ "["
  | .agentKnows certainty => certainty.mark ++ "K<"
  | .groupKnows certainty sharing => certainty.mark ++ sharing.letter ++ "<"
  | .strategic ability => ability.opening

def all : List Head :=
  [.constant .true, .constant .false, .constant .init, .constant .reachable, .atom, .not, .binary,
    .path .some .next, .path .some .eventually, .path .some .always, .path .all .next, .path .all .eventually, .path .all .always,
    .pathUntil .some, .pathUntil .all, .agentKnows .known, .agentKnows .possible,
    .groupKnows .known .everyone, .groupKnows .known .distributed, .groupKnows .known .common,
    .groupKnows .possible .everyone, .groupKnows .possible .distributed, .groupKnows .possible .common,
    .strategic .canForce, .strategic .cannotAvoid]

theorem mem_all (h : Head) : h ∈ all := by
  rcases h with v | _ | _ | _ | ⟨q, m⟩ | q | c | ⟨c, s⟩ | a
  · cases v <;> simp [all]
  · simp [all]
  · simp [all]
  · simp [all]
  · cases q <;> cases m <;> simp [all]
  · cases q <;> simp [all]
  · cases c <;> simp [all]
  · cases c <;> cases s <;> simp [all]
  · cases a <;> simp [all]

-- No opening starts another one.
theorem opening_cancel {h k : Head} {rest rest' : List Char} (same : h.opening.toList ++ rest = k.opening.toList ++ rest') :
    h = k ∧ rest = rest' := by
  have free : ∀ h ∈ all, ∀ k ∈ all, h.opening.toList <+: k.opening.toList → h = k := by decide
  have longer : k.opening.toList <+: h.opening.toList ++ rest := same.symm ▸ List.prefix_append _ _
  have either := List.prefix_or_prefix_of_prefix (List.prefix_append h.opening.toList rest) longer
  have known : h = k := either.elim (free h (mem_all h) k (mem_all k)) fun start => (free k (mem_all k) h (mem_all h) start).symm
  subst known
  exact ⟨rfl, List.append_cancel_left same⟩

end Head

def head : Formula → Head
  | .constant value => .constant value
  | .atom _ => .atom
  | .not _ => .not
  | .binary _ _ _ => .binary
  | .path quantifier modality _ => .path quantifier modality
  | .pathUntil quantifier _ _ _ => .pathUntil quantifier
  | .agentKnows certainty _ _ => .agentKnows certainty
  | .groupKnows certainty sharing _ _ => .groupKnows certainty sharing
  | .strategic ability _ _ _ => .strategic ability
  | .strategicUntil ability _ _ _ _ => .strategic ability

def tail : Formula → List Char
  | .constant _ => []
  | .atom text => text.toList ++ ['\'']
  | .not body => body.text.toList
  | .binary op left right => left.text.toList ++ ' ' :: (op.sign.toList ++ ' ' :: (right.text.toList ++ [')']))
  | .path _ _ body => ' ' :: body.text.toList
  | .pathUntil _ kind left right => left.text.toList ++ ' ' :: (kind.letter.toList ++ ' ' :: (right.text.toList ++ [']']))
  | .agentKnows _ agent body => '\'' :: (agent.toList ++ '\'' :: '>' :: ' ' :: body.text.toList)
  | .groupKnows _ _ names body => (groupText names).toList ++ '>' :: ' ' :: body.text.toList
  | .strategic ability names modality body =>
      (groupText names).toList ++ (ability.closing.toList ++ ' ' :: (modality.letter.toList ++ ' ' :: body.text.toList))
  | .strategicUntil ability names kind left right =>
      (groupText names).toList ++ (ability.closing.toList ++ '[' ::
        (left.text.toList ++ ' ' :: (kind.letter.toList ++ ' ' :: (right.text.toList ++ [']']))))

theorem text_head_tail (f : Formula) : f.text.toList = f.head.opening.toList ++ f.tail := by
  cases f <;> simp [text, head, tail, Head.opening, String.toList_append]

theorem word_cancel {α : Type} {word : α → String} (injective : Function.Injective word) (whole : ∀ a, ' ' ∉ (word a).toList) {a b : α}
    {rest rest' : List Char} (same : (word a).toList ++ ' ' :: rest = (word b).toList ++ ' ' :: rest') : a = b ∧ rest = rest' := by
  obtain ⟨words, tails⟩ := append_cons_cancel (whole a) (whole b) same
  exact ⟨injective (String.toList_inj.mp words), tails⟩

theorem operands_cancel {α : Type} {word : α → String} {a b : α} {left right left' right' : Formula} {closing : Char}
    {rest rest' : List Char} (words : ∀ {u v : List Char}, (word a).toList ++ ' ' :: u = (word b).toList ++ ' ' :: v → a = b ∧ u = v)
    (lefts : ∀ {u v : List Char}, left.text.toList ++ u = left'.text.toList ++ v → left = left' ∧ u = v)
    (rights : ∀ {u v : List Char}, right.text.toList ++ u = right'.text.toList ++ v → right = right' ∧ u = v)
    (same : left.text.toList ++ ' ' :: ((word a).toList ++ ' ' :: (right.text.toList ++ closing :: rest)) =
      left'.text.toList ++ ' ' :: ((word b).toList ++ ' ' :: (right'.text.toList ++ closing :: rest'))) :
    a = b ∧ left = left' ∧ right = right' ∧ rest = rest' := by
  obtain ⟨leftSame, afterLeft⟩ := lefts same
  obtain ⟨wordSame, afterWord⟩ := words (List.cons.inj afterLeft).2
  obtain ⟨rightSame, afterRight⟩ := rights afterWord
  exact ⟨wordSame, leftSame, rightSame, (List.cons.inj afterRight).2⟩

theorem sign_cancel {op op' : Connective} {rest rest' : List Char}
    (same : op.sign.toList ++ ' ' :: rest = op'.sign.toList ++ ' ' :: rest') : op = op' ∧ rest = rest' := by
  refine word_cancel (fun a b => ?_) (fun a => ?_) same
  · cases a <;> cases b <;> decide
  · cases a <;> decide

theorem modality_cancel {modality modality' : Modality} {rest rest' : List Char}
    (same : modality.letter.toList ++ ' ' :: rest = modality'.letter.toList ++ ' ' :: rest') : modality = modality' ∧ rest = rest' := by
  refine word_cancel (fun a b => ?_) (fun a => ?_) same
  · cases a <;> cases b <;> decide
  · cases a <;> decide

theorem until_cancel {kind kind' : Until} {rest rest' : List Char}
    (same : kind.letter.toList ++ ' ' :: rest = kind'.letter.toList ++ ' ' :: rest') : kind = kind' ∧ rest = rest' := by
  refine word_cancel (fun a b => ?_) (fun a => ?_) same
  · cases a <;> cases b <;> decide
  · cases a <;> decide

theorem closing_sign (ability : Ability) : ∃ c, ability.closing.toList = [c] ∧ c ≠ ',' ∧ c ≠ '\'' := by
  cases ability
  · exact ⟨'>', rfl, by decide⟩
  · exact ⟨']', rfl, by decide⟩

theorem head_cancel {f g : Formula} {rest rest' : List Char} (same : f.text.toList ++ rest = g.text.toList ++ rest') :
    f.head = g.head ∧ f.tail ++ rest = g.tail ++ rest' := by
  rw [text_head_tail, text_head_tail, List.append_assoc, List.append_assoc] at same
  exact Head.opening_cancel same

-- The text of a formula ends where it ends, whatever follows, and belongs to no other formula, if texts of atoms are apart.
theorem text_cancel {texts : String → Prop} (apart : TextsApart texts) {f g : Formula} (keyed : f.Keyed texts) (keyedToo : g.Keyed texts)
    {rest rest' : List Char}
    (same : f.text.toList ++ rest = g.text.toList ++ rest') : f = g ∧ rest = rest' := by
  induction f generalizing g rest rest' with
  | constant value =>
      obtain ⟨heads, tails⟩ := head_cancel same
      cases g <;> cases heads
      exact ⟨rfl, tails⟩
  | atom text =>
      obtain ⟨heads, tails⟩ := head_cancel same
      cases g <;> cases heads
      rename_i text'
      simp only [tail, List.append_assoc, List.cons_append, List.nil_append] at tails
      obtain ⟨texts, later⟩ := atom_text_cancel apart keyed keyedToo tails
      exact ⟨congrArg atom texts, later⟩
  | not body ih =>
      obtain ⟨heads, tails⟩ := head_cancel same
      cases g <;> cases heads
      rename_i body'
      obtain ⟨rfl, done⟩ := ih (g := body') keyed keyedToo tails
      exact ⟨rfl, done⟩
  | binary op left right leftIh rightIh =>
      obtain ⟨heads, tails⟩ := head_cancel same
      cases g <;> cases heads
      simp only [tail, List.append_assoc, List.cons_append, List.nil_append] at tails
      obtain ⟨rfl, rfl, rfl, done⟩ := operands_cancel sign_cancel (leftIh keyed.1 keyedToo.1) (rightIh keyed.2 keyedToo.2) tails
      exact ⟨rfl, done⟩
  | path quantifier modality body ih =>
      obtain ⟨heads, tails⟩ := head_cancel same
      cases g <;> cases heads
      rename_i body'
      obtain ⟨rfl, done⟩ := ih (g := body') keyed keyedToo (List.cons.inj tails).2
      exact ⟨rfl, done⟩
  | pathUntil quantifier kind left right leftIh rightIh =>
      obtain ⟨heads, tails⟩ := head_cancel same
      cases g <;> cases heads
      simp only [tail, List.append_assoc, List.cons_append, List.nil_append] at tails
      obtain ⟨rfl, rfl, rfl, done⟩ := operands_cancel until_cancel (leftIh keyed.1 keyedToo.1) (rightIh keyed.2 keyedToo.2) tails
      exact ⟨rfl, done⟩
  | agentKnows certainty agent body ih =>
      obtain ⟨heads, tails⟩ := head_cancel same
      cases g <;> cases heads
      simp only [tail, List.append_assoc, List.cons_append] at tails
      obtain ⟨agents, afterAgent⟩ := append_cons_cancel (keyed.1 _ (List.mem_singleton.mpr rfl))
        (keyedToo.1 _ (List.mem_singleton.mpr rfl)) (List.cons.inj tails).2
      obtain rfl := String.toList_inj.mp agents
      obtain ⟨rfl, done⟩ := ih keyed.2 keyedToo.2 (List.cons.inj (List.cons.inj afterAgent).2).2
      exact ⟨rfl, done⟩
  | groupKnows certainty sharing names body ih =>
      obtain ⟨heads, tails⟩ := head_cancel same
      cases g <;> cases heads
      simp only [tail, List.append_assoc, List.cons_append] at tails
      obtain ⟨rfl, afterGroup⟩ := group_text_cancel keyed.1 keyedToo.1 (by decide) (by decide) tails
      obtain ⟨rfl, done⟩ := ih keyed.2 keyedToo.2 (List.cons.inj (List.cons.inj afterGroup).2).2
      exact ⟨rfl, done⟩
  | strategic ability names modality body ih =>
      obtain ⟨heads, tails⟩ := head_cancel same
      obtain ⟨c, closing, ends⟩ := closing_sign ability
      cases g <;> cases heads <;> simp only [tail, closing, List.append_assoc, List.cons_append, List.nil_append] at tails
      · obtain ⟨rfl, afterGroup⟩ := group_text_cancel keyed.1 keyedToo.1 ends ends tails
        obtain ⟨rfl, afterWord⟩ := modality_cancel (List.cons.inj (List.cons.inj afterGroup).2).2
        obtain ⟨rfl, done⟩ := ih keyed.2 keyedToo.2 afterWord
        exact ⟨rfl, done⟩
      · obtain ⟨_, afterGroup⟩ := group_text_cancel keyed.1 keyedToo.1 ends ends tails
        cases (List.cons.inj (List.cons.inj afterGroup).2).1
  | strategicUntil ability names kind left right leftIh rightIh =>
      obtain ⟨heads, tails⟩ := head_cancel same
      obtain ⟨c, closing, ends⟩ := closing_sign ability
      cases g <;> cases heads <;> simp only [tail, closing, List.append_assoc, List.cons_append, List.nil_append] at tails
      · obtain ⟨_, afterGroup⟩ := group_text_cancel keyed.1 keyedToo.1 ends ends tails
        cases (List.cons.inj (List.cons.inj afterGroup).2).1
      · obtain ⟨rfl, afterGroup⟩ := group_text_cancel keyed.1 keyedToo.1 ends ends tails
        obtain ⟨rfl, rfl, rfl, done⟩ := operands_cancel until_cancel (leftIh keyed.2.1 keyedToo.2.1) (rightIh keyed.2.2 keyedToo.2.2)
          (List.cons.inj (List.cons.inj afterGroup).2).2
        exact ⟨rfl, done⟩

theorem text_injective {texts : String → Prop} (apart : TextsApart texts) {f g : Formula} (keyed : f.Keyed texts)
    (keyedToo : g.Keyed texts) (same : f.text = g.text) : f = g :=
  (text_cancel apart keyed keyedToo (congrArg (·.toList ++ []) same)).1

end Formula

end Coalition
