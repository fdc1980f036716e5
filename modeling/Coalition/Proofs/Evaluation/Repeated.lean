import Coalition.Proofs.Evaluation.Filtered
import Coalition.Proofs.Evaluation.Kept

-- Answers that do not depend on earlier questions.

set_option autoImplicit false

namespace Coalition

namespace Eval

variable {α β : Type} {I : Memory → Prop} {P : Except Error α → Prop} {Q : Except Error β → Prop} {x : Eval α} {f : α → Eval β}

-- From memories of some kind the computation ends in a result with a property, an error perhaps, and leaves a memory of the kind.
def Settles (I : Memory → Prop) (P : Except Error α → Prop) (x : Eval α) : Prop :=
  ∀ m, I m → ∃ result n, x.run m = (result, n) ∧ I n ∧ P result

theorem settles_pure {a : α} (holds : P (.ok a)) : Settles I P (pure a) := fun m kept => ⟨.ok a, m, rfl, kept, holds⟩

theorem settles_throw {e : Error} (holds : P (.error e)) : Settles I P (throw e) := fun m kept => ⟨.error e, m, rfl, kept, holds⟩

theorem settles_bind (first : Settles I P x) (fails : ∀ e, P (.error e) → Q (.error e)) (next : ∀ a, P (.ok a) → Settles I Q (f a)) :
    Settles I Q (x >>= f) := by
  intro m kept
  obtain ⟨result, n, ran, still, holds⟩ := first m kept
  cases result with
  | error e => exact ⟨.error e, n, run_bind_error ran, still, fails e holds⟩
  | ok a =>
      obtain ⟨done, k, later, keeps, ends⟩ := next a holds n still
      exact ⟨done, k, (run_bind ran).trans later, keeps, ends⟩

theorem settles_after {a : α} (first : Settles I (· = .ok a) x) (next : Settles I Q (f a)) : Settles I Q (x >>= f) :=
  settles_bind first nofun fun _ same => Except.ok.inj same ▸ next

theorem settles_get {f : Memory → Eval β} (next : ∀ m, I m → Settles I Q (f m)) : Settles I Q (get >>= f) :=
  fun m kept => next m kept m kept

theorem settles_modify {f : Memory → Memory} (keeps : ∀ m, I m → I (f m)) : Settles I (· = .ok ()) (modify f) := fun m kept =>
  ⟨.ok (), f m, rfl, keeps m kept, rfl⟩

theorem settles_count (lasting : Lasting I) (counter : Counter) (i : Nat) : Settles I (· = .ok ()) (count counter i) :=
  settles_modify fun m kept => lasting m _ kept

theorem settles_counted (lasting : Lasting I) (c : Counted Region) : Settles I (· = .ok c.value) (counted c) := by
  intro m kept
  obtain ⟨d, ran⟩ := counted_run c m
  exact ⟨_, _, ran, lasting m d kept, rfl⟩

theorem settles_deciding (lasting : Lasting I) (settles : Settles I P x) : Settles I P (deciding x) := by
  intro m kept
  obtain ⟨result, n, ran, still, holds⟩ := settles m kept
  exact ⟨result, _, deciding_run ran, lasting n _ still, holds⟩

end Eval

namespace Evaluator

def UsesCodes (ev : Evaluator) : Prop :=
  ev.options.observability = .limited ∧ (ev.options.variant = .symbolic ∨ ev.options.variant = .symbolicFiltered)

def encodedMoves (ev : Evaluator) (task : Task) : Region :=
  if ev.options.variant = .symbolicFiltered then ev.winners task.team task.goal else ev.sys.protocolOf task.team

def Hopeless (ev : Evaluator) (task : Task) : Prop := ev.options.variant = .symbolicFiltered ∧ (ev.encodedMoves task).isEmpty = true

instance (ev : Evaluator) (task : Task) : Decidable (ev.Hopeless task) := inferInstanceAs (Decidable (_ ∧ _))

def encodedResult (ev : Evaluator) (task : Task) : Except Error Region :=
  if ev.Hopeless task then .ok .empty
  else (Encoding.ofMoves ev.sys task.team (ev.sys.equivalenceOf task.team) (ev.encodedMoves task)).map fun e =>
    (e.winning task.goal e.unfair.value).value

-- Tasks of teams with keys of their own, which are encoded under keys that stand for one encoding each.
structure Keyed (ev : Evaluator) (teams : Team → Prop) (tasks : Task → Prop) : Prop where
  apart : KeyedApart teams
  belongs : ∀ task, tasks task → teams task.team
  named : ∀ task, tasks task → ev.sys.team task.team.names = .ok task.team
  left : ∀ task, tasks task → ev.sys.StateSet task.goal.left
  right : ∀ task, tasks task → ev.sys.StateSet task.goal.right
  encoded : ∀ task other, tasks task → tasks other → ev.encodingKey task = ev.encodingKey other →
    task.team = other.team ∧ ev.encodedMoves task = ev.encodedMoves other

end Evaluator

-- What is remembered is what would be computed again. Equivalences and encodings matter only where strategies are encoded.
structure Memory.Trusty (m : Memory) (ev : Evaluator) (teams : Team → Prop) (tasks : Task → Prop) : Prop where
  owns : ∀ u, teams u → m.Owns ev.sys u
  fair : ∀ fair ∈ m.fair, fair = ev.sys.fairStates.value
  relations : ev.UsesCodes → ∀ u, teams u → ∀ region, m.recalled.relations.lookup u.key = some region →
    region = ev.sys.equivalenceOf u
  encodings : ev.UsesCodes → ∀ task, tasks task → ∀ entry, m.encodings.lookup (ev.encodingKey task) = some entry →
    ¬ ev.Hopeless task ∧ entry.Encodes ev.sys task.team (ev.encodedMoves task)

namespace Memory.Trusty

variable {m n : Memory} {ev : Evaluator} {teams : Team → Prop} {tasks : Task → Prop} {t : Team}

theorem empty (ev : Evaluator) (teams : Team → Prop) (tasks : Task → Prop) : ({} : Memory).Trusty ev teams tasks :=
  ⟨fun u _ => Memory.empty_owns ev.sys u, by simp, by simp, by simp⟩

theorem lasting : Lasting fun m => m.Trusty ev teams tasks := fun _ _ trusty =>
  ⟨fun u known => ⟨(trusty.owns u known).protocol, (trusty.owns u known).unfair, (trusty.owns u known).fair⟩, trusty.fair,
    trusty.relations, trusty.encodings⟩

theorem learned (trusty : m.Trusty ev teams tasks) (apart : KeyedApart teams) (known : teams t) :
    (m.learned ev.sys t).Trusty ev teams tasks := by
  obtain ⟨owns, fair, -⟩ := Evaluator.owns_learned apart known trusty.owns
  refine ⟨owns, fair ▸ trusty.fair, ?_, ?_⟩ <;> unfold Memory.learned <;> split
  · exact trusty.relations
  · exact trusty.relations
  · exact trusty.encodings
  · exact trusty.encodings

end Memory.Trusty

namespace Evaluator

open Eval

variable {ev : Evaluator} {teams : Team → Prop} {tasks : Task → Prop} {task : Task} {t : Team}

def TrustyPair (ev : Evaluator) (teams : Team → Prop) (tasks : Task → Prop) (m n : Memory) : Prop :=
  m.Trusty ev teams tasks ∧ n.Trusty ev teams tasks

theorem trusty_linked (ev : Evaluator) (teams : Team → Prop) (tasks : Task → Prop) : ev.sys.Linked (ev.TrustyPair teams tasks) where
  counts _ _ _ _ related := ⟨.lasting _ _ related.1, .lasting _ _ related.2⟩
  fair _ _ _ _ related := by
    have known : ∀ {m : Memory} (c : Counters), m.Trusty ev teams tasks →
        ({ m with counters := c, fair := some ev.sys.fairStates.value } : Memory).Trusty ev teams tasks := fun _ trusty =>
      ⟨fun u known => ⟨(trusty.owns u known).protocol, (trusty.owns u known).unfair, (trusty.owns u known).fair⟩, by simp,
        trusty.relations, trusty.encodings⟩
    exact ⟨known _ related.1, known _ related.2⟩
  left _ _ related := related.1.fair
  right _ _ related := related.2.fair

section

variable (keyed : ev.Keyed teams tasks)

include keyed

theorem protocol_settles (known : teams t) (named : ev.sys.team t.names = .ok t) :
    Settles (·.Trusty ev teams tasks) (· = .ok (ev.sys.protocolOf t)) (Eval.protocol ev.sys t) := by
  intro m trusty
  obtain ⟨region, n, ran, rfl, rfl⟩ := ends_protocol (m := m) named
  exact ⟨_, _, ran, trusty.learned keyed.apart known, congrArg _ (trusty.owns t known).protocol.protocol_for⟩

variable (codes : ev.UsesCodes)

include codes

theorem equivalence_settles (known : teams t) (named : ev.sys.team t.names = .ok t) :
    Settles (·.Trusty ev teams tasks) (· = .ok (ev.sys.equivalenceOf t)) (Eval.equivalence ev.sys t) := by
  intro m trusty
  have asked : ∃ relations, m.recalled.equivalence ev.sys t.names = .ok (ev.sys.equivalenceOf t, { m.recalled with relations }) ∧
      ∀ u, teams u → ∀ region, relations.lookup u.key = some region → region = ev.sys.equivalenceOf u := by
    unfold Recall.equivalence
    cases found : m.recalled.relations.lookup (teamKey t.names) with
    | some region =>
        refine ⟨m.recalled.relations, ?_, trusty.relations codes⟩
        rw [trusty.relations codes t known region found]
    | none =>
        refine ⟨(t.key, ev.sys.equivalenceOf t) :: m.recalled.relations, ?_, Memory.Keeps.lookup_cons
          (P := fun u region => region = ev.sys.equivalenceOf u) keyed.apart known rfl (trusty.relations codes)⟩
        simp only [named]
        rfl
  obtain ⟨relations, done, own⟩ := asked
  refine ⟨.ok (ev.sys.equivalenceOf t), { m with recalled := { m.recalled with relations } }, ?_, ?_, rfl⟩
  · have ran : (Eval.ofExcept (m.recalled.equivalence ev.sys t.names)).run m =
        (.ok (ev.sys.equivalenceOf t, { m.recalled with relations }), m) := by
      rw [done]
      rfl
    exact run_bind ran
  · exact ⟨fun u listed => ⟨(trusty.owns u listed).protocol, (trusty.owns u listed).unfair, (trusty.owns u listed).fair⟩, trusty.fair,
      fun _ => own, trusty.encodings⟩

variable (listed : tasks task)

include listed

theorem remember_settles {entry : EncodingEntry} (hope : ¬ ev.Hopeless task) (encodes : entry.Encodes ev.sys task.team (ev.encodedMoves task))
    (keep : List (String × EncodingEntry) → List (String × EncodingEntry))
    (others : ∀ entries key, key ≠ ev.encodingKey task → (keep entries).lookup key = entries.lookup key) :
    Settles (·.Trusty ev teams tasks) (· = .ok ())
      (modify fun m : Memory => { m with encodings := (ev.encodingKey task, entry) :: keep m.encodings }) := by
  refine settles_modify fun m trusty => ⟨fun u known => ?_, trusty.fair, trusty.relations, fun _ other listedToo found there => ?_⟩
  · exact ⟨(trusty.owns u known).protocol, (trusty.owns u known).unfair, (trusty.owns u known).fair⟩
  · rw [List.lookup_cons] at there
    by_cases same : ev.encodingKey other = ev.encodingKey task
    · obtain ⟨team, moves⟩ := keyed.encoded other task listedToo listed same
      simp only [same, beq_self_eq_true, Option.some.injEq] at there
      rw [← there, team, moves]
      refine ⟨fun hopeless => hope ⟨hopeless.1, ?_⟩, encodes⟩
      exact moves ▸ hopeless.2
    · have different : (ev.encodingKey other == ev.encodingKey task) = false := by simpa using same
      rw [different] at there
      exact trusty.encodings codes other listedToo found ((others _ _ same).symm.trans there)

inductive Encoded (ev : Evaluator) (task : Task) : Except Error (Option EncodingEntry) → Prop where
  | nothing (hopeless : ev.Hopeless task) : Encoded ev task (.ok none)
  | failure {e : Error} (hope : ¬ ev.Hopeless task)
      (fails : Encoding.ofMoves ev.sys task.team (ev.sys.equivalenceOf task.team) (ev.encodedMoves task) = .error e) :
      Encoded ev task (.error e)
  | entry {entry : EncodingEntry} (hope : ¬ ev.Hopeless task) (encodes : entry.Encodes ev.sys task.team (ev.encodedMoves task)) :
      Encoded ev task (.ok (some entry))

theorem encode_as_settles (hope : ¬ ev.Hopeless task) :
    Settles (·.Trusty ev teams tasks) (ev.Encoded task) (ev.encodeAs (ev.encodingKey task) task.team (ev.encodedMoves task)) := by
  have lasting := @Memory.Trusty.lasting ev teams tasks
  unfold encodeAs
  refine settles_get fun m before => settles_after (equivalence_settles keyed codes (keyed.belongs _ listed) (keyed.named _ listed)) ?_
  cases encoded : Encoding.ofMoves ev.sys task.team (ev.sys.equivalenceOf task.team) (ev.encodedMoves task) with
  | error e =>
      have back : Settles (·.Trusty ev teams tasks) (· = .ok ()) (set m : Eval Unit) := fun _ _ => ⟨.ok (), m, rfl, before, rfl⟩
      exact settles_after back (settles_throw (.failure hope encoded))
  | ok encoding =>
      have encodes : EncodingEntry.Encodes ⟨encoding, none⟩ ev.sys task.team (ev.encodedMoves task) := ⟨encoded, nofun⟩
      refine settles_after (settles_count lasting _ _) (settles_after (settles_count lasting _ _) ?_)
      exact settles_after (remember_settles keyed codes listed hope encodes id fun _ _ _ => rfl) (settles_pure (.entry hope encodes))

theorem encoding_for_settles : Settles (·.Trusty ev teams tasks) (ev.Encoded task) (ev.encodingFor task) := by
  have lasting := @Memory.Trusty.lasting ev teams tasks
  rw [encoding_for_eq]
  refine settles_get fun m trusty => ?_
  cases found : m.encodings.lookup (ev.encodingKey task) with
  | some entry =>
      obtain ⟨hope, encodes⟩ := trusty.encodings codes task listed entry found
      exact settles_pure (.entry hope encodes)
  | none =>
      have encode := encode_as_settles keyed codes listed
      refine settles_after (protocol_settles keyed (keyed.belongs _ listed) (keyed.named _ listed)) ?_
      by_cases filtered : ev.options.variant = .symbolicFiltered
      · have moves : ev.encodedMoves task = ev.winners task.team task.goal := if_pos filtered
        rw [if_pos filtered]
        refine settles_after (settles_counted lasting _) ?_
        change Settles _ _ (if (ev.winners task.team task.goal).isEmpty = true then _ else
          ev.encodeAs _ _ (ev.winners task.team task.goal))
        rw [← moves]
        split
        · exact settles_pure (.nothing ⟨filtered, ‹_›⟩)
        · exact encode fun hopeless => ‹¬ _› hopeless.2
      · have moves : ev.encodedMoves task = ev.sys.protocolOf task.team := if_neg filtered
        rw [if_neg filtered, ← moves]
        exact encode fun hopeless => filtered hopeless.1

theorem encoded_unfair_settles (hope : ¬ ev.Hopeless task) {entry : EncodingEntry}
    (encodes : entry.Encodes ev.sys task.team (ev.encodedMoves task)) :
    Settles (·.Trusty ev teams tasks) (· = .ok entry.encoding.unfair.value) (encodedUnfair (ev.encodingKey task) entry) := by
  unfold encodedUnfair
  cases found : entry.unfair with
  | some unfair => exact settles_pure (congrArg _ (encodes.unfair unfair found))
  | none =>
      have known : EncodingEntry.Encodes { entry with unfair := some entry.encoding.unfair.value } ev.sys task.team (ev.encodedMoves task) :=
        ⟨encodes.encoding, fun _ same => (Option.some.inj same).symm⟩
      have remembers := remember_settles keyed codes listed hope known _ fun _ _ different => lookup_filter_ne different
      exact settles_after (settles_counted .lasting _) (settles_after remembers (settles_pure rfl))

theorem symbolic_settles : Settles (·.Trusty ev teams tasks) (· = ev.encodedResult task) (ev.symbolic task) := by
  have asked := encoding_for_settles keyed codes listed
  unfold symbolic encodedResult
  by_cases hopeless : ev.Hopeless task
  · rw [if_pos hopeless]
    refine settles_bind asked (fun e encoded => ?_) fun found encoded => ?_
    · cases encoded
      contradiction
    · cases encoded with
      | nothing => exact settles_pure rfl
      | entry hope => contradiction
  · rw [if_neg hopeless]
    cases made : Encoding.ofMoves ev.sys task.team (ev.sys.equivalenceOf task.team) (ev.encodedMoves task) with
    | error e =>
        refine settles_bind asked (fun other encoded => ?_) fun found encoded => ?_
        · cases encoded with
          | failure _ fails => exact congrArg Except.error (Except.error.inj (fails.symm.trans made))
        · cases encoded with
          | nothing => contradiction
          | entry _ encodes => simp [encodes.encoding] at made
    | ok encoding =>
        refine settles_bind asked (fun other encoded => ?_) fun found encoded => ?_
        · cases encoded with
          | failure _ fails => simp [fails] at made
        · cases encoded with
          | nothing => contradiction
          | entry hope encodes =>
              rename_i entry
              obtain rfl : entry.encoding = encoding := by simpa [encodes.encoding] using made
              exact settles_after (encoded_unfair_settles keyed codes listed hope encodes) (settles_counted .lasting _)

end

section

variable (wf : ev.sys.WellFormed) (keyed : ev.Keyed teams tasks) (listed : tasks task)

include wf keyed listed

omit wf in
theorem decide_coded (codes : ev.UsesCodes) : Settles (·.Trusty ev teams tasks) (· = ev.encodedResult task) (ev.decide task) := by
  have symbolic : ev.decide task = Eval.deciding (ev.symbolic task) := by
    unfold Evaluator.decide
    rw [if_neg (by simp [codes.1])]
    obtain variant | variant := codes.2 <;> rw [variant]
  exact symbolic ▸ settles_deciding .lasting (symbolic_settles keyed codes listed)

theorem decide_solution (codes : ¬ ev.UsesCodes) :
    Settles (·.Trusty ev teams tasks) (· = .ok (ev.solution task.team task.ability task.goal)) (ev.decide task) := by
  obtain ⟨formula, ability, t, goal⟩ := task
  have finds : ev.options.observability = .limited → ev.options.variant.Enumerates ∨ ev.options.variant = .onRequest := by
    intro limited
    have others : ¬ (ev.options.variant = .symbolic ∨ ev.options.variant = .symbolicFiltered) := fun variant => codes ⟨limited, variant⟩
    unfold Variant.Enumerates
    cases variant : ev.options.variant <;> simp_all
  intro m trusty
  obtain ⟨r, n, ran, rfl, owns, fair, -⟩ := decide_serves wf (keyed.named _ listed) (keyed.left _ listed) (keyed.right _ listed) ability
    finds formula keyed.apart (keyed.belongs _ listed) trusty.owns
  exact ⟨_, n, ran, ⟨owns, fair ▸ trusty.fair, fun uses => absurd uses codes, fun uses => absurd uses codes⟩, rfl⟩

theorem decide_settles : ∃ result, Settles (·.Trusty ev teams tasks) (· = result) (ev.decide task) := by
  by_cases codes : ev.UsesCodes
  · exact ⟨_, decide_coded keyed listed codes⟩
  · exact ⟨_, decide_solution wf keyed listed codes⟩

theorem decide_repeats :
    ev.Agree (ev.TrustyPair teams tasks) (ev.decide task) (ev.decide task) := by
  obtain ⟨result, settles⟩ := decide_settles wf keyed listed
  intro m n ⟨here, there⟩
  obtain ⟨_, k, ran, kept, rfl⟩ := settles m here
  obtain ⟨_, l, ranToo, keptToo, rfl⟩ := settles n there
  obtain ⟨_, j, fresh, _, rfl⟩ := settles {} (.empty ev teams tasks)
  have keeps : ev.Keeps (fun _ => True) ev.sys.StateSet (ev.decide task) :=
    keeps_decide wf trivial (keyed.named _ listed) (keyed.left _ listed) (keyed.right _ listed) task.formula task.ability
  exact ⟨_, k, l, ran, ranToo, ⟨kept, keptToo⟩, fun r same => (Keeps.run keeps (Memory.empty_kept _ _)).2 r j (same ▸ fresh)⟩

end

def Fresh (ev : Evaluator) (f : Formula) (r : Region) : Prop := ((ev.everywhere f).run {}).1 = .ok r

-- The tasks that come up when some formulas are evaluated, with goals that are evaluated from an empty memory.
def Arising (ev : Evaluator) (fs : List Formula) (task : Task) : Prop :=
  (∃ f ∈ fs, task.formula ∈ f.decided ev.usesDual) ∧ ev.Sets ev.Fresh task

def Teams (ev : Evaluator) (fs : List Formula) (t : Team) : Prop := ∃ f ∈ fs, ∃ names ∈ f.coalitions, ev.sys.teamOf names = .ok t

theorem arising_keyed {fs : List Formula} (apart : KeyedApart (ev.Teams fs))
    (texts : ev.options.variant = .symbolicFiltered → ∀ f ∈ fs, ∀ g ∈ fs, ∀ p ∈ f.decided ev.usesDual, ∀ q ∈ g.decided ev.usesDual,
      p.text = q.text → p = q) : ev.Keyed (ev.Teams fs) (ev.Arising fs) := by
  have belongs : ∀ task, ev.Arising fs task → ev.Teams fs task.team := by
    rintro task ⟨⟨f, listed, decides⟩, sets⟩
    obtain ⟨aim, aims, -, -, found, -⟩ := sets.aims
    exact ⟨f, listed, aim.names, Formula.decided_coalitions decides aims, found⟩
  refine ⟨apart, belongs, fun task arises => ?_, fun _ arises => arises.2.left, fun _ arises => arises.2.right, ?_⟩
  · obtain ⟨aim, -, -, -, found, -⟩ := arises.2.aims
    exact (ev.sys.team_of_spec aim.names task.team found).2
  · rintro ⟨p, ability, t, kind, left, right⟩ ⟨q, abilityToo, u, kindToo, leftToo, rightToo⟩ arises arisesToo same
    by_cases filtered : ev.options.variant = .symbolicFiltered
    · -- equal texts are those of one formula, which sets one task
      obtain ⟨⟨f, listed, decides⟩, sets⟩ := id arises
      obtain ⟨⟨g, listedToo, decidesToo⟩, setsToo⟩ := id arisesToo
      obtain ⟨aim, aims, rfl, rfl, found, first, second⟩ := sets.aims
      obtain ⟨aimToo, aimsToo, rfl, rfl, foundToo, firstToo, secondToo⟩ := setsToo.aims
      unfold encodingKey at same
      rw [if_pos filtered, if_pos filtered] at same
      obtain rfl : p = q := texts filtered f listed g listedToo p decides q decidesToo same
      obtain rfl : aim = aimToo := Option.some.inj (aims.symm.trans aimsToo)
      obtain rfl : t = u := Except.ok.inj (found.symm.trans foundToo)
      obtain rfl : left = leftToo := Except.ok.inj (first.symm.trans firstToo)
      obtain rfl : right = rightToo := Except.ok.inj (second.symm.trans secondToo)
      exact ⟨rfl, rfl⟩
    · have plain : ∀ task, ev.encodedMoves task = ev.sys.protocolOf task.team := fun _ => if_neg filtered
      unfold encodingKey at same
      rw [if_neg filtered, if_neg filtered] at same
      have team := apart t u (belongs _ arises) (belongs _ arisesToo) same
      exact ⟨team, by rw [plain, plain, team]⟩

section

variable (wf : ev.sys.WellFormed) (everywhere : ev.options.variant ≠ .onRequest) {fs : List Formula}
  (keyed : ev.Keyed (ev.Teams fs) (ev.Arising fs)) {f : Formula} (listed : f ∈ fs)

include wf keyed

theorem everywhere_repeats {g : Formula} (inner : ∀ p ∈ g.decided ev.usesDual, ∃ f ∈ fs, p ∈ f.decided ev.usesDual) :
    Matches (ev.TrustyPair (ev.Teams fs) (ev.Arising fs)) (fun r => ev.sys.StateSet r ∧ ev.Fresh g r) (ev.everywhere g)
      (ev.everywhere g) := by
  have linked := trusty_linked ev (ev.Teams fs) (ev.Arising fs)
  have empty := Memory.Trusty.empty ev (ev.Teams fs) (ev.Arising fs)
  have valued : ev.Valued ev.sys.fairness (ev.TrustyPair (ev.Teams fs) (ev.Arising fs)) ev.Fresh := by
    intro g P alike m n ⟨here, there⟩
    obtain ⟨result, k, l, ran, ranToo, related, holds⟩ := alike m n ⟨here, there⟩
    obtain ⟨_, _, _, again, fresh, -⟩ := alike m {} ⟨here, empty⟩
    refine ⟨result, k, l, ran, ranToo, related, fun a same => ⟨holds a same, ?_⟩⟩
    have whole : ((ev.everywhere g).run {}).1 = result := by
      have first := congrArg Prod.fst fresh
      rw [ran] at again
      exact first.trans (congrArg Prod.fst again).symm
    exact whole.trans same
  have twins : ev.sys.Twins ev.sys.fairness (ev.TrustyPair (ev.Teams fs) (ev.Arising fs)) := ⟨wf, linked, fun _ _ => rfl⟩
  exact valued g _ (matches_everywhere valued twins g fun p decides task same sets =>
    decide_repeats wf keyed ⟨inner task.formula (same ▸ decides), sets⟩)

include everywhere listed

theorem satisfying_repeats : ev.Agree (ev.TrustyPair (ev.Teams fs) (ev.Arising fs)) (ev.satisfying f) (ev.satisfying f) := by
  have whole := everywhere_repeats wf keyed fun p decides => ⟨f, listed, decides⟩
  unfold satisfying onAll
  rw [if_neg everywhere]
  exact matches_ite (fun _ => matches_throw _) fun _ => whole.mono fun _ => And.left

omit listed in
theorem after_trusty {earlier : List Formula} (before : earlier ⊆ fs) :
    (ev.after (earlier.map .all)).Trusty ev (ev.Teams fs) (ev.Arising fs) := by
  refine after_keeps (I := fun m => m.Trusty ev (ev.Teams fs) (ev.Arising fs)) (.empty ev _ _) fun q listed m trusty => ?_
  obtain ⟨g, inside, rfl⟩ := List.mem_map.mp listed
  obtain ⟨_, k, _, ran, _, related, _⟩ := satisfying_repeats wf everywhere keyed (before inside) m m ⟨trusty, trusty⟩
  rw [show Question.leaves ev m (.all g) = k from congrArg Prod.snd ran]
  exact related.1

end

/-- On all states every formula has the result that it has without earlier questions, if every key of a coalition stands for one team and,
when moves are filtered before they are encoded, every text of a formula that is decided for one formula. -/
theorem answers_repeat {d : Description} (built : d.build = .ok ev.sys) (everywhere : ev.options.variant ≠ .onRequest) {fs : List Formula}
    (apart : KeyedApart (ev.Teams fs))
    (texts : ev.options.variant = .symbolicFiltered → ∀ f ∈ fs, ∀ g ∈ fs, ∀ p ∈ f.decided ev.usesDual, ∀ q ∈ g.decided ev.usesDual,
      p.text = q.text → p = q) {earlier : List Formula} (before : earlier ⊆ fs) {f : Formula} (listed : f ∈ fs) :
    ((ev.satisfying f).run (ev.after (earlier.map .all))).1 = ((ev.satisfying f).run {}).1 := by
  have wf := d.build_well_formed _ built
  have keyed := arising_keyed apart texts
  have trusty := after_trusty wf everywhere keyed before
  obtain ⟨_, _, _, ran, fresh, -⟩ := satisfying_repeats wf everywhere keyed listed _ {} ⟨trusty, .empty ev _ _⟩
  exact (congrArg Prod.fst ran).trans (congrArg Prod.fst fresh).symm

theorem answers_repeat_lamp : ∃ ev : Evaluator, lamp.build = .ok ev.sys ∧ ev.options.variant = .symbolicFiltered ∧
    (∃ t, ev.Teams [lampQuestion, .not lampQuestion] t) ∧
    ((ev.satisfying (.not lampQuestion)).run (ev.after [.all lampQuestion])).1 = ((ev.satisfying (.not lampQuestion)).run {}).1 := by
  obtain ⟨sys, t, built, _, named, _⟩ := lamp_lively
  let ev : Evaluator := ⟨sys, { variant := .symbolicFiltered }, false⟩
  have only : ∀ u, ev.Teams [lampQuestion, .not lampQuestion] u → u = t := by
    rintro u ⟨f, listed, names, coalition, found⟩
    have own : names = ["hand"] := by
      obtain rfl | rfl : f = lampQuestion ∨ f = .not lampQuestion := by simpa using listed
      · exact List.mem_singleton.mp coalition
      · exact List.mem_singleton.mp coalition
    rw [own, named] at found
    exact (Except.ok.inj found).symm
  have decides : ∀ f ∈ [lampQuestion, .not lampQuestion], ∀ p ∈ f.decided ev.usesDual, p = lampQuestion := by
    intro f listed p decides
    obtain rfl | rfl : f = lampQuestion ∨ f = .not lampQuestion := by simpa using listed
    · exact List.mem_singleton.mp decides
    · exact List.mem_singleton.mp decides
  have repeats := @answers_repeat ev lamp built (by simp [ev]) [lampQuestion, .not lampQuestion]
    (fun u w here there _ => (only u here).trans (only w there).symm)
    (fun _ f inF g inG p ofF q ofG _ => (decides f inF p ofF).trans (decides g inG q ofG).symm) [lampQuestion] (by simp)
    (.not lampQuestion) (by simp)
  exact ⟨ev, built, rfl, ⟨t, lampQuestion, List.mem_cons_self, ["hand"], List.mem_singleton_self _, named⟩, repeats⟩

end Evaluator

end Coalition
