import Coalition.Proofs.Evaluation.Meets
import Coalition.Proofs.Evaluation.Narrow
import Coalition.Proofs.Evaluation.Turns

-- Whatever some strategy wins is won in the end, since starting over leaves fewer states.

set_option autoImplicit false

namespace Coalition

-- A goal with the operands of another cut down to some states, each of them at least if it is exact.
structure Goal.CutTo (goal : Goal) (sys : System) (exactLeft exactRight : Prop) (states : Region) (cut : Goal) : Prop where
  kind : cut.kind = goal.kind
  leftKnown : sys.StateSet cut.left
  rightKnown : sys.StateSet cut.right
  none : goal.kind = .next → cut.left = .empty
  left : exactLeft → goal.kind ≠ .next → cut.left = goal.left.inter states
  right : exactRight → cut.right = goal.right.inter states

-- Operands that tell which of the requested states belong to the operands of a goal.
structure Operands.Tell (o : Operands) (sys : System) (goal : Goal) (I : Memory → Prop) (must exactLeft exactRight : Prop) : Prop where
  kind : o.kind = goal.kind
  left : goal.kind ≠ .next → Eval.Tells sys I must exactLeft o.left goal.left
  right : Eval.Tells sys I must exactRight o.right goal.right
  leftKnown : sys.StateSet goal.left
  rightKnown : sys.StateSet goal.right

theorem Operands.Tell.on {o : Operands} {sys : System} {goal : Goal} {I : Memory → Prop} {must exactLeft exactRight : Prop}
    (tell : o.Tell sys goal I must exactLeft exactRight) {states : Region} (known : sys.StateSet states) :
    Eval.Meets I must (o.on states) (goal.CutTo sys exactLeft exactRight states) := by
  have rest : ∀ left, sys.StateSet left → (goal.kind = .next → left = .empty) →
      (exactLeft → goal.kind ≠ .next → left = goal.left.inter states) → Eval.Meets I must (do
        let right ← o.right states
        return (⟨o.kind, left, right⟩ : Goal)) (goal.CutTo sys exactLeft exactRight states) := by
    intro left leftKnown none own
    refine Eval.meets_bind (tell.right states known) fun right found => Eval.meets_pure ?_
    exact ⟨tell.kind, leftKnown, found.1, none, own, found.2⟩
  unfold Operands.on
  dsimp only
  split
  · rename_i next
    exact rest .empty (.empty _) (fun _ => rfl) fun _ other => absurd (tell.kind.symm.trans next) other
  · rename_i other
    have until_ : goal.kind ≠ .next := fun next => other (tell.kind.trans next)
    exact Eval.meets_bind (tell.left until_ states known) fun left found =>
      rest left found.1 (fun next => absurd next until_) fun ex _ => found.2 ex

namespace Search

structure Plays (s : Search) : Prop where
  system : s.ev.sys.WellFormed
  team : s.team.Of s.ev.sys
  played : s.ev.sys.PlayedSet s.protocol

structure Poses (s : Search) (goal : Goal) (I : Memory → Prop) (must exactLeft exactRight : Prop) : Prop where
  system : s.ev.sys.WellFormed
  team : s.team.Of s.ev.sys
  protocol : s.protocol = s.ev.sys.protocolOf s.team
  operands : s.operands.Tell s.ev.sys goal I must exactLeft exactRight
  lasting : Lasting I
  reduces : must → s.ev.options.early = .threshold → s.ev.options.threshold.Reduces
  group : s.ev.options.semantics = .group

variable {s : Search} {goal : Goal} {I : Memory → Prop} {must exactLeft exactRight : Prop}

theorem Poses.plays (poses : s.Poses goal I must exactLeft exactRight) : s.Plays :=
  ⟨poses.system, poses.team, poses.protocol ▸ poses.system.protocol_played poses.team⟩

-- The states on which the operands matter for a strategy.
def asked (s : Search) (goal : Goal) (strategy source : Region) : Region :=
  if goal.kind = .next then s.ev.sys.post (source.inter strategy) else strategy.hide s.ev.sys.inputBits

def Found (s : Search) (goal : Goal) (exactLeft exactRight : Prop) (strategy source : Region) (won : Set Valuation) : Prop :=
  ∃ cut, goal.CutTo s.ev.sys exactLeft exactRight (s.asked goal strategy source) cut ∧
    won = s.ev.sys.won s.team s.protocol cut strategy.members

def Won (s : Search) (goal : Goal) : Set Valuation :=
  {ρ | s.ev.sys.Winnable .group s.team (s.ev.sys.protocolOf s.team) goal (s.ev.sys.protocolOf s.team).members (s.ev.sys.stateOf ρ)}

def WonBy (s : Search) (goal : Goal) (exactLeft exactRight : Prop) (source strategy : Region) : Set Valuation :=
  {ρ | ∀ won, s.Found goal exactLeft exactRight strategy source won → s.ev.sys.Sure .group s.team won (s.ev.sys.stateOf ρ)}

def Sound (s : Search) (goal : Goal) (exactLeft exactRight : Prop) (bound : Set Valuation) : Prop :=
  ∀ U source won ρ, (s.splitter).Partial s.protocol U → s.ev.sys.StateSet source → s.Found goal exactLeft exactRight U source won →
    s.ev.sys.Sure .group s.team won (s.ev.sys.stateOf ρ) → ρ ∈ bound

theorem close_state_set (wf : s.ev.sys.WellFormed) {states : Region} (known : s.ev.sys.StateSet states) :
    s.ev.sys.StateSet (s.close states) := by
  have near : ∀ w : Team, s.ev.sys.StateSet ((s.ev.sys.equivalents w states).inter s.ev.sys.reachable) := fun w =>
    (System.equivalents_state_set known.moves).inter wf.reachable_state_set.reads
  unfold close closeStates
  cases s.ev.options.semantics with
  | group => exact near s.team
  | individual =>
      have all : ∀ (members : List Team) (r : Region), s.ev.sys.StateSet r → s.ev.sys.StateSet (members.foldl
          (fun r agent => r.union ((s.ev.sys.equivalents agent states).inter s.ev.sys.reachable)) r) := by
        intro members
        induction members with
        | nil => exact fun r inside => inside
        | cons agent rest ih => exact fun r inside => ih _ (inside.union (near agent))
      exact all s.team.singles states known

section

variable (wf : s.ev.sys.WellFormed) (group : s.ev.options.semantics = .group)

include wf group

variable (of : s.team.Of s.ev.sys) {states : Region} (known : s.ev.sys.StateSet states) {ρ : Valuation}

include of known

theorem mem_close : ρ ∈ (s.close states).members ↔ ρ ∈ s.ev.sys.reachable.members ∧ ∃ σ ∈ states.members, s.team.Same σ ρ := by
  unfold close closeStates
  rw [group]
  exact (s.splitter).mem_class wf of known.moves known.inside

theorem subset_close (here : ρ ∈ states.members) (reached : ρ ∈ s.ev.sys.reachable.members) : ρ ∈ (s.close states).members :=
  (mem_close wf group of known).mpr ⟨reached, ρ, here, .refl _ ρ⟩

theorem close_spread {σ : Valuation} (here : ρ ∈ (s.close states).members) (reached : σ ∈ s.ev.sys.reachable.members)
    (same : s.team.Same ρ σ) : σ ∈ (s.close states).members := by
  obtain ⟨_, τ, member, looks⟩ := (mem_close wf group of known).mp here
  exact (mem_close wf group of known).mpr ⟨reached, τ, member, looks.trans same⟩

end

-- States whose classes the search looks at; with one choice for the whole team these are the reachable ones of a class.
def Confined (s : Search) (states : Region) : Prop := s.ev.options.semantics = .group → states.members ⊆ s.ev.sys.reachable.members

theorem Confined.subset_close {states : Region} (confined : s.Confined states) (wf : s.ev.sys.WellFormed) (of : s.team.Of s.ev.sys)
    (known : s.ev.sys.StateSet states) : states.members ⊆ (s.close states).members := by
  cases semantics : s.ev.options.semantics with
  | group => exact fun ρ here => Search.subset_close wf semantics of known here (confined semantics here)
  | individual =>
      have grows : ∀ (members : List Team) (r : Region), r.members ⊆ (members.foldl
          (fun r agent => r.union ((s.ev.sys.equivalents agent states).inter s.ev.sys.reachable)) r).members := by
        intro members
        induction members with
        | nil => exact fun r => Set.Subset.refl _
        | cons agent rest ih => exact fun r => (Region.members_union _ _ ▸ Set.subset_union_left).trans (ih _)
      unfold close closeStates
      rw [semantics]
      exact grows s.team.singles states

-- Where the search starts, and the moves it stays within.
structure Ground (s : Search) (D moves : Region) : Prop where
  known : s.ev.sys.StateSet D
  reached : D.members ⊆ s.ev.sys.reachable.members
  spread : ∀ ρ ∈ D.members, ∀ σ ∈ s.ev.sys.reachable.members, s.team.Same ρ σ → σ ∈ D.members
  inside : moves.members ⊆ s.protocol.members
  reads : moves.Reads s.ev.sys.moveBit

-- The states of a set are won by some strategy, whenever they remain, and by some moves of interest.
structure Catches (s : Search) (goal : Goal) (exactLeft exactRight : Prop) (D moves : Region) (sure : Set Valuation) : Prop where
  listed : ∀ remaining, s.ev.sys.StateSet remaining → remaining.members ⊆ D.members → ∀ ρ ∈ remaining.members, ρ ∈ sure →
    ∃ U ∈ (s.strategies (s.close remaining) moves).items, ρ ∈ s.WonBy goal exactLeft exactRight (s.close remaining) U
  possible : ∀ ρ ∈ D.members, ρ ∈ sure → s.ev.sys.Sure .group s.team moves.members (s.ev.sys.stateOf ρ)

structure Tried (s : Search) (goal : Goal) (must exactLeft exactRight : Prop) (bound : Set Valuation) (round closed first : Region)
    (items : List Region) (remaining won : Region) (p : Progress) : Prop where
  remainingKnown : s.ev.sys.StateSet p.remaining
  wonKnown : s.ev.sys.StateSet p.won
  fewer : p.remaining.members ⊆ remaining.members
  more : won.members ⊆ p.won.members
  within : p.won.members ⊆ won.members ∪ round.members
  covered : round.members ⊆ p.remaining.members ∪ p.won.members
  sound : p.won.members ⊆ won.members ∪ bound
  progress : must → p.stopped = true → p.remaining ≠ first
  complete : p.stopped = false → ∀ U ∈ items, ∀ ρ ∈ round.members, ρ ∈ s.WonBy goal exactLeft exactRight closed U → ρ ∈ p.won.members

-- The states that are won after some have been, within a bound, and the sure ones of `wanted` among them.
structure Gains (s : Search) (bound sure : Set Valuation) (wanted won after : Region) : Prop where
  known : s.ev.sys.StateSet after
  more : won.members ⊆ after.members
  within : after.members ⊆ won.members ∪ wanted.members
  sound : after.members ⊆ won.members ∪ bound
  complete : ∀ ρ ∈ wanted.members, ρ ∈ sure → ρ ∈ after.members

theorem Found.narrows (wf : s.ev.sys.WellFormed) {strategy source : Region} {won : Set Valuation} (exactly : exactLeft)
    (exactlyToo : exactRight) (reads : strategy.Reads s.ev.sys.moveBit) (known : s.ev.sys.StateSet source)
    (found : s.Found goal exactLeft exactRight strategy source won) : ∃ narrow,
      s.ev.sys.Narrows goal narrow source.members strategy.members ∧ won = s.ev.sys.won s.team s.protocol narrow strategy.members := by
  obtain ⟨g, cut, rfl⟩ := found
  unfold asked at cut
  have left := cut.left exactly
  have right := cut.right exactlyToo
  refine ⟨g, ⟨cut.kind, ?_, ?_, cut.leftKnown, cut.rightKnown, fun until_ ρ member => ?_, fun next τ trans member from_ there => ?_⟩, rfl⟩
  · by_cases next : goal.kind = .next
    · rw [cut.none next, Region.members_empty]
      exact Set.empty_subset _
    · rw [left next]
      exact Region.inter_subset_left _ _
  · rw [right]
    exact Region.inter_subset_left _ _
  · have here : ρ ∈ (if goal.kind = .next then s.ev.sys.post (source.inter strategy)
        else strategy.hide s.ev.sys.inputBits).members := by
      rw [if_neg until_]
      exact Region.hide_subset _ _ member
    rw [left until_, right, Region.members_inter, Region.members_inter]
    exact ⟨fun there => ⟨there, here⟩, fun there => ⟨there, here⟩⟩
  · rw [right, Region.members_inter]
    refine ⟨there, ?_⟩
    rw [if_pos next, wf.mem_post (known.moves.inter reads)]
    refine ⟨τ, trans, ?_, (Frame.state_of_next wf.laid τ).symm⟩
    rw [Region.members_inter]
    exact ⟨from_, member⟩

section

variable (poses : s.Poses goal I must exactLeft exactRight)

include poses

theorem winning_meets {strategy source : Region} (inside : strategy.members ⊆ s.protocol.members)
    (reads : strategy.Reads s.ev.sys.moveBit) (known : s.ev.sys.StateSet source) : Eval.Meets I must (s.winning strategy source) fun r =>
      s.ev.sys.PlayedSet r ∧ r.members ⊆ s.protocol.members ∧ s.Found goal exactLeft exactRight strategy source r.members := by
  unfold winning
  rw [poses.operands.kind]
  have states : s.ev.sys.StateSet (s.asked goal strategy source) := asked_state_set poses.system (poses.plays.played.sub inside reads) known _
  refine Eval.meets_bind (poses.operands.on states) fun g cut => ?_
  have posed : s.ev.Posed s.team s.protocol g := ⟨poses.system, poses.team, poses.plays.played, cut.leftKnown, cut.rightKnown⟩
  have won := (Evaluator.filtered_spec posed inside reads).2
  exact Eval.meets_counted poses.lasting ⟨Evaluator.filtered_played posed inside reads, won.le.trans System.won_protocol, g, cut, won⟩

omit poses in
theorem reach_until_spec {sys : System} (wf : sys.WellFormed) {all : Region} (known : sys.StateSet all) (some : all.members.Nonempty)
    (fuel : Nat) {reached : Region} (reachedKnown : sys.StateSet reached) :
    sys.StateSet (reachUntil sys all fuel reached) ∧ ((reachUntil sys all fuel reached).inter all).members.Nonempty := by
  have whole : sys.StateSet all ∧ (all.inter all).members.Nonempty := by
    rw [Region.members_inter, Set.inter_self]
    exact ⟨known, some⟩
  induction fuel generalizing reached with
  | zero => exact whole
  | succ fuel ih =>
      unfold reachUntil
      dsimp only
      split
      · rename_i meets
        rw [Region.members_inter]
        exact ⟨reachedKnown, Region.meets_members.mp meets⟩
      · split
        · exact whole
        · exact ih (reachedKnown.union (wf.post_state_set reachedKnown.moves))

omit poses in
theorem separate_spec (wf : s.ev.sys.WellFormed) (of : s.team.Of s.ev.sys) {all : Region} (known : s.ev.sys.StateSet all)
    (confined : s.Confined all) (some : all.members.Nonempty) : ∃ round, s.separate all = .ok round ∧ s.ev.sys.StateSet round ∧
      round.members ⊆ all.members ∧ round.members.Nonempty := by
  have picked : ∀ near : Region, s.ev.sys.StateSet near → near.members ⊆ all.members → near.members.Nonempty → ∃ round,
      (do let state ← s.splitter.pickState near; return (s.close state).inter all) = Except.ok round ∧ s.ev.sys.StateSet round ∧
        round.members ⊆ all.members ∧ round.members.Nonempty := by
    intro near nearKnown le nonempty
    have same : s.ev.sys.statesOf near = near := nearKnown.states_of wf.laid
    obtain ⟨σ, inside, c, found, reads, cell⟩ := (s.splitter).pick_state_of (same.symm ▸ nonempty)
    change σ ∈ (s.ev.sys.statesOf near).members at inside
    rw [same] at inside
    have within : c.members ⊆ near.members := fun ρ member => (Frame.mem_of_state nearKnown.reads ((cell ρ).mp member)).mpr inside
    have stateKnown : s.ev.sys.StateSet c := ⟨within.trans nearKnown.inside, reads⟩
    have kept : s.Confined c := fun group => within.trans (le.trans (confined group))
    refine ⟨(s.close c).inter all, by rw [found]; rfl, (close_state_set wf stateKnown).inter known.reads, ?_, σ, ?_⟩
    · rw [Region.members_inter]
      exact Set.inter_subset_right
    · rw [Region.members_inter]
      exact ⟨kept.subset_close wf of stateKnown ((cell σ).mpr rfl), le inside⟩
  unfold separate
  cases s.ev.options.separation with
  | none => exact ⟨all, rfl, known, Set.Subset.refl _, some⟩
  | random => exact picked all known (Set.Subset.refl _) some
  | reach =>
      obtain ⟨near, meets⟩ := reach_until_spec wf known some _ wf.init
      refine picked _ (near.inter known.reads) ?_ meets
      rw [Region.members_inter]
      exact Set.inter_subset_right

omit poses in
theorem starts_spec (plays : s.Plays) {closed moves : Region} (known : s.ev.sys.StateSet closed)
    (inside : moves.members ⊆ s.protocol.members) (reads : moves.Reads s.ev.sys.moveBit) :
    Parts s.ev.sys (s.team.viewers s.ev.options.semantics) ∅ (closed.inter moves).members ((s.splitter).split (closed.inter moves) .empty) ∧
      ∀ start ∈ ((s.splitter).split (closed.inter moves) .empty).items, (s.splitter).Partial s.protocol start ∧
        (s.splitter).Extensions s.protocol start ((s.splitter).extend s.protocol start moves) := by
  have startInside : (closed.inter moves).members ⊆ s.protocol.members := (Region.inter_subset_right _ _).trans inside
  have parts := @Splitter.split_free_spec s.splitter _ plays.system plays.team (plays.played.sub startInside (known.moves.inter reads))
  refine ⟨parts, fun start listed => ?_⟩
  have agreeing := parts.agreeing start listed
  rw [Set.union_empty] at agreeing
  have partly : (s.splitter).Partial s.protocol start := ⟨(parts.inside start listed).trans startInside, parts.reads start listed, agreeing⟩
  exact ⟨partly, Splitter.extend_spec plays.system plays.team plays.played reads partly⟩

omit poses in
theorem mem_strategies (plays : s.Plays) {closed moves : Region} (known : s.ev.sys.StateSet closed)
    (inside : moves.members ⊆ s.protocol.members) (reads : moves.Reads s.ev.sys.moveBit) :
    (s.strategies closed moves).error? = none ∧ ∀ U, U ∈ (s.strategies closed moves).items ↔
      ∃ start ∈ ((s.splitter).split (closed.inter moves) .empty).items, U ∈ ((s.splitter).extend s.protocol start moves).items := by
  obtain ⟨parts, each⟩ := starts_spec plays known inside reads
  obtain ⟨ends, items⟩ := Enumeration.bind_spec parts.ends fun start listed => (each start listed).2.ends
  refine ⟨ends, fun U => ?_⟩
  unfold strategies
  rw [items]
  exact List.mem_flatMap

omit poses in
theorem strategies_partial (plays : s.Plays) {closed moves : Region} (known : s.ev.sys.StateSet closed)
    (inside : moves.members ⊆ s.protocol.members) (reads : moves.Reads s.ev.sys.moveBit) :
    (s.strategies closed moves).error? = none ∧ ∀ U ∈ (s.strategies closed moves).items, (s.splitter).Partial s.protocol U := by
  obtain ⟨ends, items⟩ := mem_strategies plays known inside reads
  refine ⟨ends, fun U listed => ?_⟩
  obtain ⟨start, started, member⟩ := (items U).mp listed
  exact ((starts_spec plays known inside reads).2 start started).2.each U member

section

variable {bound : Set Valuation} (sound : s.Sound goal exactLeft exactRight bound)

include sound

theorem gains_of_winning {round closed U won moves : Region} (roundKnown : s.ev.sys.StateSet round) (wonKnown : s.ev.sys.StateSet won)
    (closedKnown : s.ev.sys.StateSet closed) (start : (s.splitter).Partial s.protocol U) (played : s.ev.sys.PlayedSet moves)
    (found : s.Found goal exactLeft exactRight U closed moves.members) :
    s.Gains bound (s.WonBy goal exactLeft exactRight closed U) round won
      (won.union (((s.splitter).surelyWinning (moves.hide s.ev.sys.inputBits)).inter round)) := by
  have surely : ∀ ρ, ρ ∈ ((s.splitter).surelyWinning (moves.hide s.ev.sys.inputBits)).members ↔
      s.ev.sys.Sure .group s.team moves.members (s.ev.sys.stateOf ρ) := by
    intro ρ
    rw [← poses.group]
    exact (s.splitter).surely_winning_members poses.system poses.team played
  refine ⟨now_state_set poses.system wonKnown roundKnown played, ?_, ?_, ?_, fun ρ inside wins => ?_⟩ <;>
    rw [Region.members_union, Region.members_inter]
  · exact Set.subset_union_left
  · exact Set.union_subset_union_right _ Set.inter_subset_right
  · exact Set.union_subset_union_right _ fun ρ member => sound U closed _ ρ start closedKnown found ((surely ρ).mp member.1)
  · exact .inr ⟨(surely ρ).mpr (wins _ found), inside⟩

omit poses sound in
theorem Tried.cons {round closed first U remaining rest won now : Region} {items : List Region} {p : Progress}
    (gains : s.Gains bound (s.WonBy goal exactLeft exactRight closed U) round won now) (fewer : rest.members ⊆ remaining.members)
    (tried : s.Tried goal must exactLeft exactRight bound round closed first items rest now p) :
    s.Tried goal must exactLeft exactRight bound round closed first (U :: items) remaining won p := by
  refine ⟨tried.remainingKnown, tried.wonKnown, tried.fewer.trans fewer, gains.more.trans tried.more, ?_, tried.covered, ?_,
    tried.progress, fun going V listed ρ inside wins => ?_⟩
  · exact tried.within.trans (Set.union_subset gains.within Set.subset_union_right)
  · exact tried.sound.trans (Set.union_subset gains.sound Set.subset_union_right)
  · obtain rfl | later := List.mem_cons.mp listed
    · exact tried.more (gains.complete ρ inside wins)
    · exact tried.complete going V later ρ inside wins

omit sound in
theorem stop_spec {round closed first remaining rest won now : Region} {items : List Region} {sure : Set Valuation}
    (gains : s.Gains bound sure round won now) (known : s.ev.sys.StateSet rest) (fewer : rest.members ⊆ remaining.members)
    (covered : round.members ⊆ rest.members ∪ now.members) (different : must → rest ≠ first) : Eval.Meets I must (stop rest now)
      (s.Tried goal must exactLeft exactRight bound round closed first items remaining won) := by
  refine Eval.meets_bind (Eval.meets_count poses.lasting _ _) fun _ _ => Eval.meets_pure ?_
  refine ⟨known, gains.known, fewer, gains.more, gains.within, covered, gains.sound, fun needed _ => different needed, fun going => ?_⟩
  cases going

theorem try_all_spec {round closed first : Region} (roundKnown : s.ev.sys.StateSet round) (closedKnown : s.ev.sys.StateSet closed)
    (firstKnown : s.ev.sys.StateSet first) (some : first.members.Nonempty) (e : Enumeration Region) (ends : e.error? = none)
    (each : ∀ U ∈ e.items, (s.splitter).Partial s.protocol U) {remaining won : Region} (remainingKnown : s.ev.sys.StateSet remaining)
    (wonKnown : s.ev.sys.StateSet won) (le : remaining.members ⊆ first.members)
    (covered : round.members ⊆ remaining.members ∪ won.members) :
    Eval.Meets I must (s.tryAll round closed (s.ev.sys.countStates first) e remaining won)
      (s.Tried goal must exactLeft exactRight bound round closed first e.items remaining won) := by
  induction e generalizing remaining won with
  | fail error => cases ends
  | done =>
      refine Eval.meets_pure ⟨remainingKnown, wonKnown, Set.Subset.refl _, Set.Subset.refl _, Set.subset_union_left, covered,
        Set.subset_union_left, fun _ stopped => ?_, fun _ U listed => ?_⟩
      · cases stopped
      · cases listed
  | item U tail ih =>
      rw [try_all_item]
      refine Eval.meets_bind (Eval.meets_count poses.lasting _ _) fun _ _ => ?_
      have start := each U (List.mem_cons_self ..)
      refine Eval.meets_bind (winning_meets poses start.inside start.reads closedKnown) fun moves found => ?_
      have gains := gains_of_winning poses sound roundKnown wonKnown closedKnown start found.1 found.2.2
      dsimp only
      generalize won.union (((s.splitter).surelyWinning (moves.hide s.ev.sys.inputBits)).inter round) = now at *
      have fits := turn_fits poses.system remainingKnown gains.known firstKnown some le covered gains.more gains.within
      generalize s.turn round (s.ev.sys.countStates first) remaining won now = turn at fits ⊢
      cases turn with
      | on rest =>
          have later := ih () ends (fun V listed => each V (List.mem_cons_of_mem _ listed)) fits.known gains.known (fits.fewer.trans le) fits.covered
          exact later.mono fun p tried => tried.cons gains fits.fewer
      | stop rest =>
          obtain ⟨remains, different⟩ := fits
          exact stop_spec poses gains remains.known remains.fewer remains.covered fun needed => different fun mode => .inl (poses.reduces needed mode)
      | fail => exact Eval.meets_throw fun needed => fits.2 (poses.reduces needed fits.1)

variable {sure : Set Valuation} {D moves : Region} (ground : s.Ground D moves) (catches : s.Catches goal exactLeft exactRight D moves sure)

include ground catches

theorem win_round_spec {round : Region} (roundKnown : s.ev.sys.StateSet round) (fuel : Nat)
    {remaining won : Region} (known : s.ev.sys.StateSet remaining) (wonKnown : s.ev.sys.StateSet won)
    (le : remaining.members ⊆ D.members) (covered : round.members ⊆ remaining.members ∪ won.members)
    (enough : must → remaining.weight s.ev.sys.stateBits.toFinset < fuel) :
    Eval.Meets I must (s.winRound moves round fuel remaining won) (s.Gains bound sure round won) := by
  induction fuel generalizing remaining won with
  | zero => exact Eval.meets_throw fun needed => Nat.not_lt_zero _ (enough needed)
  | succ fuel ih =>
      unfold winRound
      split
      · rename_i none
        have nothing : remaining.members = ∅ := Region.is_empty_members.mp none
        refine Eval.meets_pure ⟨wonKnown, Set.Subset.refl _, Set.subset_union_left, Set.subset_union_left, fun ρ inside _ => ?_⟩
        have either := covered inside
        rwa [nothing, Set.empty_union] at either
      · rename_i some
        have nonempty : remaining.members.Nonempty := Region.not_empty_members.mp (Bool.eq_false_iff.mpr some)
        have closedKnown := close_state_set poses.system known
        obtain ⟨ends, each⟩ := strategies_partial poses.plays closedKnown ground.inside ground.reads
        refine Eval.meets_bind (try_all_spec poses sound roundKnown closedKnown known nonempty _ ends each known wonKnown
          (Set.Subset.refl _) covered) fun p tried => ?_
        split
        · rename_i stopped
          refine (ih tried.remainingKnown tried.wonKnown (tried.fewer.trans le) tried.covered fun needed => ?_).mono fun r gains => ?_
          · have less := Region.weight_strict known.reads_bits tried.fewer (tried.progress needed stopped)
              tried.remainingKnown.reads_bits
            have bound := enough needed
            omega
          · refine ⟨gains.known, tried.more.trans gains.more, ?_, ?_, gains.complete⟩
            · exact gains.within.trans (Set.union_subset tried.within Set.subset_union_right)
            · exact gains.sound.trans (Set.union_subset tried.sound Set.subset_union_right)
        · rename_i going
          refine Eval.meets_pure ⟨tried.wonKnown, tried.more, tried.within, tried.sound, fun ρ inside wins => ?_⟩
          obtain remains | before := covered inside
          · obtain ⟨U, listed, wonBy⟩ := catches.listed remaining known le ρ remains wins
            exact tried.complete (Bool.eq_false_iff.mpr going) U listed ρ inside wonBy
          · exact tried.more before

theorem win_all_spec (fuel : Nat) {all won : Region}
    (known : s.ev.sys.StateSet all) (wonKnown : s.ev.sys.StateSet won) (le : all.members ⊆ D.members)
    (enough : must → all.weight s.ev.sys.stateBits.toFinset < fuel) :
    Eval.Meets I must (s.winAll moves fuel all won) (s.Gains bound sure all won) := by
  induction fuel generalizing all won with
  | zero => exact Eval.meets_throw fun needed => Nat.not_lt_zero _ (enough needed)
  | succ fuel ih =>
      unfold winAll
      split
      · rename_i none
        have nothing : all.members = ∅ := Region.is_empty_members.mp none
        refine Eval.meets_pure ⟨wonKnown, Set.Subset.refl _, Set.subset_union_left, Set.subset_union_left, fun ρ inside _ => ?_⟩
        exact absurd (nothing ▸ inside) (Set.notMem_empty ρ)
      · rename_i some
        have nonempty : all.members.Nonempty := Region.not_empty_members.mp (Bool.eq_false_iff.mpr some)
        obtain ⟨round, separated, roundKnown, inside, σ, here⟩ := separate_spec poses.system poses.team known
          (fun _ => le.trans ground.reached) nonempty
        rw [separated]
        refine Eval.meets_bind (Eval.meets_of_ok round) fun _ same => ?_
        subst same
        refine Eval.meets_bind (win_round_spec poses sound ground catches roundKnown _ roundKnown wonKnown (inside.trans le) Set.subset_union_left
          fun _ => Frame.weight_less _ round) fun after gains => ?_
        have behind := behind_round known roundKnown gains.known inside ⟨σ, here⟩
        refine (ih behind.known gains.known (behind.fewer.trans le) fun needed => ?_).mono fun r later => ?_
        · exact Nat.lt_of_lt_of_le behind.less (Nat.le_of_lt_succ (enough needed))
        · refine ⟨later.known, gains.more.trans later.more, ?_, ?_, fun ρ wanted wins => ?_⟩
          · exact later.within.trans (Set.union_subset (gains.within.trans (Set.union_subset_union_right _ inside))
              (behind.fewer.trans Set.subset_union_right))
          · exact later.sound.trans (Set.union_subset gains.sound Set.subset_union_right)
          · by_cases now : ρ ∈ round.members
            · exact later.more (gains.complete ρ now wins)
            · by_cases before : ρ ∈ after.members
              · exact later.more before
              · exact later.complete ρ (behind.members ▸ ⟨⟨wanted, now⟩, before⟩) wins

end

section

variable {bound sure : Set Valuation} {D : Region} (known : s.ev.sys.StateSet D) (reached : D.members ⊆ s.ev.sys.reachable.members)
  (spread : ∀ ρ ∈ D.members, ∀ σ ∈ s.ev.sys.reachable.members, s.team.Same ρ σ → σ ∈ D.members)

include known reached spread

theorem run_meets (sound : s.Sound goal exactLeft exactRight bound) (catches : ∀ moves, s.Ground D moves → moves = s.protocol ∨
      s.Found goal exactLeft exactRight (s.protocol.inter (s.ev.sys.reachFrom D)) D moves.members →
        s.Catches goal exactLeft exactRight D moves sure) :
    Eval.Meets I must (s.run D) fun r => s.ev.sys.StateSet r ∧ r.members ⊆ D.members ∩ bound ∧ D.members ∩ sure ⊆ r.members := by
  have wf := poses.system
  have played := poses.plays.played
  have search : ∀ moves, s.ev.sys.PlayedSet moves → s.Ground D moves → s.Catches goal exactLeft exactRight D moves sure →
      Eval.Meets I must (s.winAll moves (Nat.pow 2 s.ev.sys.stateBits.length + 1)
        (D.inter ((s.splitter).surelyWinning (moves.hide s.ev.sys.inputBits))) .empty)
      fun r => s.ev.sys.StateSet r ∧ r.members ⊆ D.members ∩ bound ∧ D.members ∩ sure ⊆ r.members := by
    intro moves movesPlayed ground catches
    have possible : s.ev.sys.StateSet ((s.splitter).surelyWinning (moves.hide s.ev.sys.inputBits)) :=
      (s.splitter).surely_winning_state_set wf movesPlayed
    refine (win_all_spec poses sound ground catches _ (known.inter possible.reads) (.empty _) (Region.inter_subset_left _ _)
      fun _ => s.ev.sys.weight_less _).mono fun r gains => ⟨gains.known, ?_, fun ρ both => ?_⟩
    · have within := gains.within
      have inside := gains.sound
      rw [Region.members_empty, Set.empty_union] at within inside
      exact Set.subset_inter (within.trans (Region.inter_subset_left _ _)) inside
    · refine gains.complete ρ ?_ both.2
      rw [Region.members_inter]
      refine ⟨both.1, ((s.splitter).surely_winning_members wf poses.team movesPlayed).mpr ?_⟩
      change s.ev.sys.Sure s.ev.options.semantics s.team moves.members (s.ev.sys.stateOf ρ)
      rw [poses.group]
      exact catches.possible ρ both.1 both.2
  unfold run
  dsimp only
  split
  · obtain ⟨ledKnown, _⟩ := wf.reach_from_spec known.moves
    have inside : (s.protocol.inter (s.ev.sys.reachFrom D)).members ⊆ s.protocol.members := Region.inter_subset_left _ _
    have reads : (s.protocol.inter (s.ev.sys.reachFrom D)).Reads s.ev.sys.moveBit := played.reads.inter ledKnown.moves
    refine Eval.meets_bind (winning_meets poses inside reads known) fun moves found => ?_
    have ground : s.Ground D moves := ⟨known, reached, spread, found.2.1, found.1.reads⟩
    exact search moves found.1 ground (catches moves ground (.inr found.2.2))
  · have whole : Eval.Meets I must (pure s.protocol) fun moves => moves = s.protocol := Eval.meets_pure rfl
    refine Eval.meets_bind whole fun moves same => ?_
    subst same
    have ground : s.Ground D s.protocol := ⟨known, reached, spread, Set.Subset.refl _, played.reads⟩
    exact search s.protocol played ground (catches s.protocol ground (.inl rfl))

end

omit poses in
theorem sound_won (poses : s.Poses goal I must exactLeft exactRight) (exactly : exactLeft) (exactlyToo : exactRight) :
    s.Sound goal exactLeft exactRight (s.Won goal) := by
  intro U source won ρ start known found sure
  obtain ⟨narrow, narrows, rfl⟩ := found.narrows poses.system exactly exactlyToo start.reads known
  have viewers : s.team.viewers .group = s.team.viewers s.ev.options.semantics := by rw [poses.group]
  rw [poses.protocol] at sure
  exact ⟨U.members, poses.protocol ▸ start.inside, viewers ▸ start.agreeing, sure.mono (narrows.won_subset _)⟩

section

variable {closed moves : Region} {α : Policy} (known : s.ev.sys.StateSet closed)
  (spread : ∀ ρ ∈ closed.members, ∀ σ ∈ s.ev.sys.reachable.members, s.team.Same ρ σ → σ ∈ closed.members)
  (uniform : s.ev.sys.Uniform .group s.team α)

include known spread uniform

-- The moves of a policy that leaves out no state guide the extension of strategies.
theorem policy_guides (complete : ∀ ρ ∈ (s.ev.sys.protocolOf s.team).members, ∃ σ ∈ s.ev.sys.following .group s.team α,
      s.ev.sys.stateOf σ = s.ev.sys.stateOf ρ) :
    (s.splitter).Guides s.protocol.members closed.members (s.ev.sys.following .group s.team α) where
  inside σ follows := poses.protocol ▸ follows.1
  agreeing := by
    change Agreeing (s.team.viewers s.ev.options.semantics) _
    rw [poses.group]
    exact poses.system.following_agrees poses.team uniform
  complete σ inside := complete σ (poses.protocol ▸ inside)
  spread w viewer σ near τ inside same := by
    change w ∈ s.team.viewers s.ev.options.semantics at viewer
    rw [poses.group] at viewer
    exact spread σ near τ (poses.plays.played.reached inside) (List.mem_singleton.mp viewer ▸ same)
  states σ τ state near := (Frame.mem_of_state known.reads state.symm).mpr near

omit known in
theorem policy_tracks {start : Region} (inside : start.members ⊆ closed.members) (partly : (s.splitter).Partial s.protocol start) :
    (s.splitter).Tracks closed.members (s.ev.sys.following .group s.team α) start.members := by
  have agreeing : Agreeing (s.team.viewers s.ev.options.semantics) (s.ev.sys.following .group s.team α) := by
    rw [poses.group]
    exact poses.system.following_agrees poses.team uniform
  refine ⟨Agreeing.union partly.agreeing (agreeing.mono Set.sdiff_subset) fun w viewer σ near τ far same => ?_,
    fun σ near far => absurd (inside near) far⟩
  change w ∈ s.team.viewers s.ev.options.semantics at viewer
  rw [poses.group] at viewer
  exact far.2 (spread σ (inside near) τ (poses.system.protocol_inside poses.team far.1.1).2 (List.mem_singleton.mp viewer ▸ same))

-- One of the strategies follows the policy, with all its moves of interest in the states that the search looks at.
theorem strategy_of_policy (within : moves.members ⊆ s.protocol.members) (reads : moves.Reads s.ev.sys.moveBit)
    (complete : ∀ ρ ∈ (s.ev.sys.protocolOf s.team).members, ∃ σ ∈ s.ev.sys.following .group s.team α,
      s.ev.sys.stateOf σ = s.ev.sys.stateOf ρ) :
    ∃ U ∈ (s.strategies closed moves).items, s.ev.sys.following .group s.team α ∩ (closed.inter moves).members ⊆ U.members ∧
      (s.splitter).Tracks closed.members (s.ev.sys.following .group s.team α) U.members ∧
      ∀ σ ∈ s.ev.sys.following .group s.team α, σ ∉ closed.members → σ ∉ ((s.splitter).freshStates U moves).members := by
  have guides := policy_guides poses known spread uniform complete
  obtain ⟨parts, each⟩ := starts_spec poses.plays known within reads
  obtain ⟨start, started, taken⟩ := parts.complete (s.ev.sys.following .group s.team α ∩ (closed.inter moves).members)
    Set.inter_subset_right (by rw [Set.union_empty]; exact guides.agreeing.mono Set.inter_subset_left)
  obtain ⟨partly, extensions⟩ := each start started
  have inside : start.members ⊆ closed.members := (parts.inside start started).trans (Region.inter_subset_left _ _)
  obtain ⟨U, listed, tracked, stops⟩ := Splitter.extend_follows poses.system poses.team poses.plays.played reads guides partly
    (policy_tracks poses spread uniform inside partly)
  exact ⟨U, ((mem_strategies poses.plays known within reads).2 U).mpr ⟨start, started, listed⟩, taken.trans (extensions.above U listed),
    tracked, stops⟩

end

-- What can be won from the remaining states is won by one of the strategies.
theorem catches_won (alike : s.ev.sys.SameActions s.team) (exactly : exactLeft) (exactlyToo : exactRight) {D moves : Region}
    (ground : s.Ground D moves) (offers : s.ev.sys.Offers s.team goal D.members moves.members) :
    s.Catches goal exactLeft exactRight D moves (s.Won goal) := by
  have wf := poses.system
  constructor
  · intro remaining known le ρ member wins
    have closedKnown := close_state_set wf known
    have here := subset_close wf poses.group poses.team known member (ground.reached (le member))
    have spread := fun ρ here σ => close_spread (ρ := ρ) (σ := σ) wf poses.group poses.team known here
    have within : (s.close remaining).members ⊆ D.members := by
      intro ρ member
      obtain ⟨reached, σ, inside, same⟩ := (mem_close wf poses.group poses.team known).mp member
      exact ground.spread σ (le inside) ρ reached same
    obtain ⟨α, uniform, complete, sure⟩ := wf.exists_complete_policy poses.team alike wins
    obtain ⟨N, follows, offered, determined, winning, best⟩ := offers α uniform
    obtain ⟨U, listed, taken, tracked, stops⟩ :=
      strategy_of_policy poses closedKnown spread uniform ground.inside ground.reads complete
    have reads := ((strategies_partial poses.plays closedKnown ground.inside ground.reads).2 U listed).reads
    refine ⟨U, listed, fun _ found => ?_⟩
    obtain ⟨narrow, narrows, rfl⟩ := found.narrows wf exactly exactlyToo reads closedKnown
    rw [poses.protocol]
    -- in the states that look the same, the policy wins with moves that are offered
    refine wf.sure_of_alike poses.team sure fun σ won looks => ?_
    have near := spread ρ here σ (wf.protocol_inside poses.team (System.won_subset won).1).2 looks
    refine wf.won_tracked poses.team (show s.splitter.sys = s.ev.sys from rfl) rfl ground.reads reads closedKnown.reads
      poses.operands.rightKnown.reads follows offered determined winning (fun τ offers' near' => taken ⟨follows offers', ?_⟩) tracked
      stops narrows (best σ won (within near)) near
    rw [Region.members_inter]
    exact ⟨near', offered offers'⟩
  · intro ρ here wins
    obtain ⟨α, uniform, _, sure⟩ := wf.exists_complete_policy poses.team alike wins
    obtain ⟨N, _, offered, _, _, best⟩ := offers α uniform
    refine wf.sure_of_alike poses.team sure fun σ won looks => offered (best σ won ?_)
    exact ground.spread ρ here σ (wf.protocol_inside poses.team (System.won_subset won).1).2 looks

theorem run_spec (alike : exactLeft → exactRight → s.ev.sys.SameActions s.team) {D : Region} (known : s.ev.sys.StateSet D)
    (reached : D.members ⊆ s.ev.sys.reachable.members)
    (spread : ∀ ρ ∈ D.members, ∀ σ ∈ s.ev.sys.reachable.members, s.team.Same ρ σ → σ ∈ D.members) :
    Eval.Meets I must (s.run D) fun r =>
      s.ev.sys.StateSet r ∧ (exactLeft → exactRight → r.members = D.members ∩ s.Won goal) := by
  have wf := poses.system
  by_cases exact_ : exactLeft ∧ exactRight
  · obtain ⟨exactly, exactlyToo⟩ := exact_
    refine (run_meets poses known reached spread (sound_won poses exactly exactlyToo) fun moves ground made =>
      catches_won poses (alike exactly exactlyToo) exactly exactlyToo ground ?_).mono fun r won =>
        ⟨won.1, fun _ _ => Set.Subset.antisymm won.2.1 won.2.2⟩
    obtain rfl | found := made
    · rw [poses.protocol]
      exact wf.offers_protocol poses.team poses.operands.leftKnown poses.operands.rightKnown D.members
    · obtain ⟨ledKnown, led⟩ := wf.reach_from_spec known.moves
      rw [known.states_of wf.laid] at led
      obtain ⟨narrow, narrows, same⟩ := found.narrows wf exactly exactlyToo (poses.plays.played.reads.inter ledKnown.moves) known
      rw [same]
      rw [Region.members_inter, poses.protocol] at narrows ⊢
      exact wf.offers_filtered poses.team poses.operands.rightKnown known led ledKnown.reads narrows
  · -- otherwise it finds some states
    have any : s.Sound goal exactLeft exactRight Set.univ := fun _ _ _ _ _ _ _ _ => trivial
    have none : ∀ moves, s.Catches goal exactLeft exactRight D moves ∅ := fun _ =>
      ⟨fun _ _ _ _ _ none => none.elim, fun _ _ none => none.elim⟩
    exact (run_meets poses known reached spread any fun moves _ _ => none moves).mono fun r won =>
      ⟨won.1, fun exactly exactlyToo => absurd ⟨exactly, exactlyToo⟩ exact_⟩

end

end Search

end Coalition
