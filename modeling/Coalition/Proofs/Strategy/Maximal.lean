import Mathlib.Algebra.BigOperators.Finprod
import Mathlib.Data.Set.Card
import Mathlib.SetTheory.Cardinal.Finite
import Coalition.Proofs.Evaluation.Strategies
import Coalition.Proofs.Strategy.Told

-- The parts that splitting lists for a team that chooses as a whole are the maximal ones, and none is listed twice.

set_option autoImplicit false

namespace Coalition

-- The moves that look and play like some of the part, to each viewer, are in the part.
def Solid (viewers : List Team) (moves S : Set Valuation) : Prop :=
  ∀ ρ ∈ moves, (∀ w ∈ viewers, ∃ σ ∈ S, w.Same σ ρ ∧ w.Plays σ ρ) → ρ ∈ S

def Reaches (viewers : List Team) (fixed moves S : Set Valuation) : Prop :=
  ∀ ρ ∈ moves, Agreeing viewers ({ρ} ∪ fixed) → ∃ σ ∈ S, ∀ w ∈ viewers, w.Same σ ρ

-- Parts of some moves that cannot be enlarged, none of them listed twice.
structure Exact (viewers : List Team) (fixed moves : Set Valuation) (parts : List Region) : Prop where
  inside : ∀ s ∈ parts, s.members ⊆ moves
  solid : ∀ s ∈ parts, Solid viewers moves s.members
  reaches : ∀ s ∈ parts, Reaches viewers fixed moves s.members
  distinct : parts.Nodup

section

variable {viewers : List Team} {fixed moves A B S T : Set Valuation} {xs ys : List Region} {s : Region}

-- A part that reaches all moves that agree cannot be enlarged.
theorem Solid.maximal (solid : Solid viewers moves S) (reaches : Reaches viewers fixed moves S) (le : S ⊆ T) (inside : T ⊆ moves)
    (agreeing : Agreeing viewers (T ∪ fixed)) : T ⊆ S := by
  intro ρ here
  have alone : Agreeing viewers ({ρ} ∪ fixed) := agreeing.mono (Set.union_subset_union_left _ (Set.singleton_subset_iff.mpr here))
  obtain ⟨σ, there, same⟩ := reaches ρ (inside here) alone
  refine solid ρ (inside here) fun w viewer => ⟨σ, there, same w viewer, ?_⟩
  exact agreeing w viewer σ (.inl (le there)) ρ (.inl here) (same w viewer)

theorem agreeing_alone (viewers : List Team) (ρ : Valuation) : Agreeing viewers {ρ} := by
  rintro w viewer σ rfl τ rfl _
  exact .refl w _

theorem Exact.reaches_all (exact_ : Exact viewers ∅ moves xs) : ∀ s ∈ xs, ∀ ρ ∈ moves, ∃ σ ∈ s.members, ∀ w ∈ viewers, w.Same σ ρ :=
  fun s listed ρ here => exact_.reaches s listed ρ here (by rw [Set.union_empty]; exact agreeing_alone viewers ρ)

theorem exact_single (same : s.members = moves) : Exact viewers fixed moves [s] := by
  subst same
  refine ⟨fun r listed => ?_, fun r listed ρ here _ => ?_, fun r listed ρ here _ => ⟨ρ, ?_, fun w _ => Team.Same.refl w ρ⟩, List.nodup_singleton s⟩
  all_goals rw [List.mem_singleton.mp listed]
  · exact here
  · exact here

theorem exact_empty (some : viewers ≠ []) (none : ∀ ρ ∈ moves, ¬ Agreeing viewers ({ρ} ∪ fixed)) :
    Exact viewers fixed moves [Region.empty] := by
  obtain ⟨w, viewer⟩ := List.exists_mem_of_ne_nil viewers some
  refine ⟨?_, ?_, ?_, List.nodup_singleton _⟩ <;> simp only [List.mem_singleton, forall_eq, Region.members_empty]
  · exact Set.empty_subset _
  · intro ρ _ like
    obtain ⟨σ, bad, _⟩ := like w viewer
    exact bad.elim
  · exact fun ρ inside agreeing => absurd agreeing (none ρ inside)

theorem nodup_combined {α β γ : Type} {xs : List α} {ys : List β} {f : α → β → γ} (first : xs.Nodup) (second : ys.Nodup)
    (injective : ∀ x ∈ xs, ∀ x' ∈ xs, ∀ y ∈ ys, ∀ y' ∈ ys, f x y = f x' y' → x = x' ∧ y = y') :
    (xs.flatMap fun x => ys.map (f x)).Nodup := by
  rw [List.nodup_flatMap]
  constructor
  · exact fun x here => second.map_on fun y there y' thereToo same => (injective x here x here y there y' thereToo same).2
  · refine List.Pairwise.imp_of_mem (fun {x x'} here hereToo different => ?_) first
    rw [Function.onFun, List.disjoint_left]
    intro z left right
    obtain ⟨y, there, rfl⟩ := List.mem_map.mp left
    obtain ⟨y', thereToo, same⟩ := List.mem_map.mp right
    exact different (injective x' hereToo x here y' thereToo y there same).1.symm

-- Parts of moves that look alike to nobody go together in every combination.
theorem Exact.combine (first : Exact viewers fixed A xs) (second : Exact viewers fixed B ys) (apart : Apart viewers A B)
    (disjoint : Disjoint A B) {f : Region → Region → Region} (union : ∀ x y, (f x y).members = x.members ∪ y.members) :
    Exact viewers fixed (A ∪ B) (xs.flatMap fun x => ys.map (f x)) := by
  have listed : ∀ s, s ∈ xs.flatMap (fun x => ys.map (f x)) ↔ ∃ x ∈ xs, ∃ y ∈ ys, f x y = s := by
    intro s
    simp only [List.mem_flatMap, List.mem_map]
  constructor
  · intro s known
    obtain ⟨x, here, y, there, rfl⟩ := (listed s).mp known
    rw [union]
    exact Set.union_subset_union (first.inside x here) (second.inside y there)
  · intro s known ρ member like
    obtain ⟨x, here, y, there, rfl⟩ := (listed s).mp known
    rw [union] at like ⊢
    obtain member | member := member
    · refine .inl (first.solid x here ρ member fun w viewer => ?_)
      obtain ⟨σ, own | other, same, plays⟩ := like w viewer
      · exact ⟨σ, own, same, plays⟩
      · exact absurd same.symm (apart w viewer ρ member σ (second.inside y there other))
    · refine .inr (second.solid y there ρ member fun w viewer => ?_)
      obtain ⟨σ, other | own, same, plays⟩ := like w viewer
      · exact absurd same (apart w viewer σ (first.inside x here other) ρ member)
      · exact ⟨σ, own, same, plays⟩
  · intro s known ρ member agreeing
    obtain ⟨x, here, y, there, rfl⟩ := (listed s).mp known
    rw [union]
    obtain member | member := member
    · exact (first.reaches x here ρ member agreeing).imp fun σ found => ⟨.inl found.1, found.2⟩
    · exact (second.reaches y there ρ member agreeing).imp fun σ found => ⟨.inr found.1, found.2⟩
  · refine nodup_combined first.distinct second.distinct fun x here x' hereToo y there y' thereToo same => ?_
    have sets : x.members ∪ y.members = x'.members ∪ y'.members := by rw [← union, ← union, same]
    have left : ∀ {x y : Region}, x ∈ xs → y ∈ ys → (x.members ∪ y.members) ∩ A = x.members := fun {x y} here there => by
      rw [Set.union_inter_distrib_right, Set.inter_eq_left.mpr (first.inside x here),
        (disjoint.symm.mono_left (second.inside y there)).inter_eq, Set.union_empty]
    have right : ∀ {x y : Region}, x ∈ xs → y ∈ ys → (x.members ∪ y.members) ∩ B = y.members := fun {x y} here there => by
      rw [Set.union_inter_distrib_right, Set.inter_eq_left.mpr (second.inside y there),
        (disjoint.mono_left (first.inside x here)).inter_eq, Set.empty_union]
    constructor
    · exact Region.members_injective (by rw [← left here there, sets, left hereToo thereToo])
    · exact Region.members_injective (by rw [← right here there, sets, right hereToo thereToo])

-- Exact parts for some viewers, each split for one more.
theorem Exact.refine {split : Region → List Region} {w : Team} (rest : Exact viewers ∅ moves xs)
    (first : ∀ part ∈ xs, Exact [w] ∅ part.members (split part)) (agreeing : ∀ part ∈ xs, Agreeing viewers part.members)
    (full : ∀ part ∈ xs, ∀ s ∈ split part, ∀ ρ ∈ moves, ∃ σ ∈ s.members, ∀ x ∈ w :: viewers, x.Same σ ρ) :
    Exact (w :: viewers) ∅ moves (xs.flatMap split) := by
  refine ⟨fun s known => ?_, fun s known ρ here like => ?_, fun s known ρ here _ => ?_, ?_⟩
  · obtain ⟨part, listed, chosen⟩ := List.mem_flatMap.mp known
    exact ((first part listed).inside s chosen).trans (rest.inside part listed)
  · obtain ⟨part, listed, chosen⟩ := List.mem_flatMap.mp known
    have inPart : ρ ∈ part.members := rest.solid part listed ρ here fun x viewer =>
      (like x (List.mem_cons_of_mem _ viewer)).imp fun σ found => ⟨(first part listed).inside s chosen found.1, found.2⟩
    exact (first part listed).solid s chosen ρ inPart fun x viewer => like x (List.mem_singleton.mp viewer ▸ List.mem_cons_self)
  · obtain ⟨part, listed, chosen⟩ := List.mem_flatMap.mp known
    exact full part listed s chosen ρ here
  · rw [List.nodup_flatMap]
    refine ⟨fun part listed => (first part listed).distinct, rest.distinct.imp_of_mem fun {part other} listed known different => ?_⟩
    have within : ∀ {part other : Region} {s : Region}, part ∈ xs → other ∈ xs → s ∈ split part → s ∈ split other →
        part.members ⊆ other.members := by
      intro part other s listed known chosen chosenToo ρ here
      have inside := rest.inside part listed here
      obtain ⟨σ, there, looks⟩ := full part listed s chosen ρ inside
      refine rest.solid other known ρ inside fun x viewer => ?_
      have same := looks x (List.mem_cons_of_mem _ viewer)
      refine ⟨σ, (first other known).inside s chosenToo there, same, ?_⟩
      exact agreeing part listed x viewer σ ((first part listed).inside s chosen there) ρ here same
    rw [Function.onFun, List.disjoint_left]
    intro s chosen chosenToo
    refine different (Region.members_injective (Set.Subset.antisymm ?_ ?_))
    · exact within listed known chosen chosenToo
    · exact within known listed chosenToo chosen

end

namespace Splitter

variable {sp : Splitter} {w : Team} {moves fixed : Region}

-- Buckets have moves, all those with their action, and no move in common.
structure Sharp (w : Team) (moves : Set Valuation) (e : Enumeration Region) : Prop where
  some : ∀ s ∈ e.items, s.members.Nonempty
  solid : ∀ s ∈ e.items, ∀ ρ ∈ s.members, ∀ σ ∈ moves, w.Plays ρ σ → σ ∈ s.members
  apart : e.items.Pairwise fun r s => Disjoint r.members s.members

theorem union_empty (s : Region) : s.union .empty = s := Region.members_injective (by simp)

theorem Sharp.nodup {M : Set Valuation} {e : Enumeration Region} (sharp : Sharp w M e) : e.items.Nodup := by
  refine sharp.apart.imp_of_mem fun {r s} here _ apart same => ?_
  obtain ⟨ρ, inside⟩ := sharp.some r here
  exact Set.disjoint_left.mp apart inside (same ▸ inside)

section

variable (wf : sp.sys.WellFormed) (of : w.Of sp.sys) (fixedPlayed : sp.sys.PlayedSet fixed) (fixedAgrees : Agreeing [w] fixed.members)

include wf of fixedPlayed fixedAgrees

theorem buckets_sharp (fuel : Nat) (played : sp.sys.PlayedSet moves)
    (alike : ∀ ρ ∈ moves.members, ∀ σ ∈ moves.members, w.Same ρ σ) (enough : sp.sys.moveCount moves < fuel) :
    Sharp w moves.members (sp.buckets w fixed fuel moves) := by
  induction fuel generalizing moves with
  | zero => omega
  | succ fuel ih =>
      cases none : moves.isEmpty with
      | true =>
          rw [buckets_of_empty fuel none]
          exact ⟨fun _ listed => absurd listed List.not_mem_nil, fun _ listed => absurd listed List.not_mem_nil, List.Pairwise.nil⟩
      | false =>
          obtain ⟨μ, member, bucket, rest, cut, step⟩ := buckets_step wf of fixedPlayed fixedAgrees fuel played
            (Region.not_empty_members.mp none) alike
          have less := cut.less
          have restAlike : ∀ ρ ∈ rest.members, ∀ σ ∈ rest.members, w.Same ρ σ :=
            fun ρ here σ there => alike ρ (cut.rest_subset here) σ (cut.rest_subset there)
          have later := ih cut.restPlayed restAlike (by omega)
          have inside := (buckets_spec wf of fixedPlayed fixedAgrees fuel cut.restPlayed restAlike (by omega)).inside
          have laterSolid : ∀ s ∈ (sp.buckets w fixed fuel rest).items, ∀ ρ ∈ s.members, ∀ σ ∈ moves.members, w.Plays ρ σ →
              σ ∈ s.members := by
            intro s listed ρ here σ there plays
            refine later.solid s listed ρ here σ ((cut.mem_rest σ).mpr ⟨there, fun own => ?_⟩) plays
            exact ((cut.mem_rest ρ).mp (inside s listed here)).2 (Team.Plays.trans own plays.symm)
          obtain ⟨-, same⟩ | ⟨-, same⟩ := step
          · rw [same]
            refine ⟨List.forall_mem_cons.mpr ⟨⟨μ, (cut.mem_here μ).mpr ⟨member, Team.Plays.refl w μ⟩⟩, later.some⟩,
              List.forall_mem_cons.mpr ⟨fun ρ here σ there plays => ?_, laterSolid⟩, List.pairwise_cons.mpr ⟨fun s listed => ?_, later.apart⟩⟩
            · exact (cut.mem_here σ).mpr ⟨there, Team.Plays.trans ((cut.mem_here ρ).mp here).2 plays⟩
            · refine Set.disjoint_left.mpr fun ρ here there => ?_
              exact ((cut.mem_rest ρ).mp (inside s listed there)).2 ((cut.mem_here ρ).mp here).2
          · rw [same]
            exact ⟨later.some, laterSolid, later.apart⟩

theorem buckets_exact (played : sp.sys.PlayedSet moves) (alike : ∀ ρ ∈ moves.members, ∀ σ ∈ moves.members, w.Same ρ σ) :
    Exact [w] fixed.members moves.members (sp.buckets w fixed sp.bound moves).items := by
  have enough : sp.sys.moveCount moves < sp.bound := System.move_count_bound sp.semantics sp.team moves
  have sharp := buckets_sharp wf of fixedPlayed fixedAgrees sp.bound played alike enough
  have inside := (buckets_spec wf of fixedPlayed fixedAgrees sp.bound played alike enough).inside
  refine ⟨inside, fun s listed ρ here like => ?_, fun s listed ρ here _ => ?_, sharp.nodup⟩
  · obtain ⟨σ, there, _, plays⟩ := like w (List.mem_singleton.mpr rfl)
    exact sharp.solid s listed σ there ρ here plays
  · obtain ⟨σ, there⟩ := sharp.some s listed
    exact ⟨σ, there, fun x viewer => List.mem_singleton.mp viewer ▸ alike σ (inside s listed there) ρ here⟩

theorem no_buckets (played : sp.sys.PlayedSet moves) (alike : ∀ ρ ∈ moves.members, ∀ σ ∈ moves.members, w.Same ρ σ)
    (none : (sp.buckets w fixed sp.bound moves).items = []) : ∀ ρ ∈ moves.members, ¬ Agreeing [w] ({ρ} ∪ fixed.members) := by
  intro ρ here agreeing
  have bucketed := buckets_spec wf of fixedPlayed fixedAgrees sp.bound played alike (System.move_count_bound sp.semantics sp.team moves)
  obtain ⟨s, listed, _⟩ := bucketed.complete {ρ} (Set.singleton_subset_iff.mpr here) ⟨ρ, rfl⟩ agreeing
  rw [none] at listed
  exact absurd listed List.not_mem_nil

theorem split_agent_exact (fuel : Nat) (played : sp.sys.PlayedSet moves) (enough : sp.sys.moveCount moves < fuel) :
    Exact [w] fixed.members moves.members (sp.splitAgent w fixed fuel moves).items := by
  induction fuel generalizing moves with
  | zero => omega
  | succ fuel ih =>
      cases none : moves.isEmpty with
      | true =>
          rw [split_agent_of_empty fuel none]
          exact exact_single rfl
      | false =>
          obtain ⟨μ, member, here, rest, cut, bucketed, ends, step⟩ := split_agent_step wf of fixedPlayed fixedAgrees fuel played
            (Region.not_empty_members.mp none) fun rest restPlayed less =>
              (split_agent_spec wf of fixedPlayed fixedAgrees fuel restPlayed (by omega)).ends
          have less := cut.less
          have later := ih cut.restPlayed (by omega)
          have alike : ∀ ρ ∈ here.members, ∀ σ ∈ here.members, w.Same ρ σ := fun ρ inside σ there =>
            Team.Same.trans (Team.Same.symm ((cut.mem_here ρ).mp inside).2) ((cut.mem_here σ).mp there).2
          have first := buckets_exact wf of fixedPlayed fixedAgrees cut.herePlayed alike
          have apart : Apart [w] here.members rest.members := fun x viewer ρ inside σ there same =>
            ((cut.mem_rest σ).mp there).2 (Team.Same.trans ((cut.mem_here ρ).mp inside).2 (List.mem_singleton.mp viewer ▸ same))
          have disjoint : Disjoint here.members rest.members := Set.disjoint_left.mpr fun ρ inside there =>
            apart w (List.mem_singleton.mpr rfl) ρ inside ρ there (Team.Same.refl w ρ)
          obtain ⟨nothing, items⟩ | ⟨-, items⟩ := step
          · have skipped := exact_empty (List.cons_ne_nil w [])
              (no_buckets wf of fixedPlayed fixedAgrees cut.herePlayed alike nothing)
            rw [items, cut.whole]
            simpa [union_empty] using skipped.combine later apart disjoint (f := fun x y => y.union x) fun x y => by
              rw [Region.members_union, Set.union_comm]
          · rw [items, cut.whole]
            exact first.combine later apart disjoint fun x y => by rw [Region.members_union, Set.union_comm]

end

section

variable (wf : sp.sys.WellFormed) (fixedPlayed : sp.sys.PlayedSet fixed) (of : sp.team.Of sp.sys)
  (fixedAgrees : Agreeing (sp.team.viewers sp.semantics) fixed.members)

include wf fixedPlayed of fixedAgrees

-- Splitting lists exact parts if it does so within every class.
theorem split_from_exact (some : sp.team.viewers sp.semantics ≠ []) (fuel : Nat) (played : sp.sys.PlayedSet moves)
    (enough : sp.sys.moveCount moves < fuel)
    (each : ∀ c : Region, sp.sys.PlayedSet c → c.members ⊆ moves.members →
      Apart (sp.team.viewers sp.semantics) c.members (moves.members \ c.members) →
      (sp.semantics = .group → ∀ ρ ∈ c.members, ∀ σ ∈ c.members, sp.team.Same ρ σ) →
      Exact (sp.team.viewers sp.semantics) fixed.members c.members (sp.splitClass fixed c).items) :
    Exact (sp.team.viewers sp.semantics) fixed.members moves.members (sp.splitFrom fixed fuel moves).items := by
  induction fuel generalizing moves with
  | zero => omega
  | succ fuel ih =>
      cases none : moves.isEmpty with
      | true =>
          rw [split_from_of_empty fuel none]
          exact exact_single rfl
      | false =>
          obtain ⟨p, parted, _, step⟩ := split_from_step wf fixedPlayed of fixedAgrees fuel played
            (Region.not_empty_members.mp none) fun rest restPlayed less =>
              (split_from_spec wf fixedPlayed of fixedAgrees fuel restPlayed (by omega)).ends
          obtain ⟨_, all, items⟩ | ⟨conflictingPlayed, restPlayed, less, items⟩ := step
          · rw [items]
            exact exact_single all
          · obtain ⟨w, viewer⟩ := List.exists_mem_of_ne_nil _ some
            have whole : (p.common.members ∪ p.rest.members) ∪ p.conflicting.members = moves.members := by
              rw [Set.union_assoc, Set.union_comm p.rest.members]
              simpa using parted.whole
            have disjoint : ∀ {A B : Set Valuation}, Apart (sp.team.viewers sp.semantics) A B → Disjoint A B := fun apart =>
              Set.disjoint_left.mpr fun ρ inside there => apart w viewer ρ inside ρ there (Team.Same.refl w ρ)
            have commonApart := parted.apart.mono (Set.Subset.refl _) Set.subset_union_right
            have classApart := (parted.apart.mono (Set.Subset.refl _) Set.subset_union_left).left_union parted.classApart.symm
            have later := ih restPlayed (by omega) fun c cPlayed inside apart alike => by
              refine each c cPlayed (inside.trans (Set.subset_union_right.trans parted.inside)) ?_ alike
              refine Apart.mono ((Apart.union (commonApart.symm.mono inside (Set.Subset.refl _)) apart).union
                (parted.classApart.symm.mono inside (Set.Subset.refl _))) (Set.Subset.refl _) fun ρ there => ?_
              obtain (common | rest) | conflicting := whole.symm.subset there.1
              · exact .inl (.inl common)
              · exact .inl (.inr ⟨rest, there.2⟩)
              · exact .inr conflicting
            have choices := each p.conflicting conflictingPlayed (Set.subset_union_left.trans parted.inside)
              (classApart.symm.mono (Set.Subset.refl _) fun ρ there => by
                obtain inside | conflicting := whole.symm.subset there.1
                · exact inside
                · exact absurd conflicting there.2) parted.alike
            have aside : Exact (sp.team.viewers sp.semantics) fixed.members p.common.members [p.common] := exact_single rfl
            have both := aside.combine later commonApart (disjoint commonApart) Region.members_union
            have total := choices.combine both classApart.symm (disjoint classApart.symm) (f := fun choice s => s.union choice)
              fun x y => by rw [Region.members_union, Set.union_comm]
            rw [items, ← whole, Set.union_comm]
            simpa [Function.comp_def] using total

theorem split_class_exact (group : sp.semantics = .group) (played : sp.sys.PlayedSet moves)
    (alike : ∀ ρ ∈ moves.members, ∀ σ ∈ moves.members, sp.team.Same ρ σ) :
    Exact (sp.team.viewers sp.semantics) fixed.members moves.members (sp.splitClass fixed moves).items := by
  rw [group] at fixedAgrees ⊢
  unfold splitClass
  rw [group]
  have exact_ := buckets_exact wf of fixedPlayed fixedAgrees played alike
  have none := no_buckets wf of fixedPlayed fixedAgrees played alike
  cases found : sp.buckets sp.team fixed sp.bound moves with
  | done => exact exact_empty (List.cons_ne_nil _ _) (none (by rw [found]; rfl))
  | fail e =>
      have ends := (buckets_spec wf of fixedPlayed fixedAgrees sp.bound played alike
        (System.move_count_bound sp.semantics sp.team moves)).ends
      rw [found] at ends
      cases ends
  | item first tail =>
      rw [found] at exact_
      exact exact_

theorem split_group_exact (group : sp.semantics = .group) (played : sp.sys.PlayedSet moves) :
    Exact (sp.team.viewers sp.semantics) fixed.members moves.members (sp.split moves fixed).items := by
  rw [split_eq_from played fixedPlayed]
  have some : sp.team.viewers sp.semantics ≠ [] := by
    rw [group]
    exact List.cons_ne_nil _ _
  exact split_from_exact wf fixedPlayed of fixedAgrees some sp.bound played (System.move_count_bound sp.semantics sp.team moves)
    fun c cPlayed _ _ alike => split_class_exact wf fixedPlayed of fixedAgrees group cPlayed (alike group)

end

-- Moves that the viewers may choose together with fixed ones, told by the actions of the team.
structure Choice (sp : Splitter) (moves fixed s : Region) : Prop where
  told : sp.sys.Told {b | b ∈ sp.team.actionBits} s
  inside : s.members ⊆ moves.members
  agreeing : Agreeing (sp.team.viewers sp.semantics) (s.members ∪ fixed.members)

structure MaximalChoice (sp : Splitter) (moves fixed s : Region) : Prop extends sp.Choice moves fixed s where
  maximal : ∀ r, sp.Choice moves fixed r → s.members ⊆ r.members → r = s

section

variable (wf : sp.sys.WellFormed) (of : sp.team.Of sp.sys) (fixedPlayed : sp.sys.PlayedSet fixed)
  (fixedAgrees : Agreeing (sp.team.viewers sp.semantics) fixed.members) (told : sp.sys.Told {b | b ∈ sp.team.actionBits} moves)

include wf of fixedPlayed fixedAgrees told

theorem split_choices : ∀ s ∈ (sp.split moves fixed).items, sp.Choice moves fixed s := by
  intro s listed
  have parts := split_spec wf fixedPlayed of fixedAgrees told.played
  have actions : {b | b ∈ sp.team.actionBits} ⊆ sp.sys.inputBit := fun b acts => wf.action_bit of acts
  exact ⟨split_told wf actions (fun b acts => acts) of told s listed, parts.inside s listed, parts.agreeing s listed⟩

theorem maximal_choice_listed {s : Region} (choice : sp.MaximalChoice moves fixed s) : s ∈ (sp.split moves fixed).items := by
  have parts := split_spec wf fixedPlayed of fixedAgrees told.played
  obtain ⟨r, listed, le⟩ := parts.complete s.members choice.inside choice.agreeing
  have same := choice.maximal r (split_choices wf of fixedPlayed fixedAgrees told r listed) le
  exact same ▸ listed

theorem exact_maximal (exact_ : Exact (sp.team.viewers sp.semantics) fixed.members moves.members (sp.split moves fixed).items)
    (s : Region) : s ∈ (sp.split moves fixed).items ↔ sp.MaximalChoice moves fixed s := by
  constructor
  · intro listed
    refine ⟨split_choices wf of fixedPlayed fixedAgrees told s listed, fun r choice le => ?_⟩
    have back := (exact_.solid s listed).maximal (exact_.reaches s listed) le choice.inside choice.agreeing
    exact Region.members_injective (Set.Subset.antisymm back le)
  · exact maximal_choice_listed wf of fixedPlayed fixedAgrees told

end

end Splitter

namespace Team

variable {t : Team} {M C : Set Valuation}

def classes (t : Team) (M : Set Valuation) : Set (Set Valuation) := (fun μ => {ρ ∈ M | t.Same μ ρ}) '' M

def choices (t : Team) (M : Set Valuation) : Set (Set Valuation) := (fun μ => {ρ ∈ M | t.Plays μ ρ}) '' M

theorem finite_classes (t : Team) (M : Set Valuation) : (t.classes M).Finite := by
  let seen : List Nat := t.members.flatMap fun a => a.observed.flatMap (·.bits)
  let extend : (seen.toFinset → Bool) → Valuation := fun bits b => if inside : b ∈ seen.toFinset then bits ⟨b, inside⟩ else false
  refine (Set.finite_range fun bits => {ρ ∈ M | t.Same (extend bits) ρ}).subset ?_
  rintro _ ⟨μ, _, rfl⟩
  refine ⟨fun b => μ b, ?_⟩
  have like : t.Same (extend fun b => μ b) μ := by
    intro a member v observed b bit
    have inside : b ∈ seen.toFinset :=
      List.mem_toFinset.mpr (List.mem_flatMap.mpr ⟨a, member, List.mem_flatMap.mpr ⟨v, observed, bit⟩⟩)
    simp only [extend, dif_pos inside]
  ext ρ
  exact and_congr_right fun _ => ⟨fun same => like.symm.trans same, fun same => like.trans same⟩

theorem class_alike (class_ : C ∈ t.classes M) {ρ σ : Valuation} (here : ρ ∈ C) (there : σ ∈ C) : t.Same ρ σ := by
  obtain ⟨μ, _, rfl⟩ := class_
  exact here.2.symm.trans there.2

theorem class_closed (class_ : C ∈ t.classes M) {ρ σ : Valuation} (here : ρ ∈ C) (there : σ ∈ M) (same : t.Same ρ σ) : σ ∈ C := by
  obtain ⟨μ, _, rfl⟩ := class_
  exact ⟨there, here.2.trans same⟩

theorem class_of_mem {ρ : Valuation} (here : ρ ∈ M) : ∃ C ∈ t.classes M, ρ ∈ C := ⟨_, ⟨ρ, here, rfl⟩, here, .refl t ρ⟩

theorem class_subset (class_ : C ∈ t.classes M) : C ⊆ M := by
  obtain ⟨μ, _, rfl⟩ := class_
  exact fun ρ here => here.1

theorem class_nonempty (class_ : C ∈ t.classes M) : C.Nonempty := by
  obtain ⟨μ, member, rfl⟩ := class_
  exact ⟨μ, member, .refl t μ⟩

end Team

section

variable {t : Team} {M C : Set Valuation} {parts : List Region}

theorem Exact.chooses (exact_ : Exact [t] ∅ M parts) {s : Region} (listed : s ∈ parts) (agreeing : Agreeing [t] s.members)
    (class_ : C ∈ t.classes M) : s.members ∩ C ∈ t.choices C := by
  obtain ⟨μ, member⟩ := Team.class_nonempty class_
  obtain ⟨σ, chosen, like⟩ := exact_.reaches_all s listed μ (Team.class_subset class_ member)
  have same := like t (List.mem_singleton.mpr rfl)
  have inside := Team.class_closed class_ member (exact_.inside s listed chosen) same.symm
  refine ⟨σ, inside, Set.ext fun ρ => ⟨fun ⟨here, plays⟩ => ⟨?_, here⟩, fun ⟨here, there⟩ => ⟨there, ?_⟩⟩⟩
  · refine exact_.solid s listed ρ (Team.class_subset class_ here) fun w viewer => ?_
    exact ⟨σ, chosen, List.mem_singleton.mp viewer ▸ Team.class_alike class_ inside here, List.mem_singleton.mp viewer ▸ plays⟩
  · exact agreeing t (List.mem_singleton.mpr rfl) σ chosen ρ here (Team.class_alike class_ inside there)

-- There are as many exact parts as ways to choose an action for each class.
theorem Exact.count (exact_ : Exact [t] ∅ M parts) (agreeing : ∀ s ∈ parts, Agreeing [t] s.members)
    (complete : ∀ U ⊆ M, Agreeing [t] U → ∃ s ∈ parts, U ⊆ s.members) :
    parts.length = ∏ᶠ C ∈ t.classes M, (t.choices C).ncard := by
  have finite := t.finite_classes M
  -- a part is its choice of moves in each class of states, and every family of choices is a part
  let chosen : {s // s ∈ parts} → ∀ C : t.classes M, t.choices C.1 := fun s C =>
    ⟨s.1.members ∩ C.1, exact_.chooses s.2 (agreeing s.1 s.2) C.2⟩
  have injective : Function.Injective chosen := by
    intro r s same
    refine Subtype.ext (Region.members_injective (Set.ext fun ρ => ?_))
    have each : ∀ C ∈ t.classes M, r.1.members ∩ C = s.1.members ∩ C := fun C class_ =>
      congrArg Subtype.val (congrFun same ⟨C, class_⟩)
    constructor
    · intro here
      obtain ⟨C, class_, inside⟩ := Team.class_of_mem (t := t) (exact_.inside r.1 r.2 here)
      exact ((each C class_).subset ⟨here, inside⟩).1
    · intro here
      obtain ⟨C, class_, inside⟩ := Team.class_of_mem (t := t) (exact_.inside s.1 s.2 here)
      exact ((each C class_).superset ⟨here, inside⟩).1
  have surjective : Function.Surjective chosen := by
    intro choice
    have choiceInside : ∀ C : t.classes M, (choice C).1 ⊆ C.1 := by
      intro C ρ here
      obtain ⟨μ, _, same⟩ := (choice C).2
      exact (same.symm.subset here).1
    have together : Agreeing [t] {ρ | ∃ C, ρ ∈ (choice C).1} := by
      rintro w viewer ρ ⟨C, here⟩ σ ⟨D, there⟩ like
      obtain rfl := List.mem_singleton.mp viewer
      have inside := Team.class_closed C.2 (choiceInside C here) (Team.class_subset D.2 (choiceInside D there)) like
      have same : C = D := Subtype.ext (Set.ext fun τ =>
        ⟨fun own => Team.class_closed D.2 (choiceInside D there) (Team.class_subset C.2 own) (Team.class_alike C.2 inside own),
          fun own => Team.class_closed C.2 inside (Team.class_subset D.2 own) (Team.class_alike D.2 (choiceInside D there) own)⟩)
      subst same
      obtain ⟨μ, _, plays⟩ := (choice C).2
      exact (plays.symm.subset here).2.symm.trans (plays.symm.subset there).2
    obtain ⟨s, listed, le⟩ := complete {ρ | ∃ C, ρ ∈ (choice C).1} (fun ρ ⟨C, here⟩ => Team.class_subset C.2 (choiceInside C here)) together
    refine ⟨⟨s, listed⟩, funext fun C => Subtype.ext ?_⟩
    refine Set.Subset.antisymm (fun ρ ⟨here, inside⟩ => ?_) fun ρ here => ⟨le ⟨C, here⟩, choiceInside C here⟩
    obtain ⟨μ, member, plays⟩ := (choice C).2
    have kept : μ ∈ s.members := le ⟨C, plays.subset ⟨member, .refl t μ⟩⟩
    have looks := Team.class_alike C.2 member inside
    exact plays.subset ⟨inside, agreeing s listed t (List.mem_singleton.mpr rfl) μ kept ρ here looks⟩
  have counted := Nat.card_congr (Equiv.ofBijective chosen ⟨injective, surjective⟩)
  have : Fintype (t.classes M) := finite.fintype
  rw [Nat.card_pi] at counted
  calc parts.length = parts.toFinset.card := (List.toFinset_card_of_nodup exact_.distinct).symm
    _ = Nat.card parts.toFinset := (Nat.card_eq_finsetCard _).symm
    _ = Nat.card {s // s ∈ parts} := Nat.card_congr (Equiv.subtypeEquivRight fun _ => List.mem_toFinset)
    _ = ∏ C : t.classes M, Nat.card (t.choices C.1) := counted
    _ = ∏ᶠ C : t.classes M, (t.choices C.1).ncard := (finprod_eq_prod_of_fintype _).symm
    _ = ∏ᶠ C ∈ t.classes M, (t.choices C).ncard :=
        finprod_set_coe_eq_finprod_mem (f := fun C => (t.choices C).ncard) (t.classes M)

end

namespace Splitter

variable {sp : Splitter} {moves fixed : Region}

/-- For a team that chooses as a whole, splitting lists each of the maximal uniform parts that agree with the fixed moves once. Without
fixed moves they cover all moves, and there is one for every way to choose an action in each class. -/
theorem split_lists_maximal {d : Description} (built : d.build = .ok sp.sys) {names : List String}
    (coalition : sp.sys.team names = .ok sp.team) (group : sp.semantics = .group)
    (told : sp.sys.Told {b | b ∈ sp.team.actionBits} moves) (fixedPlayed : sp.sys.PlayedSet fixed)
    (fixedAgrees : Agreeing [sp.team] fixed.members) :
    (sp.split moves fixed).error? = none ∧ (sp.split moves fixed).items.Nodup ∧
      (∀ s, s ∈ (sp.split moves fixed).items ↔ sp.MaximalChoice moves fixed s) ∧
      (fixed = .empty → (∀ ρ, ρ ∈ moves.members ↔ ∃ s ∈ (sp.split moves fixed).items, ρ ∈ s.members) ∧
        (sp.split moves fixed).items.length = ∏ᶠ C ∈ sp.team.classes moves.members, (sp.team.choices C).ncard) := by
  have wf := d.build_well_formed _ built
  obtain ⟨of, _⟩ := System.team_spec coalition
  have viewers : sp.team.viewers sp.semantics = [sp.team] := by rw [group]; rfl
  rw [← viewers] at fixedAgrees
  have parts := split_spec wf fixedPlayed of fixedAgrees told.played
  have exact_ := split_group_exact wf fixedPlayed of fixedAgrees group told.played
  refine ⟨parts.ends, exact_.distinct, exact_maximal wf of fixedPlayed fixedAgrees told exact_, fun none => ?_⟩
  subst none
  rw [viewers, Region.members_empty] at parts exact_
  have agreeing : ∀ s ∈ (sp.split moves .empty).items, Agreeing [sp.team] s.members := fun s listed =>
    (parts.agreeing s listed).mono Set.subset_union_left
  have complete : ∀ U ⊆ moves.members, Agreeing [sp.team] U → ∃ s ∈ (sp.split moves .empty).items, U ⊆ s.members :=
    fun U le uniform => parts.complete U le (by rwa [Set.union_empty])
  refine ⟨fun ρ => ⟨fun here => ?_, fun ⟨s, listed, here⟩ => parts.inside s listed here⟩, exact_.count agreeing complete⟩
  obtain ⟨s, listed, le⟩ := complete {ρ} (Set.singleton_subset_iff.mpr here) (agreeing_alone _ ρ)
  exact ⟨s, listed, le rfl⟩

theorem split_lists_maximal_lamp : ∃ sp : Splitter, lamp.build = .ok sp.sys ∧ sp.sys.team ["hand"] = .ok sp.team ∧
    sp.semantics = .group ∧ (sp.split (sp.sys.protocolOf sp.team) .empty).error? = none ∧
      (sp.split (sp.sys.protocolOf sp.team) .empty).items.Nodup ∧
      (∀ s, s ∈ (sp.split (sp.sys.protocolOf sp.team) .empty).items ↔ sp.MaximalChoice (sp.sys.protocolOf sp.team) .empty s) ∧
      (Region.empty = .empty → (∀ ρ, ρ ∈ (sp.sys.protocolOf sp.team).members ↔
          ∃ s ∈ (sp.split (sp.sys.protocolOf sp.team) .empty).items, ρ ∈ s.members) ∧
        (sp.split (sp.sys.protocolOf sp.team) .empty).items.length =
          ∏ᶠ C ∈ sp.team.classes (sp.sys.protocolOf sp.team).members, (sp.team.choices C).ncard) := by
  obtain ⟨sys, t, built, coalition⟩ := lamp_builds
  have wf := lamp.build_well_formed sys built
  obtain ⟨of, _⟩ := System.team_spec coalition
  exact ⟨⟨sys, t, .group⟩, built, coalition, rfl, split_lists_maximal built coalition rfl (wf.protocol_told of)
    ⟨by simp, by simp, Region.reads_empty _⟩ (by simp [Agreeing])⟩

end Splitter

end Coalition
