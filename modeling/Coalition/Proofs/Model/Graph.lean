import Coalition.Model.Graph
import Coalition.Proofs.Model.Listed

-- Where descriptions tell states apart, the states are found in the order of their distance from the initial ones, each once, with their
-- transitions among each other, and the graph is truncated when some reachable state is left out.

set_option autoImplicit false

namespace Coalition

namespace Graph

structure Found.Lists (f : Frame) (found : Found) (listed : List Valuation) : Prop where
  labels : found.labels = listed.map fun s => f.describe (f.only s)
  states : found.states = listed.map f.only

def Full (limit : Nat) (listed : List Valuation) : Prop := 0 < limit ∧ limit ≤ listed.length

-- States are listed once each, and none of them is missing as long as there is room.
structure Gathers (limit : Nat) (states listed : List Valuation) : Prop where
  distinct : listed.Nodup
  inside : listed ⊆ states
  bounded : 0 < limit → listed.length ≤ limit
  missing : ∀ s ∈ states, s ∉ listed → Full limit listed

structure Grows (limit : Nat) (before after : List Valuation) : Prop where
  begins : before <+: after
  full : Full limit before → after = before

section

variable {limit : Nat} {before middle after states more : List Valuation} {s : Valuation}

theorem Grows.refl (limit : Nat) (listed : List Valuation) : Grows limit listed listed := ⟨List.prefix_refl _, fun _ => rfl⟩

theorem Grows.trans (first : Grows limit before middle) (second : Grows limit middle after) : Grows limit before after := by
  refine ⟨first.begins.trans second.begins, fun full => ?_⟩
  have same := first.full full
  rw [second.full (same ▸ full), same]

theorem getElem_of_begins (begins : before <+: after) {i : Nat} (found : before[i]? = some s) : after[i]? = some s := by
  obtain ⟨rest, rfl⟩ := begins
  rw [List.getElem?_append_left (List.getElem?_eq_some_iff.mp found).1, found]

theorem place_unique (distinct : after.Nodup) {i j : Nat} (first : after[i]? = some s) (second : after[j]? = some s) : i = j :=
  (List.getElem?_inj (List.getElem?_eq_some_iff.mp first).1 distinct).mp (first.trans second.symm)

-- A state that was looked at keeps its place, also where it has none.
theorem Grows.place (grows : Grows limit before after) (gathers : Gathers limit states before) (distinct : after.Nodup) (looked : s ∈ states)
    {i : Nat} : before[i]? = some s ↔ after[i]? = some s := by
  refine ⟨getElem_of_begins grows.begins, fun found => ?_⟩
  by_cases listed : s ∈ before
  · obtain ⟨j, here⟩ := List.mem_iff_getElem?.mp listed
    exact place_unique distinct found (getElem_of_begins grows.begins here) ▸ here
  · rwa [← grows.full (gathers.missing s looked listed)]

theorem Grows.mem (grows : Grows limit before after) (gathers : Gathers limit states before) (distinct : after.Nodup) (looked : s ∈ states) :
    s ∈ before ↔ s ∈ after := by
  rw [List.mem_iff_getElem?, List.mem_iff_getElem?]
  exact exists_congr fun i => grows.place gathers distinct looked

theorem Gathers.again (gathers : Gathers limit states before) (listed : s ∈ before) : Gathers limit (states ++ [s]) before := by
  refine ⟨gathers.distinct, fun u member => List.mem_append_left _ (gathers.inside member), gathers.bounded, fun u looked absent => ?_⟩
  obtain old | new := List.mem_append.mp looked
  · exact gathers.missing u old absent
  · exact absurd (List.mem_singleton.mp new ▸ listed) absent

theorem Gathers.refuse (gathers : Gathers limit states before) (full : Full limit before) : Gathers limit (states ++ [s]) before :=
  ⟨gathers.distinct, fun _ member => List.mem_append_left _ (gathers.inside member), gathers.bounded, fun _ _ _ => full⟩

theorem Gathers.add (gathers : Gathers limit states before) (fresh : s ∉ before) (room : ¬Full limit before) :
    Gathers limit (states ++ [s]) (before ++ [s]) := by
  refine ⟨?_, ?_, fun some => ?_, fun u looked absent => ?_⟩
  · exact List.nodup_append'.mpr ⟨gathers.distinct, List.nodup_singleton s, by simpa using fresh⟩
  · exact List.append_subset.mpr ⟨fun u member => List.mem_append_left _ (gathers.inside member), List.subset_append_right _ _⟩
  · have less : before.length < limit := by
      by_contra beyond
      exact room ⟨some, Nat.le_of_not_lt beyond⟩
    rw [List.length_append, List.length_singleton]
    omega
  · rw [List.mem_append, not_or] at absent
    obtain old | new := List.mem_append.mp looked
    · exact absurd (gathers.missing u old absent.1) room
    · exact absurd new absent.2

theorem Gathers.not_behind {m i : Nat} {u : Valuation} (gathers : Gathers limit states (after.take m)) (grows : Grows limit (after.take m) after)
    (looked : u ∈ states) (later : u ∉ after.take i) (found : after[i]? = some s) : s ∈ states := by
  by_cases listed : u ∈ after.take m
  · have less : i < m := by
      by_contra beyond
      exact later (List.take_subset_take_left after (Nat.le_of_not_lt beyond) listed)
    exact gathers.inside (List.mem_iff_getElem?.mpr ⟨i, by rw [List.getElem?_take_of_lt less, found]⟩)
  · have whole := grows.full (gathers.missing u looked listed)
    exact gathers.inside (whole ▸ List.mem_of_getElem? found)

end

def Apart (f : Frame) (K : Valuation → Prop) : Prop := ∀ s u, K s → K u → f.describe (f.only s) = f.describe (f.only u) → s = u

section

variable {f : Frame} {K : Valuation → Prop} (apart : Apart f K) {limit : Nat} {states listed : List Valuation} {found : Found}

include apart

theorem visit_spec (lists : found.Lists f listed) (gathers : Gathers limit states listed) (known : ∀ u ∈ listed, K u) {s : Valuation} (own : K s) :
    ∃ after, (visit f limit found (f.only s)).2.Lists f after ∧ Gathers limit (states ++ [s]) after ∧ Grows limit listed after ∧
      (∀ u ∈ after, K u) ∧ ((visit f limit found (f.only s)).2.truncated = true ↔ found.truncated = true ∨ s ∉ after) ∧
      ∀ i, (visit f limit found (f.only s)).1 = some i ↔ after[i]? = some s := by
  unfold visit
  dsimp only
  cases place : found.labels.findIdx? (· == f.describe (f.only s)) with
  | some i =>
      have here : listed[i]? = some s := by
        obtain ⟨less, same, _⟩ := List.findIdx?_eq_some_iff_getElem.mp place
        have label : found.labels[i]? = some (f.describe (f.only s)) := by
          rw [List.getElem?_eq_getElem less, beq_iff_eq.mp same]
        rw [lists.labels, List.getElem?_map, Option.map_eq_some_iff] at label
        obtain ⟨u, here, alike⟩ := label
        rwa [apart u s (known u (List.mem_of_getElem? here)) own alike] at here
      have member := List.mem_of_getElem? here
      refine ⟨listed, lists, gathers.again member, .refl _ _, known, by simp [member], fun j => ?_⟩
      constructor
      · rintro ⟨⟩
        exact here
      · intro there
        rw [place_unique gathers.distinct here there]
  | none =>
      have fresh : s ∉ listed := by
        intro member
        have different := List.findIdx?_eq_none_iff.mp place (f.describe (f.only s)) (by
          rw [lists.labels]
          exact List.mem_map.mpr ⟨s, member, rfl⟩)
        simp at different
      have length : found.labels.length = listed.length := by rw [lists.labels, List.length_map]
      by_cases full : Full limit listed
      · rw [if_pos (by simpa [Full, length] using full)]
        refine ⟨listed, ⟨lists.labels, lists.states⟩, gathers.refuse full, .refl _ _, known, by simp [fresh], fun j => ?_⟩
        exact iff_of_false nofun fun here => fresh (List.mem_of_getElem? here)
      · rw [if_neg (by simpa [Full, length] using full)]
        have added := gathers.add fresh full
        refine ⟨listed ++ [s], ⟨?_, ?_⟩, added, ⟨List.prefix_append _ _, fun beyond => absurd beyond full⟩, ?_, by simp, fun j => ?_⟩
        · rw [List.map_append, ← lists.labels, List.map_singleton]
        · rw [List.map_append, ← lists.states, List.map_singleton]
        · exact List.forall_mem_append.mpr ⟨known, List.forall_mem_singleton.mpr own⟩
        · have last : (listed ++ [s])[listed.length]? = some s := by simp
          rw [length, Option.some_inj]
          exact ⟨fun same => same ▸ last, fun there => place_unique added.distinct last there⟩

theorem visit_all_spec (lists : found.Lists f listed) (gathers : Gathers limit states listed) (known : ∀ u ∈ listed, K u) {new : List Valuation}
    (own : ∀ u ∈ new, K u) :
    ∃ after, (visitAll f limit found (new.map f.only)).2.Lists f after ∧ Gathers limit (states ++ new) after ∧ Grows limit listed after ∧
      (∀ u ∈ after, K u) ∧
      ((visitAll f limit found (new.map f.only)).2.truncated = true ↔ found.truncated = true ∨ ∃ u ∈ new, u ∉ after) ∧
      (new.Nodup → (visitAll f limit found (new.map f.only)).1.Nodup) ∧
      ∀ i, i ∈ (visitAll f limit found (new.map f.only)).1 ↔ ∃ u ∈ new, after[i]? = some u := by
  induction new generalizing states listed found with
  | nil => exact ⟨listed, lists, by simpa using gathers, .refl _ _, known, by simp [visitAll], by simp [visitAll], by simp [visitAll]⟩
  | cons s rest ih =>
      obtain ⟨ownFirst, ownRest⟩ := List.forall_mem_cons.mp own
      obtain ⟨middle, firstLists, firstGathers, firstGrows, firstKnown, firstTruncated, place⟩ := visit_spec apart lists gathers known ownFirst
      obtain ⟨after, lists, gathers, grows, known, truncated, distinct, places⟩ := ih firstLists firstGathers firstKnown ownRest
      have looked : s ∈ states ++ [s] := List.mem_append_right _ (List.mem_singleton_self s)
      have settled := fun i => (place i).trans (grows.place firstGathers gathers.distinct looked (i := i))
      have mem := grows.mem firstGathers gathers.distinct looked
      rw [List.append_assoc] at gathers
      refine ⟨after, lists, gathers, firstGrows.trans grows, known, ?_, fun nodup => ?_, fun i => ?_⟩
      · rw [List.map_cons, visitAll, List.exists_mem_cons_iff, ← mem, ← or_assoc, ← firstTruncated]
        exact truncated
      · obtain ⟨fresh, others⟩ := List.nodup_cons.mp nodup
        rw [List.map_cons, visitAll]
        refine List.nodup_append'.mpr ⟨?_, distinct others, fun i first second => ?_⟩
        · cases (visit f limit found (f.only s)).1 <;> simp
        · obtain ⟨u, listed, here⟩ := (places i).mp second
          have there := (settled i).mp (by simpa using first)
          exact fresh (Option.some.inj (there.symm.trans here) ▸ listed)
      · rw [List.map_cons, visitAll, List.mem_append, places, List.exists_mem_cons_iff, ← settled]
        simp

end

-- The successors of states of a kind, in the order of their listing if there is one.
structure Successors (sys : Dynamics) (K : Valuation → Prop) (next : Valuation → List Valuation) : Prop where
  listing : ∀ s, K s → Yields (sys.listStates (sys.post (sys.only s))) (· = (next s).map sys.only)
  distinct : ∀ s, K s → (next s).Nodup
  closed : ∀ s, K s → ∀ u ∈ next s, K u

-- The states among which those found up to some place are.
def looked (start : List Valuation) (next : Valuation → List Valuation) (listed : List Valuation) (place : Nat) : List Valuation :=
  start ++ (listed.take place).flatMap next

structure Explored (f : Frame) (K : Valuation → Prop) (limit : Nat) (start : List Valuation) (next : Valuation → List Valuation) (place : Nat)
    (found : Found) (result : List (List Nat) × Found) (listed : List Valuation) : Prop where
  lists : result.2.Lists f listed
  known : ∀ u ∈ listed, K u
  whole : Gathers limit (looked start next listed listed.length) listed
  order : ∀ k, place ≤ k → k ≤ listed.length → ∃ m, Gathers limit (looked start next listed k) (listed.take m) ∧ Grows limit (listed.take m) listed
  truncated : result.2.truncated = true ↔ found.truncated = true ∨ ∃ s ∈ listed.drop place, ∃ u ∈ next s, u ∉ listed
  edges : List.Forall₂ (fun s places => places.Nodup ∧ ∀ i, i ∈ places ↔ ∃ u ∈ next s, listed[i]? = some u) (listed.drop place) result.1

theorem explore_step {sys : Dynamics} {limit fuel place : Nat} {found : Found} {state : Region} {all : List Region}
    (here : found.states[place]? = some state) (listing : sys.listStates (sys.post state) = .ok all) :
    explore sys limit (fuel + 1) place found =
      (explore sys limit fuel (place + 1) (visitAll sys.toFrame limit found all).2 >>= fun later =>
        .ok ((visitAll sys.toFrame limit found all).1 :: later.1, later.2)) := by
  rw [explore, here]
  exact bind_ok listing rfl

theorem explore_error {sys : Dynamics} {limit fuel place : Nat} {found : Found} {state : Region} {e : Space.Fault}
    (here : found.states[place]? = some state) (failed : sys.listStates (sys.post state) = .error e) :
    explore sys limit (fuel + 1) place found = .error e := by
  rw [explore, here]
  dsimp only
  rw [failed]
  rfl

theorem looked_step {start listed after : List Valuation} {next : Valuation → List Valuation} {place : Nat} {s : Valuation}
    (begins : listed <+: after) (here : listed[place]? = some s) :
    looked start next after (place + 1) = looked start next listed place ++ next s := by
  have less := (List.getElem?_eq_some_iff.mp here).1
  obtain ⟨rest, rfl⟩ := begins
  unfold looked
  rw [List.take_append_of_le_length less, List.take_add_one, here, List.flatMap_append, List.append_assoc]
  simp

-- Exploring goes on with every listed state in turn, until there is none left or the successors of one cannot be listed.
theorem explore_spec {sys : Dynamics} {K : Valuation → Prop} (apart : Apart sys.toFrame K) {next : Valuation → List Valuation}
    (successors : Successors sys K next) {limit : Nat} {start : List Valuation} (fuel place : Nat) {found : Found} {listed : List Valuation}
    (lists : found.Lists sys.toFrame listed) (gathers : Gathers limit (looked start next listed place) listed) (known : ∀ u ∈ listed, K u)
    (within : place ≤ listed.length) (enough : ∀ us : List Valuation, us.Nodup → (∀ u ∈ us, K u) → us.length < fuel + place) :
    (∃ result after, explore sys limit fuel place found = .ok result ∧ Grows limit listed after ∧
      Explored sys.toFrame K limit start next place found result after) ∨
    ∃ e s, explore sys limit fuel place found = .error e ∧ K s ∧ sys.listStates (sys.post (sys.only s)) = .error e := by
  induction fuel generalizing place found listed with
  | zero =>
      have less := enough listed gathers.distinct known
      omega
  | succ fuel ih =>
      cases here : found.states[place]? with
      | none =>
          rw [explore, here]
          have length : place = listed.length := by
            rw [lists.states, List.getElem?_eq_none_iff, List.length_map] at here
            omega
          subst length
          refine .inl ⟨_, listed, rfl, .refl _ _, lists, known, gathers, fun k beyond under => ?_, by simp, by simp⟩
          obtain rfl : k = listed.length := Nat.le_antisymm under beyond
          exact ⟨listed.length, by rwa [List.take_length], by rw [List.take_length]; exact .refl _ _⟩
      | some state =>
          obtain ⟨s, stands, rfl⟩ : ∃ s, listed[place]? = some s ∧ sys.only s = state := by
            rw [lists.states, List.getElem?_map, Option.map_eq_some_iff] at here
            exact here
          have own : K s := known s (List.mem_of_getElem? stands)
          cases listing : sys.listStates (sys.post (sys.only s)) with
          | error e => exact .inr ⟨e, s, explore_error here listing, own, listing⟩
          | ok all =>
          obtain rfl := successors.listing s own all listing
          obtain ⟨middle, firstLists, firstGathers, firstGrows, firstKnown, firstTruncated, distinct, places⟩ :=
            visit_all_spec apart lists gathers known (successors.closed s own)
          rw [← looked_step firstGrows.begins stands] at firstGathers
          have more : place + 1 ≤ middle.length := (List.getElem?_eq_some_iff.mp (getElem_of_begins firstGrows.begins stands)).1
          rw [explore_step here listing]
          obtain ⟨result, after, done, grows, lists, known, whole, order, truncated, edges⟩ | ⟨e, u, failed, kind, crowded⟩ :=
            ih (place + 1) firstLists firstGathers firstKnown more fun us nodup all => by have less := enough us nodup all; omega
          case inr => exact .inr ⟨e, u, by rw [failed]; rfl, kind, crowded⟩
          have grown := firstGrows.trans grows
          have rest : after.drop place = s :: after.drop (place + 1) := by
            have stays := getElem_of_begins grown.begins stands
            obtain ⟨less, rfl⟩ := List.getElem?_eq_some_iff.mp stays
            exact List.drop_eq_getElem_cons less
          have seen : ∀ u ∈ next s, u ∈ looked start next middle (place + 1) := by
            intro u follows
            rw [looked_step firstGrows.begins stands]
            exact List.mem_append_right _ follows
          refine .inl ⟨_, after, bind_ok done rfl, grown, lists, known, whole, fun k beyond under => ?_, ?_, ?_⟩
          · obtain rfl | later := Nat.eq_or_lt_of_le beyond
            · obtain ⟨more, rfl⟩ := grown.begins
              have same : looked start next (listed ++ more) place = looked start next listed place := by
                rw [looked, looked, List.take_append_of_le_length within]
              exact ⟨listed.length, by rwa [List.take_left, same], by rwa [List.take_left]⟩
            · exact order k later under
          · rw [truncated, firstTruncated, rest, List.exists_mem_cons_iff, or_assoc]
            refine or_congr_right (or_congr_left (exists_congr fun u => and_congr_right fun follows => not_congr ?_))
            exact grows.mem firstGathers whole.distinct (seen u follows)
          · rw [rest]
            refine .cons ⟨distinct (successors.distinct s own), fun i => (places i).trans ?_⟩ edges
            exact exists_congr fun u => and_congr_right fun follows => grows.place firstGathers whole.distinct (seen u follows)

end Graph

namespace System

-- At most that many steps lead to the state from an initial one.
def Within (sys : System) : Nat → Valuation → Prop
  | 0, s => ∃ ι ∈ sys.init.members, sys.stateOf ι = s
  | n + 1, s => sys.Within n s ∨ ∃ u, sys.Within n u ∧ sys.Step u s

variable {sys : System} {s u : Valuation} {n : Nat}

theorem Within.of_start (start : sys.Within 0 s) (n : Nat) : sys.Within n s := by
  induction n with
  | zero => exact start
  | succ n ih => exact .inl ih

theorem Within.reachable (near : sys.Within n s) : sys.Reachable s := by
  induction n generalizing s with
  | zero =>
      obtain ⟨ι, start, rfl⟩ := near
      exact ⟨ι, start, .refl⟩
  | succ n ih =>
      obtain near | ⟨u, near, step⟩ := near
      · exact ih near
      · exact (ih near).step step

end System

namespace Graph

-- The graph shows some states of a system, in order.
structure Shows (g : Graph) (sys : System) (limit : Int) (listed : List Valuation) : Prop where
  labels : g.labels = listed.map fun s => sys.describe (sys.only s)
  distinct : listed.Nodup
  reachable : ∀ s ∈ listed, sys.Reachable s
  bounded : 0 < limit → listed.length ≤ limit
  -- A state is not listed before one that is nearer to the initial ones, whether this one is listed at all or not.
  nearest : ∀ i s u n, listed[i]? = some s → u ∉ listed.take i → sys.Within n u → sys.Within n s
  truncated : g.truncated = true ↔ ∃ s, sys.Reachable s ∧ s ∉ listed
  -- Nothing is left out but by the limit.
  missing : ∀ s, sys.Reachable s → s ∉ listed → 0 < limit ∧ listed.length = limit
  edges : g.edges.Nodup ∧ ∀ i j, (i, j) ∈ g.edges ↔ ∃ s u, listed[i]? = some s ∧ listed[j]? = some u ∧ sys.Step s u
  initial : g.initial.Nodup ∧ ∀ i, i ∈ g.initial ↔ ∃ s, listed[i]? = some s ∧ s ∈ sys.init.members
  whole : g.truncated = false → (∀ s, s ∈ listed ↔ sys.Reachable s) ∧
    ∀ s, (∃ i ∈ g.initial, listed[i]? = some s) ↔ s ∈ sys.init.members ∧ sys.IsState s

-- The states found so far are no farther from the initial ones than all others.
theorem nearest_listed {sys : System} {start : List Valuation} (starts : ∀ s, s ∈ start ↔ sys.Within 0 s) {next : Valuation → List Valuation}
    (steps : ∀ s, sys.Reachable s → ∀ u, u ∈ next s ↔ sys.Step s u) {limit : Nat} {listed : List Valuation} (distinct : listed.Nodup)
    (reachable : ∀ s ∈ listed, sys.Reachable s)
    (order : ∀ k ≤ listed.length, ∃ m, Gathers limit (looked start next listed k) (listed.take m) ∧ Grows limit (listed.take m) listed)
    {i n : Nat} {s u : Valuation} (here : listed[i]? = some s) (later : u ∉ listed.take i) (near : sys.Within n u) : sys.Within n s := by
  induction n generalizing i s u with
  | zero =>
      obtain ⟨m, gathers, grows⟩ := order 0 (Nat.zero_le _)
      have among := gathers.not_behind grows (List.mem_append_left _ ((starts u).mpr near)) later here
      exact (starts s).mp (by simpa [looked] using among)
  | succ n ih =>
      obtain near | ⟨v, near, step⟩ := near
      · exact .inl (ih here later near)
      · by_cases listedToo : v ∈ listed
        · obtain ⟨k, there⟩ := List.mem_iff_getElem?.mp listedToo
          have less := (List.getElem?_eq_some_iff.mp there).1
          obtain ⟨m, gathers, grows⟩ := order (k + 1) less
          have follows : u ∈ looked start next listed (k + 1) := by
            rw [looked_step (List.prefix_refl _) there]
            exact List.mem_append_right _ ((steps v near.reachable u).mpr step)
          -- so the state was found from the start or from a state no later than the one before
          obtain first | found := List.mem_append.mp (gathers.not_behind grows follows later here)
          · exact ((starts s).mp first).of_start (n + 1)
          · obtain ⟨w, above, leads⟩ := List.mem_flatMap.mp found
            obtain ⟨j, placed⟩ := List.mem_iff_getElem?.mp above
            have early : j < k + 1 := by
              by_contra beyond
              rw [List.getElem?_take_eq_none (Nat.le_of_not_lt beyond)] at placed
              cases placed
            rw [List.getElem?_take_of_lt early] at placed
            have behind : v ∉ listed.take j := by
              intro taken
              obtain ⟨l, found⟩ := List.mem_iff_getElem?.mp taken
              have less := (List.getElem?_eq_some_iff.mp found).1
              have same := place_unique distinct (getElem_of_begins (List.take_prefix j listed) found) there
              rw [List.length_take] at less
              omega
            exact .inr ⟨w, ih placed behind near, (steps w (reachable w (List.mem_of_getElem? placed)) s).mp leads⟩
        · exact .inl (ih here (fun taken => listedToo (List.mem_of_mem_take taken)) near)

theorem mem_edges {g : Graph} {i j : Nat} : (i, j) ∈ g.edges ↔ ∃ places, g.successors[i]? = some places ∧ j ∈ places := by
  unfold edges
  simp only [List.mem_flatMap, List.mem_map, Prod.mk.injEq, Prod.exists, List.mem_zipIdx_iff_getElem?]
  constructor
  · rintro ⟨places, _, here, _, inside, rfl, rfl⟩
    exact ⟨places, here, inside⟩
  · rintro ⟨places, here, inside⟩
    exact ⟨places, i, here, j, inside, rfl, rfl⟩

theorem edges_nodup {g : Graph} (each : ∀ places ∈ g.successors, places.Nodup) : g.edges.Nodup := by
  refine List.nodup_flatMap.mpr ⟨fun entry listed => ?_, ?_⟩
  · exact (each entry.1 (List.fst_mem_of_mem_zipIdx listed)).map fun i j same => (Prod.mk.inj same).2
  · have sources : (g.successors.zipIdx.map Prod.snd).Nodup := by
      rw [List.zipIdx_map_snd]
      exact List.nodup_range'
    refine (List.pairwise_map.mp sources).imp fun different edge first second => ?_
    obtain ⟨_, _, rfl⟩ := List.mem_map.mp first
    obtain ⟨_, _, same⟩ := List.mem_map.mp second
    exact different (Prod.mk.inj same).1.symm

section

variable {sys : System} {start : List Valuation} (starts : ∀ s, s ∈ start ↔ s ∈ sys.init.members ∧ sys.IsState s)
  {next : Valuation → List Valuation} (steps : ∀ s, sys.Reachable s → ∀ u, u ∈ next s ↔ sys.Step s u) {listed : List Valuation}

include starts steps

theorem exists_missing (wf : sys.WellFormed) (reachable : ∀ s ∈ listed, sys.Reachable s) :
    (∃ s, sys.Reachable s ∧ s ∉ listed) ↔ (∃ u ∈ start, u ∉ listed) ∨ ∃ s ∈ listed, ∃ u ∈ next s, u ∉ listed := by
  constructor
  · rintro ⟨s, ⟨ι, initial, linked⟩, absent⟩
    by_contra none
    rw [not_or] at none
    push Not at none
    obtain ⟨first, closed⟩ := none
    refine absent ?_
    clear absent
    induction linked with
    | refl => exact first _ ((starts _).mpr ⟨(Frame.mem_state_of wf.init.reads).mpr initial, Frame.state_of_state ι⟩)
    | tail _ step ih => exact closed _ ih _ ((steps _ (reachable _ ih) _).mpr step)
  · rintro (⟨u, initial, absent⟩ | ⟨s, member, u, follows, absent⟩)
    · obtain ⟨here, state⟩ := (starts u).mp initial
      exact ⟨u, ⟨u, here, state.symm ▸ .refl⟩, absent⟩
    · exact ⟨u, (reachable s member).step ((steps s (reachable s member) u).mp follows), absent⟩

omit steps in
theorem start_within (wf : sys.WellFormed) (s : Valuation) : s ∈ start ↔ sys.Within 0 s := by
  rw [starts]
  constructor
  · rintro ⟨initial, state⟩
    exact ⟨s, initial, state⟩
  · rintro ⟨ι, initial, rfl⟩
    exact ⟨(Frame.mem_state_of wf.init.reads).mpr initial, Frame.state_of_state ι⟩

omit starts in
theorem edges_of_explored {limit : Nat} {found : Found} {result : List (List Nat) × Found}
    (explored : Explored sys.toFrame sys.Reachable limit start next 0 found result listed) {g : Graph} (own : g.successors = result.1) :
    g.edges.Nodup ∧ ∀ i j, (i, j) ∈ g.edges ↔ ∃ s u, listed[i]? = some s ∧ listed[j]? = some u ∧ sys.Step s u := by
  obtain ⟨same, edge⟩ := List.forall₂_iff_get.mp (List.drop_zero ▸ explored.edges)
  refine ⟨edges_nodup fun places member => ?_, fun i j => ?_⟩
  · obtain ⟨i, less, rfl⟩ := List.getElem_of_mem (own ▸ member)
    exact (edge i (same ▸ less) less).1
  · rw [mem_edges, own]
    constructor
    · rintro ⟨places, here, inside⟩
      obtain ⟨less, rfl⟩ := List.getElem?_eq_some_iff.mp here
      have source : i < listed.length := same ▸ less
      obtain ⟨u, follows, there⟩ := ((edge i source less).2 j).mp inside
      exact ⟨listed[i], u, List.getElem?_eq_getElem source, there, (steps _ (explored.known _ (List.getElem_mem source)) u).mp follows⟩
    · rintro ⟨s, u, here, there, step⟩
      obtain ⟨source, rfl⟩ := List.getElem?_eq_some_iff.mp here
      have less : i < result.1.length := same ▸ source
      refine ⟨result.1[i], List.getElem?_eq_getElem less, ((edge i source less).2 j).mpr ⟨u, ?_, there⟩⟩
      exact (steps _ (explored.known _ (List.getElem_mem source)) u).mpr step

theorem shows_of_explored (wf : sys.WellFormed) {limit : Int} {first : List Valuation} {initial : List Nat} {found : Found}
    {result : List (List Nat) × Found} (gathers : Gathers limit.toNat start first) (grows : Grows limit.toNat first listed)
    (truncated : found.truncated = true ↔ ∃ u ∈ start, u ∉ first) (distinct : initial.Nodup)
    (places : ∀ i, i ∈ initial ↔ ∃ u ∈ start, first[i]? = some u)
    (explored : Explored sys.toFrame sys.Reachable limit.toNat start next 0 found result listed) :
    Shows ⟨result.2.labels, initial, result.1, result.2.truncated⟩ sys limit listed := by
  have left : result.2.truncated = true ↔ ∃ s, sys.Reachable s ∧ s ∉ listed := by
    rw [exists_missing starts steps wf explored.known, explored.truncated, List.drop_zero, truncated]
    refine or_congr_left (exists_congr fun u => and_congr_right fun member => not_congr ?_)
    exact grows.mem gathers explored.whole.distinct member
  have initials : ∀ i, i ∈ initial ↔ ∃ s, listed[i]? = some s ∧ s ∈ sys.init.members := by
    intro i
    rw [places]
    constructor
    · rintro ⟨u, member, here⟩
      exact ⟨u, (grows.place gathers explored.whole.distinct member).mp here, ((starts u).mp member).1⟩
    · rintro ⟨s, here, initial⟩
      have member := (starts s).mpr ⟨initial, wf.reachable_state (explored.known s (List.mem_of_getElem? here))⟩
      exact ⟨s, member, (grows.place gathers explored.whole.distinct member).mpr here⟩
  refine ⟨explored.lists.labels, explored.whole.distinct, explored.known, fun some => ?_, fun i s u n => ?_, left, fun s reachable absent => ?_,
    edges_of_explored steps explored rfl, ⟨distinct, initials⟩, fun complete => ?_⟩
  · have bound := explored.whole.bounded (by omega)
    omega
  · exact nearest_listed (start_within starts wf) steps explored.whole.distinct explored.known fun k under => explored.order k (Nat.zero_le k) under
  · have full : Full limit.toNat listed := by
      obtain ⟨u, first, missing⟩ | ⟨w, member, u, follows, missing⟩ := (exists_missing starts steps wf explored.known).mp ⟨s, reachable, absent⟩
      · exact explored.whole.missing u (List.mem_append_left _ first) missing
      · refine explored.whole.missing u (List.mem_append_right _ (List.mem_flatMap.mpr ⟨w, ?_, follows⟩)) missing
        rwa [List.take_length]
    obtain ⟨some, reached⟩ := full
    have bound := explored.whole.bounded some
    omega
  · have all : ∀ s, s ∈ listed ↔ sys.Reachable s := by
      refine fun s => ⟨explored.known s, fun reachable => ?_⟩
      by_contra absent
      rw [left.mpr ⟨s, reachable, absent⟩] at complete
      cases complete
    refine ⟨all, fun s => ⟨?_, fun ⟨initial, state⟩ => ?_⟩⟩
    · rintro ⟨i, first, here⟩
      obtain ⟨u, there, initial⟩ := (initials i).mp first
      obtain rfl := Option.some.inj (here.symm.trans there)
      exact ⟨initial, wf.reachable_state (explored.known s (List.mem_of_getElem? here))⟩
    · obtain ⟨i, here⟩ := List.mem_iff_getElem?.mp ((all s).mpr ⟨s, initial, state.symm ▸ .refl⟩)
      exact ⟨i, (initials i).mpr ⟨s, here, initial⟩, here⟩

end

-- The regions whose states a graph lists: the initial one and the successors of each reachable state.
def Sources (sys : System) (s : Region) : Prop := s = sys.init ∨ ∃ u, sys.Reachable u ∧ s = sys.post (sys.only u)

section

variable {sys : System} (wf : sys.WellFormed)

include wf

theorem labels_apart (apart : sys.DescribesApart) : Apart sys.toFrame sys.Reachable := by
  intro s u first second alike
  have listed {s : Valuation} (reachable : sys.Reachable s) : sys.only s ∈ sys.allStates sys.statesMask :=
    Frame.only_listed wf.laid (Frame.StateSet.mask sys.toFrame) (wf.reachable_state_set.inside (wf.mem_of_reachable reachable))
  exact Frame.only_injective (wf.reachable_state first) (wf.reachable_state second) (apart _ (listed first) _ (listed second) alike)

theorem exists_start : ∃ start : List Valuation, sys.allStates sys.init = start.map sys.only ∧ start.Nodup ∧
    (∀ s, s ∈ start ↔ s ∈ sys.init.members ∧ sys.IsState s) ∧ ∀ s ∈ start, sys.Reachable s := by
  obtain ⟨start, same, distinct, mem⟩ := Frame.all_states_list wf.laid wf.init
  refine ⟨start, same, distinct, mem, fun s listed => ?_⟩
  obtain ⟨initial, state⟩ := (mem s).mp listed
  exact ⟨s, initial, state.symm ▸ .refl⟩

theorem exists_successors (counts : ∀ s, Sources sys s → Space.Counts (sys.statesOf s) sys.stateBits) :
    ∃ next, Successors sys.toDynamics sys.Reachable next ∧ ∀ s, sys.Reachable s → ∀ u, u ∈ next s ↔ sys.Step s u := by
  have lists := fun s => Frame.all_states_list wf.laid (wf.post_state_set ((sys.only_reads s).mono sys.state_subset_move))
  choose next same distinct mem using lists
  have steps : ∀ s, sys.Reachable s → ∀ u, u ∈ next s ↔ sys.Step s u := by
    intro s reachable u
    have source : sys.IsState s := wf.reachable_state reachable
    rw [mem, wf.mem_post_states (sys.only_reads s)]
    constructor
    · rintro ⟨⟨σ, here, step⟩, state⟩
      rwa [Frame.mem_only.mp here, source, state] at step
    · intro step
      have state : sys.IsState u := wf.reachable_state (reachable.step step)
      exact ⟨⟨s, Frame.mem_only.mpr rfl, by rwa [source, state]⟩, state⟩
  refine ⟨next, ⟨fun s reachable all listing => ?_, fun s _ => distinct s, fun s reachable u follows => ?_⟩, steps⟩
  · rw [← same s]
    exact Frame.list_states_whole (counts _ (.inr ⟨s, reachable, rfl⟩)) all listing
  · exact reachable.step ((steps s reachable u).mp follows)

end

/-- Where descriptions tell the states of a built system apart and no listing counts the states of a path as none, its graph shows the states
that are nearest to the initial ones, all of them if there is no limit or if the limit is not reached, and all their transitions among each
other; there is no graph only when a list has no room. -/
theorem explicit_graph {sys : System} {d : Description} (built : d.build = .ok sys) (apart : sys.DescribesApart)
    (counts : ∀ s, Sources sys s → Space.Counts (sys.statesOf s) sys.stateBits) (limit : Int) :
    (∃ g listed, ofSystem sys limit.toNat = .ok g ∧ g.Shows sys limit listed) ∨
    (ofSystem sys limit.toNat = .error .noRoom ∧ ¬ ∀ s, Sources sys s → Space.Fits (sys.statesOf s) sys.stateBits) := by
  have wf := d.build_well_formed sys built
  have labels := labels_apart wf apart
  have crowded {s : Region} {e : Space.Fault} (source : Sources sys s) (failed : sys.listStates s = .error e) :
      e = .noRoom ∧ ¬ ∀ s, Sources sys s → Space.Fits (sys.statesOf s) sys.stateBits := by
    obtain ⟨same, many⟩ := Space.listing_error failed
    exact ⟨same, fun fits => many (fits s source)⟩
  obtain ⟨start, starts, startNodup, memStart, startReachable⟩ := exists_start wf
  obtain ⟨next, successors, steps⟩ := exists_successors wf counts
  have none : Found.Lists sys.toFrame {} [] := ⟨rfl, rfl⟩
  have nothing : Gathers limit.toNat [] [] := ⟨List.nodup_nil, List.Subset.refl _, by simp, by simp⟩
  obtain ⟨first, firstLists, firstGathers, _, firstKnown, firstTruncated, distinct, places⟩ :=
    visit_all_spec labels none nothing (List.forall_mem_nil _) startReachable
  rw [List.nil_append] at firstGathers
  have fromStart : Gathers limit.toNat (looked start next first 0) first := by simpa [looked] using firstGathers
  have enough : ∀ us : List Valuation, us.Nodup → (∀ u ∈ us, sys.Reachable u) → us.length < sys.countStates sys.reachable + 1 + 0 := by
    refine fun us nodup all => Nat.lt_succ_of_le (Frame.length_le_count wf.laid wf.reachable_state_set nodup fun u member => ?_)
    exact ⟨wf.mem_of_reachable (all u member), wf.reachable_state (all u member)⟩
  cases listing : sys.listStates sys.init with
  | error e =>
      obtain ⟨rfl, many⟩ := crowded (.inl rfl) listing
      refine .inr ⟨?_, many⟩
      rw [ofSystem, listing]
      rfl
  | ok all =>
      obtain rfl := (Frame.list_states_whole (counts _ (.inl rfl)) all listing).trans starts
      obtain ⟨result, listed, done, grows, explored⟩ | ⟨e, s, failed, reachable, further⟩ :=
        explore_spec labels successors _ 0 firstLists fromStart firstKnown (Nat.zero_le _) enough
      · refine .inl ⟨_, listed, bind_ok listing (bind_ok done rfl), ?_⟩
        exact shows_of_explored memStart steps wf firstGathers grows (by simpa using firstTruncated) (distinct startNodup) places explored
      · obtain ⟨rfl, many⟩ := crowded (.inr ⟨s, reachable, rfl⟩) further
        refine .inr ⟨bind_ok listing ?_, many⟩
        dsimp only
        rw [failed]
        rfl

theorem explicit_graph_colours : ∃ sys g listed, System.colours.build = .ok sys ∧ sys.DescribesApart ∧
    ofSystem sys (2 : Int).toNat = .ok g ∧ g.Shows sys 2 listed := by
  obtain ⟨⟨sys, built⟩, plain⟩ := System.colours_plain
  have apart := (System.describes_apart_iff built).mpr plain.tells_apart
  have short : sys.stateBits.length ≤ 44 := by
    rw [Frame.stateBits, (System.colours.build_compiled sys built).stateVars]
    decide
  obtain ⟨g, listed, done, shows⟩ | ⟨_, crowded⟩ :=
    explicit_graph built apart (fun s _ => Space.counts_of_length _ (lt_of_le_of_lt short (by decide))) 2
  · exact ⟨sys, g, listed, built, apart, done, shows⟩
  · exact absurd (fun s _ => Space.fits_of_length _ short) crowded

end Graph

end Coalition
