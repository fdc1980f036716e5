import Coalition.Proofs.Region.Count
import Coalition.Proofs.Yields

-- The cells of a path are counted in a signed word, so that a list is complete just when no path leaves more variables open than a list
-- has room for; then it is as long as the projection is counted.

set_option autoImplicit false

namespace Coalition

namespace Space

variable {space : Space} {s : Region} {vars : List Nat} {path : Path} {n : Nat}

-- On every path to true of the projection, a list has room for the cells.
def Fits (s : Region) (vars : List Nat) : Prop := ∀ path ∈ (s.keep vars).diagram.paths, (openOn vars path).length ≤ 44

-- On no path to true of the projection, the cells are so many that a word counts none.
def Counts (s : Region) (vars : List Nat) : Prop := ∀ path ∈ (s.keep vars).diagram.paths, (openOn vars path).length < 64

theorem valuations_eq (n : Nat) : valuations n = Int.bmod ((2 ^ n : Nat) : Int) 0x10000000000000000 := by
  unfold valuations
  rw [Nat.one_shiftLeft, Int.ofNat_eq_natCast]

theorem valuations_small (le : n ≤ 44) : 0 < valuations n ∧ valuations n ≤ maxEntries := by
  have bound : 2 ^ n ≤ 2 ^ 44 := Nat.pow_le_pow_right Nat.two_pos le
  have positive := Nat.two_pow_pos n
  have same : valuations n = (2 ^ n : Nat) := (valuations_eq n).trans (Int.bmod_eq_of_le (by omega) (by omega))
  rw [same, maxEntries]
  omega

theorem valuations_large (ge : 64 ≤ n) : valuations n = 0 := by
  rw [valuations_eq]
  exact Int.bmod_eq_zero_of_dvd (Int.natCast_dvd_natCast.mpr (Nat.pow_dvd_pow 2 ge))

-- From 45 open variables to 63, the number is too large or, with its last bit, negative.
theorem valuations_between (ge : 45 ≤ n) (le : n ≤ 63) : valuations n < 0 ∨ maxEntries < valuations n := by
  have each : ∀ k < 19, valuations (45 + k) < 0 ∨ maxEntries < valuations (45 + k) := by decide
  have here := each (n - 45) (by omega)
  rwa [Nat.add_sub_cancel' ge] at here

theorem expand_small (room : (openOn vars path).length ≤ 44) : expand vars path = .ok (Region.expand vars path) := by
  obtain ⟨positive, bound⟩ := valuations_small room
  unfold expand
  rw [if_neg (by omega), if_neg (by omega)]

theorem expand_between (more : 44 < (openOn vars path).length) (less : (openOn vars path).length < 64) : expand vars path = .error .noRoom := by
  unfold expand
  rw [if_pos (valuations_between more (by omega))]

theorem expand_large (many : 64 ≤ (openOn vars path).length) : expand vars path = .ok [] := by
  unfold expand
  rw [valuations_large many, if_neg (by decide), if_pos rfl]

theorem expand_cases (vars : List Nat) (path : Path) :
    ((openOn vars path).length ≤ 44 ∧ expand vars path = .ok (Region.expand vars path)) ∨
      (64 ≤ (openOn vars path).length ∧ expand vars path = .ok []) ∨
      ((openOn vars path).length < 64 ∧ 44 < (openOn vars path).length ∧ expand vars path = .error .noRoom) := by
  rcases Nat.lt_or_ge 44 (openOn vars path).length with more | room
  · rcases Nat.lt_or_ge (openOn vars path).length 64 with less | many
    · exact .inr (.inr ⟨less, more, expand_between more less⟩)
    · exact .inr (.inl ⟨many, expand_large many⟩)
  · exact .inl ⟨room, expand_small room⟩

theorem length_expand (vars : List Nat) (path : Path) : (Region.expand vars path).length = 2 ^ (openOn vars path).length := by
  have each : ∀ free : List Nat, (Region.assignments free).length = 2 ^ free.length := by
    intro free
    induction free with
    | nil => rfl
    | cons v rest ih => simp [Region.assignments, List.length_flatMap, ih, pow_succ]
  unfold Region.expand
  rw [List.length_map, each]
  rfl

-- What is listed of some paths: parts of the whole in their order, and all of it when there is room.
theorem expand_each {paths : List Path} {parts : List (List Region)} (done : paths.mapM (expand vars) = .ok parts) :
    parts.flatten.Sublist (paths.flatMap (Region.expand vars)) ∧
      (parts.flatten.length = (paths.flatMap (Region.expand vars)).length ↔ ∀ path ∈ paths, (openOn vars path).length ≤ 44) := by
  induction paths generalizing parts with
  | nil =>
      obtain rfl : [] = parts := Except.ok.inj done
      simp
  | cons path rest ih =>
      rw [List.mapM_cons] at done
      obtain ⟨first, here, done⟩ := ok_of_bind done
      obtain ⟨others, more, same⟩ := ok_of_bind done
      cases same
      obtain ⟨part, whole⟩ := ih more
      rw [List.flatten_cons, List.flatMap_cons, List.forall_mem_cons]
      obtain ⟨room, cells⟩ | ⟨many, cells⟩ | ⟨_, _, fails⟩ := expand_cases vars path
      · obtain rfl : Region.expand vars path = first := Except.ok.inj (cells.symm.trans here)
        refine ⟨(List.Sublist.refl _).append part, ?_⟩
        rw [List.length_append, List.length_append, Nat.add_left_cancel_iff, whole, and_iff_right room]
      -- a path without room adds nothing, where the whole list has a cell at least
      · obtain rfl : [] = first := Except.ok.inj (cells.symm.trans here)
        refine ⟨part.trans (List.sublist_append_right _ _), iff_of_false (fun same => ?_) fun all => absurd all.1 (by omega)⟩
        have fewer := part.length_le
        have some := Nat.two_pow_pos (openOn vars path).length
        rw [List.nil_append, List.length_append, length_expand] at same
        omega
      · cases fails.symm.trans here

theorem listing_part {all : List Region} (done : listing s vars = .ok all) :
    all.Sublist (s.pickAll vars) ∧ (all.length = (s.pickAll vars).length ↔ Fits s vars) := by
  obtain ⟨parts, each, same⟩ := ok_of_bind done
  cases same
  exact expand_each each

theorem listing_whole (fits : Fits s vars) : listing s vars = .ok (s.pickAll vars) := by
  unfold listing
  rw [map_m_of_each fun path listed => expand_small (fits path listed)]
  rfl

-- What is listed without loss has room, as a path without room is lost.
theorem listing_counts {all : List Region} (done : listing s vars = .ok all) (counts : Counts s vars) : Fits s vars := by
  intro path listed
  obtain ⟨parts, each, _⟩ := ok_of_bind done
  obtain ⟨cells, _, here⟩ := ok_of_map_m each path listed
  obtain ⟨room, _⟩ | ⟨many, _⟩ | ⟨_, _, fails⟩ := expand_cases vars path
  · exact room
  · exact absurd (counts path listed) (by omega)
  · cases fails.symm.trans here

theorem listing_error {e : Fault} (failed : listing s vars = .error e) : e = .noRoom ∧ ¬ Fits s vars := by
  obtain failed | ⟨_, _, ⟨⟩⟩ := error_of_bind failed
  obtain ⟨path, listed, here⟩ := error_of_map_m failed
  obtain ⟨_, cells⟩ | ⟨_, cells⟩ | ⟨_, more, fails⟩ := expand_cases vars path
  · cases cells.symm.trans here
  · cases cells.symm.trans here
  · exact ⟨Except.error.inj (here.symm.trans fails), fun fits => absurd (fits path listed) (by omega)⟩

theorem fits_of_few (few : (s.pickAll vars).length ≤ 2 ^ 44) : Fits s vars := by
  intro path listed
  have part : (Region.expand vars path).Sublist (s.pickAll vars) := List.sublist_flatten_of_mem (List.mem_map_of_mem listed)
  have fewer := part.length_le.trans few
  rw [length_expand] at fewer
  exact (Nat.pow_le_pow_iff_right Nat.one_lt_two).mp fewer

theorem fits_of_length (s : Region) (short : vars.length ≤ 44) : Fits s vars := fun _ _ =>
  (List.length_filter_le _ _).trans short

theorem counts_of_length (s : Region) (short : vars.length < 64) : Counts s vars := fun _ _ =>
  lt_of_le_of_lt (List.length_filter_le _ _) short

theorem indices_known (known : ∀ v ∈ vars, v < space.size) : space.indices (vars.map Int.ofNat) = .ok vars := by
  unfold indices
  rw [map_m_of_each (g := Int.toNat), List.map_map]
  · exact congrArg Except.ok (List.map_id vars)
  · intro index listed
    obtain ⟨v, here, rfl⟩ := List.mem_map.mp listed
    rw [index_known (known v here)]
    rfl

theorem pick_all_listing (s : Region) (known : ∀ v ∈ vars, v < space.size) : space.pickAll s (vars.map Int.ofNat) = listing s vars := by
  unfold pickAll
  cases empty : s.isEmpty with
  | false =>
      rw [if_neg Bool.false_ne_true, indices_known known]
      rfl
  | true =>
      have none : s.keep vars = .empty := by
        refine Region.members_injective (Set.ext fun ρ => ?_)
        rw [Region.mem_keep, Region.is_empty_members.mp empty, Region.members_empty]
        simp
      rw [if_pos rfl, listing, none]
      rfl

theorem length_listed (s : Region) (distinct : vars.Nodup) (known : ∀ v ∈ vars, v < space.size) :
    (s.pickAll vars).length = space.count s vars := by
  rw [count_weight s distinct known, Region.length_pick_all s distinct]

end Space

namespace Region

variable {s : Region} {vars : List Nat}

theorem listed_apart (distinct : vars.Nodup) : (s.pickAll vars).Pairwise fun c d => Disjoint c.members d.members := by
  refine (pick_all_nodup s distinct).imp_of_mem fun {c d} first second different => Set.disjoint_left.mpr fun ρ inFirst inSecond => ?_
  obtain ⟨μ, _, rfl⟩ := (pick_all_spec s vars).1 c first
  obtain ⟨ν, _, rfl⟩ := (pick_all_spec s vars).1 d second
  refine different (congrArg cell (List.map_congr_left fun v listed => ?_))
  rw [← mem_cell_of.mp inFirst v listed, mem_cell_of.mp inSecond v listed]

theorem mem_pick_all {c : Region} : c ∈ s.pickAll vars ↔ ∃ μ ∈ s.members, c = cell (vars.map fun v => (v, μ v)) := by
  obtain ⟨sound, complete⟩ := pick_all_spec s vars
  constructor
  · intro listed
    obtain ⟨μ, member, rfl⟩ := sound c listed
    obtain ⟨ν, inside, same⟩ := mem_keep.mp member
    exact ⟨ν, inside, congrArg cell (List.map_congr_left fun v here => by rw [same v here])⟩
  · rintro ⟨μ, member, rfl⟩
    exact complete μ (mem_keep.mpr ⟨μ, member, fun _ _ => rfl⟩)

theorem mem_listed {ρ : Valuation} : ρ ∈ (s.keep vars).members ↔ ∃ c ∈ s.pickAll vars, ρ ∈ c.members := by
  constructor
  · intro member
    exact ⟨_, (pick_all_spec s vars).2 ρ member, mem_cell_of.mpr fun _ _ => rfl⟩
  · rintro ⟨c, listed, inside⟩
    obtain ⟨μ, member, rfl⟩ := mem_pick_all.mp listed
    exact mem_keep.mpr ⟨μ, member, fun v here => (mem_cell_of.mp inside v here).symm⟩

end Region

end Coalition
