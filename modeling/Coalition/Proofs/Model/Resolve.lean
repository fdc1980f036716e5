import Mathlib.Logic.Relation
import Coalition.Proofs.Model.Compiled

-- The resolution of named expressions ends, and succeeds exactly when every one of them is a state expression and none mentions itself
-- through others.

set_option autoImplicit false

namespace Coalition

namespace Description

def textOf (d : Description) (name : String) : String := (d.defines.lookup name).getD ""

def allNames (d : Description) (vars : List Variable) : Expression.Names := ⟨vars, d.defines.map (·.1), d.defines.map (·.1)⟩

-- The text of a named expression is a state expression.
def WellTyped (d : Description) (vars : List Variable) (name : String) : Prop :=
  ∃ e, Expression.parse (d.allNames vars) .state (d.textOf name) = .ok e

def Mentions (d : Description) (vars : List Variable) (name other : String) : Prop :=
  ∃ e, Expression.parse (d.allNames vars) .state (d.textOf name) = .ok e ∧ other ∈ e.mentions

-- A named expression mentions itself, perhaps through others.
def Circular (d : Description) (vars : List Variable) : Prop := ∃ name, Relation.TransGen (d.Mentions vars) name name

-- How a named expression is resolved: the names above it wait for it, some expressions are ready, and this comes out.
inductive Resolution (d : Description) (vars : List Variable) :
    List String → List (String × Region) → String → Except Error (List (String × Region)) → Prop where
  | known {above : List String} {ready : List (String × Region)} {name : String} (listed : name ∈ ready.map (·.1)) :
      Resolution d vars above ready name (.ok ready)
  | circular {above : List String} {ready : List (String × Region)} {name : String} (fresh : name ∉ ready.map (·.1)) (waits : name ∈ above) :
      Resolution d vars above ready name (.error (.defineCycle name))
  | compiled {above : List String} {ready : List (String × Region)} {name : String} {e : Expression} (fresh : name ∉ ready.map (·.1))
      (first : name ∉ above) (read : Expression.parse ⟨vars, d.defines.map (·.1), ready.map (·.1)⟩ .state (d.textOf name) = .ok e) :
      Resolution d vars above ready name (.ok ((name, e.region ready) :: ready))
  | illTyped {above : List String} {ready : List (String × Region)} {name : String} {problem : Expression.Problem}
      (fresh : name ∉ ready.map (·.1)) (first : name ∉ above)
      (failed : Expression.parse ⟨vars, d.defines.map (·.1), ready.map (·.1)⟩ .state (d.textOf name) = .error problem)
      (final : ∀ other, problem ≠ .pending other) :
      Resolution d vars above ready name (.error (.inside ("define " ++ name) (.expression (problem.subject (d.textOf name)) problem)))
  | through {above : List String} {ready middle : List (String × Region)} {name other : String} {result : Except Error (List (String × Region))}
      (fresh : name ∉ ready.map (·.1)) (first : name ∉ above)
      (waits : Expression.parse ⟨vars, d.defines.map (·.1), ready.map (·.1)⟩ .state (d.textOf name) = .error (.pending other))
      (before : Resolution d vars (name :: above) ready other (.ok middle)) (after : Resolution d vars above middle name result) :
      Resolution d vars above ready name result
  | stuck {above : List String} {ready : List (String × Region)} {name other : String} {e : Error}
      (fresh : name ∉ ready.map (·.1)) (first : name ∉ above)
      (waits : Expression.parse ⟨vars, d.defines.map (·.1), ready.map (·.1)⟩ .state (d.textOf name) = .error (.pending other))
      (before : Resolution d vars (name :: above) ready other (.error e)) :
      Resolution d vars above ready name (.error (.inside ("define " ++ name) e))

inductive TypeFault : Error → Prop where
  | expression {subject : String} {problem : Expression.Problem} (final : ∀ other, problem ≠ .pending other) :
      TypeFault (.expression subject problem)
  | circular (name : String) : TypeFault (.defineCycle name)
  | inside (part : String) {e : Error} (fault : TypeFault e) : TypeFault (.inside part e)

section

variable {d : Description} {vars : List Variable} {above : List String} {ready : List (String × Region)} {name : String}

theorem Resolution.fault {result : Except Error (List (String × Region))} (resolution : d.Resolution vars above ready name result) :
    ∀ e, result = .error e → TypeFault e := by
  induction resolution with
  | known listed => exact nofun
  | circular fresh waits =>
      rintro _ ⟨⟩
      exact .circular _
  | compiled fresh first read => exact nofun
  | illTyped fresh first failed final =>
      rintro _ ⟨⟩
      exact .inside _ (.expression final)
  | through fresh first waits before after _ ih => exact ih
  | stuck fresh first waits before ih =>
      rintro _ ⟨⟩
      exact .inside _ (ih _ rfl)

theorem Resolved.nodup (resolved : d.Resolved vars ready) : (ready.map (·.1)).Nodup := by
  induction resolved with
  | none => exact List.nodup_nil
  | more before fresh read ih => exact List.nodup_cons.mpr ⟨fresh, ih⟩

theorem Resolved.subset (resolved : d.Resolved vars ready) : ready.map (·.1) ⊆ d.defines.map (·.1) := fun _ listed => by
  obtain ⟨define, defined, rfl⟩ := resolved.listed _ listed
  exact List.mem_map_of_mem defined

theorem Resolved.within (resolved : d.Resolved vars ready) :
    Expression.Names.Within ⟨vars, d.defines.map (·.1), ready.map (·.1)⟩ (d.allNames vars) :=
  ⟨rfl, fun _ => Iff.rfl, resolved.subset, List.Subset.refl _⟩

theorem lookup_isSome {β : Type} {ready : List (String × β)} : (ready.lookup name).isSome = true ↔ name ∈ ready.map (·.1) := by
  rw [← not_iff_not, Bool.not_eq_true, Option.isSome_eq_false_iff, Option.isNone_iff_eq_none, List.lookup_eq_none_iff]
  simp only [bne_iff_ne, ne_eq, Prod.forall, List.mem_map, Prod.exists, exists_and_right, exists_eq_right, not_exists]
  exact ⟨fun absent r listed => absent name r listed rfl, fun absent other r listed same => absent r (same ▸ listed)⟩

theorem resolve_define_step {fuel : Nat} (fresh : name ∉ ready.map (·.1)) (first : name ∉ above) :
    d.resolveDefine vars (fuel + 1) above ready name =
      match Expression.parse ⟨vars, d.defines.map (·.1), ready.map (·.1)⟩ .state (d.textOf name) with
      | .ok e => .ok ((name, e.region ready) :: ready)
      | .error (.pending other) =>
          match d.resolveDefine vars fuel (name :: above) ready other with
          | .ok middle => d.resolveDefine vars fuel above middle name
          | .error e => .error (.inside ("define " ++ name) e)
      | .error problem => .error (.inside ("define " ++ name) (.expression (problem.subject (d.textOf name)) problem)) := by
  rw [resolveDefine, if_neg (fun known => fresh (lookup_isSome.mp known)), if_neg (fun known => first (List.contains_iff_mem.mp known))]
  unfold System.compile textOf
  dsimp only
  cases Expression.parse ⟨vars, d.defines.map (·.1), ready.map (·.1)⟩ .state ((d.defines.lookup name).getD "") with
  | ok e => rfl
  | error problem => cases problem <;> rfl

-- A name that waits is a new one, and so is every name that gets ready: there is fuel for all of them.
theorem resolve_define_ends {fuel : Nat} (apart : above.Nodup) (inside : above ⊆ d.defines.map (·.1)) (resolved : d.Resolved vars ready)
    (enough : (d.defines.length - above.length) + (d.defines.length - ready.length) < fuel) :
    d.Resolution vars above ready name (d.resolveDefine vars fuel above ready name) := by
  induction fuel generalizing above ready name with
  | zero => exact absurd enough (Nat.not_lt_zero _)
  | succ fuel ih =>
      by_cases listed : name ∈ ready.map (·.1)
      · rw [resolveDefine, if_pos (lookup_isSome.mpr listed)]
        exact .known listed
      by_cases waits : name ∈ above
      · rw [resolveDefine, if_neg (fun known => listed (lookup_isSome.mp known)), if_pos (List.contains_iff_mem.mpr waits)]
        exact .circular listed waits
      rw [resolve_define_step listed waits]
      cases read : Expression.parse ⟨vars, d.defines.map (·.1), ready.map (·.1)⟩ .state (d.textOf name) with
      | ok e => exact .compiled listed waits read
      | error problem =>
          by_cases pending : ∃ other, problem = .pending other
          · obtain ⟨other, rfl⟩ := pending
            dsimp only
            obtain ⟨known, unready⟩ := (Expression.parse_near resolved.within _ _).1 other read
            have member : name ∈ d.defines.map (·.1) := by
              by_contra absent
              have unknown : (d.defines.lookup name).isSome = false := eq_false_of_ne_true fun known => absent (lookup_isSome.mp known)
              rw [textOf, Option.isSome_eq_false_iff.mp unknown |> Option.isNone_iff_eq_none.mp] at read
              cases read
            have apartToo : (name :: above).Nodup := List.nodup_cons.mpr ⟨waits, apart⟩
            have insideToo : name :: above ⊆ d.defines.map (·.1) := List.cons_subset.mpr ⟨member, inside⟩
            have room := (apartToo.subperm insideToo).length_le
            rw [List.length_cons, List.length_map] at room
            have before : d.Resolution vars (name :: above) ready other (d.resolveDefine vars fuel (name :: above) ready other) :=
              ih apartToo insideToo resolved (by rw [List.length_cons]; omega)
            cases first : d.resolveDefine vars fuel (name :: above) ready other with
            | error e =>
                rw [first] at before
                exact .stuck listed waits read before
            | ok middle =>
                rw [first] at before
                obtain ⟨resolvedToo, found, kept⟩ := resolve_define_resolved fuel (name :: above) other resolved middle first
                have more : (other :: ready.map (·.1)).length ≤ (middle.map (·.1)).length :=
                  ((List.nodup_cons.mpr ⟨unready, resolved.nodup⟩).subperm (List.cons_subset.mpr ⟨found, kept⟩)).length_le
                have bound := (resolvedToo.nodup.subperm resolvedToo.subset).length_le
                rw [List.length_cons, List.length_map, List.length_map] at more
                rw [List.length_map, List.length_map] at bound
                exact .through listed waits read before (ih apart inside resolvedToo (by omega))
          · have final : ∀ other, problem ≠ .pending other := fun other same => pending ⟨other, same⟩
            have ending := Resolution.illTyped listed waits read final
            cases problem <;> first | exact ending | exact absurd rfl (final _)

theorem resolve_define_first (name : String) (resolved : d.Resolved vars ready) :
    d.Resolution vars [] ready name (d.resolveDefine vars (2 * d.defines.length + 2) [] ready name) :=
  resolve_define_ends List.nodup_nil (List.nil_subset _) resolved (by rw [List.length_nil]; omega)

theorem Resolution.resolved {result : Except Error (List (String × Region))} (resolution : d.Resolution vars above ready name result)
    (before : d.Resolved vars ready) : ∀ after, result = .ok after → d.Resolved vars after := by
  induction resolution with
  | known listed =>
      rintro _ ⟨⟩
      exact before
  | circular fresh waits => exact nofun
  | compiled fresh first read =>
      rintro _ ⟨⟩
      exact .more before fresh read
  | illTyped fresh first failed final => exact nofun
  | through fresh first waits _ _ firstIh secondIh => exact secondIh (firstIh before _ rfl)
  | stuck fresh first waits before ih => exact nofun

-- Only a cycle or an expression that is not well typed keeps a named expression from being compiled.
theorem Resolution.succeeds {result : Except Error (List (String × Region))} (resolution : d.Resolution vars above ready name result)
    (typed : ∀ name ∈ d.defines.map (·.1), d.WellTyped vars name) (acyclic : ¬ d.Circular vars) (before : d.Resolved vars ready)
    (member : name ∈ d.defines.map (·.1)) (waiting : ∀ a ∈ above, Relation.TransGen (d.Mentions vars) a name) :
    ∃ after, result = .ok after := by
  have all {ready : List (String × Region)} (resolved : d.Resolved vars ready) {name : String} (member : name ∈ d.defines.map (·.1)) :
      ∃ e, Expression.parse (d.allNames vars) .state (d.textOf name) = .ok e ∧ ∀ problem,
        Expression.parse ⟨vars, d.defines.map (·.1), ready.map (·.1)⟩ .state (d.textOf name) = .error problem →
          ∃ other ∈ e.mentions, problem = .pending other ∧ other ∈ d.defines.map (·.1) := by
    obtain ⟨e, parsed⟩ := typed name member
    obtain ⟨known, same | ⟨other, waits, mentioned⟩⟩ := Expression.parse_near resolved.within .state (d.textOf name)
    · exact ⟨e, parsed, fun problem failed => by rw [same, parsed] at failed; cases failed⟩
    · refine ⟨e, parsed, fun problem failed => ⟨other, mentioned e parsed, ?_, (known other waits).1⟩⟩
      rw [waits] at failed
      exact (Except.error.inj failed).symm
  induction resolution with
  | known listed => exact ⟨_, rfl⟩
  | circular fresh waits => exact absurd ⟨_, waiting _ waits⟩ acyclic
  | compiled fresh first read => exact ⟨_, rfl⟩
  | illTyped fresh first failed final =>
      obtain ⟨_, _, ill⟩ := all before member
      obtain ⟨other, _, pending, _⟩ := ill _ failed
      exact absurd pending (final other)
  | through fresh first waits resolution _ _ ih => exact ih (resolution.resolved before _ rfl) member waiting
  | stuck fresh first waits resolution ih =>
      obtain ⟨e, parsed, pending⟩ := all before member
      obtain ⟨other, mentioned, same, known⟩ := pending _ waits
      cases same
      have step : d.Mentions vars _ _ := ⟨e, parsed, mentioned⟩
      obtain ⟨_, success⟩ := ih before known (List.forall_mem_cons.mpr ⟨.single step, fun a listed => (waiting a listed).tail step⟩)
      cases success

theorem lookup_more {other : String} {r : Region} (fresh : name ∉ ready.map (·.1)) (listed : other ∈ ready.map (·.1)) :
    ((name, r) :: ready).lookup other = ready.lookup other := by
  have different : other ≠ name := fun same => fresh (same ▸ listed)
  rw [List.lookup_cons, beq_eq_false_iff_ne.mpr different]

theorem Resolved.read (resolved : d.Resolved vars ready) : ∀ name ∈ ready.map (·.1),
    ∃ e, Expression.parse (d.allNames vars) .state (d.textOf name) = .ok e ∧ (∀ other ∈ e.mentions, other ∈ ready.map (·.1)) ∧
      ready.lookup name = some (e.region ready) := by
  induction resolved with
  | none => exact fun _ listed => absurd listed List.not_mem_nil
  | @more ready name e before fresh read ih =>
      have kept {f : Expression} (mentioned : ∀ other ∈ f.mentions, other ∈ ready.map (·.1)) :
          f.region ready = f.region ((name, e.region ready) :: ready) :=
        Expression.region_same fun other listed => (lookup_more fresh (mentioned other listed)).symm
      rw [List.map_cons, List.forall_mem_cons]
      constructor
      · have mentioned := (Expression.parse_typed _ _ _ e read).mentioned
        refine ⟨e, Expression.parse_within before.within read, fun other listed => List.mem_cons_of_mem _ (mentioned other listed), ?_⟩
        rw [List.lookup_cons_self, ← kept mentioned]
      · intro other listed
        obtain ⟨f, parsed, mentioned, found⟩ := ih other listed
        refine ⟨f, parsed, fun another inside => List.mem_cons_of_mem _ (mentioned another inside), ?_⟩
        rw [lookup_more fresh listed, found, ← kept mentioned]

theorem Resolved.acyclic (resolved : d.Resolved vars ready) : ∀ name ∈ ready.map (·.1), ∀ other,
    Relation.TransGen (d.Mentions vars) name other → other ∈ ready.map (·.1) ∧ other ≠ name := by
  induction resolved with
  | none => exact fun _ listed => absurd listed List.not_mem_nil
  | @more ready name e before fresh read ih =>
      have step {first other : String} (listed : first ∈ name :: ready.map (·.1)) (mentions : d.Mentions vars first other) :
          other ∈ ready.map (·.1) := by
        obtain ⟨f, parsed, mentioned⟩ := mentions
        obtain rfl | earlier := List.mem_cons.mp listed
        · obtain rfl := Except.ok.inj ((Expression.parse_within before.within read).symm.trans parsed)
          exact (Expression.parse_typed _ _ _ e read).mentioned other mentioned
        · obtain ⟨g, parsedToo, inside, _⟩ := before.read first earlier
          obtain rfl := Except.ok.inj (parsed.symm.trans parsedToo)
          exact inside other mentioned
      intro first listed other reached
      have inside : other ∈ ready.map (·.1) := by
        obtain ⟨middle, mentions, later⟩ := Relation.TransGen.head'_iff.mp reached
        obtain rfl | more := Relation.reflTransGen_iff_eq_or_transGen.mp later
        · exact step listed mentions
        · exact (ih middle (step listed mentions) other more).1
      refine ⟨List.mem_cons_of_mem _ inside, ?_⟩
      obtain rfl | earlier := List.mem_cons.mp listed
      · exact fun same => fresh (same ▸ inside)
      · exact (ih first earlier other reached).2

theorem resolve_in_fault {order : List (String × String)} (before : d.Resolved vars ready) {e : Error}
    (failed : d.resolveIn vars order ready = .error e) : TypeFault e := by
  induction order generalizing ready with
  | nil => cases failed
  | cons define rest ih =>
      rw [resolveIn, List.foldlM_cons] at failed
      obtain here | ⟨middle, done, later⟩ := error_of_bind failed
      · exact (resolve_define_first define.1 before).fault e here
      · exact ih (resolve_define_resolved _ [] define.1 before middle done).1 later

theorem resolve_in_succeeds {order : List (String × String)} (before : d.Resolved vars ready)
    (typed : ∀ name ∈ d.defines.map (·.1), d.WellTyped vars name) (acyclic : ¬ d.Circular vars) (listed : order ⊆ d.defines) :
    ∃ after, d.resolveIn vars order ready = .ok after := by
  induction order generalizing ready with
  | nil => exact ⟨ready, rfl⟩
  | cons define rest ih =>
      obtain ⟨here, others⟩ := List.cons_subset.mp listed
      have resolution := resolve_define_first define.1 before
      obtain ⟨middle, done⟩ := resolution.succeeds typed acyclic before (List.mem_map_of_mem here) (List.forall_mem_nil _)
      obtain ⟨after, last⟩ := ih (resolve_define_resolved _ [] define.1 before middle done).1 others
      exact ⟨after, by rw [resolveIn, List.foldlM_cons, done]; exact last⟩

variable (vars) in
-- Named expressions can be resolved, in any order, exactly when all of them are well typed and none of them mentions itself.
theorem resolve_in_iff {order : List (String × String)} (perm : order.Perm d.defines) :
    (∃ after, d.resolveIn vars order [] = .ok after) ↔
      ¬ d.Circular vars ∧ ∀ name ∈ d.defines.map (·.1), d.WellTyped vars name := by
  constructor
  · rintro ⟨after, done⟩
    obtain ⟨resolved, all, _⟩ := resolve_in_resolved order .none after done
    have listed : ∀ name ∈ d.defines.map (·.1), name ∈ after.map (·.1) := by
      intro name member
      obtain ⟨define, defined, rfl⟩ := List.mem_map.mp member
      exact all define (perm.mem_iff.mpr defined)
    refine ⟨fun ⟨name, cycle⟩ => ?_, fun name member => ?_⟩
    · obtain ⟨middle, ⟨e, parsed, _⟩, _⟩ := Relation.TransGen.head'_iff.mp cycle
      obtain ⟨text, defined, _⟩ := text_of_read parsed
      exact (resolved.acyclic name (listed name (List.mem_map_of_mem defined)) name cycle).2 rfl
    · obtain ⟨e, parsed, _⟩ := resolved.read name (listed name member)
      exact ⟨e, parsed⟩
  · exact fun ⟨acyclic, typed⟩ => resolve_in_succeeds .none typed acyclic perm.subset

end

end Description

end Coalition
