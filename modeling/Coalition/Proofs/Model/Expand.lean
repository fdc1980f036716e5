import Coalition.Proofs.Model.Replace
import Coalition.Proofs.Model.Resolve

-- The region of a named expression is the one of its text with the texts of the others put in for their mentions, whatever the order in
-- which they are resolved.

set_option autoImplicit false

namespace Coalition

namespace Expression

theorem mentions_substitute (σ : String → Expression) (e : Expression) :
    (e.substitute σ).mentions = e.mentions.flatMap fun name => (σ name).mentions := by
  induction e with
  | constant _ => rfl
  | isValue _ _ => rfl
  | isAmong _ _ => rfl
  | same _ _ => rfl
  | named name => simp [substitute, mentions]
  | not body ih => exact ih
  | and left right leftIh rightIh => simp [substitute, mentions, leftIh, rightIh]
  | or left right leftIh rightIh => simp [substitute, mentions, leftIh, rightIh]
  | implies left right leftIh rightIh => simp [substitute, mentions, leftIh, rightIh]
  | iff left right leftIh rightIh => simp [substitute, mentions, leftIh, rightIh]

theorem region_substitute {σ : String → Expression} {defines : List (String × Region)} {e : Expression}
    (same : ∀ name ∈ e.mentions, (σ name).region defines = (named name).region defines) : (e.substitute σ).region defines = e.region defines := by
  induction e with
  | constant _ => rfl
  | isValue _ _ => rfl
  | isAmong _ _ => rfl
  | same _ _ => rfl
  | named name => exact same name List.mem_cons_self
  | not body ih => rw [substitute, region, region, ih same]
  | and left right leftIh rightIh =>
      obtain ⟨first, second⟩ := List.forall_mem_append.mp same
      rw [substitute, region, region, leftIh first, rightIh second]
  | or left right leftIh rightIh =>
      obtain ⟨first, second⟩ := List.forall_mem_append.mp same
      rw [substitute, region, region, leftIh first, rightIh second]
  | implies left right leftIh rightIh =>
      obtain ⟨first, second⟩ := List.forall_mem_append.mp same
      rw [substitute, region, region, leftIh first, rightIh second]
  | iff left right leftIh rightIh =>
      obtain ⟨first, second⟩ := List.forall_mem_append.mp same
      rw [substitute, region, region, leftIh first, rightIh second]

end Expression

namespace Description

-- A text with the mentions of named expressions replaced by their texts in parentheses, in which mentions are replaced before, to this
-- depth. A byte order mark that such a text begins with is left out.
def expand (d : Description) (vars : List Variable) : (depth : Nat) → String → String
  | 0, text => text
  | depth + 1, text =>
      Expression.replace (d.allNames vars) (fun name => Expression.unmarked (d.expand vars depth (d.textOf name)).toList) text

-- The expression of a named one, with those of the others put in for their mentions to this depth.
def unfolded (d : Description) (vars : List Variable) : (depth : Nat) → String → Expression
  | 0, name => (Expression.parse (d.allNames vars) .state (d.textOf name)).toOption.getD (.constant false)
  | depth + 1, name => (d.unfolded vars 0 name).substitute (d.unfolded vars depth)

section

variable {d : Description} {vars : List Variable} {ready : List (String × Region)} {name : String}

theorem unfolded_of_parse {e : Expression} (parsed : Expression.parse (d.allNames vars) .state (d.textOf name) = .ok e) :
    d.unfolded vars 0 name = e := by
  rw [unfolded, parsed]
  rfl

theorem parse_expand (typed : ∀ name ∈ d.defines.map (·.1), d.WellTyped vars name) (depth : Nat) :
    ∀ name ∈ d.defines.map (·.1),
      Expression.parse (d.allNames vars) .state (d.expand vars depth (d.textOf name)) = .ok (d.unfolded vars depth name) := by
  induction depth with
  | zero =>
      intro name listed
      obtain ⟨e, parsed⟩ := typed name listed
      rw [unfolded_of_parse parsed]
      exact parsed
  | succ depth ih =>
      intro name listed
      obtain ⟨e, parsed⟩ := typed name listed
      rw [unfolded, unfolded_of_parse parsed]
      exact Expression.parse_replace (List.Subset.refl _) (List.Subset.refl _) (fun other known => ⟨_, rfl, ih other known⟩) parsed

theorem Resolved.unfolded_region (resolved : d.Resolved vars ready) (depth : Nat) : ∀ name ∈ ready.map (·.1),
    ready.lookup name = some ((d.unfolded vars depth name).region ready) := by
  induction depth with
  | zero =>
      intro name listed
      obtain ⟨e, parsed, _, found⟩ := resolved.read name listed
      rw [unfolded_of_parse parsed, found]
  | succ depth ih =>
      intro name listed
      obtain ⟨e, parsed, mentioned, found⟩ := resolved.read name listed
      rw [unfolded, unfolded_of_parse parsed, found, Expression.region_substitute fun other inside => ?_]
      rw [Expression.region, ih other (mentioned other inside), Option.getD_some]

-- At the depth of all that was ready before, nothing is mentioned any more.
theorem Resolved.unfolded_closed (resolved : d.Resolved vars ready) : ∀ name ∈ ready.map (·.1), ∀ depth, ready.length ≤ depth →
    (d.unfolded vars depth name).mentions = [] := by
  induction resolved with
  | none => exact fun _ listed => absurd listed List.not_mem_nil
  | @more ready name e before fresh read ih =>
      intro other listed depth deep
      obtain - | depth := depth
      · exact absurd deep (Nat.not_succ_le_zero _)
      have less : ready.length ≤ depth := Nat.le_of_succ_le_succ deep
      obtain rfl | earlier := List.mem_cons.mp listed
      · have mentioned := (Expression.parse_typed _ _ _ e read).mentioned
        rw [unfolded, unfolded_of_parse (Expression.parse_within before.within read), Expression.mentions_substitute,
          List.flatMap_eq_nil_iff]
        exact fun another inside => ih another (mentioned another inside) depth less
      · exact ih other earlier _ (Nat.le_succ_of_le less)

end

theorem build_resolves (d : Description) : Yields d.build fun sys =>
    d.resolveDefines (layStates 0 d.vars ++ layInputs (2 * bitCount d.vars) d.inputs) = .ok sys.defines := by
  intro sys done
  have built := build_builds done
  have resolved := built.resolved
  rw [built.frame] at resolved
  exact resolved

theorem build_fails {d : Description} (valid : d.validate = .ok ()) {space : Space}
    (room : Space.create (((2 * bitCount d.vars : Nat) : Int) + bitCount d.inputs) d.strategyBits = .ok space) {e : Error}
    (failed : d.resolveDefines (layStates 0 d.vars ++ layInputs (2 * bitCount d.vars) d.inputs) = .error e) : d.build = .error e := by
  unfold build
  rw [valid]
  dsimp only
  rw [room]
  change (d.resolveDefines (layStates 0 d.vars ++ layInputs (2 * bitCount d.vars) d.inputs) >>= _) = _
  rw [failed]
  rfl

-- Every text in which the mentions are replaced, to any depth, has the region of the named expression; and where nothing is mentioned any
-- more, it has it without the others.
theorem Resolved.compile_expand {d : Description} {vars : List Variable} {ready : List (String × Region)} (resolved : d.Resolved vars ready)
    (all : d.defines.map (·.1) ⊆ ready.map (·.1)) {name : String} (listed : name ∈ d.defines.map (·.1)) :
    ∃ r, ready.lookup name = some r ∧
      (∀ depth, System.compile ⟨vars, d.defines.map (·.1), ready.map (·.1)⟩ ready .state (d.expand vars depth (d.textOf name)) = .ok r) ∧
      ∀ depth, d.defines.length ≤ depth →
        System.compile ⟨vars, d.defines.map (·.1), []⟩ [] .state (d.expand vars depth (d.textOf name)) = .ok r := by
  have typed : ∀ other ∈ d.defines.map (·.1), d.WellTyped vars other := fun other defined => by
    obtain ⟨e, parsed, _⟩ := resolved.read other (all defined)
    exact ⟨e, parsed⟩
  obtain ⟨r, found⟩ := Option.isSome_iff_exists.mp (lookup_isSome.mpr (all listed))
  have region (depth : Nat) : r = (d.unfolded vars depth name).region ready :=
    Option.some.inj (found.symm.trans (resolved.unfolded_region depth name (all listed)))
  have parsed (depth : Nat) := parse_expand typed depth name listed
  refine ⟨r, found, fun depth => ?_, fun depth deep => ?_⟩
  · have within : (d.allNames vars).Within ⟨vars, d.defines.map (·.1), ready.map (·.1)⟩ := ⟨rfl, fun _ => Iff.rfl, all, resolved.subset⟩
    exact System.compile_ok.mpr ⟨_, Expression.parse_within within (parsed depth), region depth⟩
  · have fewer : ready.length ≤ d.defines.length := by
      have bound := (resolved.nodup.subperm resolved.subset).length_le
      rwa [List.length_map, List.length_map] at bound
    have closed := resolved.unfolded_closed name (all listed) depth (Nat.le_trans fewer deep)
    have within : Expression.Names.Within ⟨vars, d.defines.map (·.1), []⟩ (d.allNames vars) :=
      ⟨rfl, fun _ => Iff.rfl, List.nil_subset _, List.Subset.refl _⟩
    have alone : (d.unfolded vars depth name).region ready = (d.unfolded vars depth name).region [] :=
      Expression.region_same fun other mentioned => absurd (closed ▸ mentioned) List.not_mem_nil
    refine System.compile_ok.mpr ⟨d.unfolded vars depth name, ?_, (region depth).trans alone⟩
    obtain ⟨_, same | ⟨other, _, waits⟩⟩ := Expression.parse_near within .state (d.expand vars depth (d.textOf name))
    · rw [same, parsed depth]
    · have mentioned : other ∈ (d.unfolded vars depth name).mentions := waits _ (parsed depth)
      rw [closed] at mentioned
      exact absurd mentioned List.not_mem_nil

/-- The resolution of named expressions always ends. Whatever the order, it succeeds exactly when none of them mentions itself and all of
them are state expressions. Then each has the region of its text with the texts of the others put in for their mentions. Otherwise the
expressions are not well typed, and neither is the model. -/
theorem defines_resolve {d : Description} (valid : d.validate = .ok ()) {order : List (String × String)} (perm : order.Perm d.defines) :
    let vars := layStates 0 d.vars ++ layInputs (2 * bitCount d.vars) d.inputs
    (∀ ready name, d.Resolved vars ready →
      d.Resolution vars [] ready name (d.resolveDefine vars (2 * d.defines.length + 2) [] ready name)) ∧
    ((∃ ready, d.resolveIn vars order [] = .ok ready) ↔
      ¬ d.Circular vars ∧ ∀ define ∈ d.defines, d.WellTyped vars define.1) ∧
    (∀ ready, d.resolveIn vars order [] = .ok ready → ∀ define ∈ d.defines, ∃ r, ready.lookup define.1 = some r ∧
      (∀ depth, System.compile ⟨vars, d.defines.map (·.1), ready.map (·.1)⟩ ready .state (d.expand vars depth define.2) = .ok r) ∧
      ∀ depth, d.defines.length ≤ depth →
        System.compile ⟨vars, d.defines.map (·.1), []⟩ [] .state (d.expand vars depth define.2) = .ok r) ∧
    (∀ e, d.resolveIn vars order [] = .error e → TypeFault e) ∧
    (∀ sys, d.build = .ok sys → d.resolveIn vars d.defines [] = .ok sys.defines) ∧
    ∀ space, Space.create (((2 * bitCount d.vars : Nat) : Int) + bitCount d.inputs) d.strategyBits = .ok space →
      ∀ e, d.resolveIn vars d.defines [] = .error e → d.build = .error e := by
  intro vars
  have iff := resolve_in_iff vars perm
  rw [List.forall_mem_map] at iff
  refine ⟨fun ready name before => resolve_define_first name before, iff, fun ready done define defined => ?_,
    fun e failed => resolve_in_fault .none failed, d.build_resolves, fun space room e failed => build_fails valid room failed⟩
  obtain ⟨resolved, each, _⟩ := resolve_in_resolved order .none ready done
  have all : d.defines.map (·.1) ⊆ ready.map (·.1) := fun name listed => by
    obtain ⟨other, known, rfl⟩ := List.mem_map.mp listed
    exact each other (perm.mem_iff.mpr known)
  have text : d.textOf define.1 = define.2 := by
    rw [textOf, lookup_of_listed (d.validate_named _ valid).defines defined, Option.getD_some]
  have compiled := resolved.compile_expand all (List.mem_map_of_mem defined)
  rwa [text] at compiled

def diamond : Description where
  name := "diamond"
  vars := [⟨"x", ["false", "true"]⟩, ⟨"y", ["false", "true"]⟩]
  defines := [("top", "left & right"), ("left", "~base"), ("right", "base | x"), ("base", "x -> y")]

theorem defines_resolve_diamond : diamond.validate = .ok () ∧ diamond.defines.reverse.Perm diamond.defines ∧
    let vars := layStates 0 diamond.vars
    let names := diamond.defines.map (·.1)
    ∃ ready r, diamond.resolveIn vars diamond.defines.reverse [] = .ok ready ∧ ready.lookup "top" = some r ∧
      diamond.expand vars 1 "left & right" = "(~base) & (base | x)" ∧
      System.compile ⟨vars, names, ready.map (·.1)⟩ ready .state "(~base) & (base | x)" = .ok r ∧
      diamond.expand vars 4 "left & right" = "(~(x -> y)) & ((x -> y) | x)" ∧
      System.compile ⟨vars, names, []⟩ [] .state "(~(x -> y)) & ((x -> y) | x)" = .ok r := by
  have valid : diamond.validate = .ok () := rfl
  have perm : diamond.defines.reverse.Perm diamond.defines := List.reverse_perm _
  refine ⟨valid, perm, ?_⟩
  intro vars names
  obtain ⟨_, _, regions, _⟩ := defines_resolve valid perm
  obtain ⟨ready, done⟩ : ∃ ready, diamond.resolveIn vars diamond.defines.reverse [] = .ok ready := ok_of_is_ok (by decide +kernel)
  obtain ⟨r, found, compiled, alone⟩ := regions ready done ("top", "left & right") List.mem_cons_self
  have once : diamond.expand vars 1 "left & right" = "(~base) & (base | x)" := by decide +kernel
  have whole : diamond.expand vars 4 "left & right" = "(~(x -> y)) & ((x -> y) | x)" := by decide +kernel
  exact ⟨ready, r, done, found, once, once ▸ compiled 1, whole, whole ▸ alone 4 (Nat.le_refl _)⟩

def marked : Description where
  name := "mark"
  vars := [⟨"x", ["false", "true"]⟩]
  defines := [("b", "\uFEFFx"), ("a", "b")]

-- A byte order mark is only left out where a text begins.
theorem marked_text_not_compiled : ∃ sys r, marked.build = .ok sys ∧ sys.defines.lookup "a" = some r ∧
    Expression.replace sys.names (fun name => (marked.textOf name).toList) (marked.textOf "a") = "(\uFEFFx)" ∧
    System.compile sys.names sys.defines .state "(\uFEFFx)" ≠ .ok r := by
  have works : (do
      let sys ← marked.build
      return ((sys.defines.lookup "a").isSome,
        Expression.replace sys.names (fun name => (marked.textOf name).toList) (marked.textOf "a"),
        (System.compile sys.names sys.defines .state "(\uFEFFx)").isOk)).toOption = some (true, "(\uFEFFx)", false) := by decide +kernel
  obtain ⟨sys, built, rest⟩ := ok_of_bind (ok_of_to_option works)
  obtain ⟨known, rest⟩ := Prod.mk.inj (Except.ok.inj rest)
  obtain ⟨text, fails⟩ := Prod.mk.inj rest
  obtain ⟨r, found⟩ := Option.isSome_iff_exists.mp known
  refine ⟨sys, r, built, found, text, fun compiled => ?_⟩
  rw [compiled] at fails
  cases fails

end Description

end Coalition
