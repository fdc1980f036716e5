import Coalition.Evaluation.Decide
import Coalition.Proofs.Strategy.Split

-- What a computation gives and what it leaves in memory, as rules for its steps.

set_option autoImplicit false

namespace Coalition

def Memory.Alike (m n : Memory) : Prop := { m with counters := {} } = { n with counters := {} }

theorem Memory.Alike.refl (m : Memory) : m.Alike m := rfl

theorem Memory.Alike.trans {m n k : Memory} (first : m.Alike n) (second : n.Alike k) : m.Alike k := Eq.trans first second

theorem Memory.Alike.symm {m n : Memory} (alike : m.Alike n) : n.Alike m := Eq.symm alike

theorem Memory.Alike.recalled {m n : Memory} (alike : m.Alike n) : m.recalled = n.recalled := by
  have same := congrArg Memory.recalled alike
  exact same

theorem Memory.Alike.fair {m n : Memory} (alike : m.Alike n) : m.fair = n.fair := by
  have same := congrArg Memory.fair alike
  exact same

theorem Memory.Alike.answers {m n : Memory} (alike : m.Alike n) : m.answers = n.answers := by
  have same := congrArg Memory.answers alike
  exact same

namespace Eval

variable {α β : Type} {x : Eval α} {f : α → Eval β} {m : Memory} {post before : α → Memory → Prop} {after : β → Memory → Prop}

def Ends (x : Eval α) (m : Memory) (post : α → Memory → Prop) : Prop :=
  ∃ a n, x.run m = (.ok a, n) ∧ post a n

theorem ends_pure {a : α} (holds : post a m) : Ends (pure a) m post := ⟨a, m, rfl, holds⟩

theorem run_bind {a : α} {n : Memory} (ran : x.run m = (.ok a, n)) : (x >>= f).run m = (f a).run n := by
  show (ExceptT.bindCont f (x.run m).1).run (x.run m).2 = (f a).run n
  rw [ran]
  rfl

theorem run_bind_error {e : Error} {n : Memory} (ran : x.run m = (.error e, n)) : (x >>= f).run m = (.error e, n) := by
  show (ExceptT.bindCont f (x.run m).1).run (x.run m).2 = _
  rw [ran]
  rfl

theorem ends_bind (first : Ends x m before) (next : ∀ a n, before a n → Ends (f a) n after) : Ends (x >>= f) m after := by
  obtain ⟨a, n, ran, holds⟩ := first
  obtain ⟨b, k, more, done⟩ := next a n holds
  exact ⟨b, k, (run_bind ran).trans more, done⟩

theorem ends_mono (ends : Ends x m before) (le : ∀ a n, before a n → post a n) : Ends x m post := by
  obtain ⟨a, n, ran, holds⟩ := ends
  exact ⟨a, n, ran, le a n holds⟩

-- The computation gives a value, and only counts.
def Gives (x : Eval α) (m : Memory) (a : α) : Prop := Ends x m fun b n => b = a ∧ m.Alike n

theorem gives_pure (a : α) : Gives (pure a) m a := ends_pure ⟨rfl, .refl m⟩

theorem gives_bind {a : α} {b : β} (first : Gives x m a) (next : ∀ n, m.Alike n → Gives (f a) n b) : Gives (x >>= f) m b := by
  refine ends_bind first fun c n known => ?_
  obtain ⟨rfl, alike⟩ := known
  exact ends_mono (next n alike) fun d k known => ⟨known.1, alike.trans known.2⟩

theorem gives_count (counter : Counter) (n : Nat) : Gives (count counter n) m () := ⟨(), _, rfl, rfl, rfl⟩

theorem gives_counted (c : Counted Region) : Gives (counted c) m c.value := by
  unfold counted
  split
  · exact ⟨c.value, _, rfl, rfl, rfl⟩
  · exact gives_pure _

theorem gives_of_except {a : α} {y : Except Error α} (done : y = .ok a) : Gives (ofExcept y) m a := by
  rw [done]
  exact gives_pure a

def Finds (x : Eval Region) (m : Memory) (P : Valuation → Prop) : Prop :=
  Ends x m fun r n => (∀ ρ, ρ ∈ r.members ↔ P ρ) ∧ m.Alike n

theorem Gives.finds {x : Eval Region} {r : Region} {P : Valuation → Prop} (gives : Gives x m r) (spec : ∀ ρ, ρ ∈ r.members ↔ P ρ) :
    Finds x m P :=
  ends_mono gives fun _ _ known => ⟨known.1 ▸ spec, known.2⟩

theorem Finds.congr {x : Eval Region} {P Q : Valuation → Prop} (finds : Finds x m P) (same : ∀ ρ, P ρ ↔ Q ρ) : Finds x m Q :=
  ends_mono finds fun _ _ known => ⟨fun ρ => (known.1 ρ).trans (same ρ), known.2⟩

theorem finds_bind {x : Eval α} {f : α → Eval Region} {a : α} {P : Valuation → Prop} (first : Gives x m a)
    (next : ∀ n, m.Alike n → Finds (f a) n P) : Finds (x >>= f) m P := by
  refine ends_bind first fun c n known => ?_
  obtain ⟨rfl, alike⟩ := known
  exact ends_mono (next n alike) fun d k known => ⟨known.1, alike.trans known.2⟩

theorem finds_cons {x : Eval Region} {f : Region → Eval Region} {P : Region → Valuation → Prop} {s sat : Region} {rest : List Region}
    (first : Finds x m (P s)) (later : ∀ sat n, Finds (f sat) n fun ρ => ρ ∈ sat.members ∨ ∃ part ∈ rest, P part ρ) :
    Finds (x >>= fun r => f (sat.union r)) m fun ρ => ρ ∈ sat.members ∨ ∃ part ∈ s :: rest, P part ρ := by
  refine ends_bind first fun r n known => ?_
  refine ends_mono (later (sat.union r) n) fun all k spec => ⟨fun ρ => ?_, known.2.trans spec.2⟩
  simp only [spec.1, Region.members_union, Set.mem_union, known.1, List.mem_cons, exists_eq_or_imp, or_assoc]

theorem finds_union_each {g : Region → Eval Region} {P : Region → Valuation → Prop} (e : Enumeration Region) (ends : e.error? = none)
    (each : ∀ s ∈ e.items, ∀ n, Finds (g s) n (P s)) (sat : Region) :
    Finds (unionEach g e sat) m fun ρ => ρ ∈ sat.members ∨ ∃ s ∈ e.items, P s ρ := by
  induction e generalizing sat m with
  | done => exact ends_pure ⟨fun ρ => by simp [Enumeration.items], .refl m⟩
  | fail error => cases ends
  | item s tail ih =>
      refine finds_cons (f := unionEach g (tail ())) (each s List.mem_cons_self m) fun sat n => ?_
      exact ih () ends (fun part listed => each part (List.mem_cons_of_mem _ listed)) sat

theorem finds_fold {g : Region → Eval Region} {P : Region → Valuation → Prop} (xs : List Region)
    (each : ∀ s ∈ xs, ∀ n, Finds (g s) n (P s)) (sat : Region) :
    Finds (xs.foldlM (fun sat s => do return sat.union (← g s)) sat) m fun ρ => ρ ∈ sat.members ∨ ∃ s ∈ xs, P s ρ := by
  induction xs generalizing sat m with
  | nil => exact ends_pure ⟨fun ρ => by simp, .refl m⟩
  | cons s rest ih =>
      simp only [List.foldlM_cons, bind_assoc, pure_bind]
      refine finds_cons (f := fun sat => rest.foldlM (fun sat s => do return sat.union (← g s)) sat) (each s List.mem_cons_self m) ?_
      exact fun sat n => ih (fun part listed => each part (List.mem_cons_of_mem _ listed)) sat

end Eval

def Memory.protocolFor (m : Memory) (sys : System) (t : Team) : Region :=
  (m.recalled.protocols.lookup t.key).getD (sys.protocolOf t)

def Memory.learned (m : Memory) (sys : System) (t : Team) : Memory :=
  match m.recalled.protocols.lookup t.key with
  | some _ => m
  | none => { m with recalled := { m.recalled with protocols := (t.key, sys.protocolOf t) :: m.recalled.protocols } }

-- What is remembered under the key of a team is its own protocol.
def Memory.Faithful (m : Memory) (sys : System) (t : Team) : Prop :=
  ∀ region, m.recalled.protocols.lookup t.key = some region → region = sys.protocolOf t

-- Only protocols of teams of the system are remembered, and its own fair states.
structure Memory.Sound (m : Memory) (sys : System) : Prop where
  protocols : ∀ entry ∈ m.recalled.protocols, ∃ t : Team, t.Of sys ∧ entry.2 = sys.protocolOf t
  fair : ∀ fair ∈ m.fair, fair = sys.fairStates.value

namespace Memory

variable {m n : Memory} {sys : System} {t : Team}

theorem Alike.protocol_for (alike : m.Alike n) (sys : System) (t : Team) : n.protocolFor sys t = m.protocolFor sys t := by
  unfold protocolFor
  rw [alike.recalled]

theorem Alike.learned (alike : m.Alike n) (sys : System) (t : Team) : (m.learned sys t).Alike (n.learned sys t) := by
  unfold Memory.learned
  rw [alike.recalled]
  split
  · exact alike
  · have same := congrArg (fun k : Memory => { k with recalled := { n.recalled with
      protocols := (t.key, sys.protocolOf t) :: n.recalled.protocols } }) alike
    exact same

theorem Faithful.protocol_for (faithful : m.Faithful sys t) : m.protocolFor sys t = sys.protocolOf t := by
  unfold protocolFor
  cases found : m.recalled.protocols.lookup t.key with
  | none => rfl
  | some region => exact faithful region found

theorem Sound.protocol_for (sound : m.Sound sys) (of : t.Of sys) : ∃ u : Team, u.Of sys ∧ m.protocolFor sys t = sys.protocolOf u := by
  unfold protocolFor
  cases found : m.recalled.protocols.lookup t.key with
  | none => exact ⟨t, of, rfl⟩
  | some region =>
      obtain ⟨before, _, listed, _⟩ := List.lookup_eq_some_iff.mp found
      exact sound.protocols (t.key, region) (by simp [listed])

theorem Sound.learned (sound : m.Sound sys) (of : t.Of sys) : (m.learned sys t).Sound sys := by
  unfold Memory.learned
  split
  · exact sound
  · exact ⟨List.forall_mem_cons.mpr ⟨⟨t, of, rfl⟩, sound.protocols⟩, sound.fair⟩

theorem Sound.alike (sound : m.Sound sys) (alike : m.Alike n) : n.Sound sys :=
  ⟨alike.recalled ▸ sound.protocols, alike.fair ▸ sound.fair⟩

theorem empty_sound (sys : System) : ({} : Memory).Sound sys := ⟨by simp, by simp⟩

theorem empty_faithful (sys : System) (t : Team) : ({} : Memory).Faithful sys t := by simp [Faithful]

end Memory

theorem Eval.ends_protocol {sys : System} {t : Team} {m : Memory} (known : sys.team t.names = .ok t) :
    Ends (Eval.protocol sys t) m fun region n => region = m.protocolFor sys t ∧ n = m.learned sys t := by
  have asked : m.recalled.protocol sys t.names = .ok (m.protocolFor sys t, (m.learned sys t).recalled) := by
    unfold Recall.protocol Memory.protocolFor Memory.learned Team.key
    cases found : m.recalled.protocols.lookup (teamKey t.names) with
    | some region => rfl
    | none => simp only [known]; rfl
  have same : { m with recalled := (m.learned sys t).recalled } = m.learned sys t := by
    unfold Memory.learned
    split <;> rfl
  refine ⟨m.protocolFor sys t, m.learned sys t, ?_, rfl, rfl⟩
  have ran : (ofExcept (m.recalled.protocol sys t.names)).run m = (.ok (m.protocolFor sys t, (m.learned sys t).recalled), m) := by
    rw [asked]
    rfl
  have whole := run_bind (f := fun entry => do
    modify fun m : Memory => { m with recalled := entry.2 }
    return entry.1) ran
  rw [← same]
  exact whole

end Coalition
