import Mathlib.Data.List.Forall2

-- What holds of the result of a computation that can fail, if it has one.

set_option autoImplicit false

namespace Coalition

section

variable {ε α β : Type} {x : Except ε α} {f : α → Except ε β} {P : α → Prop} {Q : β → Prop}

def Yields (x : Except ε α) (property : α → Prop) : Prop := ∀ a, x = .ok a → property a

theorem yields_ok {a : α} (holds : P a) : Yields (.ok a : Except ε α) P := by
  intro b same
  cases same
  exact holds

theorem yields_error (e : ε) : Yields (.error e : Except ε α) P := nofun

theorem yields_bind (first : Yields x P) (next : ∀ a, P a → Yields (f a) Q) : Yields (x >>= f) Q := by
  cases x with
  | error e => exact nofun
  | ok a => exact next a (first a rfl)

theorem ok_bind (a : α) : ((.ok a : Except ε α) >>= f) = f a := rfl

theorem pure_ok (a : α) : (pure a : Except ε α) = .ok a := rfl

theorem bind_ok {a : α} {result : Except ε β} (done : x = .ok a) (rest : f a = result) : (x >>= f) = result := by
  rw [done, ok_bind, rest]

theorem ok_of_bind {b : β} (done : (x >>= f) = .ok b) : ∃ a, x = .ok a ∧ f a = .ok b := by
  cases x with
  | error e => cases done
  | ok a => exact ⟨a, rfl, done⟩

theorem ok_of_to_option {a : α} (found : x.toOption = some a) : x = .ok a := by
  cases x with
  | error e => cases found
  | ok b => exact congrArg Except.ok (Option.some.inj found)

theorem ok_of_is_ok (works : x.isOk = true) : ∃ a, x = .ok a := by
  cases x with
  | error e => cases works
  | ok a => exact ⟨a, rfl⟩

theorem error_of_bind {e : ε} (failed : (x >>= f) = .error e) : x = .error e ∨ ∃ a, x = .ok a ∧ f a = .error e := by
  cases x with
  | error fault =>
      cases failed
      exact .inl rfl
  | ok a => exact .inr ⟨a, rfl, failed⟩

theorem error_of_map_m {e : ε} {f : α → Except ε β} {xs : List α} (failed : xs.mapM f = .error e) : ∃ a ∈ xs, f a = .error e := by
  induction xs with
  | nil => cases failed
  | cons a rest ih =>
      rw [List.mapM_cons] at failed
      obtain here | ⟨b, _, failed⟩ := error_of_bind failed
      · exact ⟨a, List.mem_cons_self, here⟩
      · obtain later | ⟨_, _, ⟨⟩⟩ := error_of_bind failed
        obtain ⟨c, listed, found⟩ := ih later
        exact ⟨c, List.mem_cons_of_mem _ listed, found⟩

theorem exists_map_m {f : α → Except ε β} {xs : List α} (each : ∀ a ∈ xs, ∃ b, f a = .ok b) : ∃ ys, xs.mapM f = .ok ys := by
  cases outcome : xs.mapM f with
  | ok ys => exact ⟨ys, rfl⟩
  | error e =>
      obtain ⟨a, listed, failed⟩ := error_of_map_m outcome
      obtain ⟨b, done⟩ := each a listed
      cases failed.symm.trans done

-- The computations succeed one by one; what else is known of a list of them follows from this.
theorem map_m_ok_iff {f : α → Except ε β} {xs : List α} {ys : List β} :
    xs.mapM f = .ok ys ↔ List.Forall₂ (fun a b => f a = .ok b) xs ys := by
  induction xs generalizing ys with
  | nil => rw [List.mapM_nil, pure_ok, Except.ok.injEq, List.forall₂_nil_left_iff, eq_comm]
  | cons a rest ih =>
      rw [List.mapM_cons, List.forall₂_cons_left_iff]
      constructor
      · intro done
        obtain ⟨first, here, done⟩ := ok_of_bind done
        obtain ⟨others, more, same⟩ := ok_of_bind done
        exact ⟨first, others, here, ih.mp more, (Except.ok.inj same).symm⟩
      · rintro ⟨first, others, here, more, rfl⟩
        exact bind_ok here (bind_ok (ih.mpr more) rfl)

theorem ok_of_map_m {f : α → Except ε β} {xs : List α} {ys : List β} (done : xs.mapM f = .ok ys) : ∀ a ∈ xs, ∃ b ∈ ys, f a = .ok b := by
  obtain ⟨length, each⟩ := List.forall₂_iff_get.mp (map_m_ok_iff.mp done)
  intro a listed
  obtain ⟨i, rfl⟩ := List.get_of_mem listed
  have inside : (i : Nat) < ys.length := length ▸ i.isLt
  exact ⟨_, List.get_mem ys ⟨i, inside⟩, each i i.isLt inside⟩

theorem mem_of_map_m {f : α → Except ε β} {xs : List α} {ys : List β} (done : xs.mapM f = .ok ys) : ∀ b ∈ ys, ∃ a ∈ xs, f a = .ok b := by
  obtain ⟨length, each⟩ := List.forall₂_iff_get.mp (map_m_ok_iff.mp done)
  intro b listed
  obtain ⟨i, rfl⟩ := List.get_of_mem listed
  have inside : (i : Nat) < xs.length := length.symm ▸ i.isLt
  exact ⟨_, List.get_mem xs ⟨i, inside⟩, each i inside i.isLt⟩

theorem map_m_of_each {f : α → Except ε β} {g : α → β} {xs : List α} (each : ∀ a ∈ xs, f a = .ok (g a)) : xs.mapM f = .ok (xs.map g) :=
  map_m_ok_iff.mpr (List.forall₂_map_right_iff.mpr (List.forall₂_same.mpr each))

theorem map_m_same {f g : α → Except ε β} {xs : List α} {ys : List β} (done : xs.mapM f = .ok ys)
    (same : ∀ a ∈ xs, ∀ b, f a = .ok b → g a = .ok b) : xs.mapM g = .ok ys := by
  have both := (List.forall₂_and_left xs ys).mpr ⟨same, map_m_ok_iff.mp done⟩
  exact map_m_ok_iff.mpr (both.imp fun a b ⟨keeps, here⟩ => keeps b here)

theorem yields_map_m {f : α → Except ε β} {xs : List α} (each : ∀ a ∈ xs, Yields (f a) Q) :
    Yields (xs.mapM f) fun ys => ∀ b ∈ ys, Q b := by
  intro ys done b listed
  obtain ⟨a, inside, found⟩ := mem_of_map_m done b listed
  exact each a inside b found

theorem yields_map_error {δ : Type} {g : ε → δ} (first : Yields x P) : Yields (x.mapError g) P := by
  cases x with
  | error e => exact nofun
  | ok a => exact yields_ok (first a rfl)

theorem ok_of_map_error {δ : Type} {g : ε → δ} {a : α} (done : x.mapError g = .ok a) : x = .ok a := by
  cases x with
  | error e => cases done
  | ok b => exact congrArg Except.ok (Except.ok.inj done)

theorem yields_fold_m {f : β → α → Except ε β} {xs : List α} {start : β} (first : Q start)
    (step : ∀ b, Q b → ∀ a ∈ xs, Yields (f b a) Q) : Yields (xs.foldlM f start) Q := by
  induction xs generalizing start with
  | nil => exact yields_ok first
  | cons a rest ih =>
      rw [List.foldlM_cons]
      refine yields_bind (step start first a List.mem_cons_self) fun b known => ?_
      exact ih known fun c more d listed => step c more d (List.mem_cons_of_mem _ listed)

end

end Coalition
