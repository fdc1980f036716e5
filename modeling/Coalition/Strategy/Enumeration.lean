import Coalition.Error

-- Enumerations: lists that are computed as they are looked at and may end in an error.

set_option autoImplicit false

namespace Coalition

inductive Enumeration (α : Type) where
  | done
  | fail (error : Error)
  | item (head : α) (tail : Unit → Enumeration α)

namespace Enumeration

variable {α β : Type}

def single (a : α) : Enumeration α := .item a fun _ => .done

def append : Enumeration α → (Unit → Enumeration α) → Enumeration α
  | .done, next => next ()
  | .fail e, _ => .fail e
  | .item a tail, next => .item a fun u => append (tail u) next

def map (f : α → β) : Enumeration α → Enumeration β
  | .done => .done
  | .fail e => .fail e
  | .item a tail => .item (f a) fun u => map f (tail u)

def bind (f : α → Enumeration β) : Enumeration α → Enumeration β
  | .done => .done
  | .fail e => .fail e
  | .item a tail => append (f a) fun u => bind f (tail u)

def ofExcept (x : Except Error α) (f : α → Enumeration β) : Enumeration β :=
  match x with
  | .ok a => f a
  | .error e => .fail e

def items : Enumeration α → List α
  | .done => []
  | .fail _ => []
  | .item a tail => a :: items (tail ())

def error? : Enumeration α → Option Error
  | .done => none
  | .fail e => some e
  | .item _ tail => error? (tail ())

def collect (e : Enumeration α) : Except Error (List α) :=
  match e.error? with
  | none => .ok e.items
  | some error => .error error

-- The first `limit` items; what comes after them is not looked at.
def first : (limit : Nat) → Enumeration α → Except Error (List α)
  | 0, _ => .ok []
  | _ + 1, .done => .ok []
  | _ + 1, .fail e => .error e
  | limit + 1, .item a tail => (first limit (tail ())).map (a :: ·)

@[simp] theorem items_map (f : α → β) (e : Enumeration α) : (e.map f).items = e.items.map f := by
  induction e with
  | done => rfl
  | fail => rfl
  | item a tail ih => simp [map, items, ih]

@[simp] theorem error_map (f : α → β) (e : Enumeration α) : (e.map f).error? = e.error? := by
  induction e with
  | done => rfl
  | fail => rfl
  | item a tail ih => simp [map, error?, ih]

-- An enumeration that does not fail goes over into the next one.
theorem items_append (e : Enumeration α) (next : Unit → Enumeration α) :
    (e.append next).items = e.items ++ if e.error?.isNone then (next ()).items else [] := by
  induction e with
  | done => simp [append, items, error?]
  | fail => simp [append, items, error?]
  | item a tail ih => simp [append, items, error?, ih]

theorem error_append (e : Enumeration α) (next : Unit → Enumeration α) :
    (e.append next).error? = (e.error?.or (next ()).error?) := by
  induction e with
  | done => simp [append, error?]
  | fail => simp [append, error?]
  | item a tail ih => simp [append, error?, ih]

end Enumeration

end Coalition
