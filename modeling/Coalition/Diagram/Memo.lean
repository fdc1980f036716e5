import Coalition.Diagram.Basic

-- Results remembered during one operation on diagrams.

set_option autoImplicit false

namespace Coalition

/-- Values filed under a key; `key` is compared whole, its bits steer the search. -/
inductive Memo (α : Type) where
  | empty
  | entry (key : UInt64) (values : List α) (left right : Memo α)

namespace Memo

variable {α : Type}

def find (key : UInt64) : (path : UInt64) → Memo α → List α
  | _, .empty => []
  | path, .entry here values left right =>
      if here = key then values
      else if path &&& 1 = 0 then find key (path >>> 1) left
      else find key (path >>> 1) right

def insert (key : UInt64) (value : α) : (path : UInt64) → Memo α → Memo α
  | _, .empty => .entry key [value] .empty .empty
  | path, .entry here values left right =>
      if here = key then .entry here (value :: values) left right
      else if path &&& 1 = 0 then .entry here values (insert key value (path >>> 1) left) right
      else .entry here values left (insert key value (path >>> 1) right)

end Memo

namespace Diagram

def spread (key : UInt64) : UInt64 := key ^^^ (key >>> 29) ^^^ (key >>> 47)

def findEqual (d : Diagram) : List Diagram → Option { r : Diagram // r = d }
  | [] => none
  | r :: rest => if same : r = d then some ⟨r, same⟩ else findEqual d rest

def share (nodes : Memo Diagram) (d : Diagram) : { r : Diagram // r = d } × Memo Diagram :=
  match findEqual d (nodes.find d.key (spread d.key)) with
  | some r => (r, nodes)
  | none => (⟨d, rfl⟩, nodes.insert d.key d (spread d.key))

def shareJoin (nodes : Memo Diagram) (var : Nat) (low high : Diagram) :
    { r : Diagram // r = join var low high } × Memo Diagram :=
  if same : low = high then (⟨low, by rw [join, if_pos same]⟩, nodes)
  else
    let (r, nodes) := share nodes (.node var low high)
    (⟨r.1, by rw [join, if_neg same, r.2]⟩, nodes)

end Diagram

end Coalition
