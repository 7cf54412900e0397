import HttpStream.Trie.Layout

/-! Tries from octet strings to values, with exact lookup and lookup of the longest key at the
front of an input. -/

set_option autoImplicit false

namespace HttpStream

/-- A map from octet strings to values. With `ignoreCase`, ASCII letters of keys and inputs are
the same in both cases. Node 0 of `nodes` is the root; the values stand in `values`. -/
structure Trie (α : Type) where
  ignoreCase : Bool := false
  nodes : Store Trie.Node := Store.push {} {}
  values : Store α := {}
  laidOut : Trie.LaidOut nodes values.size := by exact Trie.LaidOut.start

namespace Trie

variable {α : Type}

def fold (trie : Trie α) (b : UInt8) : UInt8 := if trie.ignoreCase then Octet.toLower b else b

def reached (trie : Trie α) (key : Bytes) : Store Node × Nat :=
  reach trie.nodes 0 (key.map trie.fold)

def store (trie : Trie α) (key : Bytes) (value : α) : Trie α × Bool :=
  match held : held? (trie.reached key).1 (trie.reached key).2 with
  -- The key is there: only its value changes.
  | some index =>
    ({ trie with
        nodes := (trie.reached key).1
        values := trie.values.modify index fun _ => value
        laidOut := by
          rw [Store.size_modify]
          exact trie.laidOut.reach _ }, false)
  -- The node gets the number that the value will have.
  | none =>
    ({ trie with
        nodes := (trie.reached key).1.modify (trie.reached key).2 (·.hold trie.values.size)
        values := trie.values.push value
        laidOut := trie.laidOut.hold held }, true)

def insert (trie : Trie α) (key : Bytes) (value : α) : Trie α := (trie.store key value).1

def get? (trie : Trie α) (key : Bytes) : Option α :=
  ((find? trie.nodes 0 (key.map trie.fold)).bind (held? trie.nodes)).bind trie.values.get?

/-- The longest way from a node along which a key ends, as the length of the key and the number of
its value; `best` is what was found so far, at `depth` octets. -/
def longest? (nodes : Store Node) (fold : UInt8 → UInt8) (node depth : Nat)
    (best : Option (Nat × Nat)) : Bytes → Option (Nat × Nat)
  | [] => best
  | b :: rest =>
    match follow? nodes node (fold b) with
    | some next =>
      longest? nodes fold next (depth + 1)
        (((held? nodes next).map fun index => (depth + 1, index)).or best) rest
    | none => best

/-- The longest non-empty key that is the front of the input, as its length and its value. -/
def best? (trie : Trie α) (input : Bytes) : Option (Nat × α) :=
  (longest? trie.nodes trie.fold 0 0 none input).bind fun (length, index) =>
    (trie.values.get? index).map fun value => (length, value)

def size (trie : Trie α) : Nat := trie.values.size

def isEmpty (trie : Trie α) : Bool := trie.size == 0

def contains (trie : Trie α) (key : Bytes) : Bool := (trie.get? key).isSome

/-- The trie of a list of keys and values; of two equal keys the later one counts. -/
def ofList (ignoreCase : Bool) (entries : List (Bytes × α)) : Trie α :=
  entries.foldl (fun trie entry => trie.insert entry.1 entry.2) { ignoreCase }

end Trie
end HttpStream
