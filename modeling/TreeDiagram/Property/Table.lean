import Std.Data.TreeMap
import TreeDiagram.Property.Basic
import TreeDiagram.Text.Numeral
/-!
The properties that the input sets for single nodes.

A node holds at most thirty-two properties and the table at most its capacity of nodes. Assignments
come in batches for one node: a batch is stored as a whole, later assignments to a property
replacing earlier ones, or it leaves the table as it was.
-/

namespace TreeDiagram

/-- The number that names a node on a property line. -/
abbrev NodeId := Nat

/-- The largest number that names a node. -/
def maxNodeId : NodeId := 0xfffffff0

/-- How many properties a node holds. -/
def maxPropertiesPerNode : Nat := 32

/-- Why a batch of assignments was not stored. -/
inductive StoreError where
  | propertySetOverflow (node : NodeId) (limit : Nat)
  | nodeTableOverflow (limit : Nat)
  deriving DecidableEq, Repr

/-- The wording of an error. -/
def StoreError.message : StoreError → String
  | propertySetOverflow node limit => s!"node {node} cannot hold more than {limit} properties"
  | nodeTableOverflow limit => s!"node table is full ({limit} nodes)"

/-- An assignment of a value to the property with a given place in the order. -/
abbrev Entry := Nat × Value

/-- The properties set for one node, by their place in the order. -/
structure NodeProperties where
  node : NodeId
  values : Std.TreeMap Nat Value := {}

namespace NodeProperties

/-- A node without properties. -/
def new (node : NodeId) : NodeProperties := { node }

/-- The value set for a property. -/
def get? (info : NodeProperties) (index : Nat) : Option Value :=
  info.values[index]?

/-- The properties set, in their order. -/
def entries (info : NodeProperties) : List Entry :=
  info.values.toList

/-- The number of properties set. -/
def size (info : NodeProperties) : Nat :=
  info.values.size

/-- How many of the listed properties are not set yet, each counted once. -/
def fresh (info : NodeProperties) (indices : List Nat) : Nat :=
  (indices.filter fun i => !info.values.contains i).eraseDups.length

/-- Whether setting the listed properties would exceed the limit. -/
def overflows (info : NodeProperties) (indices : List Nat) : Bool :=
  decide (maxPropertiesPerNode < info.size + info.fresh indices)

/-- Sets a property, replacing the value it has. -/
def insert (info : NodeProperties) (entry : Entry) : Except StoreError NodeProperties :=
  if info.overflows [entry.1] then
    .error (.propertySetOverflow info.node maxPropertiesPerNode)
  else
    .ok { info with values := info.values.insert entry.1 entry.2 }

end NodeProperties

/-- The properties of all nodes, by node. -/
structure PropertyTable where
  nodes : Std.TreeMap NodeId NodeProperties := {}
  capacity : Nat := maxNodeId

namespace PropertyTable

/-- A table without entries that holds at most `capacity` nodes. -/
def ofCapacity (capacity : Nat) : PropertyTable := { capacity }

/-- The properties of a node, if it has any. -/
def get? (table : PropertyTable) (node : NodeId) : Option NodeProperties :=
  table.nodes[node]?

/-- All nodes with properties, by their numbers. -/
def toList (table : PropertyTable) : List NodeProperties :=
  table.nodes.values

/-- The number of nodes with properties. -/
def size (table : PropertyTable) : Nat :=
  table.nodes.size

/-- Sets properties of a node, which enters the table if it is not in it. -/
def merge (table : PropertyTable) (node : NodeId) (entries : List Entry) :
    Except StoreError PropertyTable :=
  let indices := entries.map Prod.fst
  let info := (table.get? node).getD (NodeProperties.new node)
  if (table.get? node).isNone ∧ table.capacity ≤ table.size then
    .error (.nodeTableOverflow table.capacity)
  else if info.overflows indices then
    .error (.propertySetOverflow node maxPropertiesPerNode)
  else do
    let info ← entries.foldlM NodeProperties.insert info
    .ok { table with nodes := table.nodes.insert node info }

end PropertyTable

/-- The node that a label names: the label is a numeral of at most the largest node number. -/
def nodeOfLabel? (label : String) : Option NodeId :=
  match Numeral.read? label.toList with
  | some n => if n ≤ maxNodeId then some n else none
  | none => none

namespace PropertyTable

/-- The properties of the node that a label names. -/
def findLabel? (table : PropertyTable) (label : String) : Option NodeProperties :=
  (nodeOfLabel? label).bind table.get?

end PropertyTable

end TreeDiagram
