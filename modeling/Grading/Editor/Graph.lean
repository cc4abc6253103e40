import Grading.Json.Shape

/-!
# Graphs of the editor

What the graph editor saves, as far as it matters: nodes with the names of their types, edges
between handles, and beside them the settings of the nodes by id.  Settings stay JSON values,
since their shape depends on the type of the node.  Positions, titles and whatever else the
editor keeps are passed over.
-/

namespace Grading.Editor

structure Node where
  id : String
  type : Option String

structure Edge where
  id : Option String
  source : String
  sourceHandle : Option String
  target : String
  targetHandle : Option String

/-- What the editor keeps beside a node. -/
structure NodeData where
  settings : Option Json

structure Graph where
  nodes : List Node
  edges : List Edge
  /-- The data of the nodes by id; of two entries for one id the later counts. -/
  nodeData : List (String × NodeData)

/-! ## Stored form -/

/-- The settings of a node lie three containers deep in the text of a graph. -/
def settingsDepth : Nat := Json.maxDepth - 3

def NodeData.ofJson? (j : Json) : Option NodeData := do
  match ← j.fields? [["title"], ["settings"]] with
  | [title, settings] =>
    let _ ← Json.orElse? Json.text? "" title
    return { settings := ← Json.optional? (Json.generic? settingsDepth) settings }
  | _ => none

def Node.ofJson? (j : Json) : Option Node := do
  match ← j.fields? [["id"], ["type"]] with
  | [some id, type] => return { id := ← id.text?, type := ← Json.optional? Json.text? type }
  | _ => none

def Edge.ofJson? (j : Json) : Option Edge := do
  let names := [["id"], ["source"], ["source_handle", "sourceHandle"], ["target"],
    ["target_handle", "targetHandle"]]
  match ← j.fields? names with
  | [id, some source, sourceHandle, some target, targetHandle] =>
    return { id := ← Json.optional? Json.text? id
             source := ← source.text?
             sourceHandle := ← Json.optional? Json.text? sourceHandle
             target := ← target.text?
             targetHandle := ← Json.optional? Json.text? targetHandle }
  | _ => none

def Graph.ofJson? (j : Json) : Option Graph := do
  match ← j.fields? [["nodes"], ["edges"], ["node_data", "nodeData"]] with
  | [some nodes, some edges, nodeData] =>
    return { nodes := ← nodes.list? Node.ofJson?
             edges := ← edges.list? Edge.ofJson?
             nodeData := ← Json.orElse? (Json.table? NodeData.ofJson?) [] nodeData }
  | _ => none

end Grading.Editor
