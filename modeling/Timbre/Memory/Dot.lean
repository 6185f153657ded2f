import Timbre.Memory.Tree

/-! # Trees as graphs in DOT

Each node is a box with its label, number, item, size and address; a retained node is drawn bold.
Plain edges go from parent to child, dashed ones along the order. Quotes and backslashes of a label
are escaped, so that its text cannot end the string it stands in.
-/
namespace Timbre.Memory

namespace Dot

def escapeChar (c : Char) : List Char := if c = '\\' ∨ c = '"' then ['\\', c] else [c]

def escape (text : String) : String := String.ofList (text.toList.flatMap escapeChar)

def nodeName (i : Nat) : String := "n" ++ toString i

/-- The string in a node's box. -/
def caption (i : Nat) (n : Node) : String :=
  (match n.label with
    | some label => escape label ++ "\\n"
    | none => "") ++
    "#" ++ toString i ++ " item " ++ toString n.item ++ "\\nsize " ++ toString n.size ++ " @ " ++
    (match n.address with
      | some a => toString a
      | none => "-")

def nodeLine (i : Nat) (n : Node) : String :=
  "  " ++ nodeName i ++ " [label=\"" ++ caption i n ++ "\"" ++
    (if n.retained then ", style=bold" else "") ++ "];\n"

def childLines (i : Nat) (n : Node) : String :=
  String.join (n.children.map fun c => "  " ++ nodeName i ++ " -> " ++ nodeName c ++ ";\n")

def orderLine (p : Nat × Nat) : String :=
  "  " ++ nodeName p.1 ++ " -> " ++ nodeName p.2 ++
    " [style=dashed, color=gray, constraint=false];\n"

end Dot

def Tree.dot (t : Tree) : String :=
  "digraph buffers \x7b\n  node [shape=box, fontname=monospace];\n" ++
    String.join (t.nodes.toList.mapIdx Dot.nodeLine) ++
    String.join (t.nodes.toList.mapIdx Dot.childLines) ++
    String.join ((t.order.zip t.order.tail).map Dot.orderLine) ++ "\x7d\n"

end Timbre.Memory
