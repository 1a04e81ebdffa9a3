import Untangle.Code.FlowGraph
import Untangle.Instr.Text

/-!
# Flow graphs as dot text

One line for each block, labelled with its flags and instructions, and one for each edge.
-/

namespace Untangle

/-- A listing's line for each instruction of the block, below the flags that are set. -/
def Block.shown (b : Block) (flags : List String) : String :=
  let head := if flags.isEmpty then "" else "Flags: " ++ " | ".intercalate flags ++ "\n"
  head ++ String.join ((b.nodes.filterMap Node.content).map fun i => i.shown ++ "\n")

namespace FlowGraph

/-- What is known about a block: whether it is the first, a handler, or ends control's way. -/
def flags (g : FlowGraph) (b : Block) (i : Nat) : List String :=
  (if i = 0 then ["ENTRY"] else []) ++ (if g.handlers.contains i then ["HANDLER"] else []) ++
    (if b.fallsThrough then [] else ["TERMINAL"])

/-- A label of the dot language: quotes and backslashes escaped, lines ended on the left. -/
def dotEscaped (text : String) : String :=
  String.ofList (text.toList.flatMap fun
    | '"' => ['\\', '"']
    | '\\' => ['\\', '\\']
    | '\n' => ['\\', 'l']
    | c => [c])

/-- The graph in the dot language. -/
def dot (g : FlowGraph) : String :=
  let blocks := g.blocks.zipIdx.map fun (b, i) =>
    "    " ++ toString i ++ " [ label = \"" ++ dotEscaped (b.shown (g.flags b i)) ++ "\" ]\n"
  let edges := g.edges.map fun e => "    " ++ toString e.source ++ " -> " ++ toString e.target ++ " [ ]\n"
  "digraph \x7b\n" ++ String.join (blocks ++ edges) ++ "\x7d\n"

end FlowGraph

end Untangle
