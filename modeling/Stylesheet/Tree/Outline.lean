import Stylesheet.Text.Quoted
import Stylesheet.Tree

/-!
# Outlines

A syntax tree line by line: each production by its name, each token by its text in quotes, two
spaces deeper than the production above it.
-/

namespace Stylesheet.Tree

/-- One line of an outline. -/
def outlineLine (depth : Nat) (content : String) : String :=
  String.ofList (List.replicate (2 * depth) ' ') ++ content ++ "\n"

mutual

def outlineAt (tokens : List Token) (depth : Nat) : Tree → String
  | .leaf index => outlineLine depth (quoted ((tokens[index]?.map Token.text).getD ""))
  | .node kind _ children =>
    outlineLine depth kind.name ++ outlineAll tokens (depth + 1) children

def outlineAll (tokens : List Token) (depth : Nat) : List Tree → String
  | [] => ""
  | t :: rest => outlineAt tokens depth t ++ outlineAll tokens depth rest

end

/-- The outline of a tree over its tokens. -/
def outline (t : Tree) (tokens : List Token) : String := outlineAt tokens 0 t

end Stylesheet.Tree
