import Cartridge.Source.Statement

/-!
# Embedded files of a program

The paths of the files that a program embeds, as they are asked for.
-/

namespace Cartridge

mutual

/-- The paths that a statement embeds. -/
def Statement.embedded : Statement → List String
  | .block _ statements _ => Statement.allEmbedded statements
  | .embed path pos => [pos.sibling path]
  | .header _ | .relocation _ _ | .label _ | .constant _ _ | .storage _ | .data _ | .command _
  | .branch _ => []

/-- The paths that statements embed. -/
def Statement.allEmbedded : List Statement → List String
  | [] => []
  | s :: rest => s.embedded ++ Statement.allEmbedded rest

end

/-- The paths that a program embeds, in order. -/
def Program.embedded (program : Program) : List String :=
  Statement.allEmbedded program.statements

end Cartridge
