/-!
# Settings of a configured construction

Which checks a construction makes of its input and of its result, and how many reachable blocks it
accepts.

The settings are those of `DominatorConfig`, and its presets `default`, `disabled` and `strict`; the
cap and the limit are applied by `with_config`.
-/

namespace Dominance

/-- Settings of a configured construction of a dominator tree; a limit of zero is no limit. -/
structure Config where
  checkRoots : Bool
  checkResult : Bool
  maxBlocks : Nat
deriving DecidableEq, Repr

namespace Config

/-- Roots are checked, results are trusted, and size is unlimited. -/
def standard : Config := ⟨true, false, 0⟩

/-- Nothing is checked. -/
def disabled : Config := ⟨false, false, 0⟩

/-- Roots and results are checked. -/
def strict : Config := ⟨true, true, 0⟩

/-- The number of blocks to visit at most: one past the limit, so that passing it is noticed. -/
def visitCap (c : Config) : Option Nat :=
  if c.maxBlocks = 0 then none else some (c.maxBlocks + 1)

/-- Whether a number of reachable blocks passes the limit. -/
def refuses (c : Config) (blocks : Nat) : Bool := 0 < c.maxBlocks && c.maxBlocks < blocks

private def flagText (b : Bool) : String := if b then "true" else "false"

/-- The long form of the settings, one field after the other. -/
def inspect (c : Config) : String :=
  "DominatorConfig \x7b enable_structural_validation: " ++ flagText c.checkRoots ++
    ", enable_result_validation: " ++ flagText c.checkResult ++
    ", max_block_count: " ++ toString c.maxBlocks ++ " \x7d"

end Config
end Dominance
