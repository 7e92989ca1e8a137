/-!
# Kinds of control-flow edges

How control passes along an edge of a method body, with the label and the colour it is drawn in.

The kinds are those of `CfgEdgeKind`, with its `label`, `color`, `is_conditional` and `is_switch`.
-/

namespace Dominance

/-- Why control passes along an edge. A switch edge carries its case, or none for the default case. -/
inductive EdgeKind where
  | unconditional
  | onTrue
  | onFalse
  | onSwitch (case : Option Int32)
deriving DecidableEq

namespace EdgeKind

/-- Edges are unconditional unless something else is said. -/
instance : Inhabited EdgeKind := ⟨unconditional⟩

/-- The label of an edge in a drawing; empty for an unconditional edge. -/
def label : EdgeKind → String
  | unconditional => ""
  | onTrue => "true"
  | onFalse => "false"
  | onSwitch (some v) => "case " ++ toString v.toInt
  | onSwitch none => "default"

/-- The colour of an edge in a drawing. -/
def color : EdgeKind → String
  | unconditional => "black"
  | onTrue => "green"
  | onFalse => "red"
  | onSwitch _ => "blue"

/-- One of the two branches of a condition. -/
def isConditional : EdgeKind → Bool
  | onTrue => true
  | onFalse => true
  | _ => false

/-- One of the cases of a switch. -/
def isSwitch : EdgeKind → Bool
  | onSwitch _ => true
  | _ => false

/-- The long form of a kind. -/
def inspect : EdgeKind → String
  | unconditional => "Unconditional"
  | onTrue => "ConditionalTrue"
  | onFalse => "ConditionalFalse"
  | onSwitch (some v) => "Switch \x7b case_value: Some(" ++ toString v.toInt ++ ") \x7d"
  | onSwitch none => "Switch \x7b case_value: None \x7d"

end EdgeKind
end Dominance
