import Dominance.Block

/-!
# Log records

What happened during a computation, as data: each record has a level and one text. A `Logged` value
is a result together with the records of its computation, oldest first.

There is one kind of record for each call that writes one: `resolve` and `finish` of the
`LengauerTarjan` solver, the start of a `DepthFirstPreorderIterator`, `add_exception_handler` and
`unreachable_blocks` of a `ControlFlowGraph`, and `precompute_dominators`.
-/

namespace Dominance

/-- How much a record matters. -/
inductive Level where
  | trace
  | debug
  | warn
deriving DecidableEq

namespace Level

/-- The name of a level. -/
def name : Level → String
  | trace => "trace"
  | debug => "debug"
  | warn => "warn"

/-- The rank of a level; a higher one matters more. -/
def rank : Level → Nat
  | trace => 0
  | debug => 1
  | warn => 2

end Level

/-- Something worth recording. Blocks are absent where the virtual entry is meant. -/
inductive Event where
  /-- The solver found a first candidate for the immediate dominator of a block. -/
  | resolved (block semi candidate : Option Block)
  /-- A dominator tree was completed. -/
  | treeBuilt (roots blocks shared : Nat)
  /-- A traversal was asked to start at a block that the graph does not have. -/
  | rootIgnored (root : Block) (blockCount : Nat)
  /-- A handler was registered at a block that already is a root. -/
  | alreadyRoot (block : Block)
  /-- Some blocks of a method body cannot be reached. -/
  | unreachable (blocks total : Nat)
  /-- The trees of all method bodies are in place. -/
  | warmedUp (bodies : Nat)
deriving DecidableEq

namespace Event

/-- The level of a record depends on its kind only. -/
def level : Event → Level
  | resolved .. => .trace
  | treeBuilt .. => .debug
  | rootIgnored .. => .warn
  | alreadyRoot .. => .debug
  | unreachable .. => .warn
  | warmedUp .. => .debug

private def blockText : Option Block → String
  | none => "None"
  | some b => "Some(" ++ b.inspect ++ ")"

/-- The text of a record. -/
def message : Event → String
  | resolved b s c =>
    blockText b ++ ": semi " ++ blockText s ++ " candidate idom " ++ blockText c
  | treeBuilt r n s =>
    "dominator tree: " ++ toString r ++ " root(s), " ++ toString n ++ " reachable block(s), " ++
      toString s ++ " shared"
  | rootIgnored r n =>
    "ignoring root " ++ r.name ++ ": graph only has " ++ toString n ++ " blocks"
  | alreadyRoot b => b.name ++ " is already a root of the flowgraph"
  | unreachable k n => toString k ++ " of " ++ toString n ++ " blocks are unreachable"
  | warmedUp n => "precomputed dominators for " ++ toString n ++ " method bodies"

end Event

/-- A result with the records of its computation, oldest first. -/
structure Logged (α : Type) where
  value : α
  events : List Event

namespace Logged

variable {α β : Type}

/-- Results are chained; records are appended. -/
instance : Monad Logged where
  pure a := ⟨a, []⟩
  bind x f := ⟨(f x.value).value, x.events ++ (f x.value).events⟩

/-- Write records. -/
def record (events : List Event) : Logged Unit := ⟨(), events⟩

/-- A pure result is given back. -/
@[simp] theorem value_pure (a : α) : (pure a : Logged α).value = a := rfl

/-- A pure result writes no record. -/
@[simp] theorem events_pure (a : α) : (pure a : Logged α).events = [] := rfl

/-- The result of a chain is the result of its second part. -/
@[simp] theorem value_bind (x : Logged α) (f : α → Logged β) :
    (x >>= f).value = (f x.value).value := rfl

/-- The records of a chain are those of its parts in turn. -/
@[simp] theorem events_bind (x : Logged α) (f : α → Logged β) :
    (x >>= f).events = x.events ++ (f x.value).events := rfl

/-- A function is applied to the result. -/
@[simp] theorem value_map (f : α → β) (x : Logged α) : (f <$> x).value = f x.value := rfl

/-- What is done to a result leaves its records. -/
@[simp] theorem events_map (f : α → β) (x : Logged α) : (f <$> x).events = x.events :=
  List.append_nil x.events

/-- Writing records has no result of its own. -/
@[simp] theorem value_record (events : List Event) : (record events).value = () := rfl

/-- What is written down is recorded, and nothing else. -/
@[simp] theorem events_record (events : List Event) : (record events).events = events := rfl

instance : LawfulMonad Logged where
  map_const := rfl
  id_map x := by cases x; simp [Functor.map]
  seqLeft_eq x y := by cases x; cases y; simp [SeqLeft.seqLeft, Seq.seq, Functor.map]
  seqRight_eq x y := by cases x; cases y; simp [SeqRight.seqRight, Seq.seq, Functor.map]
  pure_seq f x := rfl
  bind_pure_comp f x := rfl
  bind_map f x := rfl
  pure_bind a f := rfl
  bind_assoc x f g := by simp [bind, List.append_assoc]

end Logged
end Dominance
