import Mir2Pnml.Builtins

/-! # Parsed MIR

The records of `mir_model.py`: locals, the five terminators, basic blocks and a function
with its two binding tables. Block ids are Python integers, so `Int`; the tables are
insertion-ordered dicts from local names to local names.
-/
namespace Mir2Pnml

/-- `LocalDecl`: `let [mut] _N: Type;`. -/
structure LocalDecl where
  name : String
  tyStr : String
  isMut : Bool
  deriving DecidableEq, Repr

/-- `Terminator`, the union of `TerminatorGoto`, `TerminatorReturn`, `TerminatorSwitch`,
`TerminatorDrop` and `TerminatorCall`. -/
inductive Terminator
  | goto (targetBb : Int)
  | «return»
  | switchInt (targets : List Int)
  | drop («local» : String) (returnTarget : Int) (unwindTarget : Option Int)
  | call (lhs : Option String) (callee : String) (argsStr : String) (returnTarget : Int)
      (unwindTarget : Option Int)
  deriving DecidableEq, Repr

/-- `BasicBlock`. -/
structure BasicBlock where
  bbId : Int
  statements : List String
  terminator : Option Terminator
  isCleanup : Bool
  lineStart : Int
  deriving DecidableEq, Repr

/-- `MirFunction`. -/
structure MirFunction where
  name : String
  locals : List LocalDecl
  basicBlocks : List BasicBlock
  guardToMutexKey : List (String × String)
  refToBase : List (String × String)
  deriving DecidableEq, Repr

/-- The successor list the builder reads off a terminator: a goto target, every switch
target in order, or the return target of a drop or call; unwind targets never count. -/
def Terminator.successors : Terminator → List Int
  | .goto t => [t]
  | .return => []
  | .switchInt ts => ts
  | .drop _ r _ => [r]
  | .call _ _ _ r _ => [r]

/-- The lock shape both the parser and the builder test on a callee:
`("Mutex" in callee and "lock" in callee) or "mutex::lock" in callee.lower()`. -/
def isMutexLockCallee (callee : String) : Bool :=
  (pyContains callee.data "Mutex".data && pyContains callee.data "lock".data) ||
    pyContains (pyLower callee.data) "mutex::lock".data

/-- `_resolve_mutex_key` (`pn_builder.py` and `mir_parser.py` define it alike): one lookup
through `ref_to_base`, the local itself when it is not bound. -/
def resolveMutexKey (local_ : String) (refToBase : List (String × String)) : String :=
  (refToBase.lookup local_).getD local_

/-- The unwrap/expect shape: `"::unwrap" in callee or "::expect" in callee`. -/
def isUnwrapCallee (callee : String) : Bool :=
  pyContains callee.data "::unwrap".data || pyContains callee.data "::expect".data

end Mir2Pnml
