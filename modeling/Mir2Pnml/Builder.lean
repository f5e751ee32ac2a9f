import Mir2Pnml.MirModel
import Mir2Pnml.PnModel
import Mir2Pnml.Patterns

/-! # The net builder

`pn_builder.py`. `build_petri_net` owns a net, the two seen-id sets and the arc counter,
and hands `_build_function_net` three closures over them. `_build_function_net` never reads
that state: it issues a fixed sequence of `add_place`, `add_transition`, `add_arc` and
`net.warnings.append` calls, determined by the function and `entry_fn` alone. The model
makes that sequence explicit as a list of `BuildOp`s, and `BuildState.apply` is what each
closure does to the state.
-/
namespace Mir2Pnml

/-! ## Ids and names, the builder's f-strings -/

def entryPlaceId (f : String) : String := "p_" ++ f ++ "_entry"
def exitPlaceId (f : String) : String := "p_" ++ f ++ "_exit"
def bbPlaceId (f : String) (k : Int) : String := "p_" ++ f ++ "_bb" ++ toString k
def mutexFreeId (key : String) : String := "p_mutex_" ++ key ++ "_free"
def mutexHeldId (key : String) : String := "p_mutex_" ++ key ++ "_held"
def startTransitionId (f : String) : String := "t_" ++ f ++ "_start"
def edgeTransitionId (f : String) (k m : Int) : String :=
  "t_" ++ f ++ "_bb" ++ toString k ++ "_to_bb" ++ toString m
def returnTransitionId (f : String) (k : Int) : String :=
  "t_" ++ f ++ "_bb" ++ toString k ++ "_return"

/-! ## The records the builder creates -/

/-- `p_entry`: the entry function's holds the control token. -/
def entryPlace (f entryFn : String) : Place :=
  ⟨entryPlaceId f, f ++ "_entry", "cfg", if f = entryFn then 1 else 0, []⟩
def exitPlace (f : String) : Place := ⟨exitPlaceId f, f ++ "_exit", "cfg", 0, []⟩
def bbPlace (f : String) (k : Int) : Place := ⟨bbPlaceId f k, f ++ "_bb" ++ toString k, "cfg", 0, []⟩
def mutexFreePlace (key : String) : Place :=
  ⟨mutexFreeId key, "mutex_" ++ key ++ "_free", "mutex_free", 1, []⟩
def mutexHeldPlace (key : String) : Place :=
  ⟨mutexHeldId key, "mutex_" ++ key ++ "_held", "mutex_held", 0, []⟩
def startTransition (f : String) : Transition := ⟨startTransitionId f, f ++ "_start", "cfg", none, []⟩
/-- The transition of edge `bbk -> bbm`: `lock` or `unlock` when the terminator's key is
truthy, with `op = mutex_lock_key or mutex_unlock_key`. -/
def edgeTransition (f : String) (k m : Int) (lockKey unlockKey : Option String) : Transition :=
  ⟨edgeTransitionId f k m, f ++ "_bb" ++ toString k ++ "_to_bb" ++ toString m,
    if (truthy lockKey).isSome then "lock" else if (truthy unlockKey).isSome then "unlock" else "cfg",
    pyOr lockKey unlockKey, []⟩
def returnTransition (f : String) (k : Int) : Transition :=
  ⟨returnTransitionId f k, f ++ "_bb" ++ toString k ++ "_return", "cfg", none, []⟩

section RecordFields
variable (f e key : String) (k m : Int) (lk uk : Option String)
@[simp] theorem entryPlace_id : (entryPlace f e).id = entryPlaceId f := rfl
@[simp] theorem exitPlace_id : (exitPlace f).id = exitPlaceId f := rfl
@[simp] theorem bbPlace_id : (bbPlace f k).id = bbPlaceId f k := rfl
@[simp] theorem mutexFreePlace_id : (mutexFreePlace key).id = mutexFreeId key := rfl
@[simp] theorem mutexHeldPlace_id : (mutexHeldPlace key).id = mutexHeldId key := rfl
@[simp] theorem startTransition_id : (startTransition f).id = startTransitionId f := rfl
@[simp] theorem edgeTransition_id : (edgeTransition f k m lk uk).id = edgeTransitionId f k m := rfl
@[simp] theorem returnTransition_id : (returnTransition f k).id = returnTransitionId f k := rfl
@[simp] theorem startTransition_kind : (startTransition f).kind = "cfg" := rfl
@[simp] theorem returnTransition_kind : (returnTransition f k).kind = "cfg" := rfl
theorem edgeTransition_kind :
    (edgeTransition f k m lk uk).kind =
      if (truthy lk).isSome then "lock" else if (truthy uk).isSome then "unlock" else "cfg" := rfl
@[simp] theorem edgeTransition_op : (edgeTransition f k m lk uk).op = pyOr lk uk := rfl
end RecordFields

/-! ## The builder's state and closures -/

/-- The state `build_petri_net`'s closures share. -/
structure BuildState where
  net : PetriNet
  seenPlaces : List String
  seenTransitions : List String
  arcIdCounter : Nat

namespace BuildState

def init : BuildState := ⟨⟨[], [], [], [], []⟩, [], [], 0⟩

/-- `add_place`: a place whose id was seen is dropped; a new one is appended, and entered
in the initial marking when it holds tokens. -/
def addPlace (s : BuildState) (place : Place) : BuildState :=
  if place.id ∈ s.seenPlaces then s
  else
    { s with
      seenPlaces := place.id :: s.seenPlaces
      net := { s.net with
        places := s.net.places ++ [place]
        initialMarking := if 0 < place.initTokens
          then dictSet s.net.initialMarking place.id place.initTokens
          else s.net.initialMarking } }

/-- `add_transition`. -/
def addTransition (s : BuildState) (t : Transition) : BuildState :=
  if t.id ∈ s.seenTransitions then s
  else
    { s with
      seenTransitions := t.id :: s.seenTransitions
      net := { s.net with transitions := s.net.transitions ++ [t] } }

/-- `add_arc` with `next_arc_id`: the counter is bumped first, so arcs are
`arc_1, arc_2, ...`. -/
def addArc (s : BuildState) (source target : String) (weight : Int) : BuildState :=
  { s with
    arcIdCounter := s.arcIdCounter + 1
    net := { s.net with
      arcs := s.net.arcs ++ [⟨"arc_" ++ toString (s.arcIdCounter + 1), source, target, weight⟩] } }

/-- `net.warnings.append`. -/
def warn (s : BuildState) (w : Warning) : BuildState :=
  { s with net := { s.net with warnings := s.net.warnings ++ [w] } }

end BuildState

/-- One call `_build_function_net` makes on the builder's state. -/
inductive BuildOp
  | addPlace (place : Place)
  | addTransition (t : Transition)
  | addArc (source target : String) (weight : Int)
  | warn (w : Warning)
  deriving DecidableEq, Repr

namespace BuildState

def apply (s : BuildState) : BuildOp → BuildState
  | .addPlace p => s.addPlace p
  | .addTransition t => s.addTransition t
  | .addArc a b w => s.addArc a b w
  | .warn w => s.warn w

/-- The state after a sequence of calls. -/
def run (s : BuildState) (ops : List BuildOp) : BuildState := ops.foldl apply s

@[simp] theorem run_nil (s : BuildState) : s.run [] = s := rfl
@[simp] theorem run_cons (s : BuildState) (op : BuildOp) (ops : List BuildOp) :
    s.run (op :: ops) = (s.apply op).run ops := rfl
theorem run_append (s : BuildState) (ops ops' : List BuildOp) :
    s.run (ops ++ ops') = (s.run ops).run ops' := List.foldl_append _ _ _ _

end BuildState

/-! ## `_build_function_net` -/

/-- `_ensure_mutex_places`. -/
def ensureMutexPlaces (key : String) : List BuildOp :=
  [.addPlace (mutexFreePlace key), .addPlace (mutexHeldPlace key)]

/-- `bb_to_place`, filled over the non-cleanup blocks. -/
def bbToPlace (f : String) (blocks : List BasicBlock) : List (Int × String) :=
  blocks.foldl (fun d bb => if bb.isCleanup then d else dictSet d bb.bbId (bbPlaceId f bb.bbId)) []

/-- The `add_place` calls of the `bb_to_place` loop. -/
def blockPlaceOps (f : String) (blocks : List BasicBlock) : List BuildOp :=
  blocks.filterMap fun bb =>
    if bb.isCleanup then none
    else some (.addPlace (bbPlace f bb.bbId))

/-- The start transition `entry -> first non-cleanup block`. -/
def startOps (f : String) (blocks : List BasicBlock) (places : List (Int × String)) :
    List BuildOp :=
  match blocks.find? (fun b => !b.isCleanup) with
  | none => []
  | some first =>
    [.addTransition (startTransition f),
     .addArc (entryPlaceId f) (startTransitionId f) 1,
     .addArc (startTransitionId f) ((places.lookup first.bbId).getD "") 1]

/-- A warning about block `bb` of function `f`. -/
def blockWarning (f : String) (bb : BasicBlock) (reason : String) (callee : Option String) :
    Warning :=
  ⟨f, "bb" ++ toString bb.bbId, bb.lineStart, reason, callee⟩

/-- The locals `targets`, `mutex_lock_key`, `mutex_unlock_key` set by the terminator
dispatch, and the warnings it appends. -/
structure TerminatorPlan where
  targets : List Int
  mutexLockKey : Option String
  mutexUnlockKey : Option String
  warnings : List Warning

/-- The `isinstance` chain on a block's terminator. -/
def terminatorPlan (fn : MirFunction) (bb : BasicBlock) : Terminator → TerminatorPlan
  | .goto t => ⟨[t], none, none, []⟩
  | .return => ⟨[], none, none, []⟩
  | .switchInt ts => ⟨ts, none, none, []⟩
  | .drop l r _ =>
    match fn.guardToMutexKey.lookup l with
    | some k => ⟨[r], none, some k, []⟩
    | none => ⟨[r], none, none,
        [blockWarning fn.name bb ("drop(" ++ l ++ ") not in guard binding table") (some "drop")]⟩
  | .call _ callee args r _ =>
    if isMutexLockCallee callee then
      match truthy (extractFirstLocal args) with
      | some a => ⟨[r], some (resolveMutexKey a fn.refToBase), none, []⟩
      | none => ⟨[r], none, none,
          [blockWarning fn.name bb "Mutex::lock call but no local in args" (some callee)]⟩
    else ⟨[r], none, none,
      [blockWarning fn.name bb "unrecognized call, treated as CFG edge" (some callee)]⟩

/-- The transition of one successor edge, its CFG arcs, and the resource arcs of a lock or
an unlock (the loop `for target_bb in targets`). -/
def edgeOps (f : String) (bbId : Int) (srcPlace : String) (places : List (Int × String))
    (lockKey unlockKey : Option String) (targetBb : Int) : List BuildOp :=
  let tId := edgeTransitionId f bbId targetBb
  [.addTransition (edgeTransition f bbId targetBb lockKey unlockKey), .addArc srcPlace tId 1] ++
  (match truthy (places.lookup targetBb) with
    | some dst => [.addArc tId dst 1]
    | none => []) ++
  (match truthy lockKey with
    | some k => ensureMutexPlaces k ++ [.addArc (mutexFreeId k) tId 1, .addArc tId (mutexHeldId k) 1]
    | none => []) ++
  (match truthy unlockKey with
    | some k => ensureMutexPlaces k ++ [.addArc (mutexHeldId k) tId 1, .addArc tId (mutexFreeId k) 1]
    | none => [])

/-- The return transition `bb -> exit`. -/
def returnOps (f : String) (bbId : Int) (srcPlace : String) : List BuildOp :=
  [.addTransition (returnTransition f bbId),
   .addArc srcPlace (returnTransitionId f bbId) 1,
   .addArc (returnTransitionId f bbId) (exitPlaceId f) 1]

/-- One iteration of the loop over `fn.basic_blocks`: cleanup blocks and blocks without a
place are skipped, a block without terminator only warns. -/
def blockOps (fn : MirFunction) (places : List (Int × String)) (bb : BasicBlock) : List BuildOp :=
  if bb.isCleanup then []
  else
    match truthy (places.lookup bb.bbId) with
    | none => []
    | some src =>
      match bb.terminator with
      | none => [.warn (blockWarning fn.name bb "no terminator found" none)]
      | some term =>
        let plan := terminatorPlan fn bb term
        plan.warnings.map .warn ++
          plan.targets.flatMap (edgeOps fn.name bb.bbId src places plan.mutexLockKey plan.mutexUnlockKey) ++
          (if term = .return then returnOps fn.name bb.bbId src else [])

/-- `_build_function_net`: the calls it makes, in order. -/
def buildFunctionNet (fn : MirFunction) (entryFn : String) : List BuildOp :=
  let f := fn.name
  let places := bbToPlace f fn.basicBlocks
  [.addPlace (entryPlace f entryFn), .addPlace (exitPlace f)] ++
  blockPlaceOps f fn.basicBlocks ++ startOps f fn.basicBlocks places ++
  fn.basicBlocks.flatMap (blockOps fn places)

/-- `fns_to_process`: `functions[:max_fns]` when a limit is given. -/
def fnsToProcess (functions : List MirFunction) (maxFns : Option Int) : List MirFunction :=
  match maxFns with
  | none => functions
  | some n => pySliceTo functions n

/-- The calls of the whole build: each processed function's in turn. -/
def buildOps (functions : List MirFunction) (entryFn : String) (maxFns : Option Int) :
    List BuildOp :=
  (fnsToProcess functions maxFns).flatMap (buildFunctionNet · entryFn)

/-- `build_petri_net`. -/
def buildPetriNet (functions : List MirFunction) (entryFn : String := "main")
    (maxFns : Option Int := none) : PetriNet :=
  (BuildState.init.run (buildOps functions entryFn maxFns)).net

end Mir2Pnml
