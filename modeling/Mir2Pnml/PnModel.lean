import Mir2Pnml.Builtins

/-! # Petri nets

The records of `pn_model.py`. Places and transitions carry their annotation dicts (the
writer reads them; the values are kept as the strings `str(v)` renders); a place's
`capacity` is never read by any function of the translator and is left out. The initial
marking is an insertion-ordered dict from place ids to token counts, and a warning is the
record `{function, basic_block, line, reason, callee}` the builder appends.
-/
namespace Mir2Pnml

/-- `Place`. -/
structure Place where
  id : String
  name : String
  kind : String
  initTokens : Int
  annotations : List (String × String)
  deriving DecidableEq, Repr

/-- `Transition`. -/
structure Transition where
  id : String
  name : String
  kind : String
  op : Option String
  annotations : List (String × String)
  deriving DecidableEq, Repr

/-- `Arc`: from a place to a transition or back. -/
structure Arc where
  id : String
  source : String
  target : String
  weight : Int
  deriving DecidableEq, Repr

/-- A builder warning. -/
structure Warning where
  function : String
  basicBlock : String
  line : Int
  reason : String
  callee : Option String
  deriving DecidableEq, Repr

/-- `PetriNet`. -/
@[ext] structure PetriNet where
  places : List Place
  transitions : List Transition
  arcs : List Arc
  initialMarking : List (String × Int)
  warnings : List Warning
  deriving DecidableEq, Repr

namespace PetriNet

/-- `place_by_id`: the first place of that id. -/
def placeById (net : PetriNet) (pid : String) : Option Place := net.places.find? (·.id == pid)

/-- `transition_by_id`: the first transition of that id. -/
def transitionById (net : PetriNet) (tid : String) : Option Transition :=
  net.transitions.find? (·.id == tid)

end PetriNet

end Mir2Pnml
