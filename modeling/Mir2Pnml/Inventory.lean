import Mir2Pnml.BuildLog
import Mir2Pnml.Ids

/-! # The pieces of a function's log

`_build_function_net` emits, in order: the entry, exit and block places; the start
transition; and for each non-cleanup block its warnings, one piece per successor edge, and
the return transition. `functionChunks` lists these pieces and `Chunk` says what each can
be. Every property of the whole build is proved piece by piece from here, and the pieces
are the only place where the builder's definitions are unfolded.
-/
namespace Mir2Pnml

/-! ## `bb_to_place` -/

/-- Whether `bb_to_place` has block id `k`: some non-cleanup block has it. -/
def hasBlock (blocks : List BasicBlock) (k : Int) : Bool :=
  blocks.any fun bb => !bb.isCleanup && bb.bbId == k

theorem hasBlock_of_mem {blocks : List BasicBlock} {bb : BasicBlock} (h : bb ∈ blocks)
    (hc : bb.isCleanup = false) : hasBlock blocks bb.bbId := by
  simpa [hasBlock] using ⟨bb, h, hc, rfl⟩

theorem lookup_bbToPlace (f : String) (blocks : List BasicBlock) (k : Int) :
    (bbToPlace f blocks).lookup k = if hasBlock blocks k then some (bbPlaceId f k) else none := by
  suffices ∀ d : List (Int × String), (blocks.foldl (fun d bb => if bb.isCleanup then d
      else dictSet d bb.bbId (bbPlaceId f bb.bbId)) d).lookup k =
      if hasBlock blocks k then some (bbPlaceId f k) else d.lookup k from this []
  induction blocks with
  | nil => intro d; simp [hasBlock]
  | cons bb blocks ih =>
    intro d
    rw [List.foldl_cons, ih]
    by_cases hb : hasBlock blocks k
    · simp [hasBlock] at hb ⊢; simp [hb]
    · by_cases hc : bb.isCleanup
      · simp [hasBlock, hc] at hb ⊢
      · by_cases hk : bb.bbId = k
        · subst hk; simp [hasBlock, hc, lookup_dictSet]
        · simp [hasBlock, hc, hk, lookup_dictSet, Ne.symm hk] at hb ⊢

theorem bbPlaceId_ne_empty (f : String) (k : Int) : bbPlaceId f k ≠ "" :=
  ne_of_firstChar_ne (by rw [firstChar_bbPlaceId]; decide)

theorem truthy_lookup_bbToPlace (f : String) (blocks : List BasicBlock) (k : Int) :
    truthy ((bbToPlace f blocks).lookup k) =
      if hasBlock blocks k then some (bbPlaceId f k) else none := by
  rw [lookup_bbToPlace]
  split
  · exact truthy_eq_some.mpr ⟨rfl, bbPlaceId_ne_empty f k⟩
  · rfl

/-! ## Pieces -/

/-- The resource places an edge ensures for a truthy key. -/
def mutexPlaces : Option String → List Place
  | some k => [mutexFreePlace k, mutexHeldPlace k]
  | none => []

/-- `free -> t -> held`, the arcs of an acquisition. -/
def lockArcs (tid : String) : Option String → List (String × String × Int)
  | some k => [(mutexFreeId k, tid, 1), (tid, mutexHeldId k, 1)]
  | none => []

/-- `held -> t -> free`, the arcs of a release. -/
def unlockArcs (tid : String) : Option String → List (String × String × Int)
  | some k => [(mutexHeldId k, tid, 1), (tid, mutexFreeId k, 1)]
  | none => []

/-- The piece of the edge from block `bb`, whose terminator is `term`, to block `m`. -/
def edgePiece (fn : MirFunction) (bb : BasicBlock) (term : Terminator) (m : Int) : List BuildOp :=
  edgeOps fn.name bb.bbId (bbPlaceId fn.name bb.bbId) (bbToPlace fn.name fn.basicBlocks)
    (terminatorPlan fn bb term).mutexLockKey (terminatorPlan fn bb term).mutexUnlockKey m

/-- The transition that piece offers. -/
def edgePieceTransition (fn : MirFunction) (bb : BasicBlock) (term : Terminator) (m : Int) :
    Transition :=
  edgeTransition fn.name bb.bbId m (terminatorPlan fn bb term).mutexLockKey
    (terminatorPlan fn bb term).mutexUnlockKey

/-- The pieces of one block: its warnings, its edges, its return. -/
def blockChunks (fn : MirFunction) (bb : BasicBlock) : List (List BuildOp) :=
  if bb.isCleanup then []
  else
    match bb.terminator with
    | none => [[.warn (blockWarning fn.name bb "no terminator found" none)]]
    | some term =>
      (terminatorPlan fn bb term).warnings.map (fun w => [.warn w]) ++
        (terminatorPlan fn bb term).targets.map (edgePiece fn bb term) ++
        (if term = .return then [returnOps fn.name bb.bbId (bbPlaceId fn.name bb.bbId)] else [])

/-- The places of `_build_function_net`'s first loop. -/
def headerOps (fn : MirFunction) (e : String) : List BuildOp :=
  [.addPlace (entryPlace fn.name e), .addPlace (exitPlace fn.name)] ++
    blockPlaceOps fn.name fn.basicBlocks

def functionChunks (fn : MirFunction) (e : String) : List (List BuildOp) :=
  headerOps fn e :: startOps fn.name fn.basicBlocks (bbToPlace fn.name fn.basicBlocks) ::
    fn.basicBlocks.flatMap (blockChunks fn)

/-- What a piece of a function's log can be: the start transition runs to a non-cleanup
block, and a function without one has an empty start piece. -/
inductive Chunk (fn : MirFunction) (e : String) : List BuildOp → Prop
  | header : Chunk fn e (headerOps fn e)
  | start {first : BasicBlock} : first ∈ fn.basicBlocks → first.isCleanup = false →
      Chunk fn e [.addTransition (startTransition fn.name),
        .addArc (entryPlaceId fn.name) (startTransitionId fn.name) 1,
        .addArc (startTransitionId fn.name) (bbPlaceId fn.name first.bbId) 1]
  | nil : Chunk fn e []
  | warn (w : Warning) : Chunk fn e [.warn w]
  | edge {bb : BasicBlock} {term : Terminator} {m : Int} : bb ∈ fn.basicBlocks →
      bb.isCleanup = false → bb.terminator = some term → m ∈ (terminatorPlan fn bb term).targets →
      Chunk fn e (edgePiece fn bb term m)
  | ret {bb : BasicBlock} : bb ∈ fn.basicBlocks → bb.isCleanup = false →
      bb.terminator = some .return → Chunk fn e (returnOps fn.name bb.bbId (bbPlaceId fn.name bb.bbId))

theorem chunk_of_mem_functionChunks {fn : MirFunction} {e : String} {c : List BuildOp}
    (h : c ∈ functionChunks fn e) : Chunk fn e c := by
  simp only [functionChunks, List.mem_cons, List.mem_flatMap] at h
  rcases h with rfl | rfl | ⟨bb, hbb, hc⟩
  · exact .header
  · unfold startOps
    split
    · exact .nil
    · rename_i first hfirst
      obtain ⟨hc, hmem⟩ := List.find?_some hfirst, List.mem_of_find?_eq_some hfirst
      simp only [Bool.not_eq_true'] at hc
      rw [lookup_bbToPlace, if_pos (hasBlock_of_mem hmem hc)]
      exact .start hmem hc
  · unfold blockChunks at hc
    cases hcl : bb.isCleanup
    · simp only [hcl, Bool.false_eq_true, if_false] at hc
      cases ht : bb.terminator with
      | none => simp only [ht, List.mem_singleton] at hc; exact hc ▸ .warn _
      | some term =>
        simp only [ht, List.mem_append, List.mem_map] at hc
        rcases hc with (⟨w, -, rfl⟩ | ⟨m, hm, rfl⟩) | hc
        · exact .warn w
        · exact .edge hbb hcl ht hm
        · split at hc
          · rename_i hr; subst hr
            rw [List.mem_singleton.mp hc]; exact .ret hbb hcl ht
          · simp at hc
    · simp [hcl] at hc

private theorem blockOps_eq_flatten (fn : MirFunction) {bb : BasicBlock}
    (hbb : bb ∈ fn.basicBlocks) :
    blockOps fn (bbToPlace fn.name fn.basicBlocks) bb = (blockChunks fn bb).flatten := by
  unfold blockOps blockChunks
  cases hc : bb.isCleanup
  · simp only [Bool.false_eq_true, if_false, truthy_lookup_bbToPlace, hasBlock_of_mem hbb hc,
      if_true]
    cases bb.terminator with
    | none => rfl
    | some term =>
      simp only [List.flatten_append, List.map_map]
      congr 1
      · congr 1
        induction (terminatorPlan fn bb term).warnings <;> simp_all
      · split <;> rfl
  · rfl

theorem buildFunctionNet_eq_flatten (fn : MirFunction) (e : String) :
    buildFunctionNet fn e = (functionChunks fn e).flatten := by
  have : ∀ bs ⊆ fn.basicBlocks, bs.flatMap (blockOps fn (bbToPlace fn.name fn.basicBlocks)) =
      (bs.flatMap (blockChunks fn)).flatten := by
    intro bs hbs
    induction bs with
    | nil => rfl
    | cons bb bs ih =>
      simp only [List.flatMap_cons, List.flatten_append]
      rw [blockOps_eq_flatten fn (hbs (List.mem_cons_self _ _)),
        ih (fun x hx => hbs (List.mem_cons_of_mem _ hx))]
  simp only [buildFunctionNet, functionChunks, headerOps, List.flatten_cons, List.append_assoc]
  rw [this _ (List.Subset.refl _)]

/-- The pieces of the whole build. -/
def buildChunks (functions : List MirFunction) (entryFn : String) (maxFns : Option Int) :
    List (List BuildOp) :=
  (fnsToProcess functions maxFns).flatMap (functionChunks · entryFn)

theorem buildOps_eq_flatten (functions : List MirFunction) (entryFn : String)
    (maxFns : Option Int) :
    buildOps functions entryFn maxFns = (buildChunks functions entryFn maxFns).flatten := by
  simp only [buildOps, buildChunks, buildFunctionNet_eq_flatten]
  induction fnsToProcess functions maxFns with
  | nil => rfl
  | cons fn fns ih => simp [ih]

theorem chunk_of_mem_buildChunks {functions : List MirFunction} {e : String} {n : Option Int}
    {c : List BuildOp} (h : c ∈ buildChunks functions e n) :
    ∃ fn ∈ fnsToProcess functions n, Chunk fn e c := by
  obtain ⟨fn, hfn, hc⟩ := List.mem_flatMap.mp h
  exact ⟨fn, hfn, chunk_of_mem_functionChunks hc⟩

end Mir2Pnml
