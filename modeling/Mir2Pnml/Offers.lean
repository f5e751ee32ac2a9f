import Mir2Pnml.Inventory
import Mir2Pnml.Semantics

/-! # What the pieces offer

The places, transitions and arcs each piece of a function's log offers. Every place
offered is one of five records and every transition one of three, so a place's kind and
initial tokens are functions of its id. The built net keeps one record for each id offered,
so its places and transitions inherit these facts, and its arcs are the log's arcs in order.
Its warnings report each irregular block once (`buildPetriNet_warnings`).
-/
namespace Mir2Pnml

/-! ## The pieces, projected -/

section Pieces
variable (f : String) (k m : Int) (src : String) (places : List (Int × String))
  (lk uk : Option String)

@[simp] theorem placesOf_edgeOps :
    placesOf (edgeOps f k src places lk uk m) = mutexPlaces (truthy lk) ++ mutexPlaces (truthy uk) := by
  unfold edgeOps
  cases truthy (places.lookup m) <;> cases truthy lk <;> cases truthy uk <;> rfl

@[simp] theorem transitionsOf_edgeOps :
    transitionsOf (edgeOps f k src places lk uk m) = [edgeTransition f k m lk uk] := by
  unfold edgeOps
  cases truthy (places.lookup m) <;> cases truthy lk <;> cases truthy uk <;> rfl

@[simp] theorem arcsOf_edgeOps :
    arcsOf (edgeOps f k src places lk uk m) =
      (src, edgeTransitionId f k m, 1) ::
        ((truthy (places.lookup m)).toList.map fun d => (edgeTransitionId f k m, d, 1)) ++
        lockArcs (edgeTransitionId f k m) (truthy lk) ++ unlockArcs (edgeTransitionId f k m) (truthy uk) := by
  unfold edgeOps
  cases truthy (places.lookup m) <;> cases truthy lk <;> cases truthy uk <;> rfl

@[simp] theorem placesOf_returnOps : placesOf (returnOps f k src) = [] := rfl
@[simp] theorem transitionsOf_returnOps : transitionsOf (returnOps f k src) = [returnTransition f k] :=
  rfl
@[simp] theorem arcsOf_returnOps :
    arcsOf (returnOps f k src) =
      [(src, returnTransitionId f k, 1), (returnTransitionId f k, exitPlaceId f, 1)] := rfl

end Pieces

section EdgePiece
variable (fn : MirFunction) (bb : BasicBlock) (term : Terminator) (m : Int)

@[simp] theorem placesOf_edgePiece :
    placesOf (edgePiece fn bb term m) = mutexPlaces (truthy (terminatorPlan fn bb term).mutexLockKey) ++
      mutexPlaces (truthy (terminatorPlan fn bb term).mutexUnlockKey) :=
  placesOf_edgeOps ..

@[simp] theorem transitionsOf_edgePiece :
    transitionsOf (edgePiece fn bb term m) = [edgePieceTransition fn bb term m] :=
  transitionsOf_edgeOps ..

@[simp] theorem edgePieceTransition_id :
    (edgePieceTransition fn bb term m).id = edgeTransitionId fn.name bb.bbId m := rfl

/-- The arcs of an edge: into the transition from the block's place, out to the target's
place when the target has one, and the lock or unlock pair. -/
@[simp] theorem arcsOf_edgePiece :
    arcsOf (edgePiece fn bb term m) =
      (bbPlaceId fn.name bb.bbId, edgeTransitionId fn.name bb.bbId m, 1) ::
        (if hasBlock fn.basicBlocks m then [(edgeTransitionId fn.name bb.bbId m, bbPlaceId fn.name m, 1)]
          else []) ++
        lockArcs (edgeTransitionId fn.name bb.bbId m) (truthy (terminatorPlan fn bb term).mutexLockKey) ++
        unlockArcs (edgeTransitionId fn.name bb.bbId m)
          (truthy (terminatorPlan fn bb term).mutexUnlockKey) := by
  rw [edgePiece, arcsOf_edgeOps, truthy_lookup_bbToPlace]
  split <;> rfl

end EdgePiece

theorem mem_placesOf_headerOps {fn : MirFunction} {e : String} {p : Place} :
    p ∈ placesOf (headerOps fn e) ↔ p = entryPlace fn.name e ∨ p = exitPlace fn.name ∨
      ∃ bb ∈ fn.basicBlocks, bb.isCleanup = false ∧ p = bbPlace fn.name bb.bbId := by
  have : ∀ bs : List BasicBlock, p ∈ placesOf (blockPlaceOps fn.name bs) ↔
      ∃ bb ∈ bs, bb.isCleanup = false ∧ p = bbPlace fn.name bb.bbId := fun bs => by
    induction bs with
    | nil => simp [blockPlaceOps]
    | cons bb bs ih =>
      simp only [blockPlaceOps, List.filterMap_cons] at ih ⊢
      cases hc : bb.isCleanup <;> simp [ih, hc, List.exists_mem_cons]
  simp [headerOps, this]

@[simp] theorem transitionsOf_headerOps (fn : MirFunction) (e : String) :
    transitionsOf (headerOps fn e) = [] := by
  simp only [headerOps, blockPlaceOps]
  induction fn.basicBlocks with
  | nil => rfl
  | cons bb bs ih => cases hc : bb.isCleanup <;> simp_all

@[simp] theorem arcsOf_headerOps (fn : MirFunction) (e : String) : arcsOf (headerOps fn e) = [] := by
  simp only [headerOps, blockPlaceOps]
  induction fn.basicBlocks with
  | nil => rfl
  | cons bb bs ih => cases hc : bb.isCleanup <;> simp_all

section Flatten
variable (cs : List (List BuildOp))

@[simp] theorem placesOf_flatten : placesOf cs.flatten = cs.flatMap placesOf :=
  List.filterMap_flatten _ _
@[simp] theorem transitionsOf_flatten : transitionsOf cs.flatten = cs.flatMap transitionsOf :=
  List.filterMap_flatten _ _
@[simp] theorem arcsOf_flatten : arcsOf cs.flatten = cs.flatMap arcsOf :=
  List.filterMap_flatten _ _

end Flatten

/-! ## Shapes -/

/-- The places `_build_function_net` creates for `fn`. -/
inductive PlaceShape (fn : MirFunction) (e : String) : Place → Prop
  | entry : PlaceShape fn e (entryPlace fn.name e)
  | exit : PlaceShape fn e (exitPlace fn.name)
  | block {bb : BasicBlock} : bb ∈ fn.basicBlocks → bb.isCleanup = false →
      PlaceShape fn e (bbPlace fn.name bb.bbId)
  | free (key : String) : PlaceShape fn e (mutexFreePlace key)
  | held (key : String) : PlaceShape fn e (mutexHeldPlace key)

/-- The transitions `_build_function_net` creates for `fn`. -/
inductive TransitionShape (fn : MirFunction) : Transition → Prop
  | start : TransitionShape fn (startTransition fn.name)
  | edge {bb : BasicBlock} {term : Terminator} {m : Int} : bb ∈ fn.basicBlocks →
      bb.isCleanup = false → bb.terminator = some term → m ∈ (terminatorPlan fn bb term).targets →
      TransitionShape fn (edgePieceTransition fn bb term m)
  | ret {bb : BasicBlock} : bb ∈ fn.basicBlocks → bb.isCleanup = false →
      bb.terminator = some .return → TransitionShape fn (returnTransition fn.name bb.bbId)

theorem mem_mutexPlaces {o : Option String} {p : Place} (h : p ∈ mutexPlaces o) :
    ∃ key, o = some key ∧ (p = mutexFreePlace key ∨ p = mutexHeldPlace key) := by
  cases o with
  | none => cases h
  | some key => simpa [mutexPlaces] using h

theorem mem_lockArcs {tid : String} {o : Option String} {x : String × String × Int}
    (h : x ∈ lockArcs tid o) :
    ∃ k, o = some k ∧ (x = (mutexFreeId k, tid, 1) ∨ x = (tid, mutexHeldId k, 1)) := by
  cases o with
  | none => cases h
  | some k => simpa [lockArcs] using h

theorem mem_unlockArcs {tid : String} {o : Option String} {x : String × String × Int}
    (h : x ∈ unlockArcs tid o) :
    ∃ k, o = some k ∧ (x = (mutexHeldId k, tid, 1) ∨ x = (tid, mutexFreeId k, 1)) := by
  cases o with
  | none => cases h
  | some k => simpa [unlockArcs] using h

namespace Chunk
variable {fn : MirFunction} {e : String} {c : List BuildOp}

theorem placeShape (hc : Chunk fn e c) {p : Place} (hp : p ∈ placesOf c) : PlaceShape fn e p := by
  cases hc with
  | header =>
    rcases mem_placesOf_headerOps.mp hp with rfl | rfl | ⟨bb, hbb, hcl, rfl⟩
    · exact .entry
    · exact .exit
    · exact .block hbb hcl
  | edge =>
    simp only [placesOf_edgePiece, List.mem_append] at hp
    rcases hp with hp | hp <;> obtain ⟨key, -, rfl | rfl⟩ := mem_mutexPlaces hp
    all_goals first | exact .free key | exact .held key
  | _ => simp at hp

theorem transitionShape (hc : Chunk fn e c) {t : Transition} (ht : t ∈ transitionsOf c) :
    TransitionShape fn t := by
  cases hc with
  | start => simp only [transitionsOf_cons_addTransition, transitionsOf_cons_addArc,
      transitionsOf_nil, List.mem_singleton] at ht; exact ht ▸ .start
  | edge hbb hcl ht' hm =>
    simp only [transitionsOf_edgePiece, List.mem_singleton] at ht; exact ht ▸ .edge hbb hcl ht' hm
  | ret hbb hcl hr =>
    simp only [transitionsOf_returnOps, List.mem_singleton] at ht; exact ht ▸ .ret hbb hcl hr
  | _ => simp at ht

end Chunk

/-- Every arc of a piece joins one of the piece's transitions to a place id. -/
theorem Chunk.arc_through {fn : MirFunction} {e : String} {c : List BuildOp} (hc : Chunk fn e c)
    {x : String × String × Int} (hx : x ∈ arcsOf c) :
    ∃ t ∈ transitionsOf c, (x.1 = t.id ∧ firstChar x.2.1 = some 'p') ∨
      (x.2.1 = t.id ∧ firstChar x.1 = some 'p') := by
  cases hc with
  | start =>
    simp only [arcsOf_cons_addTransition, arcsOf_cons_addArc, arcsOf_nil, List.mem_cons,
      List.mem_singleton, List.not_mem_nil, or_false] at hx
    rcases hx with rfl | rfl <;> simp
  | edge =>
    simp only [arcsOf_edgePiece, List.mem_cons, List.mem_append] at hx
    rcases hx with ((rfl | hx) | hx) | hx
    · simp
    · split at hx
      · rw [List.mem_singleton] at hx; subst hx; simp
      · simp at hx
    · obtain ⟨k, -, rfl | rfl⟩ := mem_lockArcs hx <;> simp
    · obtain ⟨k, -, rfl | rfl⟩ := mem_unlockArcs hx <;> simp
  | ret =>
    simp only [arcsOf_returnOps, List.mem_cons, List.mem_singleton, List.not_mem_nil,
      or_false] at hx
    rcases hx with rfl | rfl <;> simp
  | header | nil | warn => simp at hx

/-- A piece that does not offer the transition id `tid` has no arc at it. -/
theorem Chunk.not_mem_ends {fn : MirFunction} {e : String} {c : List BuildOp} (hc : Chunk fn e c)
    {tid : String} (htid : firstChar tid = some 't') (hne : ∀ t ∈ transitionsOf c, t.id ≠ tid)
    {x : String × String × Int} (hx : x ∈ arcsOf c) : x.1 ≠ tid ∧ x.2.1 ≠ tid := by
  obtain ⟨t, ht, (⟨h1, h2⟩ | ⟨h1, h2⟩)⟩ := hc.arc_through hx
  · exact ⟨h1 ▸ hne t ht, ne_of_firstChar_ne (by rw [h2, htid]; decide)⟩
  · exact ⟨ne_of_firstChar_ne (by rw [h2, htid]; decide), h1 ▸ hne t ht⟩

theorem eq_startTransition_of_mem {f : String} {blocks : List BasicBlock}
    {places : List (Int × String)} {t : Transition} (ht : t ∈ transitionsOf (startOps f blocks places)) :
    t = startTransition f := by
  unfold startOps at ht
  split at ht
  · cases ht
  · simpa using ht

/-- The transitions of a block's pieces are its edges' and its return's. -/
theorem transitionId_of_mem_blockChunks {fn : MirFunction} {bb : BasicBlock} {c : List BuildOp}
    (hc : c ∈ blockChunks fn bb) {t : Transition} (ht : t ∈ transitionsOf c) :
    (∃ m, t.id = edgeTransitionId fn.name bb.bbId m) ∨ t.id = returnTransitionId fn.name bb.bbId := by
  unfold blockChunks at hc
  split at hc
  · cases hc
  · split at hc
    · simp only [List.mem_singleton] at hc; subst hc; simp at ht
    · simp only [List.mem_append, List.mem_map] at hc
      rcases hc with (⟨w, -, rfl⟩ | ⟨m, -, rfl⟩) | hc
      · simp at ht
      · simp only [transitionsOf_edgePiece, List.mem_singleton] at ht
        exact .inl ⟨m, ht ▸ rfl⟩
      · split at hc
        · simp only [List.mem_singleton] at hc; subst hc
          simp only [transitionsOf_returnOps, List.mem_singleton] at ht
          exact .inr (ht ▸ rfl)
        · cases hc

/-! ## Kinds and tokens by id -/

/-- The kind of the place an id names. -/
def kindOfId (x : String) : String :=
  if idClass x = some 'e' then "mutex_free" else if idClass x = some 'd' then "mutex_held" else "cfg"

/-- The initial tokens of the place an id names, when `e` is the entry function. -/
def initOfId (e x : String) : Int := if idClass x = some 'e' ∨ x = entryPlaceId e then 1 else 0

namespace PlaceShape
variable {fn : MirFunction} {e : String} {p : Place}

theorem kind_eq (h : PlaceShape fn e p) : p.kind = kindOfId p.id := by
  cases h <;> simp [kindOfId, entryPlace, exitPlace, bbPlace, mutexFreePlace, mutexHeldPlace]

theorem init_eq (h : PlaceShape fn e p) : p.initTokens = initOfId e p.id := by
  cases h with
  | entry => by_cases hf : fn.name = e <;> simp [entryPlace, initOfId, hf]
  | exit => simp [exitPlace, initOfId, ne_of_idClass_ne (by simp : idClass (exitPlaceId fn.name) ≠
      idClass (entryPlaceId e))]
  | block => simp [bbPlace, initOfId, ne_of_idClass_ne (by simp : idClass (bbPlaceId _ _) ≠
      idClass (entryPlaceId e))]
  | free => simp [mutexFreePlace, initOfId]
  | held => simp [mutexHeldPlace, initOfId, ne_of_idClass_ne (by simp : idClass (mutexHeldId _) ≠
      idClass (entryPlaceId e))]

end PlaceShape

/-! ## The built net -/

section Net
variable (fs : List MirFunction) (e : String) (n : Option Int)

theorem mem_placesOf_buildOps {p : Place} :
    p ∈ placesOf (buildOps fs e n) ↔ ∃ c ∈ buildChunks fs e n, p ∈ placesOf c := by
  simp [buildOps_eq_flatten]

theorem mem_transitionsOf_buildOps {t : Transition} :
    t ∈ transitionsOf (buildOps fs e n) ↔ ∃ c ∈ buildChunks fs e n, t ∈ transitionsOf c := by
  simp [buildOps_eq_flatten]

theorem places_build :
    (buildPetriNet fs e n).places = appendNew (·.id) [] (placesOf (buildOps fs e n)) := by
  rw [buildPetriNet_eq]; rfl

theorem transitions_build :
    (buildPetriNet fs e n).transitions = appendNew (·.id) [] (transitionsOf (buildOps fs e n)) := by
  rw [buildPetriNet_eq]; rfl

theorem arcs_build : (buildPetriNet fs e n).arcs = numberArcs 0 (arcsOf (buildOps fs e n)) := by
  rw [buildPetriNet_eq]; rfl

theorem initialMarking_build :
    (buildPetriNet fs e n).initialMarking = markingOf (buildPetriNet fs e n).places := by
  rw [buildPetriNet_eq]; rfl

variable {fs e n}

theorem placeShape_of_mem {p : Place} (hp : p ∈ (buildPetriNet fs e n).places) :
    ∃ fn ∈ fnsToProcess fs n, PlaceShape fn e p := by
  rw [places_build] at hp
  rcases mem_appendNew _ hp with hp | hp
  · cases hp
  obtain ⟨c, hc, hp⟩ := (mem_placesOf_buildOps fs e n).mp hp
  obtain ⟨fn, hfn, hc⟩ := chunk_of_mem_buildChunks hc
  exact ⟨fn, hfn, hc.placeShape hp⟩

theorem chunk_of_mem_transitions {t : Transition} (ht : t ∈ (buildPetriNet fs e n).transitions) :
    ∃ c ∈ buildChunks fs e n, t ∈ transitionsOf c := by
  rw [transitions_build] at ht
  rcases mem_appendNew _ ht with ht | ht
  · cases ht
  exact (mem_transitionsOf_buildOps fs e n).mp ht

theorem transitionShape_of_mem {t : Transition} (ht : t ∈ (buildPetriNet fs e n).transitions) :
    ∃ fn ∈ fnsToProcess fs n, TransitionShape fn t := by
  obtain ⟨c, hc, ht⟩ := chunk_of_mem_transitions ht
  obtain ⟨fn, hfn, hc⟩ := chunk_of_mem_buildChunks hc
  exact ⟨fn, hfn, hc.transitionShape ht⟩

theorem kind_of_mem_places {p : Place} (hp : p ∈ (buildPetriNet fs e n).places) :
    p.kind = kindOfId p.id := by
  obtain ⟨_, _, h⟩ := placeShape_of_mem hp
  exact h.kind_eq

theorem init_of_mem_places {p : Place} (hp : p ∈ (buildPetriNet fs e n).places) :
    p.initTokens = initOfId e p.id := by
  obtain ⟨_, _, h⟩ := placeShape_of_mem hp
  exact h.init_eq

variable (fs e n)

/-- The net's place ids are the ids of the places offered. -/
theorem mem_placeIds_build (x : String) :
    x ∈ (buildPetriNet fs e n).placeIds ↔ ∃ c ∈ buildChunks fs e n, ∃ p ∈ placesOf c, p.id = x := by
  rw [PetriNet.placeIds, places_build, key_mem_appendNew]
  simp only [List.map_nil, List.not_mem_nil, false_or, List.mem_map, mem_placesOf_buildOps]
  exact ⟨fun ⟨p, ⟨c, hc, hp⟩, hx⟩ => ⟨c, hc, p, hp, hx⟩,
    fun ⟨c, hc, p, hp, hx⟩ => ⟨p, ⟨c, hc, hp⟩, hx⟩⟩

theorem mem_transitionIds_build (x : String) :
    x ∈ (buildPetriNet fs e n).transitionIds ↔
      ∃ c ∈ buildChunks fs e n, ∃ t ∈ transitionsOf c, t.id = x := by
  rw [PetriNet.transitionIds, transitions_build, key_mem_appendNew]
  simp only [List.map_nil, List.not_mem_nil, false_or, List.mem_map, mem_transitionsOf_buildOps]
  exact ⟨fun ⟨t, ⟨c, hc, ht⟩, hx⟩ => ⟨c, hc, t, ht, hx⟩,
    fun ⟨c, hc, t, ht, hx⟩ => ⟨t, ⟨c, hc, ht⟩, hx⟩⟩

theorem placeIds_nodup : (buildPetriNet fs e n).placeIds.Nodup := by
  rw [PetriNet.placeIds, places_build]; exact nodup_appendNew _ (by simp) _

theorem transitionIds_nodup : (buildPetriNet fs e n).transitionIds.Nodup := by
  rw [PetriNet.transitionIds, transitions_build]; exact nodup_appendNew _ (by simp) _

/-- In a list whose keys are distinct, the first element of key `x` is the one of key `x`. -/
theorem find?_key_eq_some {α : Type} {l : List α} {key : α → String} (hl : (l.map key).Nodup) {x : String}
    {a : α} : l.find? (fun b => key b == x) = some a ↔ a ∈ l ∧ key a = x := by
  constructor
  · exact fun h => ⟨List.mem_of_find?_eq_some h, by simpa using List.find?_some h⟩
  rintro ⟨ha, rfl⟩
  induction l with
  | nil => cases ha
  | cons b l ih =>
    obtain ⟨hb, hl⟩ := List.nodup_cons.mp hl
    rcases List.mem_cons.mp ha with rfl | ha
    · simp
    · have hba : key b ≠ key a := fun h => hb (List.mem_map.mpr ⟨a, ha, h.symm⟩)
      rw [List.find?_cons_of_neg _ (by simpa using hba), ih hl ha]

/-- On a built net, `place_by_id` and `transition_by_id` find the place and the transition of
each id, and nothing for an id the net does not have. -/
theorem byId_build (x : String) :
    (∀ p, (buildPetriNet fs e n).placeById x = some p ↔ p ∈ (buildPetriNet fs e n).places ∧ p.id = x) ∧
      ∀ t, (buildPetriNet fs e n).transitionById x = some t ↔
        t ∈ (buildPetriNet fs e n).transitions ∧ t.id = x :=
  ⟨fun _ => find?_key_eq_some (placeIds_nodup fs e n),
    fun _ => find?_key_eq_some (transitionIds_nodup fs e n)⟩

/-- Counting arcs of the net is counting them piece by piece. -/
theorem countP_arcs_build (q : String × String × Int → Bool) :
    (buildPetriNet fs e n).arcs.countP (q ∘ Arc.ends) =
      ((buildChunks fs e n).map fun c => (arcsOf c).countP q).sum := by
  rw [arcs_build, ← List.countP_map, map_ends_numberArcs, buildOps_eq_flatten, arcsOf_flatten,
    List.flatMap, List.countP_flatten, List.map_map]
  rfl

theorem inflow_build (ps : List String) (t : String) :
    (buildPetriNet fs e n).inflow ps t =
      ((buildChunks fs e n).map fun c => (arcsOf c).countP fun x => x.1 ∈ ps ∧ x.2.1 = t).sum :=
  countP_arcs_build fs e n fun x => decide (x.1 ∈ ps ∧ x.2.1 = t)

theorem outflow_build (ps : List String) (t : String) :
    (buildPetriNet fs e n).outflow ps t =
      ((buildChunks fs e n).map fun c => (arcsOf c).countP fun x => x.1 = t ∧ x.2.1 ∈ ps).sum :=
  countP_arcs_build fs e n fun x => decide (x.1 = t ∧ x.2.1 ∈ ps)

/-- The initial marking reads each place's tokens off its id. -/
theorem initial_build (x : String) :
    (buildPetriNet fs e n).initial x =
      if x ∈ (buildPetriNet fs e n).placeIds then (initOfId e x).toNat else 0 := by
  unfold PetriNet.initial
  rw [initialMarking_build]
  split
  · rename_i hx
    obtain ⟨p, hp, rfl⟩ := List.mem_map.mp hx
    rw [lookup_markingOf (placeIds_nodup fs e n) hp, init_of_mem_places hp]
    unfold initOfId
    split <;> rfl
  · rw [lookup_markingOf_none ‹_›]; rfl

theorem filter_arcs_build (q : String × String × Int → Bool) :
    ((buildPetriNet fs e n).arcs.filter (q ∘ Arc.ends)).map Arc.ends =
      (buildChunks fs e n).flatMap fun c => (arcsOf c).filter q := by
  rw [← List.filter_map, arcs_build, map_ends_numberArcs, buildOps_eq_flatten, arcsOf_flatten,
    List.filter_flatMap]

theorem mem_arcs_build (x : String × String × Int) :
    x ∈ (buildPetriNet fs e n).arcs.map Arc.ends ↔ ∃ c ∈ buildChunks fs e n, x ∈ arcsOf c := by
  rw [arcs_build, map_ends_numberArcs, buildOps_eq_flatten, arcsOf_flatten, List.mem_flatMap]

theorem headerOps_mem_buildChunks {fn : MirFunction} (hfn : fn ∈ fnsToProcess fs n) :
    headerOps fn e ∈ buildChunks fs e n :=
  List.mem_flatMap.mpr ⟨fn, hfn, List.mem_cons_self _ _⟩

theorem edgePiece_mem_buildChunks {fn : MirFunction} {bb : BasicBlock} {term : Terminator}
    {m : Int} (hfn : fn ∈ fnsToProcess fs n) (hbb : bb ∈ fn.basicBlocks)
    (hcl : bb.isCleanup = false) (hterm : bb.terminator = some term)
    (hm : m ∈ (terminatorPlan fn bb term).targets) :
    edgePiece fn bb term m ∈ buildChunks fs e n :=
  List.mem_flatMap.mpr ⟨fn, hfn, List.mem_cons_of_mem _ (List.mem_cons_of_mem _
    (List.mem_flatMap.mpr ⟨bb, hbb, by
      simp only [blockChunks, hcl, hterm, Bool.false_eq_true, if_false, List.mem_append]
      exact .inl (.inr (List.mem_map_of_mem _ hm))⟩))⟩

variable {fs e n} {fn : MirFunction} (hfn : fn ∈ fnsToProcess fs n)
include hfn

theorem entryPlaceId_mem_placeIds : entryPlaceId fn.name ∈ (buildPetriNet fs e n).placeIds :=
  (mem_placeIds_build fs e n _).mpr ⟨_, headerOps_mem_buildChunks fs e n hfn, _,
    mem_placesOf_headerOps.mpr (.inl rfl), rfl⟩

theorem exitPlaceId_mem_placeIds : exitPlaceId fn.name ∈ (buildPetriNet fs e n).placeIds :=
  (mem_placeIds_build fs e n _).mpr ⟨_, headerOps_mem_buildChunks fs e n hfn, _,
    mem_placesOf_headerOps.mpr (.inr (.inl rfl)), rfl⟩

theorem bbPlaceId_mem_placeIds {k : Int} (hk : hasBlock fn.basicBlocks k) :
    bbPlaceId fn.name k ∈ (buildPetriNet fs e n).placeIds := by
  obtain ⟨bb, hbb, hb⟩ := List.any_eq_true.mp hk
  simp only [Bool.and_eq_true, Bool.not_eq_true', beq_iff_eq] at hb
  exact (mem_placeIds_build fs e n _).mpr ⟨_, headerOps_mem_buildChunks fs e n hfn, _,
    mem_placesOf_headerOps.mpr (.inr (.inr ⟨bb, hbb, hb.1, rfl⟩)), hb.2 ▸ rfl⟩

end Net

/-! ## Warnings -/

/-- The irregularities of a block the builder reports rather than translates: no terminator,
a drop of a local the guard table does not bind, a lock-shaped call with no local argument,
and a call to anything that is not a lock. -/
inductive Irregularity
  | noTerminator
  | dropOfNonGuard (l : String)
  | lockWithoutLocal (callee : String)
  | unrecognizedCall (callee : String)
  deriving DecidableEq, Repr

namespace Irregularity

def reason : Irregularity → String
  | noTerminator => "no terminator found"
  | dropOfNonGuard l => "drop(" ++ l ++ ") not in guard binding table"
  | lockWithoutLocal _ => "Mutex::lock call but no local in args"
  | unrecognizedCall _ => "unrecognized call, treated as CFG edge"

def callee : Irregularity → Option String
  | noTerminator => none
  | dropOfNonGuard _ => some "drop"
  | lockWithoutLocal c => some c
  | unrecognizedCall c => some c

/-- The record reporting irregularity `i` of block `bb` of `fn`. -/
def warning (fn : MirFunction) (bb : BasicBlock) (i : Irregularity) : Warning :=
  ⟨fn.name, "bb" ++ toString bb.bbId, bb.lineStart, i.reason, i.callee⟩

end Irregularity

/-- The irregularity of a block, if it has one. -/
def irregularity (fn : MirFunction) (bb : BasicBlock) : Option Irregularity :=
  match bb.terminator with
  | none => some .noTerminator
  | some (.drop l _ _) => if (fn.guardToMutexKey.lookup l).isSome then none else some (.dropOfNonGuard l)
  | some (.call _ callee args _ _) =>
    if !isMutexLockCallee callee then some (.unrecognizedCall callee)
    else if (truthy (extractFirstLocal args)).isSome then none
    else some (.lockWithoutLocal callee)
  | some _ => none

section Warnings
variable (f : String) (k m : Int) (src : String) (places : List (Int × String)) (lk uk : Option String)

@[simp] theorem warningsOf_edgeOps : warningsOf (edgeOps f k src places lk uk m) = [] := by
  unfold edgeOps
  cases truthy (places.lookup m) <;> cases truthy lk <;> cases truthy uk <;> rfl

@[simp] theorem warningsOf_flatten (cs : List (List BuildOp)) :
    warningsOf cs.flatten = cs.flatMap warningsOf :=
  List.filterMap_flatten _ _

end Warnings

/-- The terminator dispatch warns exactly about the block's irregularity. -/
theorem terminatorPlan_warnings {fn : MirFunction} {bb : BasicBlock} {term : Terminator}
    (h : bb.terminator = some term) :
    (terminatorPlan fn bb term).warnings = ((irregularity fn bb).map (·.warning fn bb)).toList := by
  rw [irregularity, h]
  cases term with
  | drop l r u =>
    simp only [terminatorPlan]
    cases fn.guardToMutexKey.lookup l <;> rfl
  | call lhs callee args r u =>
    simp only [terminatorPlan]
    cases isMutexLockCallee callee <;> cases truthy (extractFirstLocal args) <;> rfl
  | _ => rfl

/-- A block's pieces warn about its irregularity, unless it is a cleanup block. -/
theorem warningsOf_blockChunks (fn : MirFunction) (bb : BasicBlock) :
    (blockChunks fn bb).flatMap warningsOf =
      if bb.isCleanup then [] else ((irregularity fn bb).map (·.warning fn bb)).toList := by
  unfold blockChunks
  split
  · rfl
  · cases h : bb.terminator with
    | none =>
      simp [irregularity, h, Irregularity.warning, Irregularity.reason, Irregularity.callee, blockWarning]
    | some term =>
      have hwarn : ∀ ws : List Warning, (ws.map fun w => [BuildOp.warn w]).flatMap warningsOf = ws := by
        intro ws; induction ws <;> simp_all
      have hedge : ∀ ms : List Int, (ms.map (edgePiece fn bb term)).flatMap warningsOf = [] := by
        intro ms; induction ms <;> simp_all [edgePiece]
      have hret : (if term = .return then [returnOps fn.name bb.bbId (bbPlaceId fn.name bb.bbId)]
          else []).flatMap warningsOf = [] := by split <;> rfl
      rw [List.flatMap_append, List.flatMap_append, hwarn, hedge, hret, terminatorPlan_warnings h,
        List.append_nil, List.append_nil]

theorem warningsOf_functionChunks (fn : MirFunction) (e : String) :
    (functionChunks fn e).flatMap warningsOf =
      (fn.basicBlocks.filter fun bb => !bb.isCleanup).filterMap fun bb =>
        (irregularity fn bb).map (·.warning fn bb) := by
  have hhead : ∀ bs : List BasicBlock, warningsOf (blockPlaceOps fn.name bs) = [] := fun bs => by
    induction bs with
    | nil => rfl
    | cons bb bs ih => cases hc : bb.isCleanup <;> simp_all [blockPlaceOps, List.filterMap_cons]
  have hstart : warningsOf (startOps fn.name fn.basicBlocks (bbToPlace fn.name fn.basicBlocks)) = [] := by
    unfold startOps; split <;> rfl
  have hblocks : ∀ bs : List BasicBlock, (bs.flatMap (blockChunks fn)).flatMap warningsOf =
      (bs.filter fun bb => !bb.isCleanup).filterMap fun bb => (irregularity fn bb).map (·.warning fn bb) := by
    intro bs
    induction bs with
    | nil => rfl
    | cons bb bs ih =>
      rw [List.flatMap_cons, List.flatMap_append, ih, warningsOf_blockChunks]
      cases hc : bb.isCleanup <;> cases hi : irregularity fn bb <;> simp [List.filter_cons, hc, hi]
  simp only [functionChunks, List.flatMap_cons, headerOps, warningsOf_append, hhead, hstart, hblocks]
  rfl

/-- The net's warnings: over the processed functions and their non-cleanup blocks, in order,
one record for each irregular block, naming its function, its label and line, the reason and
the callee. Nothing else is reported. -/
theorem buildPetriNet_warnings (fs : List MirFunction) (e : String) (n : Option Int) :
    (buildPetriNet fs e n).warnings =
      (fnsToProcess fs n).flatMap fun fn =>
        (fn.basicBlocks.filter fun bb => !bb.isCleanup).filterMap fun bb =>
          (irregularity fn bb).map (·.warning fn bb) := by
  rw [buildPetriNet_eq, show (netOfOps _).warnings = warningsOf _ from rfl, buildOps_eq_flatten,
    warningsOf_flatten, buildChunks, List.flatMap_assoc]
  simp only [warningsOf_functionChunks]

end Mir2Pnml
