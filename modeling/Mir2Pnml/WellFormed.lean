import Mir2Pnml.Offers

/-! # Well-formed nets

What makes a `PetriNet` a PT-net: one record per place id and per transition id, no id on
both sides, arcs numbered `arc_1, ..., arc_n`, every arc of positive weight joining a place
and a transition of the net, and the initial marking listing exactly the places that hold
tokens. `build_petri_net` returns a well-formed net for every input: each arc is emitted in
the piece that offers its transition, after the function's places, and place ids start with
`p` while transition ids start with `t`.
-/
namespace Mir2Pnml

namespace PetriNet

/-- A well-formed PT-net. -/
structure WellFormed (N : PetriNet) : Prop where
  placeIds_nodup : N.placeIds.Nodup
  transitionIds_nodup : N.transitionIds.Nodup
  disjoint : ∀ x ∈ N.placeIds, x ∉ N.transitionIds
  arcIds : N.arcs.map (·.id) = (List.range' 1 N.arcs.length).map fun i => "arc_" ++ toString i
  weight_pos : ∀ a ∈ N.arcs, 1 ≤ a.weight
  arc_ends : ∀ a ∈ N.arcs, (a.source ∈ N.placeIds ∧ a.target ∈ N.transitionIds) ∨
    (a.source ∈ N.transitionIds ∧ a.target ∈ N.placeIds)
  initialMarking : N.initialMarking = markingOf N.places

end PetriNet

theorem PlaceShape.firstChar_id {fn : MirFunction} {e : String} {p : Place}
    (h : PlaceShape fn e p) : firstChar p.id = some 'p' := by
  cases h <;> simp [entryPlace, exitPlace, bbPlace, mutexFreePlace, mutexHeldPlace]

theorem TransitionShape.firstChar_id {fn : MirFunction} {t : Transition}
    (h : TransitionShape fn t) : firstChar t.id = some 't' := by
  cases h <;> simp [startTransition, edgeTransition, returnTransition]

section Build
variable {fs : List MirFunction} {e : String} {n : Option Int}

theorem firstChar_of_mem_placeIds {x : String} (hx : x ∈ (buildPetriNet fs e n).placeIds) :
    firstChar x = some 'p' := by
  obtain ⟨p, hp, rfl⟩ := List.mem_map.mp hx
  obtain ⟨_, _, h⟩ := placeShape_of_mem hp
  exact h.firstChar_id

theorem firstChar_of_mem_transitionIds {x : String}
    (hx : x ∈ (buildPetriNet fs e n).transitionIds) : firstChar x = some 't' := by
  obtain ⟨t, ht, rfl⟩ := List.mem_map.mp hx
  obtain ⟨_, _, h⟩ := transitionShape_of_mem ht
  exact h.firstChar_id

/-- Each arc of a piece has weight 1 and joins a place of the net to the piece's own
transition, one way or the other. -/
theorem Chunk.arc_ends {fn : MirFunction} {c : List BuildOp} (hfn : fn ∈ fnsToProcess fs n)
    (hcm : c ∈ buildChunks fs e n) (hc : Chunk fn e c) {x : String × String × Int}
    (hx : x ∈ arcsOf c) :
    x.2.2 = 1 ∧
      (x.1 ∈ (buildPetriNet fs e n).placeIds ∧ x.2.1 ∈ (buildPetriNet fs e n).transitionIds ∨
        x.1 ∈ (buildPetriNet fs e n).transitionIds ∧ x.2.1 ∈ (buildPetriNet fs e n).placeIds) := by
  have hT : ∀ t ∈ transitionsOf c, t.id ∈ (buildPetriNet fs e n).transitionIds :=
    fun t ht => (mem_transitionIds_build fs e n _).mpr ⟨c, hcm, t, ht, rfl⟩
  have hP : ∀ p ∈ placesOf c, p.id ∈ (buildPetriNet fs e n).placeIds :=
    fun p hp => (mem_placeIds_build fs e n _).mpr ⟨c, hcm, p, hp, rfl⟩
  cases hc with
  | start hfirst hcl =>
    have ht := hT _ (List.mem_singleton_self (startTransition fn.name))
    simp only [arcsOf_cons_addTransition, arcsOf_cons_addArc, arcsOf_nil, List.mem_cons,
      List.mem_singleton, List.not_mem_nil, or_false] at hx
    rcases hx with rfl | rfl
    · exact ⟨rfl, .inl ⟨entryPlaceId_mem_placeIds hfn, ht⟩⟩
    · exact ⟨rfl, .inr ⟨ht, bbPlaceId_mem_placeIds hfn (hasBlock_of_mem hfirst hcl)⟩⟩
  | edge hbb hcl _ _ =>
    have ht := hT _ (by rw [transitionsOf_edgePiece]; exact List.mem_singleton_self _)
    simp only [arcsOf_edgePiece, List.mem_cons, List.mem_append] at hx
    rcases hx with ((rfl | hx) | hx) | hx
    · exact ⟨rfl, .inl ⟨bbPlaceId_mem_placeIds hfn (hasBlock_of_mem hbb hcl), ht⟩⟩
    · split at hx
      · rename_i hk
        rw [List.mem_singleton] at hx
        exact hx ▸ ⟨rfl, .inr ⟨ht, bbPlaceId_mem_placeIds hfn hk⟩⟩
      · simp at hx
    · obtain ⟨k, hk, rfl | rfl⟩ := mem_lockArcs hx
      · exact ⟨rfl, .inl ⟨hP (mutexFreePlace k) (by simp [hk, mutexPlaces]), ht⟩⟩
      · exact ⟨rfl, .inr ⟨ht, hP (mutexHeldPlace k) (by simp [hk, mutexPlaces])⟩⟩
    · obtain ⟨k, hk, rfl | rfl⟩ := mem_unlockArcs hx
      · exact ⟨rfl, .inl ⟨hP (mutexHeldPlace k) (by simp [hk, mutexPlaces]), ht⟩⟩
      · exact ⟨rfl, .inr ⟨ht, hP (mutexFreePlace k) (by simp [hk, mutexPlaces])⟩⟩
  | ret hbb hcl _ =>
    have ht := hT _ (by rw [transitionsOf_returnOps]; exact List.mem_singleton_self _)
    simp only [arcsOf_returnOps, List.mem_cons, List.mem_singleton, List.not_mem_nil,
      or_false] at hx
    rcases hx with rfl | rfl
    · exact ⟨rfl, .inl ⟨bbPlaceId_mem_placeIds hfn (hasBlock_of_mem hbb hcl), ht⟩⟩
    · exact ⟨rfl, .inr ⟨ht, exitPlaceId_mem_placeIds hfn⟩⟩
  | header | nil | warn => simp at hx

end Build

/-- `build_petri_net` returns a well-formed PT-net for every input. -/
theorem buildPetriNet_wellFormed (functions : List MirFunction) (entryFn : String)
    (maxFns : Option Int) : (buildPetriNet functions entryFn maxFns).WellFormed := by
  have ends : ∀ a ∈ (buildPetriNet functions entryFn maxFns).arcs, a.weight = 1 ∧
      (a.source ∈ (buildPetriNet functions entryFn maxFns).placeIds ∧
          a.target ∈ (buildPetriNet functions entryFn maxFns).transitionIds ∨
        a.source ∈ (buildPetriNet functions entryFn maxFns).transitionIds ∧
          a.target ∈ (buildPetriNet functions entryFn maxFns).placeIds) := fun a ha => by
    obtain ⟨c, hcm, hx⟩ := (mem_arcs_build functions entryFn maxFns a.ends).mp
      (List.mem_map_of_mem _ ha)
    obtain ⟨fn, hfn, hc⟩ := chunk_of_mem_buildChunks hcm
    exact hc.arc_ends hfn hcm hx
  refine ⟨placeIds_nodup _ _ _, transitionIds_nodup _ _ _, fun x hp ht => ?_, ?_,
    fun a ha => (ends a ha).1 ▸ Int.le_refl 1, fun a ha => (ends a ha).2, initialMarking_build _ _ _⟩
  · have := (firstChar_of_mem_placeIds hp).symm.trans (firstChar_of_mem_transitionIds ht)
    simp at this
  · simp only [arcs_build, map_id_numberArcs, length_numberArcs]

end Mir2Pnml
