import Mir2Pnml.Offers

/-! # Building function by function

The build threads only its seen sets and its arc counter from one function to the next, and
only appends. So the net of `fs ++ gs` is the net of `fs` merged with the net of `gs`: the
second's places and transitions whose ids are new, its arcs renumbered after the first's,
both warning lists, and the union of the initial markings. Two places of one id always carry
the same tokens, so the union never has to choose. `max_fns = n` builds the first `n`
functions.
-/
namespace Mir2Pnml

/-- The number `k` of an arc id `arc_k`. -/
def arcNumber (id : String) : Nat := digitsValue (id.data.drop 4)

/-- An arc renumbered `n` further on. -/
def Arc.shift (n : Nat) (a : Arc) : Arc := { a with id := "arc_" ++ toString (arcNumber a.id + n) }

/-- The union of two initial markings: the first's entries, then those of the second whose
place the first does not list. -/
def markingUnion (d d' : List (String × Int)) : List (String × Int) :=
  d ++ d'.filter fun x => x.1 ∉ d.map Prod.fst

/-- Two nets merged, the first's records kept. -/
def PetriNet.merge (N₁ N₂ : PetriNet) : PetriNet :=
  ⟨N₁.places ++ N₂.places.filter (fun p => p.id ∉ N₁.placeIds),
    N₁.transitions ++ N₂.transitions.filter (fun t => t.id ∉ N₁.transitionIds),
    N₁.arcs ++ N₂.arcs.map (Arc.shift N₁.arcs.length),
    markingUnion N₁.initialMarking N₂.initialMarking,
    N₁.warnings ++ N₂.warnings⟩

theorem arcNumber_arc (k : Nat) : arcNumber ("arc_" ++ toString k) = k := by
  simp only [arcNumber, String.data_append]
  exact (toString_nat_spec k).2.2

theorem map_shift_numberArcs (m n : Nat) (es : List (String × String × Int)) :
    (numberArcs n es).map (Arc.shift m) = numberArcs (n + m) es := by
  induction es generalizing n with
  | nil => rfl
  | cons x es ih =>
    obtain ⟨a, b, w⟩ := x
    simp only [numberArcs, List.map_cons, ih, Arc.shift, arcNumber_arc]
    congr 2
    · rw [Nat.add_right_comm]
    · rw [Nat.add_right_comm]

theorem markingOf_filter (ps : List Place) (S : List String) :
    markingOf (ps.filter fun p => p.id ∉ S) = (markingOf ps).filter fun x => x.1 ∉ S := by
  simp only [markingOf, List.filter_filter, List.filter_map]
  congr 1
  exact List.filter_congr fun p _ => by simp [Bool.and_comm]

section Build
variable (fs gs : List MirFunction) (e : String)

theorem buildOps_append :
    buildOps (fs ++ gs) e none = buildOps fs e none ++ buildOps gs e none := by
  simp [buildOps, fnsToProcess]

/-- A place id of the first net is listed in its initial marking exactly when it is listed
in the second's: places of one id carry the same tokens. -/
theorem mem_marking_iff {x : String × Int} (hx : x ∈ (buildPetriNet gs e).initialMarking) :
    x.1 ∈ (buildPetriNet fs e).placeIds ↔ x.1 ∈ (buildPetriNet fs e).initialMarking.map Prod.fst := by
  rw [initialMarking_build, markingOf] at hx ⊢
  obtain ⟨p, hp, rfl⟩ := List.mem_map.mp hx
  obtain ⟨hp, hpos⟩ := List.mem_filter.mp hp
  constructor
  · intro h
    obtain ⟨q, hq, hid⟩ := List.mem_map.mp h
    have hinit : q.initTokens = p.initTokens := by
      rw [init_of_mem_places hq, init_of_mem_places hp, hid]
    exact List.mem_map.mpr ⟨(q.id, q.initTokens), List.mem_map.mpr ⟨q, List.mem_filter.mpr
      ⟨hq, by rw [hinit]; exact hpos⟩, rfl⟩, hid⟩
  · intro h
    obtain ⟨y, hy, hid⟩ := List.mem_map.mp h
    obtain ⟨q, hq, rfl⟩ := List.mem_map.mp hy
    exact List.mem_map.mpr ⟨q, (List.mem_filter.mp hq).1, hid⟩

end Build

theorem markingOf_append (ps qs : List Place) : markingOf (ps ++ qs) = markingOf ps ++ markingOf qs := by
  simp [markingOf]

/-- Building `fs ++ gs` merges the nets of `fs` and of `gs`, and `max_fns = k` builds `fs[:k]`. -/
theorem buildPetriNet_compositional (fs gs : List MirFunction) (entryFn : String) (k : Nat) :
    buildPetriNet (fs ++ gs) entryFn = (buildPetriNet fs entryFn).merge (buildPetriNet gs entryFn) ∧
      buildPetriNet fs entryFn (some k) = buildPetriNet (fs.take k) entryFn := by
  refine ⟨?_, by simp [buildPetriNet, buildOps, fnsToProcess, pySliceTo_natCast]⟩
  have hpl : (buildPetriNet (fs ++ gs) entryFn).places = (buildPetriNet fs entryFn).places ++
      (buildPetriNet gs entryFn).places.filter fun p => p.id ∉ (buildPetriNet fs entryFn).placeIds := by
    simp only [PetriNet.placeIds, places_build, buildOps_append, placesOf_append, appendNew_append]
    rw [appendNew_eq_filter]
  refine PetriNet.ext hpl ?_ ?_ ?_ ?_ <;> simp only [PetriNet.merge]
  · simp only [PetriNet.transitionIds, transitions_build, buildOps_append, transitionsOf_append,
      appendNew_append]
    rw [appendNew_eq_filter]
  · rw [arcs_build, arcs_build, arcs_build, buildOps_append, arcsOf_append, numberArcs_append,
      length_numberArcs, map_shift_numberArcs]
  · rw [initialMarking_build, hpl, markingOf_append, markingOf_filter, markingUnion,
      ← initialMarking_build, ← initialMarking_build]
    congr 1
    exact List.filter_congr fun x hx => by simp only [mem_marking_iff fs gs entryFn hx]
  · rw [buildPetriNet_eq, buildPetriNet_eq, buildPetriNet_eq, buildOps_append]
    exact warningsOf_append _ _

end Mir2Pnml
