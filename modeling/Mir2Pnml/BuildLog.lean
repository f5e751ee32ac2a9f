import Mir2Pnml.Builder

/-! # What a log of builder calls produces

The closures of `build_petri_net` keep their seen sets equal to the ids already in the
net. From such a state, running a log appends, for each new id, the first place (or
transition) of that id the log offers; appends the log's arcs numbered on from the
counter; lists the new places with tokens in the initial marking; and appends the log's
warnings. `buildPetriNet_eq` states the whole build that way, and every later module
reasons about `netOfOps` and the log, never about the closures.
-/
namespace Mir2Pnml

/-! ## Projections of a log -/

namespace BuildOp

def place? : BuildOp → Option Place
  | .addPlace p => some p
  | _ => none

def transition? : BuildOp → Option Transition
  | .addTransition t => some t
  | _ => none

def arc? : BuildOp → Option (String × String × Int)
  | .addArc a b w => some (a, b, w)
  | _ => none

def warning? : BuildOp → Option Warning
  | .warn w => some w
  | _ => none

end BuildOp

def placesOf (ops : List BuildOp) : List Place := ops.filterMap BuildOp.place?
def transitionsOf (ops : List BuildOp) : List Transition := ops.filterMap BuildOp.transition?
def arcsOf (ops : List BuildOp) : List (String × String × Int) := ops.filterMap BuildOp.arc?
def warningsOf (ops : List BuildOp) : List Warning := ops.filterMap BuildOp.warning?

section Projections
variable (ops ops' : List BuildOp)

@[simp] theorem placesOf_append : placesOf (ops ++ ops') = placesOf ops ++ placesOf ops' :=
  List.filterMap_append _ _ _
@[simp] theorem transitionsOf_append :
    transitionsOf (ops ++ ops') = transitionsOf ops ++ transitionsOf ops' := List.filterMap_append _ _ _
@[simp] theorem arcsOf_append : arcsOf (ops ++ ops') = arcsOf ops ++ arcsOf ops' :=
  List.filterMap_append _ _ _
@[simp] theorem warningsOf_append : warningsOf (ops ++ ops') = warningsOf ops ++ warningsOf ops' :=
  List.filterMap_append _ _ _
@[simp] theorem placesOf_nil : placesOf [] = [] := rfl
@[simp] theorem transitionsOf_nil : transitionsOf [] = [] := rfl
@[simp] theorem arcsOf_nil : arcsOf [] = [] := rfl
@[simp] theorem warningsOf_nil : warningsOf [] = [] := rfl

variable (p : Place) (t : Transition) (a b : String) (w : Int) (v : Warning)

@[simp] theorem placesOf_cons_addPlace : placesOf (.addPlace p :: ops) = p :: placesOf ops := rfl
@[simp] theorem placesOf_cons_addTransition : placesOf (.addTransition t :: ops) = placesOf ops := rfl
@[simp] theorem placesOf_cons_addArc : placesOf (.addArc a b w :: ops) = placesOf ops := rfl
@[simp] theorem placesOf_cons_warn : placesOf (.warn v :: ops) = placesOf ops := rfl
@[simp] theorem transitionsOf_cons_addPlace :
    transitionsOf (.addPlace p :: ops) = transitionsOf ops := rfl
@[simp] theorem transitionsOf_cons_addTransition :
    transitionsOf (.addTransition t :: ops) = t :: transitionsOf ops := rfl
@[simp] theorem transitionsOf_cons_addArc : transitionsOf (.addArc a b w :: ops) = transitionsOf ops := rfl
@[simp] theorem transitionsOf_cons_warn : transitionsOf (.warn v :: ops) = transitionsOf ops := rfl
@[simp] theorem arcsOf_cons_addPlace : arcsOf (.addPlace p :: ops) = arcsOf ops := rfl
@[simp] theorem arcsOf_cons_addTransition : arcsOf (.addTransition t :: ops) = arcsOf ops := rfl
@[simp] theorem arcsOf_cons_addArc : arcsOf (.addArc a b w :: ops) = (a, b, w) :: arcsOf ops := rfl
@[simp] theorem arcsOf_cons_warn : arcsOf (.warn v :: ops) = arcsOf ops := rfl
@[simp] theorem warningsOf_cons_addPlace : warningsOf (.addPlace p :: ops) = warningsOf ops := rfl
@[simp] theorem warningsOf_cons_addTransition :
    warningsOf (.addTransition t :: ops) = warningsOf ops := rfl
@[simp] theorem warningsOf_cons_addArc : warningsOf (.addArc a b w :: ops) = warningsOf ops := rfl
@[simp] theorem warningsOf_cons_warn : warningsOf (.warn v :: ops) = v :: warningsOf ops := rfl

end Projections

/-! ## Keyed appending and numbering -/

/-- Append the elements whose key is not there yet, first come first kept. -/
def appendNew {α : Type} (key : α → String) (acc xs : List α) : List α :=
  xs.foldl (fun acc x => if key x ∈ acc.map key then acc else acc ++ [x]) acc

section AppendNew
variable {α : Type} (key : α → String)

theorem appendNew_append (acc xs ys : List α) :
    appendNew key acc (xs ++ ys) = appendNew key (appendNew key acc xs) ys :=
  List.foldl_append _ _ _ _

theorem mem_appendNew {acc xs : List α} {x : α} (h : x ∈ appendNew key acc xs) :
    x ∈ acc ∨ x ∈ xs := by
  induction xs generalizing acc with
  | nil => exact .inl h
  | cons y xs ih =>
    rcases ih h with h | h
    · dsimp only at h
      split at h
      · exact .inl h
      · rcases List.mem_append.mp h with h | h
        · exact .inl h
        · exact .inr (List.mem_singleton.mp h ▸ List.mem_cons_self _ _)
    · exact .inr (List.mem_cons_of_mem _ h)

/-- Every key offered is kept. -/
theorem key_mem_appendNew (acc xs : List α) (k : String) :
    k ∈ (appendNew key acc xs).map key ↔ k ∈ acc.map key ∨ k ∈ xs.map key := by
  induction xs generalizing acc with
  | nil => simp [appendNew]
  | cons y xs ih =>
    show k ∈ (appendNew key (if key y ∈ acc.map key then acc else acc ++ [y]) xs).map key ↔ _
    rw [ih]
    split
    · rename_i hy
      simp only [List.map_cons, List.mem_cons]
      exact ⟨fun h => h.imp_right .inr, by rintro (h | rfl | h); exacts [.inl h, .inl hy, .inr h]⟩
    · simp only [List.map_cons, List.mem_cons, List.map_append, List.mem_append, List.map_nil,
        List.not_mem_nil, false_or, or_assoc]

/-- No key is kept twice. -/
theorem nodup_appendNew {acc : List α} (h : (acc.map key).Nodup) (xs : List α) :
    ((appendNew key acc xs).map key).Nodup := by
  induction xs generalizing acc with
  | nil => exact h
  | cons y xs ih =>
    apply ih
    dsimp only
    split
    · exact h
    · rename_i hy
      rw [List.map_append]
      refine List.pairwise_append.mpr ⟨h, List.pairwise_singleton _ _, fun a ha b hb => ?_⟩
      rw [List.map_singleton, List.mem_singleton] at hb
      subst hb
      exact fun hab => hy (hab ▸ ha)

/-- Appending onto `acc` keeps what a fresh run keeps, less the keys `acc` has. -/
theorem appendNew_eq_filter (acc xs : List α) :
    appendNew key acc xs = acc ++ (appendNew key [] xs).filter fun x => key x ∉ acc.map key := by
  induction xs generalizing acc with
  | nil => simp [appendNew]
  | cons y xs ih =>
    show appendNew key (if key y ∈ acc.map key then acc else acc ++ [y]) xs =
      acc ++ (appendNew key [y] xs).filter _
    rw [ih, ih [y], List.filter_append, List.filter_filter]
    split
    · rename_i hy
      simp only [List.filter_cons, hy, not_true_eq_false, decide_False, List.filter_nil,
        List.nil_append]
      congr 1
      refine List.filter_congr fun x _ => ?_
      by_cases hx : key x = key y <;> simp [hx, hy]
    · rename_i hy
      simp only [List.filter_cons, hy, not_false_eq_true, decide_True, List.filter_nil,
        List.singleton_append, List.append_assoc, List.cons_append, if_true]
      congr 2
      refine List.filter_congr fun x _ => ?_
      by_cases hx : key x = key y <;> simp [hx]

end AppendNew

/-- Arcs numbered on from `n`. -/
def numberArcs : Nat → List (String × String × Int) → List Arc
  | _, [] => []
  | n, (a, b, w) :: es => ⟨"arc_" ++ toString (n + 1), a, b, w⟩ :: numberArcs (n + 1) es

/-- The source, target and weight of an arc. -/
def Arc.ends (a : Arc) : String × String × Int := (a.source, a.target, a.weight)

theorem map_ends_numberArcs (n : Nat) (es : List (String × String × Int)) :
    (numberArcs n es).map Arc.ends = es := by
  induction es generalizing n with
  | nil => rfl
  | cons e es ih => obtain ⟨a, b, w⟩ := e; simp [numberArcs, Arc.ends, ih]

theorem length_numberArcs (n : Nat) (es : List (String × String × Int)) :
    (numberArcs n es).length = es.length := by
  rw [← List.length_map _ Arc.ends, map_ends_numberArcs]

/-- The numbering goes on from `n`: `arc_{n+1}`, `arc_{n+2}`, ... -/
theorem map_id_numberArcs (n : Nat) (es : List (String × String × Int)) :
    (numberArcs n es).map (·.id) = (List.range' (n + 1) es.length).map fun i => "arc_" ++ toString i := by
  induction es generalizing n with
  | nil => rfl
  | cons e es ih => obtain ⟨a, b, w⟩ := e; simp [numberArcs, ih, List.range'_succ]

theorem numberArcs_append (n : Nat) (es es' : List (String × String × Int)) :
    numberArcs n (es ++ es') = numberArcs n es ++ numberArcs (n + es.length) es' := by
  induction es generalizing n with
  | nil => rfl
  | cons e es ih =>
    obtain ⟨a, b, w⟩ := e
    show _ :: numberArcs (n + 1) (es ++ es') = _ :: (numberArcs (n + 1) es ++ _)
    rw [ih, List.length_cons, Nat.add_assoc, Nat.add_comm 1]

/-- The initial-marking entries of a place list. -/
def markingOf (ps : List Place) : List (String × Int) :=
  (ps.filter fun p => 0 < p.initTokens).map fun p => (p.id, p.initTokens)

theorem markingOf_concat (ps : List Place) (p : Place) :
    markingOf (ps ++ [p]) = markingOf ps ++ if 0 < p.initTokens then [(p.id, p.initTokens)] else [] := by
  by_cases h : 0 < p.initTokens <;> simp [markingOf, h]

private theorem lookup_eq_none {d : List (String × Int)} {x : String} (h : ∀ e ∈ d, e.1 ≠ x) :
    d.lookup x = none := by
  induction d with
  | nil => rfl
  | cons e d ih =>
    obtain ⟨j, v⟩ := e
    rw [lookup_cons_ite, if_neg (fun hx => h _ (List.mem_cons_self _ _) hx.symm)]
    exact ih fun e he => h e (List.mem_cons_of_mem _ he)

theorem lookup_markingOf_none {ps : List Place} {x : String} (h : x ∉ ps.map (·.id)) :
    (markingOf ps).lookup x = none :=
  lookup_eq_none fun e he => by
    simp only [markingOf, List.mem_map, List.mem_filter] at he
    obtain ⟨q, ⟨hq, -⟩, rfl⟩ := he
    exact fun hx => h (List.mem_map.mpr ⟨q, hq, hx⟩)

/-- With one place per id, a place's entry is its tokens when it has any. -/
theorem lookup_markingOf {ps : List Place} (hps : (ps.map (·.id)).Nodup) {p : Place}
    (hp : p ∈ ps) :
    (markingOf ps).lookup p.id = if 0 < p.initTokens then some p.initTokens else none := by
  induction ps with
  | nil => cases hp
  | cons q qs ih =>
    rw [List.map_cons, List.nodup_cons] at hps
    have hm : markingOf (q :: qs) = (if 0 < q.initTokens then [(q.id, q.initTokens)] else []) ++
        markingOf qs := by
      by_cases h : 0 < q.initTokens <;> simp [markingOf, h]
    rcases List.mem_cons.mp hp with rfl | hp
    · rw [hm]
      by_cases h : 0 < p.initTokens <;> simp [h, lookup_markingOf_none hps.1]
    · have hne : p.id ≠ q.id := fun h => hps.1 (h ▸ List.mem_map_of_mem _ hp)
      rw [hm, ← ih hps.2 hp]
      by_cases h : 0 < q.initTokens <;> simp [h, hne]

/-- The net a log produces from the empty state. -/
def netOfOps (ops : List BuildOp) : PetriNet :=
  ⟨appendNew (·.id) [] (placesOf ops), appendNew (·.id) [] (transitionsOf ops),
    numberArcs 0 (arcsOf ops), markingOf (appendNew (·.id) [] (placesOf ops)), warningsOf ops⟩

/-! ## The closures refine the declarative net -/

namespace BuildState

/-- The seen sets hold exactly the ids in the net, the counter counts the arcs, and the
initial marking lists the places with tokens. -/
structure Consistent (s : BuildState) : Prop where
  seenPlaces : ∀ x, x ∈ s.seenPlaces ↔ x ∈ s.net.places.map (·.id)
  seenTransitions : ∀ x, x ∈ s.seenTransitions ↔ x ∈ s.net.transitions.map (·.id)
  arcIdCounter : s.arcIdCounter = s.net.arcs.length
  initialMarking : s.net.initialMarking = markingOf s.net.places

theorem init_consistent : init.Consistent := ⟨by simp [init], by simp [init], rfl, rfl⟩

theorem addPlace_spec {s : BuildState} (hs : s.Consistent) (p : Place) :
    (s.addPlace p).Consistent ∧
      (s.addPlace p).net = { s.net with
        places := if p.id ∈ s.net.places.map (·.id) then s.net.places else s.net.places ++ [p]
        initialMarking := markingOf
          (if p.id ∈ s.net.places.map (·.id) then s.net.places else s.net.places ++ [p]) } := by
  have hiff : p.id ∈ s.seenPlaces ↔ p.id ∈ s.net.places.map (·.id) := hs.seenPlaces _
  by_cases hp : p.id ∈ s.net.places.map (·.id)
  · rw [addPlace, if_pos (hiff.mpr hp), if_pos hp, ← hs.initialMarking]
    exact ⟨hs, rfl⟩
  · have hmark : dictSet s.net.initialMarking p.id p.initTokens =
        s.net.initialMarking ++ [(p.id, p.initTokens)] :=
      dictSet_of_lookup_none (hs.initialMarking ▸ lookup_markingOf_none hp) _
    have hm : (if 0 < p.initTokens then dictSet s.net.initialMarking p.id p.initTokens
        else s.net.initialMarking) = markingOf (s.net.places ++ [p]) := by
      rw [markingOf_concat, ← hs.initialMarking]
      by_cases h0 : 0 < p.initTokens <;> simp [h0, hmark]
    rw [addPlace, if_neg (mt hiff.mp hp), if_neg hp, hm]
    exact ⟨⟨fun x => by simp [hs.seenPlaces x, or_comm], hs.seenTransitions, hs.arcIdCounter, rfl⟩,
      rfl⟩

theorem addTransition_spec {s : BuildState} (hs : s.Consistent) (t : Transition) :
    (s.addTransition t).Consistent ∧
      (s.addTransition t).net = { s.net with
        transitions := if t.id ∈ s.net.transitions.map (·.id) then s.net.transitions
          else s.net.transitions ++ [t] } := by
  have hiff : t.id ∈ s.seenTransitions ↔ t.id ∈ s.net.transitions.map (·.id) :=
    hs.seenTransitions _
  by_cases ht : t.id ∈ s.net.transitions.map (·.id)
  · rw [addTransition, if_pos (hiff.mpr ht), if_pos ht]
    exact ⟨hs, rfl⟩
  · rw [addTransition, if_neg (mt hiff.mp ht), if_neg ht]
    exact ⟨⟨hs.seenPlaces, fun x => by simp [hs.seenTransitions x, or_comm], hs.arcIdCounter,
      hs.initialMarking⟩, rfl⟩

/-- One spec for the whole run: from a consistent state, a log extends the net as
`appendNew` and `numberArcs` say. -/
theorem run_spec (ops : List BuildOp) : ∀ {s : BuildState}, s.Consistent →
    (s.run ops).Consistent ∧
    (s.run ops).net.places = appendNew (·.id) s.net.places (placesOf ops) ∧
    (s.run ops).net.transitions = appendNew (·.id) s.net.transitions (transitionsOf ops) ∧
    (s.run ops).net.arcs = s.net.arcs ++ numberArcs s.net.arcs.length (arcsOf ops) ∧
    (s.run ops).net.warnings = s.net.warnings ++ warningsOf ops := by
  induction ops with
  | nil => intro s hs; simp [hs, appendNew, numberArcs]
  | cons op ops ih =>
    intro s hs
    cases op with
    | addPlace p =>
      obtain ⟨hc, hn⟩ := addPlace_spec hs p
      obtain ⟨h1, h2, h3, h4, h5⟩ := ih hc
      refine ⟨h1, ?_, ?_, ?_, ?_⟩ <;> simp only [run_cons, apply, h2, h3, h4, h5, hn] <;> rfl
    | addTransition t =>
      obtain ⟨hc, hn⟩ := addTransition_spec hs t
      obtain ⟨h1, h2, h3, h4, h5⟩ := ih hc
      refine ⟨h1, ?_, ?_, ?_, ?_⟩ <;> simp only [run_cons, apply, h2, h3, h4, h5, hn] <;> rfl
    | addArc a b w =>
      have hc : (s.addArc a b w).Consistent :=
        ⟨hs.seenPlaces, hs.seenTransitions, by simp [addArc, hs.arcIdCounter], hs.initialMarking⟩
      obtain ⟨h1, h2, h3, h4, h5⟩ := ih hc
      refine ⟨h1, h2, h3, ?_, h5⟩
      show ((s.addArc a b w).run ops).net.arcs = _
      rw [h4]; simp [addArc, numberArcs, hs.arcIdCounter]; rfl
    | warn v =>
      have hc : (s.warn v).Consistent :=
        ⟨hs.seenPlaces, hs.seenTransitions, hs.arcIdCounter, hs.initialMarking⟩
      obtain ⟨h1, h2, h3, h4, h5⟩ := ih hc
      refine ⟨h1, h2, h3, h4, ?_⟩
      show ((s.warn v).run ops).net.warnings = _
      rw [h5]; simp [warn]

end BuildState

/-- `build_petri_net` is the declarative net of its log. -/
theorem buildPetriNet_eq (functions : List MirFunction) (entryFn : String)
    (maxFns : Option Int) :
    buildPetriNet functions entryFn maxFns = netOfOps (buildOps functions entryFn maxFns) := by
  obtain ⟨h1, h2, h3, h4, h5⟩ := BuildState.run_spec (buildOps functions entryFn maxFns)
    BuildState.init_consistent
  have hm := h1.initialMarking
  rw [h2] at hm
  simp only [buildPetriNet, netOfOps]
  rw [PetriNet.mk.injEq]
  exact ⟨h2, h3, by simpa [BuildState.init] using h4, hm, by simpa [BuildState.init] using h5⟩

end Mir2Pnml
