import Mir2Pnml.WellFormed
import Mir2Pnml.Unique

/-! # The mutex subnets

`_ensure_mutex_places` gives a key a free place with one token and an empty held place.
A lock edge moves a token from free to held and an unlock edge moves it back; no other arc
touches either place, and an edge never pairs one key's free place with another key's held
place: every transition enters a key's pair as often as it leaves it
(`mutexPair_inflow_eq_outflow`), and an arc into a free place is an unlock's
(`Chunk.unlock_of_arc`).
-/
namespace Mir2Pnml

/-- The free and held places of a key. -/
def mutexPair (key : String) : List String := [mutexFreeId key, mutexHeldId key]

theorem mutexPair_nodup (key : String) : (mutexPair key).Nodup := by
  simp [mutexPair, eq_false_of_idClass_ne]

/-- A pass `a -> tid -> b` enters a key's pair as often as it leaves it, when `tid` is not in
the pair and `a` is in it exactly when `b` is. -/
theorem pass_balanced {tid a b key : String} (htid : tid ∉ mutexPair key)
    (hab : a ∈ mutexPair key ↔ b ∈ mutexPair key) (t : String) :
    [(a, tid, (1 : Int)), (tid, b, 1)].countP (fun x => x.1 ∈ mutexPair key ∧ x.2.1 = t) =
      [(a, tid, (1 : Int)), (tid, b, 1)].countP (fun x => x.1 = t ∧ x.2.1 ∈ mutexPair key) := by
  by_cases hb : b ∈ mutexPair key <;> simp [List.countP_cons, hab, hb, htid, and_comm]

theorem lockArcs_balanced {tid key : String} (o : Option String) (htid : tid ∉ mutexPair key)
    (t : String) :
    (lockArcs tid o).countP (fun x => x.1 ∈ mutexPair key ∧ x.2.1 = t) =
      (lockArcs tid o).countP (fun x => x.1 = t ∧ x.2.1 ∈ mutexPair key) := by
  cases o with
  | none => rfl
  | some k => exact pass_balanced htid (by simp [mutexPair, eq_false_of_idClass_ne]) t

theorem unlockArcs_balanced {tid key : String} (o : Option String) (htid : tid ∉ mutexPair key)
    (t : String) :
    (unlockArcs tid o).countP (fun x => x.1 ∈ mutexPair key ∧ x.2.1 = t) =
      (unlockArcs tid o).countP (fun x => x.1 = t ∧ x.2.1 ∈ mutexPair key) := by
  cases o with
  | none => rfl
  | some k => exact pass_balanced htid (by simp [mutexPair, eq_false_of_idClass_ne]) t

/-- Every piece enters a key's pair as often as it leaves it, at every transition. -/
theorem Chunk.mutexPair_balanced {fn : MirFunction} {e : String} {c : List BuildOp}
    (hc : Chunk fn e c) (key t : String) :
    (arcsOf c).countP (fun x => x.1 ∈ mutexPair key ∧ x.2.1 = t) =
      (arcsOf c).countP (fun x => x.1 = t ∧ x.2.1 ∈ mutexPair key) := by
  cases hc with
  | @edge bb term m =>
    have htid : edgeTransitionId fn.name bb.bbId m ∉ mutexPair key := by
      simp [mutexPair, eq_false_of_idClass_ne]
    simp only [arcsOf_edgePiece, List.countP_cons, List.countP_append,
      lockArcs_balanced _ htid, unlockArcs_balanced _ htid]
    split <;> simp [mutexPair, eq_false_of_idClass_ne]
  | _ => simp [mutexPair, eq_false_of_idClass_ne]

theorem mutexPair_inflow_eq_outflow (functions : List MirFunction) (entryFn : String)
    (maxFns : Option Int) (key t : String) :
    (buildPetriNet functions entryFn maxFns).inflow (mutexPair key) t =
      (buildPetriNet functions entryFn maxFns).outflow (mutexPair key) t := by
  rw [inflow_build, outflow_build]
  congr 1
  refine List.map_congr_left fun c hc => ?_
  obtain ⟨fn, -, hc⟩ := chunk_of_mem_buildChunks hc
  exact hc.mutexPair_balanced key t

/-- `main` of the translator's end-to-end test, as the parser records it: `_2` locks `_1`,
then `_2` is dropped. -/
def lockThenDrop : MirFunction :=
  ⟨"main", [⟨"_1", "std::sync::Mutex<i32>", false⟩, ⟨"_2", "std::sync::MutexGuard<i32>", false⟩],
    [⟨0, [], some (.call (some "_2") "std::sync::Mutex::<i32>::lock" "move _1" 1 (some 3)), false, 3⟩,
     ⟨1, [], some (.drop "_2" 2 none), false, 6⟩,
     ⟨2, [], some .return, false, 9⟩],
    [("_2", "_1")], []⟩

/-! ## The places and arcs of each key -/

namespace PetriNet

/-- Whether `x` is the id of a place of kind `mutex_free` or `mutex_held`. -/
def isMutexPlace (N : PetriNet) (x : String) : Bool :=
  N.places.any fun p => p.id = x && (p.kind = "mutex_free" || p.kind = "mutex_held")

/-- The arcs between the transition `tid` and the mutex places, as (source, target) pairs,
in the net's order. -/
def mutexArcs (N : PetriNet) (tid : String) : List (String × String) :=
  (N.arcs.filter fun a => (a.target = tid && N.isMutexPlace a.source) ||
    (a.source = tid && N.isMutexPlace a.target)).map fun a => (a.source, a.target)

end PetriNet

section EdgeKinds
variable {f : String} {k m : Int} {lk uk : Option String} {key : String}

theorem edgeTransition_lock (h : (edgeTransition f k m lk uk).kind = "lock")
    (hop : (edgeTransition f k m lk uk).op = some key) : truthy lk = some key := by
  rw [edgeTransition_kind] at h
  rw [edgeTransition_op] at hop
  cases hl : truthy lk with
  | none =>
    rw [hl] at h
    simp only [Option.isSome_none, Bool.false_eq_true, if_false] at h
    split at h <;> simp at h
  | some k' => rwa [pyOr_of_truthy hl] at hop

theorem edgeTransition_unlock (h : (edgeTransition f k m lk uk).kind = "unlock")
    (hop : (edgeTransition f k m lk uk).op = some key) : truthy lk = none ∧ truthy uk = some key := by
  rw [edgeTransition_kind] at h
  rw [edgeTransition_op] at hop
  cases hl : truthy lk with
  | some k' => rw [hl] at h; simp at h
  | none =>
    rw [pyOr_of_not_truthy hl] at hop
    rw [hl] at h
    cases hu : truthy uk with
    | none => rw [hu] at h; simp at h
    | some k' => exact ⟨rfl, (truthy_eq_some.mp hu).1.symm.trans hop⟩

theorem edgeTransition_cfg (h : (edgeTransition f k m lk uk).kind = "cfg") :
    truthy lk = none ∧ truthy uk = none := by
  rw [edgeTransition_kind] at h
  cases hl : truthy lk <;> cases hu : truthy uk <;> simp_all

end EdgeKinds

/-- Only a drop or a call sets a key, and never both. -/
theorem terminatorPlan_keys (fn : MirFunction) (bb : BasicBlock) (term : Terminator) :
    ((terminatorPlan fn bb term).mutexLockKey = none ∨
      (terminatorPlan fn bb term).mutexUnlockKey = none) ∧
    ((terminatorPlan fn bb term).mutexLockKey = none ∧
        (terminatorPlan fn bb term).mutexUnlockKey = none ∨
      ∃ r, (terminatorPlan fn bb term).targets = [r]) := by
  cases term with
  | drop l r _ => simp only [terminatorPlan]; split <;> simp
  | call _ callee _ r _ =>
    simp only [terminatorPlan]; split
    · split <;> simp
    · simp
  | _ => simp [terminatorPlan]

/-- An arc into a key's free place belongs to an edge piece whose one transition is an unlock
on that key. -/
theorem Chunk.unlock_of_arc {fn : MirFunction} {e : String} {c : List BuildOp} (hc : Chunk fn e c)
    {u key : String} {w : Int} (hx : (u, mutexFreeId key, w) ∈ arcsOf c) :
    ∃ t, transitionsOf c = [t] ∧ t.id = u ∧ t.kind = "unlock" ∧ t.op = some key := by
  cases hc with
  | @edge bb term m =>
    simp only [arcsOf_edgePiece, List.mem_cons, List.mem_append] at hx
    rcases hx with ((hx | hx) | hx) | hx
    · simp [eq_false_of_firstChar_ne] at hx
    · split at hx <;> simp [eq_false_of_idClass_ne] at hx
    · obtain ⟨k, -, hx | hx⟩ := mem_lockArcs hx <;>
        simp [eq_false_of_idClass_ne, eq_false_of_firstChar_ne] at hx
    · obtain ⟨k, hk, hx | hx⟩ := mem_unlockArcs hx
      · simp [eq_false_of_firstChar_ne] at hx
      simp only [Prod.mk.injEq] at hx
      obtain ⟨rfl, hkey, -⟩ := hx
      obtain rfl := mutexFreeId_injective hkey
      have hlk : (terminatorPlan fn bb term).mutexLockKey = none :=
        (terminatorPlan_keys fn bb term).1.resolve_right fun h => by simp [h] at hk
      exact ⟨_, transitionsOf_edgePiece .., rfl,
        by simp [edgePieceTransition, edgeTransition_kind, hlk, hk],
        by simp [edgePieceTransition, hlk, pyOr, (truthy_eq_some.mp hk).1]⟩
  | start | ret => simp [eq_false_of_idClass_ne, eq_false_of_firstChar_ne] at hx
  | header | nil | warn => simp at hx

theorem PlaceShape.eq_mutexFreePlace {fn : MirFunction} {e : String} {p : Place}
    (h : PlaceShape fn e p) {key : String} (hid : p.id = mutexFreeId key) :
    p = mutexFreePlace key := by
  cases h <;> simp_all [eq_false_of_idClass_ne]

theorem PlaceShape.eq_mutexHeldPlace {fn : MirFunction} {e : String} {p : Place}
    (h : PlaceShape fn e p) {key : String} (hid : p.id = mutexHeldId key) :
    p = mutexHeldPlace key := by
  cases h <;> simp_all [eq_false_of_idClass_ne]

private theorem filter_id_eq {l : List Place} (hl : (l.map (·.id)).Nodup) {p : Place} (hp : p ∈ l) :
    l.filter (fun q => q.id = p.id) = [p] := by
  induction l with
  | nil => cases hp
  | cons q l ih =>
    obtain ⟨hq, hl⟩ := List.nodup_cons.mp hl
    rcases List.mem_cons.mp hp with rfl | hp
    · rw [List.filter_cons_of_pos (by simp), List.filter_eq_nil_iff.mpr fun r hr h =>
        hq (List.mem_map.mpr ⟨r, hr, of_decide_eq_true h⟩)]
    · have hne : q.id ≠ p.id := fun h => hq (List.mem_map.mpr ⟨p, hp, h.symm⟩)
      rw [List.filter_cons_of_neg (by simpa using hne), ih hl hp]

section Build
variable {fs : List MirFunction} {e : String} {n : Option Int}

theorem isMutexPlace_build {x : String} :
    (buildPetriNet fs e n).isMutexPlace x = true ↔
      x ∈ (buildPetriNet fs e n).placeIds ∧ (idClass x = some 'e' ∨ idClass x = some 'd') := by
  simp only [PetriNet.isMutexPlace, List.any_eq_true, Bool.and_eq_true, decide_eq_true_eq,
    Bool.or_eq_true, PetriNet.placeIds, List.mem_map]
  constructor
  · rintro ⟨p, hp, rfl, hk⟩
    rw [kind_of_mem_places hp, kindOfId] at hk
    refine ⟨⟨p, hp, rfl⟩, ?_⟩
    split_ifs at hk <;> simp_all
  · rintro ⟨⟨p, hp, rfl⟩, hc⟩
    refine ⟨p, hp, rfl, ?_⟩
    rw [kind_of_mem_places hp, kindOfId]
    rcases hc with hc | hc <;> simp [hc]

theorem mutexArcs_build (tid : String) :
    (buildPetriNet fs e n).mutexArcs tid =
      ((buildChunks fs e n).flatMap fun c => (arcsOf c).filter fun x =>
        (x.2.1 = tid && (buildPetriNet fs e n).isMutexPlace x.1) ||
          (x.1 = tid && (buildPetriNet fs e n).isMutexPlace x.2.1)).map fun x => (x.1, x.2.1) := by
  rw [← filter_arcs_build, List.map_map]
  rfl

theorem isMutexPlace_eq_false {x : String} (he : idClass x ≠ some 'e') (hd : idClass x ≠ some 'd') :
    (buildPetriNet fs e n).isMutexPlace x = false :=
  Bool.eq_false_iff.mpr fun h => (isMutexPlace_build.mp h).2.elim he hd

/-- A piece that does not offer `tid` has no arc between `tid` and any place. -/
theorem Chunk.filter_ends_eq_nil {fn : MirFunction} {c : List BuildOp} (hc : Chunk fn e c)
    {tid : String} (htid : firstChar tid = some 't') (hne : ∀ t ∈ transitionsOf c, t.id ≠ tid)
    (P : String → Bool) :
    (arcsOf c).filter (fun x => (x.2.1 = tid && P x.1) || (x.1 = tid && P x.2.1)) = [] :=
  List.filter_eq_nil_iff.mpr fun x hx => by
    obtain ⟨h1, h2⟩ := hc.not_mem_ends htid hne hx
    simp [h1, h2]

theorem free_mem_places {key : String} (hkey : mutexFreeId key ∈ (buildPetriNet fs e n).placeIds) :
    (buildPetriNet fs e n).places.filter (·.id = mutexFreeId key) = [mutexFreePlace key] := by
  obtain ⟨p, hp, hid⟩ := List.mem_map.mp hkey
  obtain ⟨_, _, hs⟩ := placeShape_of_mem hp
  rw [← hid, filter_id_eq (placeIds_nodup fs e n) hp, hs.eq_mutexFreePlace hid]

theorem held_mem_places {key : String} (hkey : mutexHeldId key ∈ (buildPetriNet fs e n).placeIds) :
    (buildPetriNet fs e n).places.filter (·.id = mutexHeldId key) = [mutexHeldPlace key] := by
  obtain ⟨p, hp, hid⟩ := List.mem_map.mp hkey
  obtain ⟨_, _, hs⟩ := placeShape_of_mem hp
  rw [← hid, filter_id_eq (placeIds_nodup fs e n) hp, hs.eq_mutexHeldPlace hid]

theorem lookup_initialMarking {p : Place} (hp : p ∈ (buildPetriNet fs e n).places) :
    (buildPetriNet fs e n).initialMarking.lookup p.id =
      if 0 < p.initTokens then some p.initTokens else none := by
  rw [initialMarking_build, lookup_markingOf (placeIds_nodup fs e n) hp]

/-- A key that a lock or unlock transition names has both of its places in the net. -/
theorem mutexPlaceIds_of_op {t : Transition} (ht : t ∈ (buildPetriNet fs e n).transitions)
    (hk : t.kind = "lock" ∨ t.kind = "unlock") {key : String} (hop : t.op = some key) :
    mutexFreeId key ∈ (buildPetriNet fs e n).placeIds ∧
      mutexHeldId key ∈ (buildPetriNet fs e n).placeIds := by
  obtain ⟨fn, hfn, hs⟩ := transitionShape_of_mem ht
  cases hs with
  | start => simp at hk
  | ret => simp at hk
  | @edge bb term m hbb hcl hterm hm =>
    have hsub : mutexPlaces (some key) ⊆ placesOf (edgePiece fn bb term m) := by
      rcases hk with hk | hk
      · rw [placesOf_edgePiece, edgeTransition_lock hk hop]; exact List.subset_append_left _ _
      · rw [placesOf_edgePiece, (edgeTransition_unlock hk hop).2]
        exact List.subset_append_right _ _
    have hmem := edgePiece_mem_buildChunks fs e n hfn hbb hcl hterm hm
    exact ⟨(mem_placeIds_build fs e n _).mpr ⟨_, hmem, mutexFreePlace key,
        hsub (by simp [mutexPlaces]), rfl⟩,
      (mem_placeIds_build fs e n _).mpr ⟨_, hmem, mutexHeldPlace key,
        hsub (by simp [mutexPlaces]), rfl⟩⟩

section Distinct
variable (hd : DistinctIds (fnsToProcess fs n))
include hd

/-- Every mutex place belongs to the key of a lock or unlock transition. -/
theorem mutexPlace_owner {p : Place} (hp : p ∈ (buildPetriNet fs e n).places)
    (hk : p.kind = "mutex_free" ∨ p.kind = "mutex_held") :
    ∃ t ∈ (buildPetriNet fs e n).transitions, (t.kind = "lock" ∨ t.kind = "unlock") ∧
      ∃ key, t.op = some key ∧ (p.id = mutexFreeId key ∨ p.id = mutexHeldId key) := by
  rw [places_build] at hp
  rcases mem_appendNew _ hp with hp | hp
  · cases hp
  obtain ⟨c, hcm, hp⟩ := (mem_placesOf_buildOps fs e n).mp hp
  obtain ⟨fn, hfn, hc⟩ := chunk_of_mem_buildChunks hcm
  cases hc with
  | header =>
    rcases mem_placesOf_headerOps.mp hp with rfl | rfl | ⟨_, _, _, rfl⟩ <;>
      simp [entryPlace, exitPlace, bbPlace] at hk
  | @edge bb term m hbb hcl hterm hm =>
    refine ⟨_, (hd.soleName hfn).edgePieceTransition_mem hfn hbb hterm hcl hm, ?_⟩
    simp only [placesOf_edgePiece, List.mem_append] at hp
    rcases hp with hp | hp <;> obtain ⟨key, hkey, hpk⟩ := mem_mutexPlaces hp
    · refine ⟨.inl (by simp [edgePieceTransition, edgeTransition_kind, hkey]), key,
        by simp [edgePieceTransition, pyOr_of_truthy hkey], by rcases hpk with rfl | rfl <;> simp⟩
    · have hlk : (terminatorPlan fn bb term).mutexLockKey = none :=
        (terminatorPlan_keys fn bb term).1.resolve_right fun h => by simp [h] at hkey
      refine ⟨.inr (by simp [edgePieceTransition, edgeTransition_kind, hlk, hkey]), key,
        by simp [edgePieceTransition, hlk, pyOr, (truthy_eq_some.mp hkey).1],
        by rcases hpk with rfl | rfl <;> simp⟩
  | _ => simp at hp

/-- The mutex arcs of an edge whose block has a single successor are its piece's. -/
private theorem mutexArcs_edgePiece {fn : MirFunction} {bb : BasicBlock} {term : Terminator}
    {r : Int} (hfn : fn ∈ fnsToProcess fs n) (hbb : bb ∈ fn.basicBlocks)
    (hcl : bb.isCleanup = false) (hterm : bb.terminator = some term)
    (hr : (terminatorPlan fn bb term).targets = [r]) :
    (buildPetriNet fs e n).mutexArcs (edgeTransitionId fn.name bb.bbId r) =
      ((arcsOf (edgePiece fn bb term r)).filter fun x =>
        (x.2.1 = edgeTransitionId fn.name bb.bbId r && (buildPetriNet fs e n).isMutexPlace x.1) ||
          (x.1 = edgeTransitionId fn.name bb.bbId r &&
            (buildPetriNet fs e n).isMutexPlace x.2.1)).map fun x => (x.1, x.2.1) := by
  rw [mutexArcs_build, hd.flatMap_buildChunks hfn hbb hterm hcl hr _
    fun _ _ _ hc hne => hc.filter_ends_eq_nil (by simp) hne _]

/-- A lock transition's only mutex arcs are `free -> t -> held` of its key. -/
theorem mutexArcs_lock {t : Transition} (ht : t ∈ (buildPetriNet fs e n).transitions)
    (hk : t.kind = "lock") {key : String} (hop : t.op = some key) :
    (buildPetriNet fs e n).mutexArcs t.id = [(mutexFreeId key, t.id), (t.id, mutexHeldId key)] := by
  obtain ⟨hfree, hheld⟩ := mutexPlaceIds_of_op ht (.inl hk) hop
  obtain ⟨fn, hfn, hs⟩ := transitionShape_of_mem ht
  cases hs with
  | start => simp at hk
  | ret => simp at hk
  | @edge bb term m hbb hcl hterm hm =>
    have hlk := edgeTransition_lock hk hop
    have huk : (terminatorPlan fn bb term).mutexUnlockKey = none :=
      (terminatorPlan_keys fn bb term).1.resolve_left fun h => by simp [h] at hlk
    obtain ⟨r, hr⟩ := (terminatorPlan_keys fn bb term).2.resolve_left fun h => by simp [h.1] at hlk
    obtain rfl : m = r := by simpa [hr] using hm
    rw [edgePieceTransition_id, mutexArcs_edgePiece hd hfn hbb hcl hterm hr, arcsOf_edgePiece, hlk,
      huk]
    have hF := isMutexPlace_build.mpr ⟨hfree, .inl (by simp)⟩
    have hH := isMutexPlace_build.mpr ⟨hheld, .inr (by simp)⟩
    split <;> simp [lockArcs, unlockArcs, hF, hH, isMutexPlace_eq_false, eq_false_of_idClass_ne]

/-- An unlock transition's only mutex arcs are `held -> t -> free` of its key. -/
theorem mutexArcs_unlock {t : Transition} (ht : t ∈ (buildPetriNet fs e n).transitions)
    (hk : t.kind = "unlock") {key : String} (hop : t.op = some key) :
    (buildPetriNet fs e n).mutexArcs t.id = [(mutexHeldId key, t.id), (t.id, mutexFreeId key)] := by
  obtain ⟨hfree, hheld⟩ := mutexPlaceIds_of_op ht (.inr hk) hop
  obtain ⟨fn, hfn, hs⟩ := transitionShape_of_mem ht
  cases hs with
  | start => simp at hk
  | ret => simp at hk
  | @edge bb term m hbb hcl hterm hm =>
    obtain ⟨hlk, huk⟩ := edgeTransition_unlock hk hop
    obtain ⟨r, hr⟩ := (terminatorPlan_keys fn bb term).2.resolve_left fun h => by simp [h.2] at huk
    obtain rfl : m = r := by simpa [hr] using hm
    rw [edgePieceTransition_id, mutexArcs_edgePiece hd hfn hbb hcl hterm hr, arcsOf_edgePiece, hlk,
      huk]
    have hF := isMutexPlace_build.mpr ⟨hfree, .inl (by simp)⟩
    have hH := isMutexPlace_build.mpr ⟨hheld, .inr (by simp)⟩
    split <;> simp [lockArcs, unlockArcs, hF, hH, isMutexPlace_eq_false, eq_false_of_idClass_ne]

/-- A cfg transition has no mutex arcs. -/
theorem mutexArcs_cfg {t : Transition} (ht : t ∈ (buildPetriNet fs e n).transitions)
    (hk : t.kind = "cfg") : (buildPetriNet fs e n).mutexArcs t.id = [] := by
  obtain ⟨fn, hfn, hs⟩ := transitionShape_of_mem ht
  rw [mutexArcs_build, List.map_eq_nil_iff, List.flatMap_eq_nil_iff]
  intro c hcm
  obtain ⟨fn', hfn', hc⟩ := chunk_of_mem_buildChunks hcm
  by_cases hoff : ∀ t' ∈ transitionsOf c, t'.id ≠ t.id
  · exact hc.filter_ends_eq_nil hs.firstChar_id hoff _
  push_neg at hoff
  obtain ⟨t', ht', hid⟩ := hoff
  refine List.filter_eq_nil_iff.mpr fun x hx => ?_
  suffices (buildPetriNet fs e n).isMutexPlace x.1 = false ∧
      (buildPetriNet fs e n).isMutexPlace x.2.1 = false by simp [this]
  cases hc with
  | start =>
    simp only [arcsOf_cons_addTransition, arcsOf_cons_addArc, arcsOf_nil, List.mem_cons,
      List.mem_singleton, List.not_mem_nil, or_false] at hx
    rcases hx with rfl | rfl <;> simp [isMutexPlace_eq_false]
  | ret =>
    simp only [arcsOf_returnOps, List.mem_cons, List.mem_singleton, List.not_mem_nil,
      or_false] at hx
    rcases hx with rfl | rfl <;> simp [isMutexPlace_eq_false]
  | edge hbb' hcl' hterm' hm' =>
    cases hs with
    | start => simp at ht'; subst ht'; exact absurd hid (ne_of_idClass_ne (by simp))
    | ret => simp at ht'; subst ht'; exact absurd hid (ne_of_idClass_ne (by simp))
    | @edge bb term m hbb hcl hterm hm =>
      obtain ⟨rfl, heq, -⟩ := (hd.soleName hfn).chunk_eq_edgePiece hfn hbb hterm hfn'
        (show Chunk fn' e _ from .edge hbb' hcl' hterm' hm') ht' hid
      obtain ⟨hlk, huk⟩ := edgeTransition_cfg hk
      rw [heq] at hx
      simp only [arcsOf_edgePiece, hlk, huk, lockArcs, unlockArcs, List.append_nil,
        List.mem_cons] at hx
      rcases hx with rfl | hx
      · simp [isMutexPlace_eq_false]
      · split at hx
        · rw [List.mem_singleton] at hx; subst hx; simp [isMutexPlace_eq_false]
        · cases hx
  | header | nil | warn => simp at hx

end Distinct

end Build

/-- The mutex subnets of the built net. A key named by a lock or unlock transition has
exactly one free place, holding its one token, and one empty held place. With distinct
function names and block ids, every mutex place belongs to such a key, a lock transition's
only mutex arcs are `free -> t -> held`, an unlock's are `held -> t -> free`, and a cfg
transition has none. -/
theorem mutex_subnets (functions : List MirFunction) (entryFn : String) (maxFns : Option Int) :
    (∀ key, (∃ t ∈ (buildPetriNet functions entryFn maxFns).transitions,
        (t.kind = "lock" ∨ t.kind = "unlock") ∧ t.op = some key) →
      (buildPetriNet functions entryFn maxFns).places.filter (·.id = mutexFreeId key) =
          [mutexFreePlace key] ∧
        (buildPetriNet functions entryFn maxFns).places.filter (·.id = mutexHeldId key) =
          [mutexHeldPlace key] ∧
        (buildPetriNet functions entryFn maxFns).initialMarking.lookup (mutexFreeId key) = some 1 ∧
        (buildPetriNet functions entryFn maxFns).initialMarking.lookup (mutexHeldId key) = none) ∧
    (DistinctIds (fnsToProcess functions maxFns) →
      (∀ p ∈ (buildPetriNet functions entryFn maxFns).places,
        p.kind = "mutex_free" ∨ p.kind = "mutex_held" →
        ∃ t ∈ (buildPetriNet functions entryFn maxFns).transitions,
          (t.kind = "lock" ∨ t.kind = "unlock") ∧
            ∃ key, t.op = some key ∧ (p.id = mutexFreeId key ∨ p.id = mutexHeldId key)) ∧
      (∀ t ∈ (buildPetriNet functions entryFn maxFns).transitions, ∀ key, t.op = some key →
        (t.kind = "lock" → (buildPetriNet functions entryFn maxFns).mutexArcs t.id =
          [(mutexFreeId key, t.id), (t.id, mutexHeldId key)]) ∧
        (t.kind = "unlock" → (buildPetriNet functions entryFn maxFns).mutexArcs t.id =
          [(mutexHeldId key, t.id), (t.id, mutexFreeId key)])) ∧
      (∀ t ∈ (buildPetriNet functions entryFn maxFns).transitions, t.kind = "cfg" →
        (buildPetriNet functions entryFn maxFns).mutexArcs t.id = [])) := by
  refine ⟨fun key ⟨t, ht, hk, hop⟩ => ?_, fun hd => ⟨fun p hp hk => mutexPlace_owner hd hp hk,
    fun t ht key hop => ⟨fun hk => mutexArcs_lock hd ht hk hop,
      fun hk => mutexArcs_unlock hd ht hk hop⟩, fun t ht hk => mutexArcs_cfg hd ht hk⟩⟩
  obtain ⟨hfree, hheld⟩ := mutexPlaceIds_of_op ht hk hop
  have hF := free_mem_places hfree
  have hH := held_mem_places hheld
  have hFm : mutexFreePlace key ∈ (buildPetriNet functions entryFn maxFns).places :=
    List.mem_of_mem_filter (hF ▸ List.mem_singleton_self _ :
      mutexFreePlace key ∈ List.filter _ _)
  have hHm : mutexHeldPlace key ∈ (buildPetriNet functions entryFn maxFns).places :=
    List.mem_of_mem_filter (hH ▸ List.mem_singleton_self _ :
      mutexHeldPlace key ∈ List.filter _ _)
  exact ⟨hF, hH, by simpa [mutexFreePlace] using lookup_initialMarking hFm,
    by simpa [mutexHeldPlace] using lookup_initialMarking hHm⟩

end Mir2Pnml
