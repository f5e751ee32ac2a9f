import Mir2Pnml.Mutex
import Mathlib.Algebra.Order.BigOperators.Group.List
import Mathlib.Algebra.Order.Group.Nat

/-! # The control token

The places of kind `cfg` carry the control flow: the entry function's entry place holds one
token, and the start, edge and return transitions move it along the CFG. An edge whose
target is a cleanup block or a block the function does not have gets no output arc, so
firing it consumes the control token; otherwise every transition passes it on, and the
number of control tokens is the same in every reachable marking.
-/
namespace Mir2Pnml

namespace PetriNet
variable (N : PetriNet)

/-- The ids of the places of kind `cfg`. -/
def cfgPlaceIds : List String := (N.places.filter (·.kind = "cfg")).map (·.id)

/-- The number of arcs into `t`. -/
def inDegree (t : String) : Nat := N.arcs.countP (·.target = t)

/-- The number of arcs out of `t`. -/
def outDegree (t : String) : Nat := N.arcs.countP (·.source = t)

end PetriNet

/-- A block's successors, none when it has no terminator. -/
def BasicBlock.successors (bb : BasicBlock) : List Int :=
  (bb.terminator.map Terminator.successors).getD []

/-- Every successor of every non-cleanup block of `fn` is a non-cleanup block of `fn`. -/
def TargetsExist (fn : MirFunction) : Prop :=
  ∀ bb ∈ fn.basicBlocks, bb.isCleanup = false → ∀ m ∈ bb.successors, hasBlock fn.basicBlocks m

instance (fn : MirFunction) : Decidable (TargetsExist fn) :=
  inferInstanceAs (Decidable (∀ bb ∈ fn.basicBlocks, _))

/-- The builder's targets are the terminator's successors. -/
theorem terminatorPlan_targets (fn : MirFunction) (bb : BasicBlock) (term : Terminator) :
    (terminatorPlan fn bb term).targets = term.successors := by
  cases term with
  | drop l r _ => simp only [terminatorPlan]; split <;> rfl
  | call _ callee _ r _ =>
    simp only [terminatorPlan]
    split
    · split <;> rfl
    · rfl
  | _ => rfl

section Build
variable {fs : List MirFunction} {e : String} {n : Option Int}

theorem mem_cfgPlaceIds_build {x : String} :
    x ∈ (buildPetriNet fs e n).cfgPlaceIds ↔
      x ∈ (buildPetriNet fs e n).placeIds ∧ idClass x ≠ some 'e' ∧ idClass x ≠ some 'd' := by
  simp only [PetriNet.cfgPlaceIds, PetriNet.placeIds, List.mem_map, List.mem_filter,
    decide_eq_true_eq]
  constructor
  · rintro ⟨p, ⟨hp, hk⟩, rfl⟩
    rw [kind_of_mem_places hp, kindOfId] at hk
    exact ⟨⟨p, hp, rfl⟩, by split_ifs at hk <;> simp_all⟩
  · rintro ⟨⟨p, hp, rfl⟩, he, hd⟩
    exact ⟨p, ⟨hp, by rw [kind_of_mem_places hp, kindOfId, if_neg he, if_neg hd]⟩, rfl⟩

theorem cfgPlaceIds_nodup : (buildPetriNet fs e n).cfgPlaceIds.Nodup :=
  ((List.filter_sublist _).map _).nodup (placeIds_nodup fs e n)

theorem not_mem_cfgPlaceIds_of_firstChar {x : String} (hx : firstChar x = some 't') :
    x ∉ (buildPetriNet fs e n).cfgPlaceIds := fun h => by
  have := firstChar_of_mem_placeIds (mem_cfgPlaceIds_build.mp h).1
  rw [hx] at this
  cases this

theorem not_mem_cfgPlaceIds_of_idClass {x : String}
    (hx : idClass x = some 'e' ∨ idClass x = some 'd') :
    x ∉ (buildPetriNet fs e n).cfgPlaceIds := fun h => by
  obtain ⟨-, he, hd⟩ := mem_cfgPlaceIds_build.mp h
  exact hx.elim he hd

/-- Every piece gives the control places at most what it takes from them, at every
transition, and exactly that when the function's successors all exist. -/
theorem Chunk.cfg_flow {fn : MirFunction} {c : List BuildOp} (hfn : fn ∈ fnsToProcess fs n)
    (hc : Chunk fn e c) (t : String) :
    (arcsOf c).countP (fun x => x.1 = t ∧ x.2.1 ∈ (buildPetriNet fs e n).cfgPlaceIds) ≤
        (arcsOf c).countP (fun x => x.1 ∈ (buildPetriNet fs e n).cfgPlaceIds ∧ x.2.1 = t) ∧
      (TargetsExist fn →
        (arcsOf c).countP (fun x => x.1 = t ∧ x.2.1 ∈ (buildPetriNet fs e n).cfgPlaceIds) =
          (arcsOf c).countP (fun x => x.1 ∈ (buildPetriNet fs e n).cfgPlaceIds ∧ x.2.1 = t)) := by
  have hcfg : ∀ {x}, x ∈ (buildPetriNet fs e n).placeIds → idClass x ≠ some 'e' →
      idClass x ≠ some 'd' → x ∈ (buildPetriNet fs e n).cfgPlaceIds :=
    fun h1 h2 h3 => mem_cfgPlaceIds_build.mpr ⟨h1, h2, h3⟩
  cases hc with
  | start hfirst hcl =>
    have h1 := hcfg (entryPlaceId_mem_placeIds hfn) (by simp) (by simp)
    have h2 := hcfg (bbPlaceId_mem_placeIds hfn (hasBlock_of_mem hfirst hcl)) (by simp) (by simp)
    simp [List.countP_cons, h1, h2, not_mem_cfgPlaceIds_of_firstChar]
  | @edge bb term m hbb hcl hterm hm =>
    have h1 := hcfg (bbPlaceId_mem_placeIds hfn (hasBlock_of_mem hbb hcl)) (by simp) (by simp)
    -- the target's place is a control place, or the target is missing and the goal is `≤`
    have h2 : hasBlock fn.basicBlocks m → bbPlaceId fn.name m ∈ (buildPetriNet fs e n).cfgPlaceIds :=
      fun hk => hcfg (bbPlaceId_mem_placeIds hfn hk) (by simp) (by simp)
    have hne : ¬hasBlock fn.basicBlocks m → ¬TargetsExist fn := fun hk h => hk (h bb hbb hcl m
      (by simpa [BasicBlock.successors, hterm, terminatorPlan_targets] using hm))
    rw [arcsOf_edgePiece]
    split <;> rename_i hk <;> cases truthy _ <;> cases truthy _ <;>
      simp [List.countP_cons, lockArcs, unlockArcs, h1, h2, hk, hne, not_mem_cfgPlaceIds_of_firstChar,
        not_mem_cfgPlaceIds_of_idClass]
  | ret hbb hcl _ =>
    have h1 := hcfg (bbPlaceId_mem_placeIds hfn (hasBlock_of_mem hbb hcl)) (by simp) (by simp)
    have h2 := hcfg (exitPlaceId_mem_placeIds hfn) (by simp) (by simp)
    simp [List.countP_cons, h1, h2, not_mem_cfgPlaceIds_of_firstChar]
  | header | nil | warn => simp

theorem cfg_outflow_le (t : String) :
    (buildPetriNet fs e n).outflow (buildPetriNet fs e n).cfgPlaceIds t ≤
      (buildPetriNet fs e n).inflow (buildPetriNet fs e n).cfgPlaceIds t := by
  rw [inflow_build, outflow_build]
  refine List.sum_le_sum fun c hc => ?_
  obtain ⟨fn, hfn, hc⟩ := chunk_of_mem_buildChunks hc
  exact (hc.cfg_flow hfn t).1

theorem cfg_flow_eq (h : ∀ fn ∈ fnsToProcess fs n, TargetsExist fn) (t : String) :
    (buildPetriNet fs e n).inflow (buildPetriNet fs e n).cfgPlaceIds t =
      (buildPetriNet fs e n).outflow (buildPetriNet fs e n).cfgPlaceIds t := by
  rw [inflow_build, outflow_build]
  congr 1
  refine List.map_congr_left fun c hc => ?_
  obtain ⟨fn, hfn, hc⟩ := chunk_of_mem_buildChunks hc
  exact ((hc.cfg_flow hfn t).2 (h fn hfn)).symm

theorem arc_of_mem_chunk {c : List BuildOp} (hcm : c ∈ buildChunks fs e n)
    {x : String × String × Int} (hx : x ∈ arcsOf c) :
    ∃ a ∈ (buildPetriNet fs e n).arcs, a.source = x.1 ∧ a.target = x.2.1 := by
  obtain ⟨a, ha, h⟩ := List.mem_map.mp ((mem_arcs_build fs e n x).mpr ⟨c, hcm, hx⟩)
  exact ⟨a, ha, by rw [← h]; rfl, by rw [← h]; rfl⟩

/-- Every transition a piece offers has an arc of the piece into it from a control place, and
one out of it when every successor of the function names a block. -/
theorem Chunk.arcs_at {fn : MirFunction} {c : List BuildOp} (hfn : fn ∈ fnsToProcess fs n)
    (hc : Chunk fn e c) {t : Transition} (ht : t ∈ transitionsOf c) :
    (∃ x ∈ arcsOf c, x.1 ∈ (buildPetriNet fs e n).cfgPlaceIds ∧ x.2.1 = t.id) ∧
      (TargetsExist fn → ∃ x ∈ arcsOf c, x.1 = t.id) := by
  have hbb {bb : BasicBlock} (hbb : bb ∈ fn.basicBlocks) (hcl : bb.isCleanup = false) :
      bbPlaceId fn.name bb.bbId ∈ (buildPetriNet fs e n).cfgPlaceIds :=
    mem_cfgPlaceIds_build.mpr ⟨bbPlaceId_mem_placeIds hfn (hasBlock_of_mem hbb hcl), by simp, by simp⟩
  cases hc with
  | @start first =>
    simp only [transitionsOf_cons_addTransition, transitionsOf_cons_addArc, transitionsOf_nil,
      List.mem_singleton] at ht
    subst ht
    exact ⟨⟨(entryPlaceId fn.name, startTransitionId fn.name, 1), by simp,
        mem_cfgPlaceIds_build.mpr ⟨entryPlaceId_mem_placeIds hfn, by simp, by simp⟩, rfl⟩,
      fun _ => ⟨(startTransitionId fn.name, bbPlaceId fn.name first.bbId, 1), by simp, rfl⟩⟩
  | @edge bb term m hb hcl hterm hm =>
    simp only [transitionsOf_edgePiece, List.mem_singleton] at ht
    subst ht
    refine ⟨⟨(bbPlaceId fn.name bb.bbId, edgeTransitionId fn.name bb.bbId m, 1), by simp,
        hbb hb hcl, rfl⟩,
      fun h => ⟨(edgeTransitionId fn.name bb.bbId m, bbPlaceId fn.name m, 1), ?_, rfl⟩⟩
    have hk : hasBlock fn.basicBlocks m :=
      h bb hb hcl m (by simpa [BasicBlock.successors, hterm, terminatorPlan_targets] using hm)
    simp [hk]
  | @ret bb hb hcl =>
    simp only [transitionsOf_returnOps, List.mem_singleton] at ht
    subst ht
    exact ⟨⟨(bbPlaceId fn.name bb.bbId, returnTransitionId fn.name bb.bbId, 1), by simp,
        hbb hb hcl, rfl⟩,
      fun _ => ⟨(returnTransitionId fn.name bb.bbId, exitPlaceId fn.name, 1), by simp, rfl⟩⟩
  | header | nil | warn => simp at ht

/-- Every transition of the built net has an input arc. -/
theorem inDegree_pos {t : String} (ht : t ∈ (buildPetriNet fs e n).transitionIds) :
    0 < (buildPetriNet fs e n).inDegree t := by
  obtain ⟨c, hcm, t', ht', rfl⟩ := (mem_transitionIds_build fs e n t).mp ht
  obtain ⟨fn, hfn, hc⟩ := chunk_of_mem_buildChunks hcm
  obtain ⟨x, hx, -, hxt⟩ := (hc.arcs_at hfn ht').1
  obtain ⟨a, ha, -, hat⟩ := arc_of_mem_chunk hcm hx
  exact List.countP_pos_iff.mpr ⟨a, ha, by simp [hat, hxt]⟩

/-- When every successor names a block, every transition also has an output arc. -/
theorem outDegree_pos (h : ∀ fn ∈ fnsToProcess fs n, TargetsExist fn) {t : String}
    (ht : t ∈ (buildPetriNet fs e n).transitionIds) : 0 < (buildPetriNet fs e n).outDegree t := by
  obtain ⟨c, hcm, t', ht', rfl⟩ := (mem_transitionIds_build fs e n t).mp ht
  obtain ⟨fn, hfn, hc⟩ := chunk_of_mem_buildChunks hcm
  obtain ⟨x, hx, hxt⟩ := (hc.arcs_at hfn ht').2 (h fn hfn)
  obtain ⟨a, ha, has, -⟩ := arc_of_mem_chunk hcm hx
  exact List.countP_pos_iff.mpr ⟨a, ha, by simp [has, hxt]⟩

/-- The entry place of `f` is in the net exactly when `f` names a processed function. -/
theorem entryPlaceId_mem_placeIds_iff (f : String) :
    entryPlaceId f ∈ (buildPetriNet fs e n).placeIds ↔ f ∈ (fnsToProcess fs n).map (·.name) := by
  constructor
  · intro h
    obtain ⟨p, hp, hid⟩ := List.mem_map.mp h
    obtain ⟨fn, hfn, hs⟩ := placeShape_of_mem hp
    cases hs <;> simp_all [eq_false_of_idClass_ne]
    exact ⟨fn, hfn, hid⟩
  · intro h
    obtain ⟨fn, hfn, rfl⟩ := List.mem_map.mp h
    exact entryPlaceId_mem_placeIds hfn

theorem initial_of_mem_cfgPlaceIds {x : String} (hx : x ∈ (buildPetriNet fs e n).cfgPlaceIds) :
    (buildPetriNet fs e n).initial x = if x = entryPlaceId e then 1 else 0 := by
  obtain ⟨hp, he, -⟩ := mem_cfgPlaceIds_build.mp hx
  rw [initial_build, if_pos hp, initOfId]
  split_ifs <;> simp_all

end Build

/-- Control tokens are never created: every transition of the built net has an input arc
and takes at least as many control tokens as it gives, so the number of control tokens never
grows along a run. When every successor of every block names a block of its function, every
transition also has an output arc and passes the control token on, and the number of control
tokens is the same in every reachable marking. -/
theorem cfg_token_conservation (functions : List MirFunction) (entryFn : String)
    (maxFns : Option Int) :
    (∀ t ∈ (buildPetriNet functions entryFn maxFns).transitionIds,
      0 < (buildPetriNet functions entryFn maxFns).inDegree t ∧
      (buildPetriNet functions entryFn maxFns).outflow
          (buildPetriNet functions entryFn maxFns).cfgPlaceIds t ≤
        (buildPetriNet functions entryFn maxFns).inflow
          (buildPetriNet functions entryFn maxFns).cfgPlaceIds t) ∧
    (∀ M, (buildPetriNet functions entryFn maxFns).Reachable M →
      M.tokenSum (buildPetriNet functions entryFn maxFns).cfgPlaceIds ≤
        (buildPetriNet functions entryFn maxFns).initial.tokenSum
          (buildPetriNet functions entryFn maxFns).cfgPlaceIds) ∧
    ((∀ fn ∈ fnsToProcess functions maxFns, TargetsExist fn) →
      (∀ t ∈ (buildPetriNet functions entryFn maxFns).transitionIds,
        0 < (buildPetriNet functions entryFn maxFns).outDegree t ∧
        (buildPetriNet functions entryFn maxFns).inflow
            (buildPetriNet functions entryFn maxFns).cfgPlaceIds t =
          (buildPetriNet functions entryFn maxFns).outflow
            (buildPetriNet functions entryFn maxFns).cfgPlaceIds t) ∧
      ∀ M, (buildPetriNet functions entryFn maxFns).Reachable M →
        M.tokenSum (buildPetriNet functions entryFn maxFns).cfgPlaceIds =
          (buildPetriNet functions entryFn maxFns).initial.tokenSum
            (buildPetriNet functions entryFn maxFns).cfgPlaceIds) :=
  ⟨fun _ ht => ⟨inDegree_pos ht, cfg_outflow_le _⟩,
    fun _ hM => PetriNet.Reachable.tokenSum_le cfgPlaceIds_nodup (fun t _ => cfg_outflow_le t) hM,
    fun h => ⟨fun _ ht => ⟨outDegree_pos h ht, cfg_flow_eq h _⟩,
      fun _ hM => PetriNet.Reachable.tokenSum_eq cfgPlaceIds_nodup (fun t _ => cfg_flow_eq h t) hM⟩⟩

theorem cfg_token_conservation_lockThenDrop :
    (∀ fn ∈ fnsToProcess [lockThenDrop] none, TargetsExist fn) ∧
      ∀ t ∈ (buildPetriNet [lockThenDrop]).transitionIds, 0 < (buildPetriNet [lockThenDrop]).outDegree t :=
  ⟨by decide, fun t ht =>
    (((cfg_token_conservation [lockThenDrop] "main" none).2.2 (by decide)).1 t ht).1⟩

/-- `bb0` jumps to `bb5`, which the function does not have. -/
def gotoMissing : MirFunction := ⟨"main", [], [⟨0, [], some (.goto 5), false, 2⟩], [], []⟩

/-- Its edge transition has no output arc, and firing it loses the control token. -/
theorem gotoMissing_loses_control_token :
    edgeTransitionId "main" 0 5 ∈ (buildPetriNet [gotoMissing]).transitionIds ∧
      (buildPetriNet [gotoMissing]).outDegree (edgeTransitionId "main" 0 5) = 0 ∧
      ∃ M, (buildPetriNet [gotoMissing]).Reachable M ∧
        M.tokenSum (buildPetriNet [gotoMissing]).cfgPlaceIds = 0 ∧
        (buildPetriNet [gotoMissing]).initial.tokenSum (buildPetriNet [gotoMissing]).cfgPlaceIds = 1 :=
  ⟨by decide, by decide, _,
    .tail (.tail .refl ⟨startTransitionId "main", by decide, rfl⟩)
      ⟨edgeTransitionId "main" 0 5, by decide, rfl⟩, by decide, by decide⟩

/-- The initial control token: the only place of kind `cfg` that can hold a token initially is
the entry function's entry place, and it holds exactly one when the entry function is
processed; otherwise no place of kind `cfg` holds a token. -/
theorem cfg_initial_marking (functions : List MirFunction) (entryFn : String)
    (maxFns : Option Int) :
    (∀ x ∈ (buildPetriNet functions entryFn maxFns).cfgPlaceIds,
      (buildPetriNet functions entryFn maxFns).initial x ≠ 0 → x = entryPlaceId entryFn) ∧
    (entryFn ∈ (fnsToProcess functions maxFns).map (·.name) →
      entryPlaceId entryFn ∈ (buildPetriNet functions entryFn maxFns).cfgPlaceIds ∧
        (buildPetriNet functions entryFn maxFns).initial (entryPlaceId entryFn) = 1) ∧
    (entryFn ∉ (fnsToProcess functions maxFns).map (·.name) →
      ∀ x ∈ (buildPetriNet functions entryFn maxFns).cfgPlaceIds,
        (buildPetriNet functions entryFn maxFns).initial x = 0) := by
  refine ⟨fun x hx h0 => ?_, fun h => ?_, fun h x hx => ?_⟩
  · rw [initial_of_mem_cfgPlaceIds hx] at h0
    by_contra hne
    exact h0 (if_neg hne)
  · have hx : entryPlaceId entryFn ∈ (buildPetriNet functions entryFn maxFns).cfgPlaceIds :=
      mem_cfgPlaceIds_build.mpr ⟨(entryPlaceId_mem_placeIds_iff _).mpr h, by simp, by simp⟩
    exact ⟨hx, by rw [initial_of_mem_cfgPlaceIds hx, if_pos rfl]⟩
  · rw [initial_of_mem_cfgPlaceIds hx, if_neg]
    rintro rfl
    exact h ((entryPlaceId_mem_placeIds_iff _).mp (mem_cfgPlaceIds_build.mp hx).1)

/-- With an entry function that is not processed, no control place is marked. -/
theorem lockThenDrop_worker_unmarked :
    fnsToProcess [lockThenDrop] none ≠ [] ∧
      ∀ x ∈ (buildPetriNet [lockThenDrop] "worker").cfgPlaceIds,
        (buildPetriNet [lockThenDrop] "worker").initial x = 0 := by
  decide

/-! ## Duplicated switch targets -/

/-- The net without its mutex places and their arcs. -/
def PetriNet.controlSubnet (N : PetriNet) : PetriNet :=
  { N with
    places := N.places.filter fun p => !N.isMutexPlace p.id
    arcs := N.arcs.filter fun a => !N.isMutexPlace a.source && !N.isMutexPlace a.target
    initialMarking := N.initialMarking.filter fun x => !N.isMutexPlace x.1 }

/-- `bb0` ends in a switch both of whose targets are `bb1`, which returns. -/
def switchTwice : MirFunction :=
  ⟨"main", [], [⟨0, [], some (.switchInt [1, 1]), false, 2⟩, ⟨1, [], some .return, false, 5⟩],
    [], []⟩

/-- The path `bb0, bb1` of `switchTwice` does not run in its control subnet: from one token on
the entry place, the start transition leaves one token on `p_main_bb0`, but the two targets
share the transition `t_main_bb0_to_bb1`, which takes two tokens from `p_main_bb0`. -/
theorem switchTwice_path_blocked :
    switchTwice.basicBlocks.map BasicBlock.successors = [[1, 1], []] ∧
      (buildPetriNet [switchTwice]).controlSubnet.pre (bbPlaceId "main" 0)
        (edgeTransitionId "main" 0 1) = 2 ∧
      ((buildPetriNet [switchTwice]).controlSubnet.fireSeq (Marking.single (entryPlaceId "main"))
          [startTransitionId "main"]).map (fun M => (buildPetriNet [switchTwice]).placeIds.map M) =
        some ((buildPetriNet [switchTwice]).placeIds.map (Marking.single (bbPlaceId "main" 0))) ∧
      ((buildPetriNet [switchTwice]).controlSubnet.fireSeq (Marking.single (entryPlaceId "main"))
          [startTransitionId "main", edgeTransitionId "main" 0 1]).isNone := by
  decide

end Mir2Pnml
