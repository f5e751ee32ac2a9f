import Mir2Pnml.Offers
import Mathlib.Data.List.Nodup

/-! # Distinct names and block ids

When the processed functions have distinct names and each function's blocks have distinct
ids, the id `t_{f}_bb{k}_to_bb{m}` names one edge of one block: every piece that offers it is
that edge's piece. The net's transition under the id is then the piece's record, and for a
block with a single successor, the edge's piece holds every arc at that id.
-/
namespace Mir2Pnml

/-- Pairwise distinct function names, and pairwise distinct block ids within each function. -/
structure DistinctIds (fns : List MirFunction) : Prop where
  names : (fns.map (·.name)).Nodup
  blockIds : ∀ fn ∈ fns, (fn.basicBlocks.map (·.bbId)).Nodup

instance (fns : List MirFunction) : Decidable (DistinctIds fns) :=
  decidable_of_iff ((fns.map (·.name)).Nodup ∧ ∀ fn ∈ fns, (fn.basicBlocks.map (·.bbId)).Nodup)
    ⟨fun ⟨h1, h2⟩ => ⟨h1, h2⟩, fun ⟨h1, h2⟩ => ⟨h1, h2⟩⟩

/-- `xs.flatMap g` is `g x` when `x` occurs once and every other element maps to nothing. -/
theorem flatMap_eq_of_unique {α β : Type} {l : List α} {x : α} {g : α → List β} (hl : l.Nodup)
    (hx : x ∈ l) (hg : ∀ y ∈ l, y ≠ x → g y = []) : l.flatMap g = g x := by
  induction l with
  | nil => cases hx
  | cons y l ih =>
    obtain ⟨hy, hl⟩ := List.nodup_cons.mp hl
    rw [List.flatMap_cons]
    by_cases hxy : y = x
    · subst hxy
      rw [List.flatMap_eq_nil_iff.mpr fun z hz => hg z (List.mem_cons_of_mem _ hz)
        fun h => hy (h ▸ hz), List.append_nil]
    · rw [hg y (List.mem_cons_self _ _) hxy, List.nil_append,
        ih hl ((List.mem_cons.mp hx).resolve_left (Ne.symm hxy))
          fun z hz => hg z (List.mem_cons_of_mem _ hz)]

/-- `fn` is the only processed function of its name, and its block ids are distinct. -/
structure SoleName (fns : List MirFunction) (fn : MirFunction) : Prop where
  fn_eq : ∀ fn' ∈ fns, fn'.name = fn.name → fn' = fn
  blockIds : (fn.basicBlocks.map (·.bbId)).Nodup

instance (fns : List MirFunction) (fn : MirFunction) : Decidable (SoleName fns fn) :=
  decidable_of_iff ((∀ fn' ∈ fns, fn'.name = fn.name → fn' = fn) ∧ (fn.basicBlocks.map (·.bbId)).Nodup)
    ⟨fun ⟨h1, h2⟩ => ⟨h1, h2⟩, fun ⟨h1, h2⟩ => ⟨h1, h2⟩⟩

theorem DistinctIds.soleName {fns : List MirFunction} {fn : MirFunction} (hd : DistinctIds fns)
    (hfn : fn ∈ fns) : SoleName fns fn :=
  ⟨fun _ hfn' h => List.inj_on_of_nodup_map hd.names hfn' hfn h, hd.blockIds fn hfn⟩

namespace SoleName
variable {fs : List MirFunction} {e : String} {n : Option Int}
  {fn : MirFunction} {bb : BasicBlock} {term : Terminator} {m : Int}
  (hs : SoleName (fnsToProcess fs n) fn)
  (hfn : fn ∈ fnsToProcess fs n) (hbb : bb ∈ fn.basicBlocks) (hterm : bb.terminator = some term)
include hs hfn hbb hterm

/-- A piece that offers an edge's transition id is that edge's piece. -/
theorem chunk_eq_edgePiece {fn' : MirFunction} {c : List BuildOp}
    (hfn' : fn' ∈ fnsToProcess fs n) (hc : Chunk fn' e c) {t : Transition}
    (ht : t ∈ transitionsOf c) (hid : t.id = edgeTransitionId fn.name bb.bbId m) :
    fn' = fn ∧ c = edgePiece fn bb term m ∧ t = edgePieceTransition fn bb term m := by
  cases hc with
  | edge hbb' _ hterm' _ =>
    simp only [transitionsOf_edgePiece, List.mem_singleton] at ht
    subst ht
    obtain ⟨hf, hk, rfl⟩ := edgeTransitionId_injective hid
    obtain rfl := hs.fn_eq _ hfn' hf
    obtain rfl := List.inj_on_of_nodup_map hs.blockIds hbb' hbb hk
    obtain rfl := Option.some.inj (hterm'.symm.trans hterm)
    exact ⟨rfl, rfl, rfl⟩
  | start =>
    simp only [transitionsOf_cons_addTransition, transitionsOf_cons_addArc, transitionsOf_nil,
      List.mem_singleton] at ht
    subst ht
    exact absurd hid (ne_of_idClass_ne (by simp))
  | ret =>
    simp only [transitionsOf_returnOps, List.mem_singleton] at ht
    subst ht
    exact absurd hid (ne_of_idClass_ne (by simp))
  | header | nil | warn => simp at ht

/-- The net's transition under an edge's id is that edge's record. -/
theorem eq_edgePieceTransition {t : Transition} (ht : t ∈ (buildPetriNet fs e n).transitions)
    (hid : t.id = edgeTransitionId fn.name bb.bbId m) : t = edgePieceTransition fn bb term m := by
  rw [transitions_build] at ht
  rcases mem_appendNew _ ht with ht | ht
  · cases ht
  obtain ⟨c, hcm, ht⟩ := (mem_transitionsOf_buildOps fs e n).mp ht
  obtain ⟨fn', hfn', hc⟩ := chunk_of_mem_buildChunks hcm
  exact (hs.chunk_eq_edgePiece hfn hbb hterm hfn' hc ht hid).2.2

theorem edgePieceTransition_mem (hcl : bb.isCleanup = false)
    (hm : m ∈ (terminatorPlan fn bb term).targets) :
    edgePieceTransition fn bb term m ∈ (buildPetriNet fs e n).transitions := by
  have hid : (edgePieceTransition fn bb term m).id ∈ (buildPetriNet fs e n).transitionIds :=
    (mem_transitionIds_build fs e n _).mpr ⟨_, edgePiece_mem_buildChunks fs e n hfn hbb hcl hterm hm,
      _, by rw [transitionsOf_edgePiece]; exact List.mem_singleton_self _, rfl⟩
  obtain ⟨t, ht, hid⟩ := List.mem_map.mp hid
  rwa [hs.eq_edgePieceTransition hfn hbb hterm ht hid] at ht

end SoleName

/-- Under distinct names and block ids, a function name and a block id name one block. -/
theorem DistinctIds.eq_of_ids {fns : List MirFunction} (hd : DistinctIds fns) {fn fn' : MirFunction}
    (hfn : fn ∈ fns) (hfn' : fn' ∈ fns) (hname : fn'.name = fn.name) {bb bb' : BasicBlock}
    (hbb : bb ∈ fn.basicBlocks) (hbb' : bb' ∈ fn'.basicBlocks) (hid : bb'.bbId = bb.bbId) :
    fn' = fn ∧ bb' = bb := by
  obtain rfl := List.inj_on_of_nodup_map hd.names hfn' hfn hname
  exact ⟨rfl, List.inj_on_of_nodup_map (hd.blockIds _ hfn) hbb' hbb hid⟩

/-- `g` sends every piece that does not offer the transition id `tid` to nothing. -/
def Vanishes (fs : List MirFunction) (e : String) (n : Option Int) (tid : String) {β : Type}
    (g : List BuildOp → List β) : Prop :=
  ∀ fn' c, fn' ∈ fnsToProcess fs n → Chunk fn' e c → (∀ t ∈ transitionsOf c, t.id ≠ tid) → g c = []

namespace DistinctIds
variable {fs : List MirFunction} {e : String} {n : Option Int}
  (hd : DistinctIds (fnsToProcess fs n)) {fn : MirFunction} (hfn : fn ∈ fnsToProcess fs n)
  {β : Type} {g : List BuildOp → List β}
include hd hfn

/-- When only transitions of a function named `fn.name` have the id `tid`, the build maps
as `fn`'s pieces do. -/
theorem flatMap_buildChunks_of_name {tid : String} (hg : Vanishes fs e n tid g)
    (hname : ∀ fn' t, TransitionShape fn' t → t.id = tid → fn'.name = fn.name) :
    (buildChunks fs e n).flatMap g = (functionChunks fn e).flatMap g := by
  rw [buildChunks, List.flatMap_assoc]
  exact flatMap_eq_of_unique (List.Nodup.of_map _ hd.names) hfn fun fn' hfn' hne =>
    List.flatMap_eq_nil_iff.mpr fun c hc => hg fn' c hfn' (chunk_of_mem_functionChunks hc)
      fun t ht hid => hne (List.inj_on_of_nodup_map hd.names hfn' hfn
        (hname fn' t ((chunk_of_mem_functionChunks hc).transitionShape ht) hid))

/-- When moreover only transitions of blocks with `bb`'s id have the id `tid`, the build maps
as `bb`'s pieces do. -/
theorem flatMap_buildChunks_of_block {bb : BasicBlock} (hbb : bb ∈ fn.basicBlocks) {tid : String}
    (hg : Vanishes fs e n tid g)
    (hname : ∀ fn' t, TransitionShape fn' t → t.id = tid → fn'.name = fn.name)
    (hstart : startTransitionId fn.name ≠ tid)
    (hblock : ∀ bb' ∈ fn.basicBlocks, ∀ c ∈ blockChunks fn bb', ∀ t ∈ transitionsOf c, t.id = tid →
      bb'.bbId = bb.bbId) :
    (buildChunks fs e n).flatMap g = (blockChunks fn bb).flatMap g := by
  have hc {c} (h : c ∈ fn.basicBlocks.flatMap (blockChunks fn)) : Chunk fn e c :=
    chunk_of_mem_functionChunks (List.mem_cons_of_mem _ (List.mem_cons_of_mem _ h))
  rw [hd.flatMap_buildChunks_of_name hfn hg hname, functionChunks, List.flatMap_cons,
    List.flatMap_cons, hg fn _ hfn .header (by simp),
    hg fn _ hfn (chunk_of_mem_functionChunks (List.mem_cons_of_mem _ (List.mem_cons_self _ _)))
      fun t ht hid => hstart (by rw [← hid, eq_startTransition_of_mem ht]; rfl),
    List.flatMap_assoc, flatMap_eq_of_unique (List.Nodup.of_map _ (hd.blockIds fn hfn)) hbb
      fun bb' hbb' hne => List.flatMap_eq_nil_iff.mpr fun c hc' =>
        hg fn c hfn (hc (List.mem_flatMap.mpr ⟨bb', hbb', hc'⟩)) fun t ht hid =>
          hne (List.inj_on_of_nodup_map (hd.blockIds fn hfn) hbb' hbb (hblock bb' hbb' c hc' t ht hid))]
  rfl

/-- Only `fn`'s start piece offers its start transition. -/
theorem flatMap_buildChunks_start (hg : Vanishes fs e n (startTransitionId fn.name) g) :
    (buildChunks fs e n).flatMap g = g (startOps fn.name fn.basicBlocks (bbToPlace fn.name fn.basicBlocks)) := by
  rw [hd.flatMap_buildChunks_of_name hfn hg fun fn' t ht hid => by
      cases ht with
      | start => exact startTransitionId_injective hid
      | edge => exact absurd hid (ne_of_idClass_ne (by simp))
      | ret => exact absurd hid (ne_of_idClass_ne (by simp)),
    functionChunks, List.flatMap_cons, List.flatMap_cons, hg fn _ hfn .header (by simp),
    List.flatMap_eq_nil_iff.mpr fun c hc => ?_]
  · simp
  · obtain ⟨bb, hbb, hc'⟩ := List.mem_flatMap.mp hc
    refine hg fn c hfn (chunk_of_mem_functionChunks (List.mem_cons_of_mem _ (List.mem_cons_of_mem _
      hc))) fun t ht hid => ?_
    rcases transitionId_of_mem_blockChunks hc' ht with ⟨m, hm⟩ | hret
    · exact ne_of_idClass_ne (by simp) (hm.symm.trans hid)
    · exact ne_of_idClass_ne (by simp) (hret.symm.trans hid)

variable {bb : BasicBlock} (hbb : bb ∈ fn.basicBlocks) (hcl : bb.isCleanup = false)
include hbb hcl

/-- Only a block's edge piece to `r` offers that edge's transition, when the block's
successors are distinct. -/
theorem flatMap_buildChunks_edge {term : Terminator} {r : Int} (hterm : bb.terminator = some term)
    (hnd : (terminatorPlan fn bb term).targets.Nodup) (hr : r ∈ (terminatorPlan fn bb term).targets)
    (hg : Vanishes fs e n (edgeTransitionId fn.name bb.bbId r) g) :
    (buildChunks fs e n).flatMap g = g (edgePiece fn bb term r) := by
  have hterm_ne : term ≠ .return := by rintro rfl; simp [terminatorPlan] at hr
  rw [hd.flatMap_buildChunks_of_block hfn hbb hg (fun fn' t ht hid => by
      cases ht with
      | start => exact absurd hid (ne_of_idClass_ne (by simp))
      | edge => exact (edgeTransitionId_injective hid).1
      | ret => exact absurd hid (ne_of_idClass_ne (by simp)))
    (ne_of_idClass_ne (by simp)) fun bb' _ c hc t ht hid => by
      rcases transitionId_of_mem_blockChunks hc ht with ⟨m, hm⟩ | hret
      · exact (edgeTransitionId_injective (hm.symm.trans hid)).2.1
      · exact absurd (hret.symm.trans hid) (ne_of_idClass_ne (by simp))]
  simp only [blockChunks, hcl, hterm, if_neg hterm_ne, Bool.false_eq_true, if_false,
    List.flatMap_append, List.flatMap_map, List.flatMap_nil, List.append_nil]
  rw [List.flatMap_eq_nil_iff.mpr fun c hc => ?_, List.nil_append]
  · exact flatMap_eq_of_unique hnd hr fun m hm hne => hg fn _ hfn (.edge hbb hcl hterm hm)
      fun t ht hid => by
        simp only [transitionsOf_edgePiece, List.mem_singleton] at ht
        subst ht
        exact hne (edgeTransitionId_injective hid).2.2
  · exact hg fn _ hfn (.warn c) (by simp)

/-- Only a block's return piece offers its return transition. -/
theorem flatMap_buildChunks_return (hterm : bb.terminator = some .return)
    (hg : Vanishes fs e n (returnTransitionId fn.name bb.bbId) g) :
    (buildChunks fs e n).flatMap g = g (returnOps fn.name bb.bbId (bbPlaceId fn.name bb.bbId)) := by
  rw [hd.flatMap_buildChunks_of_block hfn hbb hg (fun fn' t ht hid => by
      cases ht with
      | start => exact absurd hid (ne_of_idClass_ne (by simp))
      | edge => exact absurd hid (ne_of_idClass_ne (by simp))
      | ret => exact (returnTransitionId_injective hid).1)
    (ne_of_idClass_ne (by simp)) fun bb' _ c hc t ht hid => by
      rcases transitionId_of_mem_blockChunks hc ht with ⟨m, hm⟩ | hret
      · exact absurd (hm.symm.trans hid) (ne_of_idClass_ne (by simp))
      · exact (returnTransitionId_injective (hret.symm.trans hid)).2]
  simp [blockChunks, hcl, hterm, terminatorPlan]

end DistinctIds

namespace DistinctIds
variable {fs : List MirFunction} {e : String} {n : Option Int}
  (hd : DistinctIds (fnsToProcess fs n))
  {fn : MirFunction} {bb : BasicBlock} {term : Terminator}
  (hfn : fn ∈ fnsToProcess fs n) (hbb : bb ∈ fn.basicBlocks) (hterm : bb.terminator = some term)
include hd hfn hbb hterm

/-- At the edge of a block with one successor `r`, the pieces of the build map to what the
edge's piece maps to, for any map that sends a piece not offering the edge's id to nothing. -/
theorem flatMap_buildChunks {r : Int} (hcl : bb.isCleanup = false)
    (hr : (terminatorPlan fn bb term).targets = [r]) {β : Type} (g : List BuildOp → List β)
    (hg : ∀ fn' c, fn' ∈ fnsToProcess fs n → Chunk fn' e c →
      (∀ t ∈ transitionsOf c, t.id ≠ edgeTransitionId fn.name bb.bbId r) → g c = []) :
    (buildChunks fs e n).flatMap g = g (edgePiece fn bb term r) :=
  hd.flatMap_buildChunks_edge hfn hbb hcl hterm (hr ▸ List.nodup_singleton r)
    (hr ▸ List.mem_singleton_self r) hg

end DistinctIds

end Mir2Pnml
