import Mir2Pnml.Safety

/-! # The net runs the program

The program a dump describes, as the translator reads it, is a machine over configurations:
where control is, and which keys are locked. From a function's entry, control goes to the
function's first non-cleanup block; from a block, along one of its terminator's successors,
taking the key of a lock call when that key is free and giving back the key of a dropped guard
when it is locked; from a block that returns, to the function's exit. An edge to a block the
function does not have leaves control nowhere.

`Represents` relates a marking of the built net to a configuration. When function names, the
block ids of each function and each terminator's successors are distinct (`Distinct`), every
firing of the net is a step of the machine and every step of the machine is a firing, from
related states to related states. So the reachable markings are the images of the reachable
configurations, and the net is dead exactly where the program is stuck.
-/
namespace Mir2Pnml

/-! ## The program's machine -/

/-- Where control is: at a function's entry, at one of its blocks, or at its exit. -/
inductive Loc
  | entry (f : String)
  | block (f : String) (k : Int)
  | exit (f : String)
  deriving DecidableEq, Repr

/-- The control place of a location. -/
def Loc.placeId : Loc → String
  | .entry f => entryPlaceId f
  | .block f k => bbPlaceId f k
  | .exit f => exitPlaceId f

theorem Loc.placeId_injective {l l' : Loc} (h : l.placeId = l'.placeId) : l = l' := by
  cases l <;> cases l' <;> simp only [Loc.placeId] at h <;>
    first
    | rw [entryPlaceId_injective h]
    | rw [exitPlaceId_injective h]
    | obtain ⟨rfl, rfl⟩ := bbPlaceId_injective h; rfl
    | exact absurd h (ne_of_idClass_ne (by simp))

/-- A configuration of the program: where control is, if anywhere, and the keys locked. -/
structure Config where
  pc : Option Loc
  held : List String
  deriving DecidableEq, Repr

/-- What an edge does to the locked keys: a lock takes its key when the key is free, an unlock
gives its key back when the key is locked; otherwise the edge cannot be taken. -/
def lockStep (lockKey unlockKey : Option String) (held : List String) : Option (List String) :=
  match truthy lockKey, truthy unlockKey with
  | some k, _ => if k ∈ held then none else some (k :: held)
  | none, some k => if k ∈ held then some (held.filter (· ≠ k)) else none
  | none, none => some held

/-- Where an edge to block `r` takes control: nowhere when the function has no such block. -/
def edgeTarget (fn : MirFunction) (r : Int) : Option Loc :=
  if hasBlock fn.basicBlocks r then some (.block fn.name r) else none

/-- One step of the program among the functions `fns`. -/
inductive Config.Step (fns : List MirFunction) : Config → Config → Prop
  | start {fn : MirFunction} {first : BasicBlock} {held : List String} : fn ∈ fns →
      fn.basicBlocks.find? (fun b => !b.isCleanup) = some first →
      Config.Step fns ⟨some (.entry fn.name), held⟩ ⟨some (.block fn.name first.bbId), held⟩
  | edge {fn : MirFunction} {bb : BasicBlock} {term : Terminator} {r : Int}
      {held held' : List String} : fn ∈ fns → bb ∈ fn.basicBlocks → bb.isCleanup = false →
      bb.terminator = some term → r ∈ (terminatorPlan fn bb term).targets →
      lockStep (terminatorPlan fn bb term).mutexLockKey (terminatorPlan fn bb term).mutexUnlockKey
        held = some held' →
      Config.Step fns ⟨some (.block fn.name bb.bbId), held⟩ ⟨edgeTarget fn r, held'⟩
  | ret {fn : MirFunction} {bb : BasicBlock} {held : List String} : fn ∈ fns →
      bb ∈ fn.basicBlocks → bb.isCleanup = false → bb.terminator = some .return →
      Config.Step fns ⟨some (.block fn.name bb.bbId), held⟩ ⟨some (.exit fn.name), held⟩

/-- Control at the entry function's entry, when that function is processed, and no key
locked. -/
def Config.init (fns : List MirFunction) (entryFn : String) : Config :=
  ⟨if entryFn ∈ fns.map (·.name) then some (.entry entryFn) else none, []⟩

def Config.Reachable (fns : List MirFunction) (entryFn : String) (c : Config) : Prop :=
  Relation.ReflTransGen (Config.Step fns) (Config.init fns entryFn) c

/-- Function names, the block ids of each function, and each block's successors are
distinct. -/
structure Distinct (fns : List MirFunction) : Prop where
  ids : DistinctIds fns
  successors : ∀ fn ∈ fns, ∀ bb ∈ fn.basicBlocks, bb.successors.Nodup

instance (fns : List MirFunction) : Decidable (Distinct fns) :=
  decidable_of_iff (DistinctIds fns ∧ ∀ fn ∈ fns, ∀ bb ∈ fn.basicBlocks, bb.successors.Nodup)
    ⟨fun ⟨h1, h2⟩ => ⟨h1, h2⟩, fun ⟨h1, h2⟩ => ⟨h1, h2⟩⟩

/-! ## Arcs at one transition -/

namespace PetriNet
variable (N : PetriNet)

/-- The arcs at `tid`, as (source, target, weight). -/
def arcsAt (tid : String) : List (String × String × Int) :=
  (N.arcs.filter fun a => a.source = tid ∨ a.target = tid).map Arc.ends

variable {N}

theorem pre_eq_countP_arcsAt (x tid : String) :
    N.pre x tid = (N.arcsAt tid).countP fun y => y.1 = x ∧ y.2.1 = tid := by
  rw [pre, arcsAt, List.countP_map, List.countP_filter]
  exact List.countP_congr fun a _ => by simp [Arc.ends]; tauto

theorem post_eq_countP_arcsAt (tid x : String) :
    N.post tid x = (N.arcsAt tid).countP fun y => y.1 = tid ∧ y.2.1 = x := by
  rw [post, arcsAt, List.countP_map, List.countP_filter]
  exact List.countP_congr fun a _ => by simp [Arc.ends]; tauto

theorem enabled_iff_pre {M : Marking} {t : String} :
    N.Enabled M t ↔ t ∈ N.transitionIds ∧ ∀ x, 0 < N.pre x t → N.pre x t ≤ M x := by
  refine ⟨fun h => ⟨h.1, fun x _ => h.pre_le x⟩, fun ⟨ht, h⟩ => ⟨ht, fun a ha hat => h _ ?_⟩⟩
  exact List.countP_pos_iff.mpr ⟨a, ha, by simp [hat]⟩

end PetriNet

/-- The tokens a step of the program takes from place `x`: the control token at `src`, the free
token of the key it locks, the held token of the key it unlocks. -/
def inputs (src : Loc) (lk uk : Option String) (x : String) : Nat :=
  (if src.placeId = x then 1 else 0) + (if (truthy lk).map mutexFreeId = some x then 1 else 0) +
    (if (truthy uk).map mutexHeldId = some x then 1 else 0)

/-- The tokens a step of the program gives to place `x`: the control token at `dst`, the held
token of the key it locks, the free token of the key it unlocks. -/
def outputs (dst : Option Loc) (lk uk : Option String) (x : String) : Nat :=
  (if dst.map Loc.placeId = some x then 1 else 0) + (if (truthy lk).map mutexHeldId = some x then 1 else 0) +
    (if (truthy uk).map mutexFreeId = some x then 1 else 0)

/-! ## The arcs of each transition of the built net -/

section Build
variable {fs : List MirFunction} {e : String} {n : Option Int}

theorem arcsAt_build (tid : String) :
    (buildPetriNet fs e n).arcsAt tid =
      (buildChunks fs e n).flatMap fun c => (arcsOf c).filter fun y => y.1 = tid ∨ y.2.1 = tid :=
  filter_arcs_build fs e n fun y => decide (y.1 = tid ∨ y.2.1 = tid)

theorem vanishes_arcsAt {tid : String} (htid : firstChar tid = some 't') :
    Vanishes fs e n tid fun c => (arcsOf c).filter fun y => y.1 = tid ∨ y.2.1 = tid :=
  fun _ _ _ hc hne => List.filter_eq_nil_iff.mpr fun y hy => by
    obtain ⟨h1, h2⟩ := hc.not_mem_ends htid hne hy
    simp [h1, h2]

theorem vanishes_transitions (tid : String) :
    Vanishes fs e n tid fun c => (transitionsOf c).filter fun t => t.id = tid :=
  fun _ _ _ _ hne => List.filter_eq_nil_iff.mpr fun t ht => by simpa using hne t ht

theorem mem_transitionIds_iff_flatMap (tid : String) :
    tid ∈ (buildPetriNet fs e n).transitionIds ↔
      (buildChunks fs e n).flatMap (fun c => (transitionsOf c).filter fun t => t.id = tid) ≠ [] := by
  rw [mem_transitionIds_build, Ne, List.flatMap_eq_nil_iff]
  simp [List.filter_eq_nil_iff]

namespace DistinctIds
variable (hd : DistinctIds (fnsToProcess fs n)) {fn : MirFunction} (hfn : fn ∈ fnsToProcess fs n)
include hd hfn

theorem startTransitionId_mem_iff :
    startTransitionId fn.name ∈ (buildPetriNet fs e n).transitionIds ↔
      ∃ first, fn.basicBlocks.find? (fun b => !b.isCleanup) = some first := by
  rw [mem_transitionIds_iff_flatMap, hd.flatMap_buildChunks_start hfn (vanishes_transitions _),
    startOps]
  split <;> rename_i h <;> simp [h]

section Start
variable {first : BasicBlock} (hfirst : fn.basicBlocks.find? (fun b => !b.isCleanup) = some first)
include hfirst

theorem arcsAt_start :
    (buildPetriNet fs e n).arcsAt (startTransitionId fn.name) =
      [(entryPlaceId fn.name, startTransitionId fn.name, 1),
        (startTransitionId fn.name, bbPlaceId fn.name first.bbId, 1)] := by
  have hc : first.isCleanup = false := by simpa using List.find?_some hfirst
  rw [arcsAt_build, hd.flatMap_buildChunks_start hfn (vanishes_arcsAt (by simp)), startOps, hfirst]
  simp [lookup_bbToPlace, hasBlock_of_mem (List.mem_of_find?_eq_some hfirst) hc]

theorem pre_start (x : String) :
    (buildPetriNet fs e n).pre x (startTransitionId fn.name) = inputs (.entry fn.name) none none x := by
  rw [PetriNet.pre_eq_countP_arcsAt, hd.arcsAt_start hfn hfirst]
  simp [inputs, Loc.placeId, List.countP_cons, eq_false_of_firstChar_ne]

theorem post_start (x : String) :
    (buildPetriNet fs e n).post (startTransitionId fn.name) x =
      outputs (some (.block fn.name first.bbId)) none none x := by
  rw [PetriNet.post_eq_countP_arcsAt, hd.arcsAt_start hfn hfirst]
  simp [outputs, Loc.placeId, List.countP_cons, eq_false_of_firstChar_ne]

end Start

variable {bb : BasicBlock} (hbb : bb ∈ fn.basicBlocks) (hcl : bb.isCleanup = false)
include hbb hcl

section Edge
variable {term : Terminator} {r : Int} (hterm : bb.terminator = some term)
  (hnd : (terminatorPlan fn bb term).targets.Nodup) (hr : r ∈ (terminatorPlan fn bb term).targets)
include hterm hnd hr

theorem arcsAt_edge :
    (buildPetriNet fs e n).arcsAt (edgeTransitionId fn.name bb.bbId r) =
      arcsOf (edgePiece fn bb term r) := by
  rw [arcsAt_build, hd.flatMap_buildChunks_edge hfn hbb hcl hterm hnd hr (vanishes_arcsAt (by simp))]
  refine List.filter_eq_self.mpr fun y hy => ?_
  obtain ⟨t, ht, h⟩ := (Chunk.edge (e := e) hbb hcl hterm hr).arc_through hy
  simp only [transitionsOf_edgePiece, List.mem_singleton] at ht
  subst ht
  rcases h with ⟨h, -⟩ | ⟨h, -⟩ <;> simp [h]

theorem pre_edge (x : String) :
    (buildPetriNet fs e n).pre x (edgeTransitionId fn.name bb.bbId r) =
      inputs (.block fn.name bb.bbId) (terminatorPlan fn bb term).mutexLockKey
        (terminatorPlan fn bb term).mutexUnlockKey x := by
  rw [PetriNet.pre_eq_countP_arcsAt, hd.arcsAt_edge hfn hbb hcl hterm hnd hr, arcsOf_edgePiece, inputs,
    Loc.placeId]
  cases truthy (terminatorPlan fn bb term).mutexLockKey <;>
    cases truthy (terminatorPlan fn bb term).mutexUnlockKey <;> split <;>
    simp [List.countP_cons, lockArcs, unlockArcs, eq_false_of_firstChar_ne] <;> omega

theorem post_edge (x : String) :
    (buildPetriNet fs e n).post (edgeTransitionId fn.name bb.bbId r) x =
      outputs (edgeTarget fn r) (terminatorPlan fn bb term).mutexLockKey
        (terminatorPlan fn bb term).mutexUnlockKey x := by
  rw [PetriNet.post_eq_countP_arcsAt, hd.arcsAt_edge hfn hbb hcl hterm hnd hr, arcsOf_edgePiece,
    outputs, edgeTarget]
  cases truthy (terminatorPlan fn bb term).mutexLockKey <;>
    cases truthy (terminatorPlan fn bb term).mutexUnlockKey <;> split <;>
    simp [List.countP_cons, lockArcs, unlockArcs, Loc.placeId, eq_false_of_firstChar_ne, *] <;> omega

end Edge

section Return
variable (hterm : bb.terminator = some .return)
include hterm

theorem arcsAt_return :
    (buildPetriNet fs e n).arcsAt (returnTransitionId fn.name bb.bbId) =
      [(bbPlaceId fn.name bb.bbId, returnTransitionId fn.name bb.bbId, 1),
        (returnTransitionId fn.name bb.bbId, exitPlaceId fn.name, 1)] := by
  rw [arcsAt_build, hd.flatMap_buildChunks_return hfn hbb hcl hterm (vanishes_arcsAt (by simp))]
  simp

theorem pre_return (x : String) :
    (buildPetriNet fs e n).pre x (returnTransitionId fn.name bb.bbId) =
      inputs (.block fn.name bb.bbId) none none x := by
  rw [PetriNet.pre_eq_countP_arcsAt, hd.arcsAt_return hfn hbb hcl hterm]
  simp [inputs, Loc.placeId, List.countP_cons, eq_false_of_firstChar_ne]

theorem post_return (x : String) :
    (buildPetriNet fs e n).post (returnTransitionId fn.name bb.bbId) x =
      outputs (some (.exit fn.name)) none none x := by
  rw [PetriNet.post_eq_countP_arcsAt, hd.arcsAt_return hfn hbb hcl hterm]
  simp [outputs, Loc.placeId, List.countP_cons, eq_false_of_firstChar_ne]

end Return

end DistinctIds

end Build

/-! ## Markings that represent configurations -/

/-- A marking of `N` represents a configuration: the control places hold one token where
control is and none elsewhere, and each key with places in `N` has its token on the held place
exactly when it is locked. -/
structure Represents (N : PetriNet) (M : Marking) (c : Config) : Prop where
  control : ∀ x ∈ N.cfgPlaceIds, M x = if c.pc.map Loc.placeId = some x then 1 else 0
  free : ∀ k, mutexFreeId k ∈ N.placeIds → M (mutexFreeId k) = if k ∈ c.held then 0 else 1
  held : ∀ k, mutexHeldId k ∈ N.placeIds → M (mutexHeldId k) = if k ∈ c.held then 1 else 0

@[simp] theorem idClass_placeId (l : Loc) : idClass l.placeId = some 'e' ↔ False := by
  cases l <;> simp [Loc.placeId]

@[simp] theorem idClass_placeId' (l : Loc) : idClass l.placeId = some 'd' ↔ False := by
  cases l <;> simp [Loc.placeId]

theorem placeId_ne_mutexFreeId (l : Loc) (k : String) : l.placeId ≠ mutexFreeId k :=
  ne_of_idClass_ne (by cases l <;> simp [Loc.placeId])

theorem placeId_ne_mutexHeldId (l : Loc) (k : String) : l.placeId ≠ mutexHeldId k :=
  ne_of_idClass_ne (by cases l <;> simp [Loc.placeId])

/-- What `lockStep` can do. -/
theorem lockStep_cases {lk uk : Option String} {held held' : List String}
    (hkeys : truthy lk = none ∨ truthy uk = none) (h : lockStep lk uk held = some held') :
    (∃ k, truthy lk = some k ∧ truthy uk = none ∧ k ∉ held ∧ held' = k :: held) ∨
      (∃ k, truthy lk = none ∧ truthy uk = some k ∧ k ∈ held ∧ held' = held.filter (· ≠ k)) ∨
      (truthy lk = none ∧ truthy uk = none ∧ held' = held) := by
  unfold lockStep at h
  cases hl : truthy lk <;> cases hu : truthy uk <;> simp only [hl, hu] at h hkeys
  · exact .inr (.inr ⟨rfl, rfl, (Option.some.inj h).symm⟩)
  · split_ifs at h with hk
    exact .inr (.inl ⟨_, rfl, rfl, hk, (Option.some.inj h).symm⟩)
  · split_ifs at h with hk
    exact .inl ⟨_, rfl, rfl, hk, (Option.some.inj h).symm⟩
  · simp at hkeys

theorem lockStep_tokens {lk uk : Option String} {held held' : List String}
    (hkeys : truthy lk = none ∨ truthy uk = none) (h : lockStep lk uk held = some held') (k : String) :
    (if k ∈ held then 0 else 1) - (if truthy lk = some k then 1 else 0) +
        (if truthy uk = some k then 1 else 0) = (if k ∈ held' then 0 else 1) ∧
      (if k ∈ held then 1 else 0) - (if truthy uk = some k then 1 else 0) +
        (if truthy lk = some k then 1 else 0) = (if k ∈ held' then 1 else 0) := by
  rcases lockStep_cases hkeys h with ⟨a, hl, hu, ha, rfl⟩ | ⟨a, hl, hu, ha, rfl⟩ | ⟨hl, hu, rfl⟩ <;>
    rw [hl, hu]
  · rcases eq_or_ne a k with rfl | hka
    · simp [ha]
    · simp [hka, hka.symm]
  · rcases eq_or_ne a k with rfl | hka
    · simp [ha]
    · simp [hka, hka.symm]
  · simp

@[simp] theorem map_mutexFreeId_eq_some {o : Option String} {k : String} :
    o.map mutexFreeId = some (mutexFreeId k) ↔ o = some k := by
  cases o <;> simp

@[simp] theorem map_mutexHeldId_eq_some {o : Option String} {k : String} :
    o.map mutexHeldId = some (mutexHeldId k) ↔ o = some k := by
  cases o <;> simp

@[simp] theorem map_mutexFreeId_ne_held {o : Option String} {k : String} :
    o.map mutexFreeId = some (mutexHeldId k) ↔ False := by
  cases o <;> simp [eq_false_of_idClass_ne]

@[simp] theorem map_mutexHeldId_ne_free {o : Option String} {k : String} :
    o.map mutexHeldId = some (mutexFreeId k) ↔ False := by
  cases o <;> simp [eq_false_of_idClass_ne]

theorem truthy_keys (fn : MirFunction) (bb : BasicBlock) (term : Terminator) :
    truthy (terminatorPlan fn bb term).mutexLockKey = none ∨
      truthy (terminatorPlan fn bb term).mutexUnlockKey = none := by
  rcases (terminatorPlan_keys fn bb term).1 with h | h <;> simp [h]

section Build
variable {fs : List MirFunction} {e : String} {n : Option Int} {M : Marking} {c : Config}
  {t : String} (lk uk : Option String)

/-- Firing a transition that takes the control token from `src`, and takes and gives the key
tokens `lockStep` moves, gives control to `dst`. -/
theorem Represents.fire (hR : Represents (buildPetriNet fs e n) M c) {src : Loc}
    (hpc : c.pc = some src) (dst : Option Loc) (hkeys : truthy lk = none ∨ truthy uk = none)
    {held' : List String} (hlock : lockStep lk uk c.held = some held')
    (hpre : ∀ x, (buildPetriNet fs e n).pre x t = inputs src lk uk x)
    (hpost : ∀ x, (buildPetriNet fs e n).post t x = outputs dst lk uk x) :
    Represents (buildPetriNet fs e n) ((buildPetriNet fs e n).fire M t) ⟨dst, held'⟩ := by
  obtain ⟨pc, held⟩ := c
  simp only at hpc hlock
  subst hpc
  refine ⟨fun x hx => ?_, fun k hk => ?_, fun k hk => ?_⟩
  · obtain ⟨-, he, hd⟩ := mem_cfgPlaceIds_build.mp hx
    have hf : ∀ o : Option String, o.map mutexFreeId ≠ some x := fun o h => by
      obtain ⟨k, -, rfl⟩ := Option.map_eq_some'.mp h
      exact he (by simp)
    have hh : ∀ o : Option String, o.map mutexHeldId ≠ some x := fun o h => by
      obtain ⟨k, -, rfl⟩ := Option.map_eq_some'.mp h
      exact hd (by simp)
    rw [PetriNet.fire, hpre, hpost, inputs, outputs, hR.control x hx]
    simp only [hf, hh, if_false, Option.map_some', Option.some.injEq]
    split_ifs <;> omega
  · have hdst : dst.map Loc.placeId ≠ some (mutexFreeId k) := fun h => by
      obtain ⟨l, -, hl⟩ := Option.map_eq_some'.mp h
      exact placeId_ne_mutexFreeId l k hl
    rw [PetriNet.fire, hpre, hpost, inputs, outputs, hR.free k hk]
    simp only [hdst, placeId_ne_mutexFreeId, map_mutexFreeId_eq_some, map_mutexHeldId_ne_free,
      if_false, Nat.zero_add, Nat.add_zero]
    exact (lockStep_tokens hkeys hlock k).1
  · have hdst : dst.map Loc.placeId ≠ some (mutexHeldId k) := fun h => by
      obtain ⟨l, -, hl⟩ := Option.map_eq_some'.mp h
      exact placeId_ne_mutexHeldId l k hl
    rw [PetriNet.fire, hpre, hpost, inputs, outputs, hR.held k hk]
    simp only [hdst, placeId_ne_mutexHeldId, map_mutexHeldId_eq_some, map_mutexFreeId_ne_held,
      if_false, Nat.zero_add, Nat.add_zero]
    exact (lockStep_tokens hkeys hlock k).2

theorem Represents.pc_eq (hR : Represents (buildPetriNet fs e n) M c) {l : Loc}
    (hl : l.placeId ∈ (buildPetriNet fs e n).cfgPlaceIds) (hM : 0 < M l.placeId) : c.pc = some l := by
  rw [hR.control _ hl] at hM
  split_ifs at hM with h
  · obtain ⟨l', h', hl'⟩ := Option.map_eq_some'.mp h
    rw [h', Loc.placeId_injective hl']
  · omega

section Transfer
variable (hR : Represents (buildPetriNet fs e n) M c) (src : Loc)
  (hsrc : src.placeId ∈ (buildPetriNet fs e n).cfgPlaceIds)
  (hplaces : ∀ a, truthy lk = some a ∨ truthy uk = some a →
    mutexFreeId a ∈ (buildPetriNet fs e n).placeIds ∧ mutexHeldId a ∈ (buildPetriNet fs e n).placeIds)
  (hpre : ∀ x, (buildPetriNet fs e n).pre x t = inputs src lk uk x)
include hR hsrc hplaces hpre

/-- Such a transition is enabled only where control is at `src` and `lockStep` can move the
key tokens. -/
theorem Represents.of_enabled (hen : ∀ x, 0 < (buildPetriNet fs e n).pre x t →
      (buildPetriNet fs e n).pre x t ≤ M x) :
    c.pc = some src ∧ ∃ held', lockStep lk uk c.held = some held' := by
  have hpos {x} (h : 0 < (buildPetriNet fs e n).pre x t) : 0 < M x := lt_of_lt_of_le h (hen x h)
  refine ⟨hR.pc_eq hsrc (hpos (by rw [hpre, inputs]; simp)), ?_⟩
  unfold lockStep
  cases hl : truthy lk with
  | some a =>
    have := hpos (x := mutexFreeId a) (by rw [hpre, inputs, hl]; simp)
    rw [hR.free a (hplaces a (.inl hl)).1] at this
    split_ifs at this with ha
    · omega
    · simp [ha]
  | none =>
    cases hu : truthy uk with
    | some a =>
      have := hpos (x := mutexHeldId a) (by rw [hpre, inputs, hu]; simp)
      rw [hR.held a (hplaces a (.inr hu)).2] at this
      split_ifs at this with ha
      · simp [ha]
      · omega
    | none => simp

theorem Represents.pre_le (hpc : c.pc = some src) (hkeys : truthy lk = none ∨ truthy uk = none)
    {held' : List String} (hlock : lockStep lk uk c.held = some held') (x : String) :
    (buildPetriNet fs e n).pre x t ≤ M x := by
  have hctl : M src.placeId = 1 := by rw [hR.control _ hsrc, hpc]; simp
  rw [hpre, inputs]
  by_cases hx : src.placeId = x
  · subst hx
    rcases lockStep_cases hkeys hlock with ⟨a, hl, hu, -, -⟩ | ⟨a, hl, hu, -, -⟩ | ⟨hl, hu, -⟩ <;>
      simp [hl, hu, hctl, (placeId_ne_mutexFreeId _ _).symm, (placeId_ne_mutexHeldId _ _).symm]
  · rcases lockStep_cases hkeys hlock with ⟨a, hl, hu, ha, -⟩ | ⟨a, hl, hu, ha, -⟩ | ⟨hl, hu, -⟩ <;>
      simp only [hx, hl, hu, if_false, Option.map_some', Option.map_none', Option.some.injEq,
        reduceCtorEq, Nat.zero_add, Nat.add_zero]
    · split_ifs with h
      · subst h; rw [hR.free a (hplaces a (.inl hl)).1, if_neg ha]
      · exact Nat.zero_le _
    · split_ifs with h
      · subst h; rw [hR.held a (hplaces a (.inr hu)).2, if_pos ha]
      · exact Nat.zero_le _
    · exact Nat.zero_le _

end Transfer

theorem represents_initial :
    Represents (buildPetriNet fs e n) (buildPetriNet fs e n).initial (Config.init (fnsToProcess fs n) e) := by
  refine ⟨fun x hx => ?_, fun k hk => ?_, fun k _ => ?_⟩
  · rw [initial_of_mem_cfgPlaceIds hx, Config.init]
    by_cases he : e ∈ (fnsToProcess fs n).map (·.name)
    · simp [he, Loc.placeId, eq_comm]
    · have : x ≠ entryPlaceId e := fun h =>
        he ((entryPlaceId_mem_placeIds_iff e).mp (h ▸ (mem_cfgPlaceIds_build.mp hx).1))
      simp [he, this]
  · rw [initial_build, if_pos hk, initOfId]
    simp [Config.init]
  · rw [initial_mutexHeldId]
    simp [Config.init]

section Pieces
variable {fn : MirFunction} (hfn : fn ∈ fnsToProcess fs n) {bb : BasicBlock}
  (hbb : bb ∈ fn.basicBlocks) (hcl : bb.isCleanup = false)
include hfn hbb hcl

theorem bbPlaceId_mem_cfgPlaceIds : bbPlaceId fn.name bb.bbId ∈ (buildPetriNet fs e n).cfgPlaceIds :=
  mem_cfgPlaceIds_build.mpr ⟨bbPlaceId_mem_placeIds hfn (hasBlock_of_mem hbb hcl), by simp, by simp⟩

theorem returnTransitionId_mem (hterm : bb.terminator = some .return) :
    returnTransitionId fn.name bb.bbId ∈ (buildPetriNet fs e n).transitionIds :=
  (mem_transitionIds_build fs e n _).mpr ⟨returnOps fn.name bb.bbId (bbPlaceId fn.name bb.bbId),
    List.mem_flatMap.mpr ⟨fn, hfn, List.mem_cons_of_mem _
    (List.mem_cons_of_mem _ (List.mem_flatMap.mpr ⟨bb, hbb, by simp [blockChunks, hcl, hterm, terminatorPlan]⟩))⟩,
    returnTransition fn.name bb.bbId, by simp, rfl⟩

variable {term : Terminator} {r : Int} (hterm : bb.terminator = some term)
  (hr : r ∈ (terminatorPlan fn bb term).targets)
include hterm hr

theorem edgeTransitionId_mem :
    edgeTransitionId fn.name bb.bbId r ∈ (buildPetriNet fs e n).transitionIds :=
  (mem_transitionIds_build fs e n _).mpr ⟨_, edgePiece_mem_buildChunks fs e n hfn hbb hcl hterm hr,
    edgePieceTransition fn bb term r, by simp, rfl⟩

theorem keyPlaces_mem (a : String)
    (ha : truthy (terminatorPlan fn bb term).mutexLockKey = some a ∨
      truthy (terminatorPlan fn bb term).mutexUnlockKey = some a) :
    mutexFreeId a ∈ (buildPetriNet fs e n).placeIds ∧ mutexHeldId a ∈ (buildPetriNet fs e n).placeIds := by
  have hsub : mutexPlaces (some a) ⊆ placesOf (edgePiece fn bb term r) := by
    rw [placesOf_edgePiece]
    rcases ha with ha | ha <;> rw [ha]
    · exact List.subset_append_left _ _
    · exact List.subset_append_right _ _
  have hc := edgePiece_mem_buildChunks fs e n hfn hbb hcl hterm hr
  exact ⟨(mem_placeIds_build fs e n _).mpr ⟨_, hc, mutexFreePlace a, hsub (by simp [mutexPlaces]), rfl⟩,
    (mem_placeIds_build fs e n _).mpr ⟨_, hc, mutexHeldPlace a, hsub (by simp [mutexPlaces]), rfl⟩⟩

end Pieces

end Build

/-! ## Simulation -/

section Simulation
variable {functions : List MirFunction} {entryFn : String} {maxFns : Option Int}
  (hD : Distinct (fnsToProcess functions maxFns))
include hD

theorem Distinct.targets_nodup {fn : MirFunction} (hfn : fn ∈ fnsToProcess functions maxFns)
    {bb : BasicBlock} (hbb : bb ∈ fn.basicBlocks) {term : Terminator}
    (hterm : bb.terminator = some term) : (terminatorPlan fn bb term).targets.Nodup := by
  have := hD.successors fn hfn bb hbb
  rwa [BasicBlock.successors, hterm, Option.map_some', Option.getD_some,
    ← terminatorPlan_targets fn bb term] at this

variable {M : Marking} {c : Config}
  (hR : Represents (buildPetriNet functions entryFn maxFns) M c)
include hR

/-- Every firing of the net is a step of the program. -/
theorem program_step_of_net_step {M' : Marking}
    (hs : (buildPetriNet functions entryFn maxFns).Step M M') :
    ∃ c', Config.Step (fnsToProcess functions maxFns) c c' ∧
      Represents (buildPetriNet functions entryFn maxFns) M' c' := by
  obtain ⟨tid, hen, rfl⟩ := hs
  have hle := (PetriNet.enabled_iff_pre.mp hen).2
  obtain ⟨t, ht, rfl⟩ := List.mem_map.mp hen.1
  obtain ⟨fn, hfn, hshape⟩ := transitionShape_of_mem ht
  obtain ⟨pc, held⟩ := c
  cases hshape with
  | start =>
    obtain ⟨first, hfirst⟩ := (hD.ids.startTransitionId_mem_iff hfn).mp hen.1
    obtain ⟨hpc, -⟩ := hR.of_enabled none none (.entry fn.name)
      (mem_cfgPlaceIds_build.mpr ⟨entryPlaceId_mem_placeIds hfn, by simp [Loc.placeId], by simp [Loc.placeId]⟩)
      (fun a ha => by simp at ha) (hD.ids.pre_start hfn hfirst) hle
    obtain rfl : pc = _ := hpc
    exact ⟨_, .start hfn hfirst, hR.fire none none rfl _ (.inl rfl) rfl (hD.ids.pre_start hfn hfirst)
      (hD.ids.post_start hfn hfirst)⟩
  | @edge bb term m hbb hcl hterm hm =>
    have hnd := hD.targets_nodup hfn hbb hterm
    obtain ⟨hpc, held', hlock⟩ := hR.of_enabled _ _ (.block fn.name bb.bbId)
      (bbPlaceId_mem_cfgPlaceIds hfn hbb hcl) (keyPlaces_mem hfn hbb hcl hterm hm)
      (hD.ids.pre_edge hfn hbb hcl hterm hnd hm) hle
    obtain rfl : pc = _ := hpc
    exact ⟨_, .edge hfn hbb hcl hterm hm hlock, hR.fire _ _ rfl _ (truthy_keys fn bb term) hlock
      (hD.ids.pre_edge hfn hbb hcl hterm hnd hm) (hD.ids.post_edge hfn hbb hcl hterm hnd hm)⟩
  | @ret bb hbb hcl hterm =>
    obtain ⟨hpc, -⟩ := hR.of_enabled none none (.block fn.name bb.bbId)
      (bbPlaceId_mem_cfgPlaceIds hfn hbb hcl) (fun a ha => by simp at ha)
      (hD.ids.pre_return hfn hbb hcl hterm) hle
    obtain rfl : pc = _ := hpc
    exact ⟨_, .ret hfn hbb hcl hterm, hR.fire none none rfl _ (.inl rfl) rfl
      (hD.ids.pre_return hfn hbb hcl hterm) (hD.ids.post_return hfn hbb hcl hterm)⟩

/-- Every step of the program is a firing of the net. -/
theorem net_step_of_program_step {c' : Config} (hs : Config.Step (fnsToProcess functions maxFns) c c') :
    ∃ M', (buildPetriNet functions entryFn maxFns).Step M M' ∧
      Represents (buildPetriNet functions entryFn maxFns) M' c' := by
  cases hs with
  | @start fn first held hfn hfirst =>
    have hsrc : (Loc.entry fn.name).placeId ∈ (buildPetriNet functions entryFn maxFns).cfgPlaceIds :=
      mem_cfgPlaceIds_build.mpr ⟨entryPlaceId_mem_placeIds hfn, by simp [Loc.placeId], by simp [Loc.placeId]⟩
    exact ⟨_, ⟨_, PetriNet.enabled_iff_pre.mpr ⟨(hD.ids.startTransitionId_mem_iff hfn).mpr ⟨_, hfirst⟩,
      fun x _ => hR.pre_le none none _ hsrc (fun a ha => by simp at ha) (hD.ids.pre_start hfn hfirst)
        rfl (.inl rfl) rfl x⟩, rfl⟩,
      hR.fire none none rfl _ (.inl rfl) rfl (hD.ids.pre_start hfn hfirst) (hD.ids.post_start hfn hfirst)⟩
  | @edge fn bb term r held held' hfn hbb hcl hterm hr hlock =>
    have hnd := hD.targets_nodup hfn hbb hterm
    exact ⟨_, ⟨_, PetriNet.enabled_iff_pre.mpr ⟨edgeTransitionId_mem hfn hbb hcl hterm hr,
      fun x _ => hR.pre_le _ _ (.block fn.name bb.bbId) (bbPlaceId_mem_cfgPlaceIds hfn hbb hcl)
        (keyPlaces_mem hfn hbb hcl hterm hr) (hD.ids.pre_edge hfn hbb hcl hterm hnd hr) rfl
        (truthy_keys fn bb term) hlock x⟩, rfl⟩,
      hR.fire _ _ rfl _ (truthy_keys fn bb term) hlock (hD.ids.pre_edge hfn hbb hcl hterm hnd hr)
        (hD.ids.post_edge hfn hbb hcl hterm hnd hr)⟩
  | @ret fn bb held hfn hbb hcl hterm =>
    exact ⟨_, ⟨_, PetriNet.enabled_iff_pre.mpr ⟨returnTransitionId_mem hfn hbb hcl hterm,
      fun x _ => hR.pre_le none none (.block fn.name bb.bbId) (bbPlaceId_mem_cfgPlaceIds hfn hbb hcl)
        (fun a ha => by simp at ha) (hD.ids.pre_return hfn hbb hcl hterm) rfl (.inl rfl) rfl x⟩, rfl⟩,
      hR.fire none none rfl _ (.inl rfl) rfl (hD.ids.pre_return hfn hbb hcl hterm)
        (hD.ids.post_return hfn hbb hcl hterm)⟩

/-- The net is dead exactly where the program is stuck. -/
theorem dead_iff_stuck :
    (∀ t, ¬(buildPetriNet functions entryFn maxFns).Enabled M t) ↔
      ∀ c', ¬Config.Step (fnsToProcess functions maxFns) c c' :=
  ⟨fun h _ hs => by
    obtain ⟨_, ⟨t, hen, -⟩, -⟩ := net_step_of_program_step hD hR hs
    exact h t hen,
   fun h t hen => by
    obtain ⟨c', hs, -⟩ := program_step_of_net_step hD hR ⟨t, hen, rfl⟩
    exact h c' hs⟩

omit hR in
theorem represented_of_reachable {M : Marking} (hM : (buildPetriNet functions entryFn maxFns).Reachable M) :
    ∃ c, Config.Reachable (fnsToProcess functions maxFns) entryFn c ∧
      Represents (buildPetriNet functions entryFn maxFns) M c := by
  induction hM with
  | refl => exact ⟨_, .refl, represents_initial⟩
  | tail _ hs ih =>
    obtain ⟨c, hc, hR⟩ := ih
    obtain ⟨c', hs', hR'⟩ := program_step_of_net_step hD hR hs
    exact ⟨c', hc.tail hs', hR'⟩

omit hR in
theorem representing_of_reachable {c : Config}
    (hc : Config.Reachable (fnsToProcess functions maxFns) entryFn c) :
    ∃ M, (buildPetriNet functions entryFn maxFns).Reachable M ∧
      Represents (buildPetriNet functions entryFn maxFns) M c := by
  induction hc with
  | refl => exact ⟨_, .refl, represents_initial⟩
  | tail _ hs ih =>
    obtain ⟨M, hM, hR⟩ := ih
    obtain ⟨M', hs', hR'⟩ := net_step_of_program_step hD hR hs
    exact ⟨M', hM.tail hs', hR'⟩

end Simulation

/-- The built net and the program are bisimilar: from a marking that represents a
configuration, every firing of the net is a step of the program and every step of the
program is a firing, each to a marking that represents the configuration reached. -/
theorem buildPetriNet_bisimulation (functions : List MirFunction) (entryFn : String)
    (maxFns : Option Int) (hD : Distinct (fnsToProcess functions maxFns)) {M : Marking} {c : Config}
    (hR : Represents (buildPetriNet functions entryFn maxFns) M c) :
    (∀ M', (buildPetriNet functions entryFn maxFns).Step M M' →
      ∃ c', Config.Step (fnsToProcess functions maxFns) c c' ∧
        Represents (buildPetriNet functions entryFn maxFns) M' c') ∧
    (∀ c', Config.Step (fnsToProcess functions maxFns) c c' →
      ∃ M', (buildPetriNet functions entryFn maxFns).Step M M' ∧
        Represents (buildPetriNet functions entryFn maxFns) M' c') :=
  ⟨fun _ hs => program_step_of_net_step hD hR hs, fun _ hs => net_step_of_program_step hD hR hs⟩

theorem buildPetriNet_bisimulation_lockThenDrop :
    Distinct (fnsToProcess [lockThenDrop] none) ∧
      ∃ c', Config.Step (fnsToProcess [lockThenDrop] none)
          (Config.init (fnsToProcess [lockThenDrop] none) "main") c' ∧
        Represents (buildPetriNet [lockThenDrop])
          ((buildPetriNet [lockThenDrop]).fire (buildPetriNet [lockThenDrop]).initial
            (startTransitionId "main")) c' :=
  ⟨by decide, (buildPetriNet_bisimulation [lockThenDrop] "main" none (by decide)
    represents_initial).1 _ ⟨_, by decide, rfl⟩⟩

/-- The markings the built net reaches are the images of the configurations the program
reaches, and at each of them the net is dead exactly when the program is stuck. -/
theorem reachable_markings_match (functions : List MirFunction) (entryFn : String)
    (maxFns : Option Int) (hD : Distinct (fnsToProcess functions maxFns)) :
    (∀ M, (buildPetriNet functions entryFn maxFns).Reachable M →
      ∃ c, Config.Reachable (fnsToProcess functions maxFns) entryFn c ∧
        Represents (buildPetriNet functions entryFn maxFns) M c ∧
        ((∀ t, ¬(buildPetriNet functions entryFn maxFns).Enabled M t) ↔
          ∀ c', ¬Config.Step (fnsToProcess functions maxFns) c c')) ∧
    (∀ c, Config.Reachable (fnsToProcess functions maxFns) entryFn c →
      ∃ M, (buildPetriNet functions entryFn maxFns).Reachable M ∧
        Represents (buildPetriNet functions entryFn maxFns) M c ∧
        ((∀ t, ¬(buildPetriNet functions entryFn maxFns).Enabled M t) ↔
          ∀ c', ¬Config.Step (fnsToProcess functions maxFns) c c')) := by
  refine ⟨fun M hM => ?_, fun c hc => ?_⟩
  · obtain ⟨c, hc, hR⟩ := represented_of_reachable hD hM
    exact ⟨c, hc, hR, dead_iff_stuck hD hR⟩
  · obtain ⟨M, hM, hR⟩ := representing_of_reachable hD hc
    exact ⟨M, hM, hR, dead_iff_stuck hD hR⟩

theorem reachable_markings_match_lockThenDrop :
    Distinct (fnsToProcess [lockThenDrop] none) ∧
      ∃ c, Config.Reachable (fnsToProcess [lockThenDrop] none) "main" c ∧
        Represents (buildPetriNet [lockThenDrop]) (buildPetriNet [lockThenDrop]).initial c :=
  have h := (reachable_markings_match [lockThenDrop] "main" none (by decide)).1 _ .refl
  ⟨by decide, h.elim fun c hc => ⟨c, hc.1, hc.2.1⟩⟩

/-- A block that locks a key: re-locking it while it is held leaves the net dead. The run
that reaches the block with the key held has no continuation, whatever other functions the
net holds: this is the double lock the translation exists to expose. -/
theorem relock_deadlocks (functions : List MirFunction) (entryFn : String) (maxFns : Option Int)
    (hD : Distinct (fnsToProcess functions maxFns)) {M : Marking}
    (hM : (buildPetriNet functions entryFn maxFns).Reachable M) {fn : MirFunction}
    (hfn : fn ∈ fnsToProcess functions maxFns) {bb : BasicBlock} (hbb : bb ∈ fn.basicBlocks)
    (hcl : bb.isCleanup = false) {term : Terminator} (hterm : bb.terminator = some term)
    {key : String} (hkey : truthy (terminatorPlan fn bb term).mutexLockKey = some key)
    (hctl : 0 < M (bbPlaceId fn.name bb.bbId)) (hheld : 0 < M (mutexHeldId key)) :
    ∀ t, ¬(buildPetriNet functions entryFn maxFns).Enabled M t := by
  obtain ⟨c, -, hR⟩ := represented_of_reachable hD hM
  obtain ⟨r, hr⟩ := (terminatorPlan_keys fn bb term).2.resolve_left fun h => by simp [h.1] at hkey
  have hpc := hR.pc_eq (l := .block fn.name bb.bbId) (bbPlaceId_mem_cfgPlaceIds hfn hbb hcl) hctl
  have hlocked : key ∈ c.held := by
    rw [hR.held key (keyPlaces_mem hfn hbb hcl hterm (hr ▸ List.mem_singleton_self r) key
      (.inl hkey)).2] at hheld
    by_contra h
    simp [h] at hheld
  refine (dead_iff_stuck hD hR).mpr fun c' hs => ?_
  cases hs with
  | start => simp [Loc.placeId] at hpc
  | @edge fn' bb' term' r' _ held' hfn' hbb' _ hterm' _ hlock =>
    simp only [Option.some.injEq, Loc.block.injEq] at hpc
    obtain ⟨rfl, rfl⟩ := hD.ids.eq_of_ids hfn hfn' hpc.1 hbb hbb' hpc.2
    obtain rfl := Option.some.inj (hterm'.symm.trans hterm)
    simp [lockStep, hkey, hlocked] at hlock
  | @ret fn' bb' _ hfn' hbb' _ hterm' =>
    simp only [Option.some.injEq, Loc.block.injEq] at hpc
    obtain ⟨rfl, rfl⟩ := hD.ids.eq_of_ids hfn hfn' hpc.1 hbb hbb' hpc.2
    obtain rfl := Option.some.inj (hterm'.symm.trans hterm)
    simp [terminatorPlan] at hkey

/-- `main` locks `_1` twice without releasing it. -/
def doubleLock : MirFunction :=
  ⟨"main", [],
    [⟨0, [], some (.call (some "_2") "std::sync::Mutex::<i32>::lock" "move _1" 1 none), false, 3⟩,
     ⟨1, [], some (.call (some "_3") "std::sync::Mutex::<i32>::lock" "move _1" 2 none), false, 6⟩,
     ⟨2, [], some .return, false, 9⟩],
    [("_2", "_1"), ("_3", "_1")], []⟩

theorem relock_deadlocks_doubleLock :
    (buildPetriNet [doubleLock]).transitionIds.all (fun t => !decide ((buildPetriNet [doubleLock]).Enabled
      ((buildPetriNet [doubleLock]).fire
        ((buildPetriNet [doubleLock]).fire (buildPetriNet [doubleLock]).initial (startTransitionId "main"))
        (edgeTransitionId "main" 0 1)) t)) = true :=
  List.all_eq_true.mpr fun t _ => by
    simpa using @relock_deadlocks [doubleLock] "main" none (by decide) _
      (.tail (.single ⟨_, by decide, rfl⟩) ⟨_, by decide, rfl⟩) doubleLock (List.mem_singleton_self _)
      ⟨1, [], some (.call (some "_3") "std::sync::Mutex::<i32>::lock" "move _1" 2 none), false, 6⟩
      (by decide) rfl _ rfl "_1" (by decide) (by decide) (by decide) t

end Mir2Pnml
