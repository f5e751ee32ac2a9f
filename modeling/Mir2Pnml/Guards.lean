import Mir2Pnml.BodyBlocks
import Mir2Pnml.Control

/-! # Guard bindings

The parser binds the LHS of a lock call to the mutex its first local argument resolves to
through `ref_to_base` as it stands at the end of the call's block, and passes a binding on
through `unwrap` and `expect` calls. Every entry of the guard table is therefore justified by
a chain of recorded calls from a lock, and its key by the lock's argument or by a reference
line read before the lock's block ended; so every unlock transition of the net releases a
mutex some lock call took (`unlock_descends_from_lock`). The builder resolves a lock's
argument again, through the final `ref_to_base`: the two resolutions agree when no later
block rebinds the argument, and then a lock and the drops of its guard and of the guard's
unwrapped descendants use one mutex subnet.
-/
namespace Mir2Pnml

/-- `L` descends from a lock on `x` through calls recorded in `blocks`: a lock-shaped call
`L = lock(x, ..)`, or an `unwrap` or `expect` call `L = f(g, ..)` with `g` descending from a
lock on `x`. -/
inductive LockChain (blocks : List BasicBlock) : String → String → Prop
  | lock {bb : BasicBlock} {g callee args x : String} {r : Int} {u : Option Int} :
      bb ∈ blocks → bb.terminator = some (.call (some g) callee args r u) →
      isMutexLockCallee callee = true → extractFirstLocal args = some x → LockChain blocks g x
  | unwrap {bb : BasicBlock} {g' callee args g x : String} {r : Int} {u : Option Int} :
      bb ∈ blocks → bb.terminator = some (.call (some g') callee args r u) →
      isMutexLockCallee callee = false → isUnwrapCallee callee = true →
      extractFirstLocal args = some g → LockChain blocks g x → LockChain blocks g' x

theorem LockChain.mono {blocks blocks' : List BasicBlock} {g x : String}
    (h : LockChain blocks g x) (hsub : blocks ⊆ blocks') : LockChain blocks' g x := by
  induction h with
  | lock hbb ht hl ha => exact .lock (hsub hbb) ht hl ha
  | unwrap hbb ht hl hu ha _ ih => exact .unwrap (hsub hbb) ht hl hu ha ih

/-- Every entry of the tables is justified by what was read: a reference by a line that
assigns it, and a guard by a chain of recorded calls from a lock on some `x`, its key being
`x` or a base some line assigns to `x`. -/
structure Justified (T : Tables) (lines : List (List Char)) : Prop where
  refs : ∀ x b, T.refToBase.lookup x = some b → ∃ bl ∈ lines, refAssignment bl = some (x, b)
  guards : ∀ g k, T.guardToMutexKey.lookup g = some k → ∃ x, LockChain T.basicBlocks g x ∧
    (k = x ∨ ∃ bl ∈ lines, refAssignment bl = some (x, k))

theorem resolveMutexKey_cases {a : String} {refs : List (String × String)} :
    resolveMutexKey a refs = a ∨ refs.lookup a = some (resolveMutexKey a refs) := by
  unfold resolveMutexKey
  cases refs.lookup a <;> simp

theorem Justified.readBlock {T : Tables} {lines : List (List Char)} (h : Justified T lines)
    (ob : OpenBlock) : Justified (T.readBlock ob) (lines ++ ob.lines) := by
  have hrefs : ∀ x b, (T.readBlock ob).refToBase.lookup x = some b →
      ∃ bl ∈ lines ++ ob.lines, refAssignment bl = some (x, b) := fun x b hx => by
    rcases lookup_foldl_refLine_cases hx with hx | ⟨bl, hbl, hx⟩
    · obtain ⟨bl, hbl, hx⟩ := h.refs x b hx
      exact ⟨bl, List.mem_append_left _ hbl, hx⟩
    · exact ⟨bl, List.mem_append_right _ hbl, hx⟩
  have hsub : T.basicBlocks ⊆ (T.readBlock ob).basicBlocks := by simp
  have hrec : BodyState.blockRecord ob ∈ (T.readBlock ob).basicBlocks := by simp
  refine ⟨hrefs, fun g k hg => ?_⟩
  rcases Tables.lookup_readBlock_cases hg with hg | ⟨t, ht, hb⟩
  · obtain ⟨x, hx, hk⟩ := h.guards g k hg
    exact ⟨x, hx.mono hsub,
      hk.imp_right fun ⟨bl, hbl, h⟩ => ⟨bl, List.mem_append_left _ hbl, h⟩⟩
  obtain ⟨callee, args, r, u, a, rfl, -, ha, ⟨hl, rfl⟩ | ⟨hl, hu, hk⟩⟩ :=
    guardBinding_cases hb
  · refine ⟨a, .lock hrec ht hl ha, ?_⟩
    rcases resolveMutexKey_cases with he | he
    · exact .inl he
    · exact .inr (hrefs a _ he)
  · obtain ⟨x, hx, hk⟩ := h.guards a k hk
    exact ⟨x, .unwrap hrec ht hl hu ha (hx.mono hsub),
      hk.imp_right fun ⟨bl, hbl, h⟩ => ⟨bl, List.mem_append_left _ hbl, h⟩⟩

theorem Justified.foldl_readBlock {T : Tables} {lines : List (List Char)} (h : Justified T lines)
    (obs : List OpenBlock) :
    Justified (obs.foldl Tables.readBlock T) (lines ++ obs.flatMap (·.lines)) := by
  induction obs generalizing T lines with
  | nil => simpa using h
  | cons ob obs ih =>
    rw [List.foldl_cons, List.flatMap_cons, ← List.append_assoc]
    exact ih (h.readBlock ob)

/-- The tables of every parsed body are justified by its block lines. -/
theorem FnText.parse_justified (t : FnText) :
    Justified ⟨t.parse.refToBase, t.parse.basicBlocks, t.parse.guardToMutexKey⟩ t.blockLines := by
  rw [t.parse_tables]
  have h0 : Justified Tables.empty [] :=
    ⟨fun _ _ h => by simp [Tables.empty] at h, fun _ _ h => by simp [Tables.empty] at h⟩
  simpa using h0.foldl_readBlock t.blocksRead

/-! ## Unlock transitions -/

theorem mem_of_mem_fnsToProcess {fs : List MirFunction} {n : Option Int} {fn : MirFunction}
    (h : fn ∈ fnsToProcess fs n) : fn ∈ fs := by
  cases n with
  | none => exact h
  | some n =>
    simp only [fnsToProcess, pySliceTo] at h
    split_ifs at h <;> exact List.mem_of_mem_take h

theorem terminatorPlan_unlock {fn : MirFunction} {bb : BasicBlock} {term : Terminator} {key : String}
    (h : (terminatorPlan fn bb term).mutexUnlockKey = some key) :
    ∃ L r u, term = .drop L r u ∧ fn.guardToMutexKey.lookup L = some key ∧
      (terminatorPlan fn bb term).targets = [r] := by
  cases term with
  | drop L r u =>
    simp only [terminatorPlan] at h ⊢
    split at h
    · rename_i k hk
      exact ⟨L, r, u, rfl, hk.trans (Option.some.inj h ▸ rfl), rfl⟩
    · cases h
  | call _ callee _ _ _ =>
    simp only [terminatorPlan] at h
    split at h
    · split at h <;> cases h
    · cases h
  | _ => simp [terminatorPlan] at h

theorem edgeTransition_unlock_op {f : String} {k m : Int} {lk uk : Option String}
    (h : (edgeTransition f k m lk uk).kind = "unlock") :
    ∃ key, (edgeTransition f k m lk uk).op = some key := by
  rw [edgeTransition_kind] at h
  rw [edgeTransition_op]
  cases hl : truthy lk with
  | some _ => rw [hl] at h; simp at h
  | none =>
    cases hu : truthy uk with
    | none => rw [hl, hu] at h; simp at h
    | some key => exact ⟨key, by rw [pyOr_of_not_truthy hl, (truthy_eq_some.mp hu).1]⟩

/-- Every unlock transition of a net built from parsed MIR is the return edge of a drop of
a local that descends, through recorded unwrap and expect calls, from a lock call on some
`x`; it releases `x`, or a base some block line of the function assigns to `x`. -/
theorem unlock_descends_from_lock (text entryFn : String) (maxFns : Option Int) {t : Transition}
    (ht : t ∈ (buildPetriNet (parseMir text) entryFn maxFns).transitions) (hk : t.kind = "unlock") :
    ∃ ft ∈ fnTexts text.data, ft.parse ∈ fnsToProcess (parseMir text) maxFns ∧
      ∃ D ∈ ft.parse.basicBlocks, D.isCleanup = false ∧ ∃ L r u K,
        D.terminator = some (.drop L r u) ∧ t = edgePieceTransition ft.parse D (.drop L r u) r ∧
        t.op = some K ∧ ∃ x, LockChain ft.parse.basicBlocks L x ∧
          (K = x ∨ ∃ bl ∈ ft.blockLines, refAssignment bl = some (x, K)) := by
  obtain ⟨fn, hfn, hs⟩ := transitionShape_of_mem ht
  obtain ⟨ft, hft, rfl⟩ := mem_parseMir.mp (mem_of_mem_fnsToProcess hfn)
  cases hs with
  | start => simp at hk
  | ret => simp at hk
  | @edge D term m hD hcl hterm hm =>
    obtain ⟨K, hop⟩ := edgeTransition_unlock_op hk
    obtain ⟨L, r, u, rfl, hL, hr⟩ :=
      terminatorPlan_unlock (truthy_eq_some.mp (edgeTransition_unlock hk hop).2).1
    rw [hr, List.mem_singleton] at hm
    subst hm
    obtain ⟨x, hx, hK⟩ := ft.parse_justified.guards L K hL
    exact ⟨ft, hft, hfn, D, hD, hcl, L, _, u, K, hterm, rfl, hop, x, hx, hK⟩

/-- The body of the usual guard idiom: `_3` refers to the mutex `_1`, `_2` locks
it, `_4` unwraps `_2`, and `_4` is dropped. -/
def lockUnwrapDropBody : String :=
  "\n    bb0: \x7b\n        _3 = &_1;\n        _2 = Mutex::<i32>::lock(move _3) -> [return: bb1, unwind: continue];\n    \x7d\n    bb1: \x7b\n        _4 = Result::<MutexGuard<i32>, PoisonError>::unwrap(move _2) -> [return: bb2, unwind: continue];\n    \x7d\n    bb2: \x7b\n        drop(_4) -> [return: bb3, unwind: continue];\n    \x7d\n    bb3: \x7b\n        return;\n    \x7d\n"

def lockUnwrapDrop : String := "fn main() -> () \x7b" ++ lockUnwrapDropBody ++ "\x7d\n"

set_option maxRecDepth 20000 in
theorem unlock_descends_from_lock_lockUnwrapDrop :
    (edgeTransition "main" 2 3 none (some "_1") ∈ (buildPetriNet (parseMir lockUnwrapDrop)).transitions ∧
      (edgeTransition "main" 2 3 none (some "_1")).kind = "unlock") ∧
    ∃ ft ∈ fnTexts lockUnwrapDrop.data, ft.parse ∈ fnsToProcess (parseMir lockUnwrapDrop) none ∧
      ∃ D ∈ ft.parse.basicBlocks, D.isCleanup = false ∧ ∃ L r u K,
        D.terminator = some (.drop L r u) ∧
        edgeTransition "main" 2 3 none (some "_1") = edgePieceTransition ft.parse D (.drop L r u) r ∧
        (edgeTransition "main" 2 3 none (some "_1")).op = some K ∧
        ∃ x, LockChain ft.parse.basicBlocks L x ∧
          (K = x ∨ ∃ bl ∈ ft.blockLines, refAssignment bl = some (x, K)) := by
  refine ⟨⟨?h1, ?h2⟩, unlock_descends_from_lock _ _ _ ?h1 ?h2⟩ <;> decide

/-! ## The parser's key and the builder's key -/

/-- The blocks read after the first one recorded as `B`. -/
def blocksAfter (obs : List OpenBlock) (B : BasicBlock) : List OpenBlock :=
  (obs.dropWhile fun ob => BodyState.blockRecord ob ≠ B).drop 1

theorem blocksAfter_cons_of_ne {ob : OpenBlock} {obs : List OpenBlock} {B : BasicBlock}
    (h : BodyState.blockRecord ob ≠ B) : blocksAfter (ob :: obs) B = blocksAfter obs B := by
  simp [blocksAfter, h]

theorem split_blocksAfter {obs : List OpenBlock} {B : BasicBlock}
    (h : B ∈ obs.map BodyState.blockRecord) :
    ∃ pre ob, obs = pre ++ ob :: blocksAfter obs B ∧ BodyState.blockRecord ob = B ∧
      B ∉ pre.map BodyState.blockRecord := by
  induction obs with
  | nil => cases h
  | cons ob obs ih =>
    by_cases hob : BodyState.blockRecord ob = B
    · exact ⟨[], ob, by simp [blocksAfter, hob], hob, by simp⟩
    · obtain ⟨pre, ob', heq, hrec, hpre⟩ := ih ((List.mem_cons.mp h).resolve_left (Ne.symm hob))
      refine ⟨ob :: pre, ob', ?_, hrec, ?_⟩
      · rw [blocksAfter_cons_of_ne hob, List.cons_append, ← heq]
      · rw [List.map_cons]
        exact List.not_mem_cons_of_ne_of_not_mem (Ne.symm hob) hpre

theorem callLhs_ne_of_nodup {pre post : List BasicBlock} {B : BasicBlock} {g : String}
    (h : ((pre ++ B :: post).filterMap BasicBlock.callLhs).Nodup) (hB : B.callLhs = some g) :
    ∀ bb ∈ pre ++ post, bb.callLhs ≠ some g := by
  simp only [List.filterMap_append, List.filterMap_cons, hB] at h
  have hg := (List.nodup_cons.mp (List.nodup_middle.mp h)).1
  intro bb hbb hbg
  rw [← List.filterMap_append] at hg
  exact hg (List.mem_filterMap.mpr ⟨bb, hbb, hbg⟩)

theorem blockRecord_callLhs_ne {ob : OpenBlock} {g : String}
    (h : (BodyState.blockRecord ob).callLhs = some g) : g ≠ "" := by
  obtain ⟨t, ht, hg⟩ := Option.bind_eq_some.mp h
  obtain ⟨bl, -, hbl⟩ := findTerminator_spec ht
  exact lineTerminator_callLhs hbl hg

theorem terminatorPlan_lock_key {fn : MirFunction} {bb : BasicBlock} {lhs : Option String}
    {callee args a : String} {r : Int} {u : Option Int} (hl : isMutexLockCallee callee = true)
    (ha : extractFirstLocal args = some a) :
    (terminatorPlan fn bb (.call lhs callee args r u)).mutexLockKey =
      some (resolveMutexKey a fn.refToBase) := by
  simp only [terminatorPlan, hl, if_true, truthy_extractFirstLocal ha]

theorem terminatorPlan_drop_key (fn : MirFunction) (bb : BasicBlock) (L : String) (r : Int)
    (u : Option Int) :
    (terminatorPlan fn bb (.drop L r u)).mutexUnlockKey = fn.guardToMutexKey.lookup L := by
  cases h : fn.guardToMutexKey.lookup L <;> simp [terminatorPlan, h]

namespace FnText
variable {ft : FnText} {pre post : List OpenBlock}

theorem lookup_guard_eq_of_split (hsplit : ft.blocksRead = pre ++ post) {g : String}
    (hno : ∀ ob ∈ post, (BodyState.blockRecord ob).callLhs ≠ some g) :
    ft.parse.guardToMutexKey.lookup g =
      (pre.foldl Tables.readBlock Tables.empty).guardToMutexKey.lookup g := by
  rw [ft.parse_guardToMutexKey, hsplit, List.foldl_append, Tables.lookup_foldl_readBlock_of_ne hno]

theorem lookup_ref_eq_of_split (hsplit : ft.blocksRead = pre ++ post) {a : String}
    (hno : ∀ bl ∈ post.flatMap (·.lines), (refAssignment bl).map Prod.fst ≠ some a) :
    ft.parse.refToBase.lookup a = (pre.foldl Tables.readBlock Tables.empty).refToBase.lookup a := by
  rw [show ft.parse.refToBase = _ from congrArg Tables.refToBase ft.parse_tables, hsplit,
    List.foldl_append, Tables.foldl_readBlock_refToBase]
  exact lookup_foldl_refLine_of_ne fun bl hbl b hb => hno bl hbl (by rw [hb]; rfl)

/-- At the end of a lock's block the parser binds the guard to the key the builder gives the
lock; the binding stays when no later block calls into the guard or assigns a reference to the
lock's argument. -/
theorem lock_guard {ob : OpenBlock} (hsplit : ft.blocksRead = pre ++ ob :: post)
    {g callee args a : String} {r : Int} {u : Option Int}
    (hterm : (BodyState.blockRecord ob).terminator = some (.call (some g) callee args r u))
    (hlock : isMutexLockCallee callee = true) (ha : extractFirstLocal args = some a)
    (hno : ∀ ob' ∈ post, (BodyState.blockRecord ob').callLhs ≠ some g)
    (hlate : ∀ bl ∈ post.flatMap (·.lines), (refAssignment bl).map Prod.fst ≠ some a) :
    ft.parse.guardToMutexKey.lookup g = some (resolveMutexKey a ft.parse.refToBase) := by
  have hsplit' : ft.blocksRead = (pre ++ [ob]) ++ post := by simp [hsplit]
  have hcall : (BodyState.blockRecord ob).callLhs = some g := by
    simp [BasicBlock.callLhs, hterm, Terminator.callLhs]
  rw [lookup_guard_eq_of_split hsplit' hno, List.foldl_append, List.foldl_cons, List.foldl_nil,
    Tables.lookup_readBlock_of_binding hterm (guardBinding_lock (blockRecord_callLhs_ne hcall)
      hlock ha), resolveMutexKey, resolveMutexKey, lookup_ref_eq_of_split hsplit' hlate]
  simp

end FnText

/-- When each local is the LHS of at most one recorded call and no block read after a lock's
block assigns a reference to the lock's argument, the builder gives the lock transition the
key the parser bound to the guard, and the drop of the guard is unlocked on that key. -/
theorem lock_key_eq_guard_key (ft : FnText)
    (hlhs : (ft.parse.basicBlocks.filterMap BasicBlock.callLhs).Nodup)
    {B : BasicBlock} (hB : B ∈ ft.parse.basicBlocks) {g callee args a : String} {r : Int}
    {u : Option Int} (hterm : B.terminator = some (.call (some g) callee args r u))
    (hlock : isMutexLockCallee callee = true) (ha : extractFirstLocal args = some a)
    (hlate : ∀ bl ∈ (blocksAfter ft.blocksRead B).flatMap (·.lines),
      (refAssignment bl).map Prod.fst ≠ some a) :
    (terminatorPlan ft.parse B (.call (some g) callee args r u)).mutexLockKey =
        ft.parse.guardToMutexKey.lookup g ∧
      ∀ D ∈ ft.parse.basicBlocks, ∀ r' u', D.terminator = some (.drop g r' u') →
        (terminatorPlan ft.parse D (.drop g r' u')).mutexUnlockKey =
          (terminatorPlan ft.parse B (.call (some g) callee args r u)).mutexLockKey := by
  have hkey : (terminatorPlan ft.parse B (.call (some g) callee args r u)).mutexLockKey =
      ft.parse.guardToMutexKey.lookup g := by
    rw [ft.parse_basicBlocks] at hB hlhs
    obtain ⟨pre, ob, hsplit, rfl, -⟩ := split_blocksAfter hB
    generalize blocksAfter ft.blocksRead (BodyState.blockRecord ob) = post at hsplit hlate
    rw [hsplit, List.map_append, List.map_cons] at hlhs
    have hno := callLhs_ne_of_nodup hlhs
      (show (BodyState.blockRecord ob).callLhs = some g by
        simp [BasicBlock.callLhs, hterm, Terminator.callLhs])
    rw [FnText.lock_guard hsplit hterm hlock ha
        (fun ob' h' => hno _ (List.mem_append_right _ (List.mem_map_of_mem _ h'))) hlate,
      terminatorPlan_lock_key hlock ha]
  exact ⟨hkey, fun D _ r' u' _ => by rw [terminatorPlan_drop_key, hkey]⟩

/-- The function of `lockUnwrapDrop`, as `parse_mir` finds it. -/
def lockUnwrapDropFn : FnText := ⟨"main", lockUnwrapDropBody.data, 1⟩

/-- Its lock block, as the parser records it. -/
def lockBlock : BasicBlock :=
  ⟨0, ["        _3 = &_1;"], some (.call (some "_2") "Mutex::<i32>::lock" "move _3" 1 none), false, 3⟩

set_option maxRecDepth 20000 in
theorem lock_key_eq_guard_key_lockUnwrapDrop :
    lockUnwrapDropFn ∈ fnTexts lockUnwrapDrop.data ∧
      (terminatorPlan lockUnwrapDropFn.parse lockBlock
          (.call (some "_2") "Mutex::<i32>::lock" "move _3" 1 none)).mutexLockKey =
        lockUnwrapDropFn.parse.guardToMutexKey.lookup "_2" :=
  ⟨by decide, (@lock_key_eq_guard_key lockUnwrapDropFn (by decide) lockBlock (by decide) "_2"
    "Mutex::<i32>::lock" "move _3" "_3" 1 none rfl rfl rfl (by decide)).1⟩

/-- A lock on `_3` whose reference `_3 = &_1` is read only in the next block. -/
def lateRef : String :=
  "fn main() -> () \x7b\n    bb0: \x7b\n        _2 = Mutex::<i32>::lock(move _3) -> [return: bb1, unwind: continue];\n    \x7d\n    bb1: \x7b\n        _3 = &_1;\n        drop(_2) -> [return: bb2, unwind: continue];\n    \x7d\n    bb2: \x7b\n        return;\n    \x7d\n\x7d\n"

set_option maxRecDepth 20000 in
/-- The builder locks `_1`, through the final `ref_to_base`, while the parser bound the guard
`_2` to `_3`, which `ref_to_base` did not hold when the lock's block ended: the lock and the
drop of `_2` use different mutex subnets. -/
theorem lateRef_lock_and_unlock_keys_differ :
    ∃ ft ∈ fnTexts lateRef.data, ∃ B ∈ ft.parse.basicBlocks,
      B.terminator = some (.call (some "_2") "Mutex::<i32>::lock" "move _3" 1 none) ∧
      (ft.parse.basicBlocks.filterMap BasicBlock.callLhs).Nodup ∧
      (terminatorPlan ft.parse B (.call (some "_2") "Mutex::<i32>::lock" "move _3" 1 none)).mutexLockKey =
        some "_1" ∧
      ft.parse.guardToMutexKey.lookup "_2" = some "_3" ∧
      edgeTransition "main" 0 1 (some "_1") none ∈ (buildPetriNet (parseMir lateRef)).transitions ∧
      edgeTransition "main" 1 2 none (some "_3") ∈ (buildPetriNet (parseMir lateRef)).transitions := by
  decide

/-! ## The last binding wins -/

/-- `ref_to_base` and `guard_to_mutex_key` are plain dicts, so each key ends up with its last
store: a reference with the base of the last block line, in body order, that assigns it; a
guard with the key bound by the last block end, in block order, whose terminator binds it. -/
theorem parse_last_binding_wins (t : FnText) (x : String) :
    t.parse.refToBase.lookup x = (t.blockLines.filterMap refAssignment).reverse.lookup x ∧
      t.parse.guardToMutexKey.lookup x =
        (Tables.guardStores t.blocksRead Tables.empty).reverse.lookup x := by
  rw [t.parse_refToBase, Tables.foldl_refLine_eq, lookup_foldl_dictSet, t.parse_guardToMutexKey,
    Tables.foldl_readBlock_guardToMutexKey, lookup_foldl_dictSet]
  simp [Tables.empty]

/-- A body that assigns `_3` twice, and locks through it after each assignment. -/
def rebind : String :=
  "fn main() -> () \x7b\n    bb0: \x7b\n        _3 = &_1;\n        _2 = Mutex::<i32>::lock(move _3) -> [return: bb1, unwind: continue];\n    \x7d\n    bb1: \x7b\n        _3 = &_4;\n        _2 = Mutex::<i32>::lock(move _3) -> [return: bb2, unwind: continue];\n    \x7d\n    bb2: \x7b\n        return;\n    \x7d\n\x7d\n"

set_option maxRecDepth 20000 in
/-- The tables are not append-only: after the first block `ref_to_base` maps `_3` to `_1` and
`guard_to_mutex_key` maps `_2` to `_1`, and the second block's dict stores rebind both keys
to `_4`. -/
theorem rebind_overwrites_first_binding :
    ∃ ft ∈ fnTexts rebind.data,
      ((ft.blocksRead.take 1).foldl Tables.readBlock Tables.empty).refToBase.lookup "_3" = some "_1" ∧
      ((ft.blocksRead.take 1).foldl Tables.readBlock Tables.empty).guardToMutexKey.lookup "_2" =
        some "_1" ∧
      ft.parse.refToBase.lookup "_3" = some "_4" ∧ ft.parse.guardToMutexKey.lookup "_2" = some "_4" := by
  decide

/-! ## Lock and unwrap chains -/

/-- `bb` ends in a recorded call `g' = f(g, ..)` whose callee is an unwrap or expect and is
not lock-shaped. -/
def BasicBlock.unwrapsInto (bb : BasicBlock) (g g' : String) : Bool :=
  match bb.terminator with
  | some (.call (some l) callee args _ _) =>
    l == g' && !isMutexLockCallee callee && isUnwrapCallee callee && extractFirstLocal args == some g
  | _ => false

theorem BasicBlock.unwrapsInto_spec {bb : BasicBlock} {g g' : String}
    (h : bb.unwrapsInto g g' = true) :
    ∃ callee args r u, bb.terminator = some (.call (some g') callee args r u) ∧
      isMutexLockCallee callee = false ∧ isUnwrapCallee callee = true ∧
      extractFirstLocal args = some g := by
  unfold BasicBlock.unwrapsInto at h
  split at h
  · rename_i l callee args r u ht
    simp only [Bool.and_eq_true, beq_iff_eq, Bool.not_eq_true'] at h
    obtain ⟨⟨⟨rfl, hl⟩, hu⟩, ha⟩ := h
    exact ⟨callee, args, r, u, ht, hl, hu, ha⟩
  · cases h

theorem sublist_pair {α : Type} {x y : α} {L : List α} (h : List.Sublist [x, y] L) :
    ∃ P S, L = P ++ y :: S ∧ x ∈ P := by
  induction L with
  | nil => cases h
  | cons z L ih =>
    cases h with
    | cons _ h =>
      obtain ⟨P, S, rfl, hx⟩ := ih h
      exact ⟨z :: P, S, rfl, List.mem_cons_of_mem _ hx⟩
    | cons₂ _ h =>
      obtain ⟨P, S, rfl⟩ := List.append_of_mem (List.singleton_sublist.mp h)
      exact ⟨_ :: P, S, rfl, List.mem_cons_self _ _⟩

namespace FnText
variable {ft : FnText}

theorem split_of_sublist {x y : BasicBlock} (h : List.Sublist [x, y] ft.parse.basicBlocks) :
    ∃ pre ob post, ft.blocksRead = pre ++ ob :: post ∧ BodyState.blockRecord ob = y ∧
      x ∈ pre.map BodyState.blockRecord := by
  rw [ft.parse_basicBlocks] at h
  obtain ⟨P, S, hPS, hx⟩ := sublist_pair h
  obtain ⟨pre, rest, hsplit, rfl, hrest⟩ := List.map_eq_append_iff.mp hPS
  obtain ⟨ob, post, rfl, hob, -⟩ := List.map_eq_cons_iff.mp hrest
  exact ⟨pre, ob, post, hsplit, hob, hx⟩

theorem no_call_after {pre post : List OpenBlock} (hsplit : ft.blocksRead = pre ++ post)
    (hnodup : ft.parse.basicBlocks.Nodup) {B : BasicBlock} {g : String}
    (hB : B ∈ pre.map BodyState.blockRecord)
    (hsole : ∀ bb ∈ ft.parse.basicBlocks, bb.callLhs = some g → bb = B) :
    ∀ ob ∈ post, (BodyState.blockRecord ob).callLhs ≠ some g := by
  rw [ft.parse_basicBlocks, hsplit, List.map_append] at hnodup hsole
  intro ob hob hg
  have hrec := hsole _ (List.mem_append_right _ (List.mem_map_of_mem _ hob)) hg
  exact List.disjoint_of_nodup_append hnodup hB (hrec ▸ List.mem_map_of_mem _ hob)

theorem unwrap_link (hnodup : ft.parse.basicBlocks.Nodup) {p q : BasicBlock × String} {K : String}
    (hpq : q.1.unwrapsInto p.2 q.2 = true) (hord : List.Sublist [p.1, q.1] ft.parse.basicBlocks)
    (hp_sole : ∀ bb ∈ ft.parse.basicBlocks, bb.callLhs = some p.2 → bb = p.1)
    (hq_sole : ∀ bb ∈ ft.parse.basicBlocks, bb.callLhs = some q.2 → bb = q.1)
    (hp : ft.parse.guardToMutexKey.lookup p.2 = some K) :
    ft.parse.guardToMutexKey.lookup q.2 = some K := by
  obtain ⟨pre, ob, post, hsplit, hob, hpre⟩ := split_of_sublist hord
  obtain ⟨callee, args, r, u, ht, hl, hu, ha⟩ := BasicBlock.unwrapsInto_spec hpq
  rw [← hob] at ht
  have hsplit' : ft.blocksRead = (pre ++ [ob]) ++ post := by simp [hsplit]
  rw [lookup_guard_eq_of_split hsplit (no_call_after hsplit hnodup hpre hp_sole)] at hp
  rw [lookup_guard_eq_of_split hsplit' (no_call_after hsplit' hnodup (by simp [hob]) hq_sole),
    List.foldl_append, List.foldl_cons, List.foldl_nil]
  exact Tables.lookup_readBlock_of_binding ht (guardBinding_unwrap (blockRecord_callLhs_ne
    (show (BodyState.blockRecord ob).callLhs = some q.2 by simp [BasicBlock.callLhs, ht,
      Terminator.callLhs])) hl hu ha hp)

/-- Along a chain of unwrap links in block order, every guard ends bound where the first does. -/
theorem chain_keys (hnodup : ft.parse.basicBlocks.Nodup) {K : String} :
    ∀ (p : BasicBlock × String) (links : List (BasicBlock × String)),
      List.Chain (fun p q => q.1.unwrapsInto p.2 q.2 = true) p links →
      List.Sublist ((p :: links).map Prod.fst) ft.parse.basicBlocks →
      (∀ q ∈ p :: links, ∀ bb ∈ ft.parse.basicBlocks, bb.callLhs = some q.2 → bb = q.1) →
      ft.parse.guardToMutexKey.lookup p.2 = some K →
      ∀ q ∈ p :: links, ft.parse.guardToMutexKey.lookup q.2 = some K
  | p, [], _, _, _, hp, q, hq => by rw [List.mem_singleton.mp hq]; exact hp
  | p, q :: links, hchain, hord, hsole, hp, q', hq' => by
    obtain ⟨hpq, hchain⟩ := List.chain_cons.mp hchain
    have hq := unwrap_link hnodup hpq
      ((((List.nil_sublist _).cons₂ _).cons₂ _).trans hord)
      (hsole p (List.mem_cons_self _ _)) (hsole q (List.mem_cons_of_mem _ (List.mem_cons_self _ _))) hp
    rcases List.mem_cons.mp hq' with rfl | hq'
    · exact hp
    · exact chain_keys hnodup q links hchain ((List.sublist_cons_self _ _).trans hord)
        (fun q'' h => hsole q'' (List.mem_cons_of_mem _ h)) hq q' hq'

end FnText

namespace SoleName
variable {fs : List MirFunction} {e : String} {n : Option Int} {fn : MirFunction} {bb : BasicBlock}
  (hs : SoleName (fnsToProcess fs n) fn) (hfn : fn ∈ fnsToProcess fs n) (hbb : bb ∈ fn.basicBlocks)
  (hcl : bb.isCleanup = false)
include hs hfn hbb hcl

theorem lockTransition_mem {lhs : Option String} {callee args a : String} {r : Int}
    {u : Option Int} (hterm : bb.terminator = some (.call lhs callee args r u))
    (hlock : isMutexLockCallee callee = true) (ha : extractFirstLocal args = some a)
    (hK : resolveMutexKey a fn.refToBase ≠ "") :
    ∃ t ∈ (buildPetriNet fs e n).transitions, t.id = edgeTransitionId fn.name bb.bbId r ∧
      t.kind = "lock" ∧ t.op = some (resolveMutexKey a fn.refToBase) := by
  refine ⟨_, hs.edgePieceTransition_mem hfn hbb hterm hcl
    (by rw [terminatorPlan_targets]; exact List.mem_singleton_self _), rfl, ?_, ?_⟩
  · rw [edgePieceTransition, edgeTransition_kind, terminatorPlan_lock_key hlock ha, truthy_some hK]
    rfl
  · rw [edgePieceTransition, edgeTransition_op, terminatorPlan_lock_key hlock ha]
    exact pyOr_of_truthy (truthy_some hK) _

theorem unlockTransition_mem {L K : String} {r : Int} {u : Option Int}
    (hterm : bb.terminator = some (.drop L r u)) (hL : fn.guardToMutexKey.lookup L = some K)
    (hK : K ≠ "") :
    ∃ t ∈ (buildPetriNet fs e n).transitions, t.id = edgeTransitionId fn.name bb.bbId r ∧
      t.kind = "unlock" ∧ t.op = some K ∧
      (mutexHeldId K, t.id, 1) ∈ (buildPetriNet fs e n).arcs.map Arc.ends ∧
      (t.id, mutexFreeId K, 1) ∈ (buildPetriNet fs e n).arcs.map Arc.ends := by
  have hplan : terminatorPlan fn bb (.drop L r u) = ⟨[r], none, some K, []⟩ := by
    simp [terminatorPlan, hL]
  have hm : r ∈ (terminatorPlan fn bb (.drop L r u)).targets := by
    rw [hplan]; exact List.mem_singleton_self _
  have hpiece := edgePiece_mem_buildChunks fs e n hfn hbb hcl hterm hm
  refine ⟨_, hs.edgePieceTransition_mem hfn hbb hterm hcl hm, rfl, ?_, ?_, ?_, ?_⟩
  · rw [edgePieceTransition, edgeTransition_kind, hplan]
    simp [truthy_some hK]
  · rw [edgePieceTransition, edgeTransition_op, hplan]
    rfl
  · exact (mem_arcs_build _ _ _ _).mpr ⟨_, hpiece, by simp [hplan, truthy_some hK, unlockArcs]⟩
  · exact (mem_arcs_build _ _ _ _).mpr ⟨_, hpiece, by simp [hplan, truthy_some hK, unlockArcs]⟩

end SoleName

theorem eq_of_mem_of_length_le_one {α : Type} {l : List α} (hl : l.length ≤ 1) {x y : α}
    (hx : x ∈ l) (hy : y ∈ l) : x = y := by
  match l, hl, hx, hy with
  | [_], _, hx, hy => rw [List.mem_singleton.mp hx, List.mem_singleton.mp hy]

/-- A lock on `a` in a non-cleanup block `B₀`, followed in block order by unwrap or expect
calls `g₁ = f(g₀)`, ..., `gₙ = f(gₙ₋₁)` whose LHSs no other call of the function writes, with
at most one block line `a = &_m;`, read no later than `B₀`'s block: the drop of `gₙ` in a
non-cleanup block `D` becomes an unlock transition on the key of `B₀`'s lock transition, `_m`
when the line exists and `a` otherwise, wired from the key's held place back to its free place. -/
theorem unlock_of_lock_chain (text entryFn : String) (maxFns : Option Int) {ft : FnText}
    (hproc : ft.parse ∈ fnsToProcess (parseMir text) maxFns)
    (hsole : SoleName (fnsToProcess (parseMir text) maxFns) ft.parse)
    {B₀ : BasicBlock} {g₀ callee args a : String} {r₀ : Int} {u₀ : Option Int}
    (hcl₀ : B₀.isCleanup = false)
    (hterm₀ : B₀.terminator = some (.call (some g₀) callee args r₀ u₀))
    (hlock : isMutexLockCallee callee = true) (ha : extractFirstLocal args = some a)
    {links : List (BasicBlock × String)}
    (hchain : List.Chain (fun p q => q.1.unwrapsInto p.2 q.2 = true) (B₀, g₀) links)
    (horder : List.Sublist (((B₀, g₀) :: links).map Prod.fst) ft.parse.basicBlocks)
    (hlhs : ∀ p ∈ (B₀, g₀) :: links, ∀ bb ∈ ft.parse.basicBlocks, bb.callLhs = some p.2 → bb = p.1)
    (hone : (ft.blockLines.filter fun bl => (refAssignment bl).map Prod.fst = some a).length ≤ 1)
    (hlate : ∀ bl ∈ (blocksAfter ft.blocksRead B₀).flatMap (·.lines),
      (refAssignment bl).map Prod.fst ≠ some a)
    {D : BasicBlock} (hD : D ∈ ft.parse.basicBlocks) (hclD : D.isCleanup = false) {r : Int}
    {u : Option Int}
    (htermD : D.terminator = some (.drop (((B₀, g₀) :: links).getLast (List.cons_ne_nil _ _)).2 r u)) :
    ∃ K, (∀ bl ∈ ft.blockLines, ∀ m, refAssignment bl = some (a, m) → K = m) ∧
      ((∀ bl ∈ ft.blockLines, (refAssignment bl).map Prod.fst ≠ some a) → K = a) ∧
      (∃ t ∈ (buildPetriNet (parseMir text) entryFn maxFns).transitions,
        t.id = edgeTransitionId ft.parse.name B₀.bbId r₀ ∧ t.kind = "lock" ∧ t.op = some K) ∧
      ∃ t ∈ (buildPetriNet (parseMir text) entryFn maxFns).transitions,
        t.id = edgeTransitionId ft.parse.name D.bbId r ∧ t.kind = "unlock" ∧ t.op = some K ∧
        (mutexHeldId K, t.id, 1) ∈ (buildPetriNet (parseMir text) entryFn maxFns).arcs.map Arc.ends ∧
        (t.id, mutexFreeId K, 1) ∈ (buildPetriNet (parseMir text) entryFn maxFns).arcs.map Arc.ends := by
  have hnodup : ft.parse.basicBlocks.Nodup := List.Nodup.of_map _ hsole.blockIds
  have hB₀ : B₀ ∈ ft.parse.basicBlocks := horder.subset (List.mem_cons_self _ _)
  set K := resolveMutexKey a ft.parse.refToBase with hKdef
  have hK : K ≠ "" := by
    rw [hKdef]
    rcases resolveMutexKey_cases with he | he
    · rw [he]; exact extractFirstLocal_ne_empty ha
    · obtain ⟨bl, -, hbl⟩ := ft.parse_justified.refs a _ he
      exact (refAssignment_ne_empty hbl).2
  -- the parser binds `g₀` to `K`, and the chain passes it on to the last guard
  have hg₀ : ft.parse.guardToMutexKey.lookup g₀ = some K := by
    obtain ⟨pre, ob, hsplit, rfl, -⟩ :=
      @split_blocksAfter ft.blocksRead B₀ (ft.parse_basicBlocks ▸ hB₀)
    generalize blocksAfter ft.blocksRead (BodyState.blockRecord ob) = post at hsplit hlate
    exact FnText.lock_guard hsplit hterm₀ hlock ha (FnText.no_call_after
      (show ft.blocksRead = (pre ++ [ob]) ++ post by simp [hsplit]) hnodup (by simp)
      (hlhs _ (List.mem_cons_self _ _))) hlate
  have hgₙ := FnText.chain_keys hnodup _ links hchain horder hlhs hg₀ _
    (List.getLast_mem (List.cons_ne_nil _ _))
  refine ⟨K, fun bl hbl m hm => ?_, fun hnone => ?_,
    hsole.lockTransition_mem hproc hB₀ hcl₀ hterm₀ hlock ha hK,
    hsole.unlockTransition_mem hproc hD hclD htermD hgₙ hK⟩
  · have huniq : ∀ bl' ∈ ft.blockLines, ∀ m', refAssignment bl' = some (a, m') → m' = m :=
      fun bl' hbl' m' hm' => by
        have := eq_of_mem_of_length_le_one hone (List.mem_filter.mpr ⟨hbl', by simp [hm']⟩)
          (List.mem_filter.mpr ⟨hbl, by simp [hm]⟩)
        rw [this, hm] at hm'
        exact (Prod.mk.inj (Option.some.inj hm')).2.symm
    rw [hKdef, resolveMutexKey, ft.parse_refToBase, lookup_foldl_refLine_of_unique hbl hm huniq]
    rfl
  · rw [hKdef, resolveMutexKey, ft.parse_refToBase,
      lookup_foldl_refLine_of_ne fun bl hbl b hb => hnone bl hbl (by rw [hb]; rfl)]
    rfl

/-- The unwrap and drop blocks of `lockUnwrapDrop`, as the parser records them. -/
def unwrapBlock : BasicBlock :=
  ⟨1, [], some (.call (some "_4") "Result::<MutexGuard<i32>, PoisonError>::unwrap" "move _2" 2 none),
    false, 7⟩
def dropBlock : BasicBlock := ⟨2, [], some (.drop "_4" 3 none), false, 10⟩

set_option maxRecDepth 20000 in
theorem unlock_of_lock_chain_lockUnwrapDrop :
    ∃ K, (∀ bl ∈ lockUnwrapDropFn.blockLines, ∀ m, refAssignment bl = some ("_3", m) → K = m) ∧
      ((∀ bl ∈ lockUnwrapDropFn.blockLines, (refAssignment bl).map Prod.fst ≠ some "_3") → K = "_3") ∧
      (∃ t ∈ (buildPetriNet (parseMir lockUnwrapDrop)).transitions,
        t.id = edgeTransitionId lockUnwrapDropFn.parse.name lockBlock.bbId 1 ∧ t.kind = "lock" ∧
          t.op = some K) ∧
      ∃ t ∈ (buildPetriNet (parseMir lockUnwrapDrop)).transitions,
        t.id = edgeTransitionId lockUnwrapDropFn.parse.name dropBlock.bbId 3 ∧ t.kind = "unlock" ∧
        t.op = some K ∧
        (mutexHeldId K, t.id, 1) ∈ (buildPetriNet (parseMir lockUnwrapDrop)).arcs.map Arc.ends ∧
        (t.id, mutexFreeId K, 1) ∈ (buildPetriNet (parseMir lockUnwrapDrop)).arcs.map Arc.ends :=
  @unlock_of_lock_chain lockUnwrapDrop "main" none lockUnwrapDropFn (by decide) (by decide) lockBlock
    "_2" "Mutex::<i32>::lock" "move _3" "_3" 1 none rfl rfl (by decide) (by decide)
    [(unwrapBlock, "_4")] (.cons rfl .nil) (by decide) (by decide) (by decide) (by decide) dropBlock
    (by decide) rfl 3 none rfl

end Mir2Pnml
