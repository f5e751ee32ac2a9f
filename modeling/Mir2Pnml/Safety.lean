import Mir2Pnml.Mutex
import Mir2Pnml.Control

/-! # Safeness and mutual exclusion in the built net

Every place of a net `build_petri_net` returns holds at most one token in every reachable
marking. The control places hold one token between them at most: the entry place's, which no
transition multiplies (`cfg_outflow_le`). A key's free and held places hold one token between
them, since each lock and unlock arc pair moves the token from one to the other. From the
second, a lock on a key is enabled only while the key is free, and firing it leaves the key
held; an unlock is enabled only while the key is held, and firing it frees the key. Only an
unlock puts a token back on a free place (`isMutexOp_unlock_of_post`), so along any run two
locks on a key have an unlock on it between them (`mutex_pair_token_invariant`).
-/
namespace Mir2Pnml

/-- `tid` is the id of a transition of the net of kind `kind` on `key`. -/
def PetriNet.IsMutexOp (N : PetriNet) (kind key tid : String) : Prop :=
  ∃ t ∈ N.transitions, t.id = tid ∧ t.kind = kind ∧ t.op = some key

instance (N : PetriNet) (kind key tid : String) : Decidable (N.IsMutexOp kind key tid) :=
  inferInstanceAs (Decidable (∃ t ∈ N.transitions, t.id = tid ∧ t.kind = kind ∧ t.op = some key))

open PetriNet

section Build
variable {fs : List MirFunction} {e : String} {n : Option Int} {M : Marking}

theorem initial_build_le_one (x : String) : (buildPetriNet fs e n).initial x ≤ 1 := by
  rw [initial_build, initOfId]
  split_ifs <;> simp

theorem initial_mutexHeldId (key : String) :
    (buildPetriNet fs e n).initial (mutexHeldId key) = 0 := by
  rw [initial_build, initOfId]
  split_ifs <;> simp_all [eq_false_of_idClass_ne]

theorem initial_cfg_tokenSum_le_one :
    (buildPetriNet fs e n).initial.tokenSum (buildPetriNet fs e n).cfgPlaceIds ≤ 1 := by
  rw [Marking.tokenSum, List.sum_map_eq_nsmul_single (entryPlaceId e) _
    fun x hx hmem => by rw [initial_of_mem_cfgPlaceIds hmem, if_neg hx], Nat.nsmul_eq_mul]
  exact Nat.mul_le_mul (List.nodup_iff_count_le_one.mp cfgPlaceIds_nodup _) (initial_build_le_one _)

/-- The control places hold one token between them at most along every run. -/
theorem cfg_tokenSum_le_one (hM : (buildPetriNet fs e n).Reachable M) :
    M.tokenSum (buildPetriNet fs e n).cfgPlaceIds ≤ 1 :=
  (Reachable.tokenSum_le cfgPlaceIds_nodup (fun t _ => cfg_outflow_le t) hM).trans
    initial_cfg_tokenSum_le_one

/-- A key's two places hold between them the tokens its free place starts with. -/
theorem mutexPair_tokens (key : String) (hM : (buildPetriNet fs e n).Reachable M) :
    M (mutexFreeId key) + M (mutexHeldId key) = (buildPetriNet fs e n).initial (mutexFreeId key) := by
  have h := Reachable.tokenSum_eq (mutexPair_nodup key)
    (fun t _ => mutexPair_inflow_eq_outflow fs e n key t) hM
  simpa [Marking.tokenSum, mutexPair, initial_mutexHeldId] using h

theorem mutexPair_tokens_le_one (key : String) (hM : (buildPetriNet fs e n).Reachable M) :
    M (mutexFreeId key) + M (mutexHeldId key) ≤ 1 :=
  (mutexPair_tokens key hM).trans_le (initial_build_le_one _)

theorem pre_pos_of_mem_arcsOf {c : List BuildOp} (hc : c ∈ buildChunks fs e n) {p t : String}
    (w : Int) (h : (p, t, w) ∈ arcsOf c) : 0 < (buildPetriNet fs e n).pre p t := by
  obtain ⟨a, ha, hae⟩ := List.mem_map.mp ((mem_arcs_build fs e n _).mpr ⟨c, hc, h⟩)
  simp only [Arc.ends, Prod.mk.injEq] at hae
  exact List.countP_pos_iff.mpr ⟨a, ha, by simp [hae.1, hae.2.1]⟩

theorem post_pos_of_mem_arcsOf {c : List BuildOp} (hc : c ∈ buildChunks fs e n) {t p : String}
    (w : Int) (h : (t, p, w) ∈ arcsOf c) : 0 < (buildPetriNet fs e n).post t p := by
  obtain ⟨a, ha, hae⟩ := List.mem_map.mp ((mem_arcs_build fs e n _).mpr ⟨c, hc, h⟩)
  simp only [Arc.ends, Prod.mk.injEq] at hae
  exact List.countP_pos_iff.mpr ⟨a, ha, by simp [hae.1, hae.2.1]⟩

/-- A lock takes from its key's free place and gives to the held place; an unlock the other
way round. -/
theorem mutex_arcs_of_op {t : Transition} (ht : t ∈ (buildPetriNet fs e n).transitions)
    {key : String} (hop : t.op = some key) :
    (t.kind = "lock" → 0 < (buildPetriNet fs e n).pre (mutexFreeId key) t.id ∧
      0 < (buildPetriNet fs e n).post t.id (mutexHeldId key)) ∧
    (t.kind = "unlock" → 0 < (buildPetriNet fs e n).pre (mutexHeldId key) t.id ∧
      0 < (buildPetriNet fs e n).post t.id (mutexFreeId key)) := by
  obtain ⟨fn, hfn, hs⟩ := transitionShape_of_mem ht
  cases hs with
  | start => simp [startTransition]
  | ret => simp [returnTransition]
  | @edge bb term m hbb hcl hterm hm =>
    have hc := edgePiece_mem_buildChunks fs e n hfn hbb hcl hterm hm
    refine ⟨fun hk => ?_, fun hk => ?_⟩
    · have hl := edgeTransition_lock hk hop
      exact ⟨pre_pos_of_mem_arcsOf hc 1 (by simp [hl, lockArcs]),
        post_pos_of_mem_arcsOf hc 1 (by simp [hl, lockArcs])⟩
    · have hu := (edgeTransition_unlock hk hop).2
      exact ⟨pre_pos_of_mem_arcsOf hc 1 (by simp [hu, unlockArcs]),
        post_pos_of_mem_arcsOf hc 1 (by simp [hu, unlockArcs])⟩

/-- A lock on a key enabled in a reachable marking finds the key's token on the free place and
moves it to the held place. -/
theorem lock_tokens (hM : (buildPetriNet fs e n).Reachable M) {t : Transition}
    (ht : t ∈ (buildPetriNet fs e n).transitions) {key : String} (hop : t.op = some key)
    (hk : t.kind = "lock") (hen : (buildPetriNet fs e n).Enabled M t.id) :
    M (mutexFreeId key) = 1 ∧ M (mutexHeldId key) = 0 ∧
      (buildPetriNet fs e n).fire M t.id (mutexFreeId key) = 0 ∧
      (buildPetriNet fs e n).fire M t.id (mutexHeldId key) = 1 := by
  have hpair := mutexPair_tokens_le_one key hM
  have hpair' := mutexPair_tokens_le_one key (hM.tail ⟨t.id, hen, rfl⟩)
  obtain ⟨hpre, hpost⟩ := (mutex_arcs_of_op ht hop).1 hk
  have := hen.pre_le (mutexFreeId key)
  simp only [fire] at hpair' ⊢
  omega

theorem unlock_tokens (hM : (buildPetriNet fs e n).Reachable M) {t : Transition}
    (ht : t ∈ (buildPetriNet fs e n).transitions) {key : String} (hop : t.op = some key)
    (hk : t.kind = "unlock") (hen : (buildPetriNet fs e n).Enabled M t.id) :
    M (mutexHeldId key) = 1 ∧ M (mutexFreeId key) = 0 ∧
      (buildPetriNet fs e n).fire M t.id (mutexHeldId key) = 0 ∧
      (buildPetriNet fs e n).fire M t.id (mutexFreeId key) = 1 := by
  have hpair := mutexPair_tokens_le_one key hM
  have hpair' := mutexPair_tokens_le_one key (hM.tail ⟨t.id, hen, rfl⟩)
  obtain ⟨hpre, hpost⟩ := (mutex_arcs_of_op ht hop).2 hk
  have := hen.pre_le (mutexHeldId key)
  simp only [fire] at hpair' ⊢
  omega

theorem not_enabled_lock {t : Transition} (ht : t ∈ (buildPetriNet fs e n).transitions)
    {key : String} (hop : t.op = some key) (hk : t.kind = "lock") (h0 : M (mutexFreeId key) = 0) :
    ¬(buildPetriNet fs e n).Enabled M t.id := fun hen => by
  have := ((mutex_arcs_of_op ht hop).1 hk).1
  have := hen.pre_le (mutexFreeId key)
  omega

private theorem two_le_sum_of_ne {α : Type} [DecidableEq α] {l : List α} (f : α → Nat) {a b : α}
    (ha : a ∈ l) (hb : b ∈ l) (hne : a ≠ b) (h1 : 0 < f a) (h2 : 0 < f b) : 2 ≤ (l.map f).sum := by
  rw [← List.sum_map_erase f ha]
  have := List.le_sum_of_mem (List.mem_map_of_mem f ((List.mem_erase_of_ne hne.symm).mpr hb))
  omega

theorem two_le_inflow {ps : List String} {c c' : List BuildOp} (hc : c ∈ buildChunks fs e n)
    (hc' : c' ∈ buildChunks fs e n) (hne : c ≠ c') {u : String}
    (h : ∃ x ∈ arcsOf c, x.1 ∈ ps ∧ x.2.1 = u) (h' : ∃ x ∈ arcsOf c', x.1 ∈ ps ∧ x.2.1 = u) :
    2 ≤ (buildPetriNet fs e n).inflow ps u := by
  rw [inflow_build]
  exact two_le_sum_of_ne _ hc hc' hne (List.countP_pos_iff.mpr (by simpa using h))
    (List.countP_pos_iff.mpr (by simpa using h'))

/-- Only an unlock on a key puts a token on its free place: a transition enabled in a reachable
marking with an arc into the free place is listed as an unlock on the key. A second piece under
the same id would give the transition a second control input, and a reachable marking holds one
control token at most. -/
theorem isMutexOp_unlock_of_post (hM : (buildPetriNet fs e n).Reachable M) {u key : String}
    (hen : (buildPetriNet fs e n).Enabled M u)
    (hpost : 0 < (buildPetriNet fs e n).post u (mutexFreeId key)) :
    (buildPetriNet fs e n).IsMutexOp "unlock" key u := by
  obtain ⟨a, ha, hau⟩ := List.countP_pos_iff.mp hpost
  simp only [decide_eq_true_eq] at hau
  obtain ⟨c, hc, hx⟩ := (mem_arcs_build fs e n a.ends).mp (List.mem_map_of_mem _ ha)
  obtain ⟨fn, hfn, hch⟩ := chunk_of_mem_buildChunks hc
  have hx' : (u, mutexFreeId key, a.weight) ∈ arcsOf c := by rw [← hau.1, ← hau.2]; exact hx
  obtain ⟨T, hT, hTid, hTk, hTop⟩ := hch.unlock_of_arc hx'
  obtain ⟨t, ht, rfl⟩ := List.mem_map.mp hen.1
  obtain ⟨c', hc', ht'⟩ := chunk_of_mem_transitions ht
  by_cases hcc : c' = c
  · subst hcc
    obtain rfl : t = T := by simpa [hT] using ht'
    exact ⟨t, ht, rfl, hTk, hTop⟩
  · obtain ⟨fn', hfn', hch'⟩ := chunk_of_mem_buildChunks hc'
    have hin : ∃ x ∈ arcsOf c, x.1 ∈ (buildPetriNet fs e n).cfgPlaceIds ∧ x.2.1 = t.id := by
      rw [← hTid]; exact (hch.arcs_at hfn (by simp [hT])).1
    have := two_le_inflow hc' hc hcc (hch'.arcs_at hfn' ht').1 hin
    have := (hen.inflow_le cfgPlaceIds_nodup).trans (cfg_tokenSum_le_one hM)
    omega

/-- A firing that is not an unlock on a key leaves the key's empty free place empty ... -/
theorem fire_free_eq_zero (hM : (buildPetriNet fs e n).Reachable M) {u key : String}
    (hen : (buildPetriNet fs e n).Enabled M u) (h0 : M (mutexFreeId key) = 0)
    (hu : ¬(buildPetriNet fs e n).IsMutexOp "unlock" key u) :
    (buildPetriNet fs e n).fire M u (mutexFreeId key) = 0 := by
  have : (buildPetriNet fs e n).post u (mutexFreeId key) = 0 :=
    Nat.eq_zero_of_not_pos fun h => hu (isMutexOp_unlock_of_post hM hen h)
  simp [fire, h0, this]

/-- ... and so does every firing sequence with no unlock on the key. -/
theorem free_eq_zero_fireSeq {key : String} {us : List String}
    (hno : ∀ u ∈ us, ¬(buildPetriNet fs e n).IsMutexOp "unlock" key u) {M M' : Marking}
    (hM : (buildPetriNet fs e n).Reachable M) (h0 : M (mutexFreeId key) = 0)
    (hrun : (buildPetriNet fs e n).fireSeq M us = some M') : M' (mutexFreeId key) = 0 := by
  induction us generalizing M with
  | nil => cases hrun; exact h0
  | cons u us ih =>
    simp only [fireSeq] at hrun
    split at hrun
    · exact ih (fun v hv => hno v (List.mem_cons_of_mem _ hv)) (hM.tail ⟨u, ‹_›, rfl⟩)
        (fire_free_eq_zero hM ‹_› h0 (hno u (List.mem_cons_self _ _))) hrun
    · cases hrun

end Build

/-- Every place of the built net holds at most one token in every reachable marking. -/
theorem buildPetriNet_safe (functions : List MirFunction) (entryFn : String) (maxFns : Option Int)
    {M : Marking} (hM : (buildPetriNet functions entryFn maxFns).Reachable M) {x : String}
    (hx : x ∈ (buildPetriNet functions entryFn maxFns).placeIds) : M x ≤ 1 := by
  obtain ⟨p, hp, rfl⟩ := List.mem_map.mp hx
  have hcfg (he : idClass p.id ≠ some 'e') (hd : idClass p.id ≠ some 'd') : M p.id ≤ 1 :=
    (List.le_sum_of_mem (List.mem_map_of_mem M (mem_cfgPlaceIds_build.mpr ⟨hx, he, hd⟩))).trans
      (cfg_tokenSum_le_one hM)
  obtain ⟨fn, -, hs⟩ := placeShape_of_mem hp
  cases hs with
  | entry => exact hcfg (by simp) (by simp)
  | exit => exact hcfg (by simp) (by simp)
  | block => exact hcfg (by simp) (by simp)
  | free key => have := mutexPair_tokens_le_one key hM; simp only [mutexFreePlace_id]; omega
  | held key => have := mutexPair_tokens_le_one key hM; simp only [mutexHeldPlace_id]; omega

theorem buildPetriNet_safe_lockThenDrop :
    mutexFreeId "_1" ∈ (buildPetriNet [lockThenDrop]).placeIds ∧
      (buildPetriNet [lockThenDrop]).initial (mutexFreeId "_1") ≤ 1 :=
  ⟨by decide, buildPetriNet_safe _ _ _ .refl (by decide)⟩

/-- In every reachable marking a lock on a key is enabled only while the key's free place
holds its token and the held place is empty, and firing it leaves the token on the held place;
an unlock is enabled only while the token is on the held place, and firing it moves it back. -/
theorem mutex_exclusion (functions : List MirFunction) (entryFn : String) (maxFns : Option Int)
    {M : Marking} (hM : (buildPetriNet functions entryFn maxFns).Reachable M) {t : Transition}
    (ht : t ∈ (buildPetriNet functions entryFn maxFns).transitions) {key : String}
    (hop : t.op = some key) (hen : (buildPetriNet functions entryFn maxFns).Enabled M t.id) :
    (t.kind = "lock" → M (mutexFreeId key) = 1 ∧ M (mutexHeldId key) = 0 ∧
      (buildPetriNet functions entryFn maxFns).fire M t.id (mutexFreeId key) = 0 ∧
      (buildPetriNet functions entryFn maxFns).fire M t.id (mutexHeldId key) = 1) ∧
    (t.kind = "unlock" → M (mutexHeldId key) = 1 ∧ M (mutexFreeId key) = 0 ∧
      (buildPetriNet functions entryFn maxFns).fire M t.id (mutexHeldId key) = 0 ∧
      (buildPetriNet functions entryFn maxFns).fire M t.id (mutexFreeId key) = 1) :=
  ⟨fun hk => lock_tokens hM ht hop hk hen, fun hk => unlock_tokens hM ht hop hk hen⟩

theorem mutex_exclusion_lockThenDrop :
    (buildPetriNet [lockThenDrop]).Enabled
        ((buildPetriNet [lockThenDrop]).fire (buildPetriNet [lockThenDrop]).initial
          (startTransitionId "main"))
        (edgeTransitionId "main" 0 1) ∧
      (buildPetriNet [lockThenDrop]).fire
        ((buildPetriNet [lockThenDrop]).fire (buildPetriNet [lockThenDrop]).initial
          (startTransitionId "main"))
        (edgeTransitionId "main" 0 1) (mutexHeldId "_1") = 1 := by
  have hM : (buildPetriNet [lockThenDrop]).Reachable
      ((buildPetriNet [lockThenDrop]).fire (buildPetriNet [lockThenDrop]).initial
        (startTransitionId "main")) := .single ⟨_, by decide, rfl⟩
  exact ⟨by decide, ((@mutex_exclusion [lockThenDrop] "main" none _ hM
    (edgeTransition "main" 0 1 (some "_1") none) (by decide) "_1" rfl (by decide)).1 rfl).2.2.2⟩

/-! ## Locks and unlocks alternate -/

/-- In every marking reachable in the built net, a key's free and held places hold one token
between them, so the held place never holds two; and along every firing sequence from such a
marking, between two firings of lock transitions on the key an unlock transition on it fires. -/
theorem mutex_pair_token_invariant (functions : List MirFunction) (entryFn : String)
    (maxFns : Option Int) (key : String)
    (hkey : mutexFreeId key ∈ (buildPetriNet functions entryFn maxFns).placeIds)
    {M : Marking} (hM : (buildPetriNet functions entryFn maxFns).Reachable M) :
    M (mutexFreeId key) + M (mutexHeldId key) = 1 ∧
      ∀ (t₁ t₂ : String) (us : List String) (M' : Marking),
        (buildPetriNet functions entryFn maxFns).IsMutexOp "lock" key t₁ →
        (buildPetriNet functions entryFn maxFns).IsMutexOp "lock" key t₂ →
        (buildPetriNet functions entryFn maxFns).fireSeq M (t₁ :: us ++ [t₂]) = some M' →
        ∃ u ∈ us, (buildPetriNet functions entryFn maxFns).IsMutexOp "unlock" key u := by
  refine ⟨?_, fun t₁ t₂ us M' h₁ h₂ hrun => ?_⟩
  · rw [mutexPair_tokens key hM, initial_build, if_pos hkey]
    simp [initOfId]
  by_contra hno
  push_neg at hno
  obtain ⟨l₁, hl₁, rfl, hk₁, hop₁⟩ := h₁
  obtain ⟨l₂, hl₂, rfl, hk₂, hop₂⟩ := h₂
  rw [fireSeq_append] at hrun
  obtain ⟨M₂, hus, hlast⟩ := Option.bind_eq_some.mp hrun
  rw [fireSeq] at hus
  split at hus
  · rename_i hen₁
    -- after the first lock the free place is empty, and no firing of `us` refills it
    have h0 := free_eq_zero_fireSeq hno (hM.tail ⟨l₁.id, hen₁, rfl⟩)
      (lock_tokens hM hl₁ hop₁ hk₁ hen₁).2.2.1 hus
    rw [fireSeq] at hlast
    split at hlast
    · exact not_enabled_lock hl₂ hop₂ hk₂ h0 ‹_›
    · cases hlast
  · cases hus

/-- A lock of `_1`, its guard's drop, and a second lock of `_1`. -/
def relock : MirFunction :=
  ⟨"main", [],
    [⟨0, [], some (.call (some "_2") "std::sync::Mutex::<i32>::lock" "move _1" 1 none), false, 3⟩,
     ⟨1, [], some (.drop "_2" 2 none), false, 6⟩,
     ⟨2, [], some (.call (some "_3") "std::sync::Mutex::<i32>::lock" "move _1" 3 none), false, 9⟩,
     ⟨3, [], some .return, false, 12⟩],
    [("_2", "_1"), ("_3", "_1")], []⟩

theorem mutex_pair_token_invariant_relock :
    (buildPetriNet [relock]).IsMutexOp "lock" "_1" (edgeTransitionId "main" 0 1) ∧
      (buildPetriNet [relock]).IsMutexOp "lock" "_1" (edgeTransitionId "main" 2 3) ∧
      ((buildPetriNet [relock]).fireSeq
        ((buildPetriNet [relock]).fire (buildPetriNet [relock]).initial (startTransitionId "main"))
        [edgeTransitionId "main" 0 1, edgeTransitionId "main" 1 2, edgeTransitionId "main" 2 3]).isSome ∧
      ∃ u ∈ [edgeTransitionId "main" 1 2], (buildPetriNet [relock]).IsMutexOp "unlock" "_1" u := by
  have h₁ : (buildPetriNet [relock]).IsMutexOp "lock" "_1" (edgeTransitionId "main" 0 1) := by
    decide
  have h₂ : (buildPetriNet [relock]).IsMutexOp "lock" "_1" (edgeTransitionId "main" 2 3) := by
    decide
  have hrun : ((buildPetriNet [relock]).fireSeq
      ((buildPetriNet [relock]).fire (buildPetriNet [relock]).initial (startTransitionId "main"))
      [edgeTransitionId "main" 0 1, edgeTransitionId "main" 1 2, edgeTransitionId "main" 2 3]).isSome := by
    decide
  obtain ⟨M', hM'⟩ := Option.isSome_iff_exists.mp hrun
  exact ⟨h₁, h₂, hrun, (mutex_pair_token_invariant _ _ _ _ (by decide)
    (.single ⟨_, by decide, rfl⟩)).2 _ _ [edgeTransitionId "main" 1 2] M' h₁ h₂ hM'⟩

end Mir2Pnml
