import Mir2Pnml.Builder

/-! # The builder's ids

Ids are f-strings around function names, block ids and mutex keys. Every place id
starts with `p` and every transition id with `t`; the last character tells the formats
of one side apart; and each format is injective. The block ids are the only integers
inside an id, and `str(k)` is a run of digits with an optional `-`, never an `_`, so the
last `_` of an id splits it where the format says.
-/
namespace Mir2Pnml

/-! ## Decimal strings -/

private theorem digitChar_spec :
    ∀ m < 10, (Nat.digitChar m).isDigit ∧ (Nat.digitChar m).toNat - '0'.toNat = m := by
  decide

private theorem digitsValue_concat (l : List Char) (c : Char) :
    digitsValue (l ++ [c]) = 10 * digitsValue l + (c.toNat - '0'.toNat) := by
  simp [digitsValue, List.foldl_append]

/-- One round of the digit loop behind `Nat.repr`. -/
private theorem toDigitsCore_succ (fuel n : Nat) (ds : List Char) :
    Nat.toDigitsCore 10 (fuel + 1) n ds = if n / 10 = 0 then Nat.digitChar (n % 10) :: ds
      else Nat.toDigitsCore 10 fuel (n / 10) (Nat.digitChar (n % 10) :: ds) := rfl

private theorem toDigitsCore_spec (fuel n : Nat) (ds : List Char) (h : n < fuel) :
    ∃ l, Nat.toDigitsCore 10 fuel n ds = l ++ ds ∧ l ≠ [] ∧ (∀ c ∈ l, c.isDigit) ∧
      digitsValue l = n := by
  induction fuel generalizing n ds with
  | zero => omega
  | succ fuel ih =>
    obtain ⟨hd, hv⟩ := digitChar_spec (n % 10) (Nat.mod_lt _ (by decide))
    by_cases h0 : n / 10 = 0
    · refine ⟨[Nat.digitChar (n % 10)], by simp [toDigitsCore_succ, h0], by simp,
        by simpa using hd, ?_⟩
      have := digitsValue_concat [] (Nat.digitChar (n % 10))
      simp only [List.nil_append] at this
      rw [this, hv]; simp [digitsValue]; omega
    · obtain ⟨l, hl, -, hdig, hval⟩ := ih (n / 10) (Nat.digitChar (n % 10) :: ds) (by omega)
      refine ⟨l ++ [Nat.digitChar (n % 10)], by simp [toDigitsCore_succ, h0, hl], by simp, ?_, ?_⟩
      · intro c hc
        rcases List.mem_append.mp hc with hc | hc
        · exact hdig c hc
        · rw [List.mem_singleton.mp hc]; exact hd
      · rw [digitsValue_concat, hval, hv]; omega

/-- `str(n)` of a natural number: non-empty decimal digits that read back as `n`. -/
theorem toString_nat_spec (n : Nat) :
    (toString n).data ≠ [] ∧ (∀ c ∈ (toString n).data, c.isDigit) ∧
      digitsValue (toString n).data = n := by
  obtain ⟨l, hl, hne, hdig, hval⟩ := toDigitsCore_spec (n + 1) n [] (by omega)
  have h : (toString n).data = l := by
    simpa using hl
  exact h ▸ ⟨hne, hdig, hval⟩

theorem toString_int_data (k : Int) :
    (∀ c ∈ (toString k).data, c.isDigit ∨ c = '-') ∧
      ∃ d, (toString k).data.getLast? = some d ∧ d.isDigit := by
  have last : ∀ n : Nat, ∃ d, (toString n).data.getLast? = some d ∧ d.isDigit := fun n => by
    obtain ⟨hne, hdig, -⟩ := toString_nat_spec n
    obtain ⟨d, hd⟩ := List.getLast?_isSome.mpr hne |> Option.isSome_iff_exists.mp
    exact ⟨d, hd, hdig d (List.mem_of_getLast?_eq_some hd)⟩
  cases k with
  | ofNat n =>
    exact ⟨fun c hc => .inl ((toString_nat_spec n).2.1 c hc), last n⟩
  | negSucc n =>
    have hs : toString (Int.negSucc n) = "-" ++ toString (n + 1) := rfl
    obtain ⟨hne, hdig, -⟩ := toString_nat_spec (n + 1)
    refine ⟨fun c hc => ?_, ?_⟩
    · rw [hs, String.data_append] at hc
      rcases List.mem_append.mp hc with hc | hc
      · exact .inr (by simpa using hc)
      · exact .inl (hdig c hc)
    · rw [hs, String.data_append, List.getLast?_append_of_ne_nil _ hne]
      exact last (n + 1)

theorem underscore_not_mem_toString (k : Int) : '_' ∉ (toString k).data := fun h => by
  rcases (toString_int_data k).1 _ h with h | h <;> simp at h

theorem toString_nat_injective {m n : Nat} (h : toString m = toString n) : m = n := by
  rw [← (toString_nat_spec m).2.2, ← (toString_nat_spec n).2.2, h]

/-- `str` on integers is injective. -/
theorem toString_int_injective {k k' : Int} (h : toString k = toString k') : k = k' := by
  have head : ∀ n : Nat, ∃ c, (toString n).data.head? = some c ∧ c.isDigit := fun n => by
    obtain ⟨hne, hdig, -⟩ := toString_nat_spec n
    obtain ⟨c, hc⟩ := List.head?_isSome.mpr hne |> Option.isSome_iff_exists.mp
    exact ⟨c, hc, hdig c (List.mem_of_mem_head? hc)⟩
  have minus : ∀ m n : Nat, toString (Int.ofNat m) ≠ toString (Int.negSucc n) := fun m n h => by
    obtain ⟨c, hc, hd⟩ := head m
    have : (toString (Int.negSucc n)).data.head? = some '-' := by
      show ("-" ++ toString (n + 1)).data.head? = some '-'
      simp
    rw [← h] at this
    change (toString m).data.head? = some '-' at this
    rw [hc] at this; cases this; simp at hd
  cases k with
  | ofNat m =>
    cases k' with
    | ofNat n => exact congrArg _ (toString_nat_injective h)
    | negSucc n => exact absurd h (minus m n)
  | negSucc m =>
    cases k' with
    | ofNat n => exact absurd h.symm (minus n m)
    | negSucc n =>
      have h' : "-" ++ toString (m + 1) = "-" ++ toString (n + 1) := h
      have := toString_nat_injective (String.ext_iff.mpr
        (List.append_cancel_left (by simpa only [String.data_append] using congrArg String.data h')))
      simp only [Nat.add_right_cancel_iff] at this
      rw [this]

/-! ## Splitting at a separator -/

private theorem append_cons_inj_left {c : Char} :
    ∀ {l l' x y : List Char}, c ∉ l → c ∉ l' → l ++ c :: x = l' ++ c :: y → l = l' ∧ x = y
  | [], [], _, _, _, _, h => ⟨rfl, (List.cons.inj h).2⟩
  | [], d :: _, _, _, _, h', h => by
    simp only [List.nil_append, List.cons_append, List.cons.injEq] at h
    exact absurd (h.1 ▸ List.mem_cons_self _ _) h'
  | d :: _, [], _, _, h', _, h => by
    simp only [List.nil_append, List.cons_append, List.cons.injEq] at h
    exact absurd (h.1 ▸ List.mem_cons_self _ _) h'
  | d :: l, e :: l', x, y, hl, hl', h => by
    simp only [List.cons_append, List.cons.injEq] at h
    obtain ⟨rfl, h⟩ := h
    obtain ⟨rfl, rfl⟩ := append_cons_inj_left (List.not_mem_of_not_mem_cons hl)
      (List.not_mem_of_not_mem_cons hl') h
    exact ⟨rfl, rfl⟩

/-- Splitting at the last occurrence of a separator `c`. -/
theorem append_cons_inj_right {c : Char} {l l' x y : List Char} (hx : c ∉ x) (hy : c ∉ y)
    (h : l ++ c :: x = l' ++ c :: y) : l = l' ∧ x = y := by
  have hr := congrArg List.reverse h
  simp only [List.reverse_append, List.reverse_cons, List.append_assoc, List.singleton_append]
    at hr
  obtain ⟨h1, h2⟩ := append_cons_inj_left (by simpa using hx) (by simpa using hy) hr
  exact ⟨List.reverse_injective h2, List.reverse_injective h1⟩

/-! ## Formats -/

/-- The last character of an id. -/
def lastChar (s : String) : Option Char := s.data.getLast?

theorem lastChar_append (a b : String) (hb : b.data ≠ []) : lastChar (a ++ b) = lastChar b := by
  rw [lastChar, String.data_append, List.getLast?_append_of_ne_nil _ hb]; rfl

/-- The last character of `str(k)` is a digit. -/
theorem lastChar_toString (k : Int) : ∃ d, lastChar (toString k) = some d ∧ d.isDigit :=
  (toString_int_data k).2

@[simp] theorem lastChar_entryPlaceId (f : String) : lastChar (entryPlaceId f) = some 'y' :=
  lastChar_append _ _ (by decide)
@[simp] theorem lastChar_exitPlaceId (f : String) : lastChar (exitPlaceId f) = some 't' :=
  lastChar_append _ _ (by decide)
@[simp] theorem lastChar_mutexFreeId (k : String) : lastChar (mutexFreeId k) = some 'e' :=
  lastChar_append _ _ (by decide)
@[simp] theorem lastChar_mutexHeldId (k : String) : lastChar (mutexHeldId k) = some 'd' :=
  lastChar_append _ _ (by decide)
@[simp] theorem lastChar_startTransitionId (f : String) :
    lastChar (startTransitionId f) = some 't' :=
  lastChar_append _ _ (by decide)
@[simp] theorem lastChar_returnTransitionId (f : String) (k : Int) :
    lastChar (returnTransitionId f k) = some 'n' :=
  lastChar_append _ _ (by decide)

theorem lastChar_bbPlaceId (f : String) (k : Int) :
    ∃ d, lastChar (bbPlaceId f k) = some d ∧ d.isDigit := by
  obtain ⟨d, hd, hdig⟩ := lastChar_toString k
  refine ⟨d, ?_, hdig⟩
  rw [bbPlaceId, lastChar_append _ _ (fun h => by simp [lastChar, h] at hd), hd]

theorem lastChar_edgeTransitionId (f : String) (k m : Int) :
    ∃ d, lastChar (edgeTransitionId f k m) = some d ∧ d.isDigit := by
  obtain ⟨d, hd, hdig⟩ := lastChar_toString m
  refine ⟨d, ?_, hdig⟩
  rw [edgeTransitionId, lastChar_append _ _ (fun h => by simp [lastChar, h] at hd), hd]

/-- The first character of an id. -/
def firstChar (s : String) : Option Char := s.data.head?

@[simp] theorem firstChar_entryPlaceId (f : String) : firstChar (entryPlaceId f) = some 'p' := by
  simp [firstChar, entryPlaceId]
@[simp] theorem firstChar_exitPlaceId (f : String) : firstChar (exitPlaceId f) = some 'p' := by
  simp [firstChar, exitPlaceId]
@[simp] theorem firstChar_bbPlaceId (f : String) (k : Int) : firstChar (bbPlaceId f k) = some 'p' := by
  simp [firstChar, bbPlaceId]
@[simp] theorem firstChar_mutexFreeId (k : String) : firstChar (mutexFreeId k) = some 'p' := by
  simp [firstChar, mutexFreeId]
@[simp] theorem firstChar_mutexHeldId (k : String) : firstChar (mutexHeldId k) = some 'p' := by
  simp [firstChar, mutexHeldId]
@[simp] theorem firstChar_startTransitionId (f : String) :
    firstChar (startTransitionId f) = some 't' := by
  simp [firstChar, startTransitionId]
@[simp] theorem firstChar_edgeTransitionId (f : String) (k m : Int) :
    firstChar (edgeTransitionId f k m) = some 't' := by
  simp [firstChar, edgeTransitionId]
@[simp] theorem firstChar_returnTransitionId (f : String) (k : Int) :
    firstChar (returnTransitionId f k) = some 't' := by
  simp [firstChar, returnTransitionId]

/-! ## Injectivity -/

private theorem bbPlaceId_data (f : String) (k : Int) :
    (bbPlaceId f k).data = ('p' :: '_' :: f.data) ++ '_' :: 'b' :: 'b' :: (toString k).data := by
  simp [bbPlaceId]

private theorem edgeTransitionId_data (f : String) (k m : Int) :
    (edgeTransitionId f k m).data =
      (('t' :: '_' :: f.data) ++ '_' :: 'b' :: 'b' :: (toString k).data ++ ['_', 't', 'o']) ++
        '_' :: 'b' :: 'b' :: (toString m).data := by
  simp [edgeTransitionId]

private theorem returnTransitionId_data (f : String) (k : Int) :
    (returnTransitionId f k).data =
      (('t' :: '_' :: f.data) ++ '_' :: 'b' :: 'b' :: (toString k).data) ++ "_return".data := by
  simp [returnTransitionId]

private theorem not_mem_bb (k : Int) : '_' ∉ 'b' :: 'b' :: (toString k).data := by
  simpa using underscore_not_mem_toString k

/-- `f` and `k` read back from `p_{f}_bb{k}`. -/
private theorem split_bb (pre : List Char) {f g : String} {k m : Int}
    (h : (pre ++ f.data) ++ '_' :: 'b' :: 'b' :: (toString k).data =
      (pre ++ g.data) ++ '_' :: 'b' :: 'b' :: (toString m).data) : f = g ∧ k = m := by
  obtain ⟨h1, h2⟩ := append_cons_inj_right (not_mem_bb k) (not_mem_bb m) h
  exact ⟨String.ext_iff.mpr (List.append_cancel_left h1),
    toString_int_injective (String.ext_iff.mpr (by simpa using h2))⟩

theorem entryPlaceId_injective {f g : String} (h : entryPlaceId f = entryPlaceId g) : f = g := by
  simpa [entryPlaceId, String.ext_iff] using h

theorem exitPlaceId_injective {f g : String} (h : exitPlaceId f = exitPlaceId g) : f = g := by
  simpa [exitPlaceId, String.ext_iff] using h

theorem mutexFreeId_injective {k k' : String} (h : mutexFreeId k = mutexFreeId k') : k = k' := by
  simpa [mutexFreeId, String.ext_iff] using h

theorem mutexHeldId_injective {k k' : String} (h : mutexHeldId k = mutexHeldId k') : k = k' := by
  simpa [mutexHeldId, String.ext_iff] using h

theorem startTransitionId_injective {f g : String}
    (h : startTransitionId f = startTransitionId g) : f = g := by
  simpa [startTransitionId, String.ext_iff] using h

theorem bbPlaceId_injective {f g : String} {k m : Int} (h : bbPlaceId f k = bbPlaceId g m) :
    f = g ∧ k = m := by
  have h := congrArg String.data h
  rw [bbPlaceId_data, bbPlaceId_data] at h
  exact split_bb ['p', '_'] h

theorem edgeTransitionId_injective {f g : String} {k k' m m' : Int}
    (h : edgeTransitionId f k m = edgeTransitionId g k' m') : f = g ∧ k = k' ∧ m = m' := by
  have h := congrArg String.data h
  rw [edgeTransitionId_data, edgeTransitionId_data] at h
  obtain ⟨h1, h2⟩ := append_cons_inj_right (not_mem_bb m) (not_mem_bb m') h
  obtain ⟨rfl, rfl⟩ := split_bb ['t', '_'] (List.append_cancel_right h1)
  exact ⟨rfl, rfl, toString_int_injective (String.ext_iff.mpr (by simpa using h2))⟩

theorem returnTransitionId_injective {f g : String} {k m : Int}
    (h : returnTransitionId f k = returnTransitionId g m) : f = g ∧ k = m := by
  have h := congrArg String.data h
  rw [returnTransitionId_data, returnTransitionId_data] at h
  exact split_bb ['t', '_'] (List.append_cancel_right h)

@[simp] theorem entryPlaceId_inj {f g : String} : entryPlaceId f = entryPlaceId g ↔ f = g :=
  ⟨entryPlaceId_injective, congrArg _⟩
@[simp] theorem exitPlaceId_inj {f g : String} : exitPlaceId f = exitPlaceId g ↔ f = g :=
  ⟨exitPlaceId_injective, congrArg _⟩
@[simp] theorem mutexFreeId_inj {k k' : String} : mutexFreeId k = mutexFreeId k' ↔ k = k' :=
  ⟨mutexFreeId_injective, congrArg _⟩
@[simp] theorem mutexHeldId_inj {k k' : String} : mutexHeldId k = mutexHeldId k' ↔ k = k' :=
  ⟨mutexHeldId_injective, congrArg _⟩

/-! ## Id classes -/

/-- The format an id's last character names; all digits count alike. -/
def idClass (s : String) : Option Char := (lastChar s).map fun c => if c.isDigit then '0' else c

@[simp] theorem idClass_entryPlaceId (f : String) : idClass (entryPlaceId f) = some 'y' := by
  simp [idClass]
@[simp] theorem idClass_exitPlaceId (f : String) : idClass (exitPlaceId f) = some 't' := by
  simp [idClass]
@[simp] theorem idClass_mutexFreeId (k : String) : idClass (mutexFreeId k) = some 'e' := by
  simp [idClass]
@[simp] theorem idClass_mutexHeldId (k : String) : idClass (mutexHeldId k) = some 'd' := by
  simp [idClass]
@[simp] theorem idClass_startTransitionId (f : String) :
    idClass (startTransitionId f) = some 't' := by
  simp [idClass]
@[simp] theorem idClass_returnTransitionId (f : String) (k : Int) :
    idClass (returnTransitionId f k) = some 'n' := by
  simp [idClass]
@[simp] theorem idClass_bbPlaceId (f : String) (k : Int) : idClass (bbPlaceId f k) = some '0' := by
  obtain ⟨d, hd, hdig⟩ := lastChar_bbPlaceId f k
  simp [idClass, hd, hdig]
@[simp] theorem idClass_edgeTransitionId (f : String) (k m : Int) :
    idClass (edgeTransitionId f k m) = some '0' := by
  obtain ⟨d, hd, hdig⟩ := lastChar_edgeTransitionId f k m
  simp [idClass, hd, hdig]

/-- Ids of different classes or different first characters differ. -/
theorem ne_of_idClass_ne {a b : String} (h : idClass a ≠ idClass b) : a ≠ b := fun e => h (e ▸ rfl)

theorem ne_of_firstChar_ne {a b : String} (h : firstChar a ≠ firstChar b) : a ≠ b :=
  fun e => h (e ▸ rfl)

/-- For `simp`: an equation between ids of different classes is false. -/
theorem eq_false_of_idClass_ne {a b : String} (h : idClass a ≠ idClass b) : (a = b) = False :=
  eq_false (ne_of_idClass_ne h)

theorem eq_false_of_firstChar_ne {a b : String} (h : firstChar a ≠ firstChar b) : (a = b) = False :=
  eq_false (ne_of_firstChar_ne h)

end Mir2Pnml
