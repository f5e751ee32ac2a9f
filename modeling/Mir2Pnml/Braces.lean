import Mir2Pnml.Parser

/-! # The function texts of `parse_mir`

After a header `parse_mir` counts the brace depth over the characters that follow its `{`, from
depth 1, and stops when the depth reaches 0 or the text ends; the body is everything it read
but the last character. The `}` that matches the header's `{` is the one right after which the
depth is 0 for the first time (`ClosesAt`). When there is one, the body is the text strictly
between the two braces and the search for the next header resumes after the `}`. When there
is none, the loop reads to the end of the text, the body is the rest of the text without its
last character, and no header is searched for after it: that function is the last one, and
nothing is raised. `Discovers` says this, and `fnTexts_discovers` shows the loop does it.
-/
namespace Mir2Pnml

open Pattern

/-- One step of the depth counter. -/
def depthStep (d : Int) (c : Char) : Int :=
  if c = '\x7b' then d + 1 else if c = '\x7d' then d - 1 else d

/-- The brace depth after reading `cs` from depth `d`. -/
def depthAfter (d : Int) (cs : List Char) : Int := cs.foldl depthStep d

/-- The `}` at index `j` of `cs` closes a brace opened at depth `d`: the depth stays positive
up to it and is 0 right after it. -/
def ClosesAt (d : Int) (cs : List Char) (j : Nat) : Prop :=
  j < cs.length ∧ depthAfter d (cs.take (j + 1)) = 0 ∧ ∀ i ≤ j, 0 < depthAfter d (cs.take i)

instance (d : Int) (cs : List Char) (j : Nat) : Decidable (ClosesAt d cs j) :=
  inferInstanceAs (Decidable (_ ∧ _ ∧ _))

section Depth
variable {d : Int} {c : Char} {cs : List Char} {j : Nat}

@[simp] theorem depthAfter_nil (d : Int) : depthAfter d [] = d := rfl

@[simp] theorem depthAfter_cons (d : Int) (c : Char) (cs : List Char) :
    depthAfter d (c :: cs) = depthAfter (depthStep d c) cs := rfl

theorem depthStep_natCast {d : Nat} (hd : 0 < d) (c : Char) :
    ((if c = '\x7b' then d + 1 else if c = '\x7d' then d - 1 else d : Nat) : Int) = depthStep d c := by
  unfold depthStep
  split_ifs <;> omega

theorem closesAt_zero_iff : ClosesAt d (c :: cs) 0 ↔ 0 < d ∧ depthStep d c = 0 := by
  simp [ClosesAt]
  exact And.comm

theorem closesAt_succ_iff :
    ClosesAt d (c :: cs) (j + 1) ↔ 0 < d ∧ ClosesAt (depthStep d c) cs j := by
  simp only [ClosesAt, List.length_cons, List.take_succ_cons, depthAfter_cons]
  constructor
  · rintro ⟨hj, h0, hpos⟩
    refine ⟨by simpa using hpos 0 (Nat.zero_le _), by omega, h0, fun i hi => ?_⟩
    simpa using hpos (i + 1) (by omega)
  · rintro ⟨hd, hj, h0, hpos⟩
    refine ⟨by omega, h0, fun i hi => ?_⟩
    cases i with
    | zero => simpa using hd
    | succ i => simpa using hpos i (by omega)

theorem ClosesAt.unique {j' : Nat} (h : ClosesAt d cs j) (h' : ClosesAt d cs j') : j = j' := by
  rcases Nat.lt_trichotomy j j' with hlt | heq | hgt
  · have := h'.2.2 (j + 1) hlt
    rw [h.2.1] at this
    exact absurd this (Int.lt_irrefl 0)
  · exact heq
  · have := h.2.2 (j' + 1) hgt
    rw [h'.2.1] at this
    exact absurd this (Int.lt_irrefl 0)

theorem not_closesAt_of_pos (h : ∀ i ≤ cs.length, 0 < depthAfter d (cs.take i)) (j : Nat) :
    ¬ClosesAt d cs j := fun hj => by
  have := h (j + 1) hj.1
  rw [hj.2.1] at this
  exact Int.lt_irrefl 0 this

end Depth

/-- The brace loop reads up to and including the matching `}`, or the whole text when there
is none. -/
theorem braceSpan_spec {d : Nat} (hd : 0 < d) (cs : List Char) :
    (∃ j, ClosesAt d cs j ∧ braceSpan d cs = j + 1) ∨
      ((∀ j, ¬ClosesAt d cs j) ∧ braceSpan d cs = cs.length) := by
  induction cs generalizing d with
  | nil => exact .inr ⟨fun j h => absurd h.1 (Nat.not_lt_zero _), rfl⟩
  | cons c cs ih =>
    have hstep := depthStep_natCast hd c
    simp only [braceSpan]
    generalize (if c = '\x7b' then d + 1 else if c = '\x7d' then d - 1 else d) = d' at hstep ⊢
    by_cases h0 : d' = 0
    · subst h0
      exact .inl ⟨0, closesAt_zero_iff.mpr ⟨by omega, hstep.symm⟩, if_pos rfl⟩
    · rw [if_neg h0]
      rcases ih (Nat.pos_of_ne_zero h0) with ⟨j, hj, hs⟩ | ⟨hno, hs⟩
      · exact .inl ⟨j + 1, closesAt_succ_iff.mpr ⟨by omega, hstep ▸ hj⟩, by rw [hs]⟩
      · refine .inr ⟨fun j hj => ?_, by rw [hs, List.length_cons]⟩
        cases j with
        | zero => exact h0 (by have := (closesAt_zero_iff.mp hj).2; omega)
        | succ j => exact hno j (hstep ▸ (closesAt_succ_iff.mp hj).2)

/-! ## The functions found -/

/-- The functions `parse_mir` finds from position `pos` of `text`, stated by brace depth:
the leftmost header at or after `pos`, with the text strictly between its `{` and the matching
`}`, then the functions after that `}`; or, when the `{` has no matching `}`, the rest of the
text without its last character, and nothing after it. -/
inductive Discovers (text : List Char) : Nat → List FnText → Prop
  | done {pos : Nat} : searchAt fnHeaderAt (text.drop pos) = none → Discovers text pos []
  | closed {pos k j : Nat} {name rest : List Char} {fts : List FnText} :
      searchAt fnHeaderAt (text.drop pos) = some (k, name, rest) → ClosesAt 1 rest j →
      Discovers text (text.length - rest.length + j + 1) fts →
      Discovers text pos
        (⟨String.mk name, rest.take j, (text.take (pos + k)).count '\n' + 1⟩ :: fts)
  | unclosed {pos k : Nat} {name rest : List Char} :
      searchAt fnHeaderAt (text.drop pos) = some (k, name, rest) → (∀ j, ¬ClosesAt 1 rest j) →
      Discovers text pos [⟨String.mk name, rest.dropLast, (text.take (pos + k)).count '\n' + 1⟩]

theorem Discovers.unique {text : List Char} {pos : Nat} {fts fts' : List FnText}
    (h : Discovers text pos fts) (h' : Discovers text pos fts') : fts = fts' := by
  induction h generalizing fts' with
  | done hs => cases h' <;> simp_all
  | closed hs hj _ ih =>
    cases h' with
    | done hs' => simp_all
    | closed hs' hj' hrest =>
      rw [hs] at hs'
      cases hs'
      obtain rfl := hj.unique hj'
      rw [ih hrest]
    | unclosed hs' hno =>
      rw [hs] at hs'
      cases hs'
      exact absurd hj (hno _)
  | unclosed hs hno =>
    cases h' with
    | done hs' => simp_all
    | closed hs' hj' _ =>
      rw [hs] at hs'
      cases hs'
      exact absurd hj' (hno _)
    | unclosed hs' _ =>
      rw [hs] at hs'
      cases hs'
      rfl

theorem fnTextsFrom_length (text : List Char) (fuel : Nat) :
    fnTextsFrom text fuel text.length = [] := by
  cases fuel with
  | zero => rfl
  | succ fuel => simp [fnTextsFrom, searchAt, fnHeaderAt, lit]

theorem fnTextsFrom_discovers (text : List Char) {fuel pos : Nat} (h : text.length - pos < fuel) :
    Discovers text pos (fnTextsFrom text fuel pos) := by
  induction fuel generalizing pos with
  | zero => omega
  | succ fuel ih =>
    rw [fnTextsFrom]
    split
    · exact .done ‹_›
    · rename_i k name rest hs
      obtain ⟨hm, hk⟩ := searchAt_spec hs
      have hlen := fnHeaderAt_length hm
      simp only [List.length_drop] at hlen hk
      dsimp only
      rcases braceSpan_spec Nat.one_pos rest with ⟨j, hj, hspan⟩ | ⟨hno, hspan⟩
      · rw [hspan, Nat.add_sub_cancel, ← Nat.add_assoc]
        exact .closed hs hj (ih (by omega))
      · rw [hspan, Nat.sub_add_cancel (by omega), fnTextsFrom_length, ← List.dropLast_eq_take]
        exact .unclosed hs hno

theorem fnTexts_discovers (text : List Char) : Discovers text 0 (fnTexts text) :=
  fnTextsFrom_discovers text (by omega)

/-- What follows the `{` of the header of `unclosed`: one block, and no `}` for the function. -/
def unclosedRest : String := "\n    bb0: \x7b\n        return;\n    \x7d\n"

/-- A dump cut off before the `}` of its function. -/
def unclosed : String := "fn main() -> () \x7b" ++ unclosedRest

/-- On a text it reads as Python does, `parse_mir` returns, and what it returns is the parse of
the function texts found: each body strictly between its header's `{` and the matching `}`,
or, for a `{` with no matching `}`, the rest of the text without its last character, as the
last function. -/
theorem parseMir_discovered (text : String) (_ : PyReadable text.data) :
    (∃ fts, Discovers text.data 0 fts) ∧
      ∀ fts, Discovers text.data 0 fts → parseMir text = fts.map FnText.parse :=
  ⟨⟨_, fnTexts_discovers _⟩, fun _ h => congrArg _ ((fnTexts_discovers _).unique h)⟩

theorem parseMir_discovered_unclosed :
    PyReadable unclosed.data ∧ ((∃ fts, Discovers unclosed.data 0 fts) ∧
      ∀ fts, Discovers unclosed.data 0 fts → parseMir unclosed = fts.map FnText.parse) :=
  ⟨by decide, parseMir_discovered _ (by decide)⟩

/-- The header of `unclosed` is found and its `{` has no matching `}`, yet `parse_mir` returns
the function, with the rest of the text but its last character as the body. -/
theorem unclosed_returns :
    searchAt fnHeaderAt unclosed.data = some (0, "main".data, unclosedRest.data) ∧
      (∀ j, ¬ClosesAt 1 unclosedRest.data j) ∧
      parseMir unclosed = [parseFunctionBody "main" unclosedRest.data.dropLast 1] :=
  ⟨by decide, not_closesAt_of_pos (by decide), by decide⟩

end Mir2Pnml
