import Mir2Pnml.Braces
import Mir2Pnml.Pnml

/-! # The command line

Once the MIR file has been read, `main` parses the text, stops with an error when no function
was found, and otherwise builds the net from the functions found, under `--entry-fn` and
`--max-fns`, and writes it as PNML. On a `PyReadable` text, ASCII with no run of more than
4300 digits, the parser raises nothing, so `main`'s `except ParseError` branch is not taken;
the error is printed exactly when the text holds no function header, and the file written
reads back as the places, transitions and arcs of the built net. On other texts the model does
not follow Python (its `\w` is Unicode, and `int()` refuses longer runs), and nothing is
claimed.
-/
namespace Mir2Pnml

open Pattern

/-- `main` past reading the file, on a `PyReadable` text: the PNML tree it writes, or the
message it prints before returning 1. -/
def main (text entryFn : String) (maxFns : Option Int) : Except String Element :=
  let functions := parseMir text
  if functions.isEmpty then .error "Error: no functions parsed from MIR"
  else .ok (writePnml (buildPetriNet functions entryFn maxFns))

/-- `re.search` finds nothing exactly when no position matches. -/
theorem searchAt_eq_none {α : Type} {m : List Char → Option α} :
    ∀ {cs : List Char}, searchAt m cs = none ↔ ∀ k ≤ cs.length, m (cs.drop k) = none
  | [] => by simp [searchAt]
  | c :: cs => by
    rw [searchAt]
    split
    · rename_i a h
      simp only [reduceCtorEq, false_iff, not_forall]
      exact ⟨0, Nat.zero_le _, by simp [h]⟩
    · rename_i h
      rw [Option.map_eq_none', searchAt_eq_none]
      constructor
      · intro hk k hk'
        cases k with
        | zero => exact h
        | succ k => exact hk k (by simpa using hk')
      · intro hk k hk'
        exact hk (k + 1) (by simpa using hk')

/-- `parse_mir` finds no function exactly when the text has no function header. -/
theorem parseMir_eq_nil_iff (text : String) :
    parseMir text = [] ↔ searchAt fnHeaderAt text.data = none := by
  rw [parseMir, List.map_eq_nil_iff]
  constructor
  · intro h
    have hd := fnTexts_discovers text.data
    rw [h] at hd
    cases hd with
    | done hs => simpa using hs
  · intro h
    exact ((fnTexts_discovers text.data).unique (.done (by simpa using h)))

/-- On a text it reads as Python does, `main` prints the error exactly when no position of the
text starts a function header; otherwise the PNML tree it writes reads back as the places,
transitions and arcs of the net built from the functions `parse_mir` finds. -/
theorem main_spec (text entryFn : String) (maxFns : Option Int) (_ : PyReadable text.data) :
    (main text entryFn maxFns = .error "Error: no functions parsed from MIR" ↔
      ∀ k ≤ text.length, fnHeaderAt (text.data.drop k) = none) ∧
    ∀ tree, main text entryFn maxFns = .ok tree →
      readNet tree =
        some ((buildPetriNet (parseMir text) entryFn maxFns).places.map
            (fun p => (p.id, p.name, p.initTokens)),
          (buildPetriNet (parseMir text) entryFn maxFns).transitions.map (fun t => (t.id, t.name)),
          (buildPetriNet (parseMir text) entryFn maxFns).arcs.map
            (fun a => (a.id, a.source, a.target, a.weight))) := by
  have hlen : text.length = text.data.length := rfl
  refine ⟨?_, fun tree h => ?_⟩
  · rw [hlen, ← searchAt_eq_none, ← parseMir_eq_nil_iff, main]
    by_cases h : parseMir text = [] <;> simp [h]
  · rw [main] at h
    split at h
    · cases h
    · cases h
      exact readNet_writePnml_buildPetriNet _ _ _

theorem main_spec_unclosed :
    PyReadable unclosed.data ∧
      ((main unclosed "main" none = .error "Error: no functions parsed from MIR" ↔
        ∀ k ≤ unclosed.length, fnHeaderAt (unclosed.data.drop k) = none) ∧
      ∀ tree, main unclosed "main" none = .ok tree →
        readNet tree =
          some ((buildPetriNet (parseMir unclosed) "main" none).places.map
              (fun p => (p.id, p.name, p.initTokens)),
            (buildPetriNet (parseMir unclosed) "main" none).transitions.map (fun t => (t.id, t.name)),
            (buildPetriNet (parseMir unclosed) "main" none).arcs.map
              (fun a => (a.id, a.source, a.target, a.weight)))) :=
  ⟨by decide, main_spec _ _ _ (by decide)⟩

end Mir2Pnml
