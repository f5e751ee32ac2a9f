import Mathlib.Data.List.Infix

/-! # The Python built-ins the translator relies on

Text is handled as character lists. This module gives `str.isspace`, `str.strip`,
`str.split("\n")`, the substring test `in`, `str.lower`, `dict` reads and writes on
insertion-ordered association lists, the slice `xs[:n]`, and the truthiness of an
`Optional[str]`. Python's `\d` and `\w` are Unicode-aware, and `int()` and `str()` refuse
integers of more than 4300 digits; the model reads the first two on ASCII characters and
takes the last two as total. On a `PyReadable` text, ASCII only and with no longer run of
digits, the two readings agree.
-/
namespace Mir2Pnml

/-- `str.isspace` on one character, which is also what `\s` and `str.strip()` use:
the separators, the C0 controls TAB..CR and FS..US, NEL, NBSP and the Unicode spaces. -/
def isPySpace (c : Char) : Bool :=
  (9 ≤ c.toNat && c.toNat ≤ 13) || (28 ≤ c.toNat && c.toNat ≤ 32) || c.toNat = 0x85 ||
    c.toNat = 0xA0 || c.toNat = 0x1680 || (0x2000 ≤ c.toNat && c.toNat ≤ 0x200A) ||
    c.toNat = 0x2028 || c.toNat = 0x2029 || c.toNat = 0x202F || c.toNat = 0x205F ||
    c.toNat = 0x3000

/-- `\d` on an ASCII character (Python's also takes the other Unicode decimal digits). -/
def isPyDigit (c : Char) : Bool := '0' ≤ c && c ≤ '9'

/-- `\w` on an ASCII character (Python's also takes the other Unicode letters and digits); `\b`
is read through it. -/
def isPyWord (c : Char) : Bool := c.isAlphanum || c = '_'

/-- `str.strip()`. -/
def pyStrip (s : List Char) : List Char :=
  ((s.dropWhile isPySpace).reverse.dropWhile isPySpace).reverse

/-- `str.split("\n")`. -/
def splitLines (s : List Char) : List (List Char) := s.splitOn '\n'

/-- `sub in s` for strings. -/
def pyContains (s sub : List Char) : Bool := s.tails.any (sub.isPrefixOf ·)

/-- `str.lower()` as far as its ASCII characters go: ASCII letters are lowered, the Kelvin sign
lowers to `k` and `İ` to `i` and a combining dot, and every other character lowers to text
outside ASCII, which is kept as it is. So `sub in s.lower()` is read exactly for an ASCII
`sub`. -/
def pyLower (s : List Char) : List Char :=
  s.flatMap fun c => if c = '\u212A' then ['k'] else if c = '\u0130' then ['i', '\u0307'] else [c.toLower]

/-- `int(s)` on a run of decimal digits, of at most 4300 of them on a `PyReadable` text. -/
def digitsValue (ds : List Char) : Nat := ds.foldl (fun n c => 10 * n + (c.toNat - '0'.toNat)) 0

/-- A text the model reads as Python does: every character is ASCII, and no run of digits (a
piece between two non-digits) is longer than the 4300 digits `int()` converts
(`sys.int_info.default_max_str_digits`); on a longer one `_parse_function_body` raises and
`parse_mir` reraises it as a `ParseError`. -/
def PyReadable (cs : List Char) : Prop :=
  (∀ c ∈ cs, c.toNat < 128) ∧ ∀ run ∈ cs.splitOnP (fun c => !isPyDigit c), run.length ≤ 4300

instance (cs : List Char) : Decidable (PyReadable cs) := inferInstanceAs (Decidable (_ ∧ _))

/-- An integer `str()` converts: one of at most 4300 decimal digits. -/
def PyIntFits (k : Int) : Prop := (Nat.toDigits 10 k.natAbs).length ≤ 4300

instance (k : Int) : Decidable (PyIntFits k) := inferInstanceAs (Decidable (_ ≤ _))

/-- `d[k] = v` on a dict kept as an insertion-ordered association list: an existing key
keeps its position. -/
def dictSet {K V : Type} [DecidableEq K] : List (K × V) → K → V → List (K × V)
  | [], k, v => [(k, v)]
  | (k', v') :: d, k, v => if k' = k then (k, v) :: d else (k', v') :: dictSet d k v

/-- `xs[:n]` for a Python integer `n`: a negative `n` counts from the end. -/
def pySliceTo {α : Type} (xs : List α) (n : Int) : List α :=
  if 0 ≤ n then xs.take n.toNat else xs.take (xs.length - n.natAbs)

/-- The value of an `Optional[str]` where it is truthy: `None` and `""` are falsy. -/
def truthy (o : Option String) : Option String := o.filter (· != "")

/-- `a or b` on two `Optional[str]` values. -/
def pyOr (a b : Option String) : Option String := if (truthy a).isSome then a else b

section Lemmas
variable {K V : Type} [DecidableEq K]

@[simp] theorem lookup_cons_ite (j k : K) (w : V) (d : List (K × V)) :
    ((j, w) :: d).lookup k = if k = j then some w else d.lookup k := by
  by_cases h : k = j
  · simp [List.lookup_cons, h]
  · simp [List.lookup_cons, h, beq_eq_false_iff_ne.mpr h]

theorem lookup_dictSet (d : List (K × V)) (k k' : K) (v : V) :
    (dictSet d k v).lookup k' = if k' = k then some v else d.lookup k' := by
  induction d with
  | nil => simp [dictSet]
  | cons e d ih =>
    obtain ⟨j, w⟩ := e
    by_cases hj : j = k
    · subst hj; by_cases h : k' = j <;> simp [dictSet, h]
    · by_cases h : k' = j
      · subst h; simp [dictSet, hj]
      · simp [dictSet, hj, h, ih]

/-- A run of dict stores leaves each key with its last store. -/
theorem lookup_foldl_dictSet (L d : List (K × V)) (x : K) :
    (L.foldl (fun d p => dictSet d p.1 p.2) d).lookup x = (L.reverse.lookup x).or (d.lookup x) := by
  induction L generalizing d with
  | nil => simp
  | cons p L ih =>
    rw [List.foldl_cons, ih, lookup_dictSet, List.reverse_cons, List.lookup_append, Option.or_assoc]
    obtain ⟨a, b⟩ := p
    by_cases h : x = a <;> simp [h]

theorem dictSet_of_lookup_none {d : List (K × V)} {k : K} (h : d.lookup k = none) (v : V) :
    dictSet d k v = d ++ [(k, v)] := by
  induction d with
  | nil => rfl
  | cons e d ih =>
    obtain ⟨j, w⟩ := e
    by_cases hj : k = j
    · subst hj; simp at h
    · simp only [lookup_cons_ite, hj, if_false] at h
      simp [dictSet, Ne.symm hj, ih h]

@[simp] theorem truthy_none : truthy none = none := rfl

theorem truthy_eq_some {o : Option String} {k : String} :
    truthy o = some k ↔ o = some k ∧ k ≠ "" := by
  cases o with
  | none => simp
  | some s => simp only [truthy, Option.filter]; split <;> aesop

theorem pyOr_of_truthy {a : Option String} {k : String} (h : truthy a = some k) (b : Option String) :
    pyOr a b = some k := by
  rw [pyOr, h]; simp [(truthy_eq_some.mp h).1]

theorem pyOr_of_not_truthy {a : Option String} (h : truthy a = none) (b : Option String) :
    pyOr a b = b := by
  simp [pyOr, h]

theorem pySliceTo_natCast {α : Type} (xs : List α) (n : Nat) : pySliceTo xs n = xs.take n := by
  rw [pySliceTo, if_pos (by omega)]; rfl

end Lemmas

end Mir2Pnml
