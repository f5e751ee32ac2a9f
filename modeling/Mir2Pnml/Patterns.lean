import Mir2Pnml.Builtins

/-! # The translator's regular expressions

Each pattern of `mir_parser.py` and `pn_builder.py` is written as a matcher anchored at
the head of a character list, built from the pieces below; `search` is `re.search` (the
leftmost start that matches) and an anchored matcher used alone is `re.match`. The
patterns are greedy and, apart from `\s*` in front of a `[^c]+` group, no backtracking
changes whether or what they match: where the regex engine would backtrack, the matchers
say so.
-/
namespace Mir2Pnml.Pattern

/-- `\s*` -/
def spaces (cs : List Char) : List Char := cs.dropWhile isPySpace

/-- `\s+` -/
def spaces1 : List Char → Option (List Char)
  | c :: cs => if isPySpace c then some (spaces cs) else none
  | [] => none

/-- A literal. -/
def lit (s : String) (cs : List Char) : Option (List Char) :=
  if s.data.isPrefixOf cs then some (cs.drop s.length) else none

/-- A non-empty greedy run of characters satisfying `p`. -/
def run1 (p : Char → Bool) (cs : List Char) : Option (List Char × List Char) :=
  match cs.takeWhile p with
  | [] => none
  | xs => some (xs, cs.dropWhile p)

/-- `(\d+)` -/
def digits1 : List Char → Option (List Char × List Char) := run1 isPyDigit

/-- `(\w+)` -/
def word1 : List Char → Option (List Char × List Char) := run1 isPyWord

/-- `([^c]+)` -/
def noneOf1 (c : Char) : List Char → Option (List Char × List Char) := run1 (· != c)

/-- `[^c]*` -/
def noneOf (c : Char) (cs : List Char) : List Char := cs.dropWhile (· != c)

/-- `(_\d+)` -/
def localName (cs : List Char) : Option (List Char × List Char) := do
  let r ← lit "_" cs
  let (ds, r) ← digits1 r
  pure ('_' :: ds, r)

/-- `\s*([^c]+)`: when only spaces stand before `c`, the engine gives the last space
back to the group. -/
def spacesNoneOf1 (c : Char) (cs : List Char) : Option (List Char × List Char) :=
  match noneOf1 c (spaces cs) with
  | some r => some r
  | none => ((cs.takeWhile isPySpace).getLast?).map fun sp => ([sp], spaces cs)

/-- `re.search` with an anchored matcher: the leftmost start that matches, and its index. -/
def searchAt {α : Type} (m : List Char → Option α) : List Char → Option (Nat × α)
  | [] => (m []).map (0, ·)
  | c :: cs =>
    match m (c :: cs) with
    | some a => some (0, a)
    | none => (searchAt m cs).map fun p => (p.1 + 1, p.2)

def search {α : Type} (m : List Char → Option α) (cs : List Char) : Option α :=
  (searchAt m cs).map (·.2)

/-! ## Terminator patterns -/

/-- `\]\s*;` -/
def closeTerm (cs : List Char) : Option (List Char) := do
  let r ← lit "]" cs
  lit ";" (spaces r)

/-- `(?:bb(\d+)|continue|terminate[^]]*)`, giving the block when there is one. -/
def unwindTarget (cs : List Char) : Option (Option (List Char) × List Char) :=
  match lit "bb" cs with
  | some r => (digits1 r).map fun p => (some p.1, p.2)
  | none =>
    match lit "continue" cs with
    | some r => some (none, r)
    | none => (lit "terminate" cs).map fun r => (none, noneOf ']' r)

/-- `\s*->\s*\[return:\s*bb(\d+)(?:,\s*unwind:\s*(?:...))?\]\s*;`: the return and the
unwind target of a drop or a call. -/
def returnClause (cs : List Char) : Option (List Char × Option (List Char)) := do
  let r ← lit "->" (spaces cs)
  let r ← lit "[return:" (spaces r)
  let r ← lit "bb" (spaces r)
  let (ret, r) ← digits1 r
  let withUnwind : Option (Option (List Char)) := do
    let r ← lit "," r
    let r ← lit "unwind:" (spaces r)
    let (u, r) ← unwindTarget (spaces r)
    let _ ← closeTerm r
    pure u
  match withUnwind with
  | some u => pure (ret, u)
  | none => do let _ ← closeTerm r; pure (ret, none)

/-- `goto\s*->\s*bb(\d+)\s*;` -/
def gotoAt (cs : List Char) : Option (List Char) := do
  let r ← lit "goto" cs
  let r ← lit "->" (spaces r)
  let r ← lit "bb" (spaces r)
  let (t, r) ← digits1 r
  let _ ← lit ";" (spaces r)
  pure t

/-- `return\s*;` -/
def returnAt (cs : List Char) : Option Unit := do
  let r ← lit "return" cs
  let _ ← lit ";" (spaces r)
  pure ()

/-- `drop\s*\(([^)]+)\)` and the return clause. -/
def dropAt (cs : List Char) : Option (List Char × List Char × Option (List Char)) := do
  let r ← lit "drop" cs
  let r ← lit "(" (spaces r)
  let (l, r) ← noneOf1 ')' r
  let r ← lit ")" r
  let (ret, u) ← returnClause r
  pure (l, ret, u)

/-- `switchInt\s*\([^)]+\)\s*->\s*\[([^\]]+)\]\s*;` -/
def switchAt (cs : List Char) : Option (List Char) := do
  let r ← lit "switchInt" cs
  let r ← lit "(" (spaces r)
  let (_, r) ← noneOf1 ')' r
  let r ← lit ")" r
  let r ← lit "->" (spaces r)
  let r ← lit "[" (spaces r)
  let (body, r) ← noneOf1 ']' r
  let _ ← closeTerm r
  pure body

/-- The groups of `call_pattern`. -/
structure CallCaptures where
  lhs : Option (List Char)
  callee : List Char
  args : List Char
  ret : List Char
  unwind : Option (List Char)
  deriving DecidableEq, Repr

/-- `\(([^)]*)\)` and the return clause. -/
def callTail (cs : List Char) : Option (List Char × List Char × Option (List Char)) := do
  let r ← lit "(" cs
  let args := r.takeWhile (· != ')')
  let r ← lit ")" (r.dropWhile (· != ')'))
  let (ret, u) ← returnClause r
  pure (args, ret, u)

/-- `(?:(\w+)\s*=\s*)?([^(]+)\(([^)]*)\)` and the return clause: the optional
assignment is tried first. -/
def callAt (cs : List Char) : Option CallCaptures :=
  let withLhs : Option CallCaptures := do
    let (w, r) ← word1 cs
    let r ← lit "=" (spaces r)
    let (callee, r) ← spacesNoneOf1 '(' r
    let (args, ret, u) ← callTail r
    pure ⟨some w, callee, args, ret, u⟩
  withLhs.or do
    let (callee, r) ← noneOf1 '(' cs
    let (args, ret, u) ← callTail r
    pure ⟨none, callee, args, ret, u⟩

/-- `re.findall(r"bb(\d+)", s)`, each step consuming at least one character. -/
def findAllBb : Nat → List Char → List (List Char)
  | 0, _ => []
  | _ + 1, [] => []
  | n + 1, c :: cs =>
    match (lit "bb" (c :: cs)).bind digits1 with
    | some (d, r) => d :: findAllBb n r
    | none => findAllBb n cs

/-! ## Line patterns -/

/-- `bb(\d+)\s*(?:\(cleanup\))?\s*:\s*\{` -/
def bbHeaderAt (cs : List Char) : Option (List Char) := do
  let r ← lit "bb" cs
  let (k, r) ← digits1 r
  let r := spaces r
  let r := (lit "(cleanup)" r).getD r
  let r ← lit ":" (spaces r)
  let _ ← lit "\x7b" (spaces r)
  pure k

/-- The groups of `let_pattern`. -/
structure LetCaptures where
  isMut : Bool
  name : List Char
  ty : List Char
  deriving DecidableEq, Repr

/-- `let\s+(mut\s+)?(_\d+)\s*:\s*([^;]+);` -/
def letAt (cs : List Char) : Option LetCaptures := do
  let r ← lit "let" cs
  let r ← spaces1 r
  let (isMut, r) := match (lit "mut" r).bind spaces1 with
    | some r' => (true, r')
    | none => (false, r)
  let (name, r) ← localName r
  let r ← lit ":" (spaces r)
  let (ty, r) ← spacesNoneOf1 ';' r
  let _ ← lit ";" r
  pure ⟨isMut, name, ty⟩

/-- `(_\d+)\s*=\s*&(_\d+)\s*;` -/
def refAt (cs : List Char) : Option (List Char × List Char) := do
  let (a, r) ← localName cs
  let r ← lit "=" (spaces r)
  let r ← lit "&" (spaces r)
  let (b, r) ← localName r
  let _ ← lit ";" (spaces r)
  pure (a, b)

/-- `re.match(r"scope\s+\d+", s)` -/
def scopeAt (cs : List Char) : Bool := ((lit "scope" cs).bind spaces1 |>.bind digits1).isSome

/-- `re.match(r"debug\s+", s)` -/
def debugAt (cs : List Char) : Bool := ((lit "debug" cs).bind spaces1).isSome

/-- `fn\s+(\w+)\s*\([^)]*\)\s*->\s*[^{]*\{`: the name and what follows the `{`, with `\w` read as
`isPyWord`. -/
def fnHeaderAt (cs : List Char) : Option (List Char × List Char) := do
  let r ← lit "fn" cs
  let r ← spaces1 r
  let (name, r) ← word1 r
  let r ← lit "(" (spaces r)
  let r ← lit ")" (noneOf ')' r)
  let r ← lit "->" (spaces r)
  let r ← lit "\x7b" (noneOf '{' (spaces r))
  pure (name, r)

/-! ## `_extract_first_local` -/

/-- `\s*(?:move\s+)?(_\d+)\b` -/
def firstLocalRest (cs : List Char) : Option (List Char) :=
  let r := spaces cs
  let r := ((lit "move" r).bind spaces1).getD r
  match localName r with
  | some (a, c :: _) => if isPyWord c then none else some a
  | some (a, []) => some a
  | none => none

/-! ## What the matchers return

Every matcher returns a suffix of its input, and the groups that hold a local or a word are
never empty. -/

theorem run1_ne_nil {p : Char → Bool} {cs xs r : List Char} (h : run1 p cs = some (xs, r)) :
    xs ≠ [] := by
  unfold run1 at h
  split at h
  · cases h
  · rename_i hne
    cases h
    exact hne

theorem localName_ne_nil {cs a r : List Char} (h : localName cs = some (a, r)) : a ≠ [] := by
  simp only [localName, bind, Option.bind_eq_some] at h
  obtain ⟨_, _, ⟨ds, r'⟩, _, h⟩ := h
  cases h
  simp

theorem searchAt_spec {α : Type} {m : List Char → Option α} :
    ∀ {cs : List Char} {k : Nat} {a : α}, searchAt m cs = some (k, a) → m (cs.drop k) = some a ∧ k ≤ cs.length
  | [], k, a, h => by
    simp only [searchAt, Option.map_eq_some'] at h
    obtain ⟨a', h, h'⟩ := h
    cases h'
    exact ⟨h, le_refl _⟩
  | c :: cs, k, a, h => by
    simp only [searchAt] at h
    split at h
    · cases h; simpa
    · simp only [Option.map_eq_some'] at h
      obtain ⟨⟨k', a'⟩, h, h'⟩ := h
      cases h'
      have := searchAt_spec h
      simpa using this

theorem firstLocalRest_ne_nil {cs a : List Char} (h : firstLocalRest cs = some a) : a ≠ [] := by
  unfold firstLocalRest at h
  dsimp only at h
  split at h
  · split at h
    · cases h
    · cases h; exact localName_ne_nil ‹_›
  · cases h; exact localName_ne_nil ‹_›
  · cases h

theorem callAt_lhs_ne_nil {cs : List Char} {c : CallCaptures} {w : List Char} (h : callAt cs = some c)
    (hw : c.lhs = some w) : w ≠ [] := by
  simp only [callAt, Option.or_eq_some, bind, Option.bind_eq_some, pure, Option.some.injEq] at h
  rcases h with ⟨⟨w', r⟩, h1, _, _, ⟨_, _⟩, _, ⟨_, _, _⟩, _, h⟩ | ⟨_, ⟨_, _⟩, _, ⟨_, _, _⟩, _, h⟩
  · subst h
    cases hw
    exact run1_ne_nil h1
  · subst h
    cases hw

theorem lit_length {s : String} {cs r : List Char} (h : lit s cs = some r) :
    r.length + s.length = cs.length := by
  unfold lit at h
  split at h
  · rename_i hp
    cases h
    have := (List.isPrefixOf_iff_prefix.mp hp).length_le
    obtain ⟨d⟩ := s
    simp only [String.length_mk, List.length_drop] at this ⊢
    omega
  · cases h

theorem spaces_length (cs : List Char) : (spaces cs).length ≤ cs.length :=
  (List.dropWhile_suffix _).length_le

theorem spaces1_length {cs r : List Char} (h : spaces1 cs = some r) : r.length < cs.length := by
  match cs, h with
  | c :: cs, h =>
    simp only [spaces1] at h
    split at h
    · cases h; exact Nat.lt_succ_of_le (spaces_length cs)
    · cases h

theorem run1_length {p : Char → Bool} {cs xs r : List Char} (h : run1 p cs = some (xs, r)) :
    r.length ≤ cs.length := by
  unfold run1 at h
  split at h
  · cases h
  · cases h; exact (List.dropWhile_suffix _).length_le

theorem noneOf_length (c : Char) (cs : List Char) : (noneOf c cs).length ≤ cs.length :=
  (List.dropWhile_suffix _).length_le

theorem fnHeaderAt_length {cs name r : List Char} (h : fnHeaderAt cs = some (name, r)) :
    r.length < cs.length := by
  simp only [fnHeaderAt, bind, Option.bind_eq_some, pure, Option.some.injEq] at h
  obtain ⟨r1, h1, r2, h2, ⟨w, r3⟩, h3, r4, h4, r5, h5, r6, h6, r7, h7, _, rfl⟩ := h
  have := lit_length h1
  have := spaces1_length h2
  have := run1_length h3
  have := lit_length h4
  have := lit_length h5
  have := lit_length h6
  have := lit_length h7
  have := spaces_length r3
  have := noneOf_length ')' r4
  have := spaces_length r5
  have := spaces_length r6
  have := noneOf_length '{' (spaces r6)
  simp only [String.length] at *
  omega

theorem search_spec {α : Type} {m : List Char → Option α} {cs : List Char} {a : α}
    (h : search m cs = some a) : ∃ k ≤ cs.length, m (cs.drop k) = some a := by
  obtain ⟨⟨k, a'⟩, hs, rfl⟩ := Option.map_eq_some'.mp (show (searchAt m cs).map (·.2) = some a from h)
  exact ⟨k, (searchAt_spec hs).2, (searchAt_spec hs).1⟩

theorem refAt_ne_nil {cs a b : List Char} (h : refAt cs = some (a, b)) : a ≠ [] ∧ b ≠ [] := by
  simp only [refAt, bind, Option.bind_eq_some, pure, Option.some.injEq] at h
  obtain ⟨⟨a', r1⟩, h1, _, _, _, _, ⟨b', r2⟩, h2, _, _, rfl, rfl⟩ := h
  exact ⟨localName_ne_nil h1, localName_ne_nil h2⟩

theorem lit_eq_some {s : String} {cs r : List Char} (h : lit s cs = some r) : cs = s.data ++ r := by
  unfold lit at h
  split at h
  · rename_i hp
    cases h
    obtain ⟨t, rfl⟩ := List.isPrefixOf_iff_prefix.mp hp
    rw [show s.length = s.data.length from rfl, List.drop_left]
  · cases h

theorem bbHeaderAt_not_scope {cs k : List Char} (h : bbHeaderAt cs = some k) :
    scopeAt cs = false ∧ debugAt cs = false := by
  simp only [bbHeaderAt, bind, Option.bind_eq_some] at h
  obtain ⟨r, hr, -⟩ := h
  rw [lit_eq_some hr]
  exact ⟨rfl, rfl⟩

theorem lit_suffix {s : String} {cs r : List Char} (h : lit s cs = some r) : r <:+ cs :=
  ⟨s.data, (lit_eq_some h).symm⟩

theorem run1_suffix {p : Char → Bool} {cs xs r : List Char} (h : run1 p cs = some (xs, r)) :
    r <:+ cs := by
  unfold run1 at h
  split at h
  · cases h
  · cases h; exact List.dropWhile_suffix _

end Pattern

open Pattern in
/-- `_extract_first_local` (`pn_builder.py` and `mir_parser.py` define it alike):
`re.search(r'(?:^|,)\s*(?:move\s+)?(_\d+)\b', args_str.strip())`, with `\d` and the `\w` of `\b`
read as `isPyDigit` and `isPyWord`; the `^` branch can only start at index 0. -/
def extractFirstLocal (argsStr : String) : Option String :=
  let cs := pyStrip argsStr.data
  ((firstLocalRest cs).or (search (fun r => (lit "," r).bind firstLocalRest) cs)).map String.mk

open Pattern in
theorem extractFirstLocal_ne_empty {args a : String} (h : extractFirstLocal args = some a) :
    a ≠ "" := by
  simp only [extractFirstLocal, Option.map_eq_some'] at h
  obtain ⟨a', h, rfl⟩ := h
  intro he
  rcases Option.or_eq_some.mp h with h | ⟨_, h⟩
  · exact firstLocalRest_ne_nil h (congrArg String.data he)
  · obtain ⟨_, _, h⟩ := search_spec h
    obtain ⟨_, _, h⟩ := Option.bind_eq_some.mp h
    exact firstLocalRest_ne_nil h (congrArg String.data he)

end Mir2Pnml
