import Mir2Pnml.BodyBlocks
import Mir2Pnml.Cli

/-! # Printing MIR and reading it back

The parser is written for rustc's MIR dump. `printMir` writes functions in that layout, as the
translator's tests do: a header `fn name() -> () {`, the locals one per line, each block as
`bbK: {` or `bbK (cleanup): {` with its statements, its terminator and a closing `}`, and a
last `}`. The parser keeps neither a switch's operand nor the values of its arms, so the
printer writes `move _0` and the arm's index.

Reading a printed text back gives the functions printed, up to the two tables the parser
derives and the blocks' line numbers (`parseMir_printMir`). The fields must be printable:
block ids and targets are natural numbers, a name is a word, no text holds a line break or a
brace, and a terminator's free text holds none of the characters the parser's patterns stop
at. The proof has three layers. This module proves the first: a terminator line reads back
as the terminator (`lineTerminator_print`). `RoundTrip` proves the other two: a body reads back
as its locals and blocks, and a text as its functions.
-/
namespace Mir2Pnml

open Pattern

/-! ## The printer -/

/-- A block id or a jump target as rustc prints it. -/
def num (k : Int) : List Char := (toString k).data

/-- `, unwind: bbU` when there is an unwind target. -/
def unwindText : Option Int → List Char
  | some u => ", unwind: bb".data ++ num u
  | none => []

/-- The return clause of a drop or a call, up to its closing `];`. -/
def returnText (r : Int) (u : Option Int) : List Char :=
  " -> [return: bb".data ++ num r ++ unwindText u

/-- The arms of a switch, numbered from `i`: `0: bbA, 1: bbB, otherwise: bbZ`. -/
def armsText : Nat → List Int → List Char
  | _, [] => []
  | _, [t] => "otherwise: bb".data ++ num t
  | i, t :: t' :: ts => num i ++ ": bb".data ++ num t ++ ", ".data ++ armsText (i + 1) (t' :: ts)

/-- The assignment in front of a call. -/
def lhsText (lhs : Option String) : List Char := (lhs.map fun w => w.data ++ " = ".data).getD []

/-- A terminator as rustc prints it. -/
def Terminator.print : Terminator → List Char
  | .goto t => "goto -> bb".data ++ num t ++ ";".data
  | .return => "return;".data
  | .switchInt ts => "switchInt(move _0) -> [".data ++ armsText 0 ts ++ "];".data
  | .drop l r u => "drop(".data ++ l.data ++ ")".data ++ returnText r u ++ "];".data
  | .call lhs callee args r u =>
    lhsText lhs ++ callee.data ++ "(".data ++ args.data ++ ")".data ++ returnText r u ++ "];".data

/-- Text that `strip` leaves as it is. -/
def Trimmed (s : List Char) : Prop :=
  s.head?.all (fun c => !isPySpace c) = true ∧ s.getLast?.all (fun c => !isPySpace c) = true

/-- Text that stays on one line and at one brace depth. -/
def Inline (s : List Char) : Prop := '\n' ∉ s ∧ '\x7b' ∉ s ∧ '\x7d' ∉ s

instance (s : List Char) : Decidable (Trimmed s) := inferInstanceAs (Decidable (_ ∧ _))
instance (s : List Char) : Decidable (Inline s) := inferInstanceAs (Decidable (_ ∧ _))

/-- What the parser needs of a terminator to read its line back: targets are natural numbers,
a switch has an arm, a dropped place is up to `)`, an assignment is to a word, and a callee
and its arguments hold none of the characters the patterns stop at. A callee ending in `drop`
or `switchInt` would be read as a drop or a switch. -/
def Terminator.Printable : Terminator → Prop
  | .goto t => 0 ≤ t
  | .return => True
  | .switchInt ts => ts ≠ [] ∧ ∀ t ∈ ts, 0 ≤ t
  | .drop l r u => l.data ≠ [] ∧ Trimmed l.data ∧ Inline l.data ∧ ')' ∉ l.data ∧ ';' ∉ l.data ∧
      0 ≤ r ∧ ∀ v ∈ u, 0 ≤ v
  | .call lhs callee args r u =>
      (∀ w ∈ lhs, w.data ≠ [] ∧ ∀ c ∈ w.data, isPyWord c) ∧
      callee.data ≠ [] ∧ Trimmed callee.data ∧ Inline callee.data ∧
      '(' ∉ callee.data ∧ ';' ∉ callee.data ∧ '=' ∉ callee.data ∧
      ¬"drop".data <:+ callee.data ∧ ¬"switchInt".data <:+ callee.data ∧
      Trimmed args.data ∧ Inline args.data ∧
      '(' ∉ args.data ∧ ')' ∉ args.data ∧ ';' ∉ args.data ∧ '=' ∉ args.data ∧
      0 ≤ r ∧ ∀ v ∈ u, 0 ≤ v

instance : DecidablePred Terminator.Printable := fun t =>
  match t with
  | .goto _ => inferInstanceAs (Decidable (_ ≤ _))
  | .return => inferInstanceAs (Decidable True)
  | .switchInt _ => inferInstanceAs (Decidable (_ ∧ _))
  | .drop _ _ _ => inferInstanceAs (Decidable (_ ∧ _))
  | .call _ _ _ _ _ => inferInstanceAs (Decidable (_ ∧ _))

/-- A block's header line up to its `{`. -/
def BasicBlock.headerText (bb : BasicBlock) : List Char :=
  "    bb".data ++ num bb.bbId ++ (if bb.isCleanup then " (cleanup): " else ": ").data

/-- A block's header line. -/
def BasicBlock.headerLine (bb : BasicBlock) : List Char := bb.headerText ++ "\x7b".data

/-- A terminator's line, indented as rustc indents it. -/
def terminatorLine (t : Terminator) : List Char := "        ".data ++ t.print

/-- The lines of a block between its header and its `}`: its statements as they were read, then
its terminator. -/
def BasicBlock.innerLines (bb : BasicBlock) : List (List Char) :=
  bb.statements.map String.data ++ (bb.terminator.map terminatorLine).toList

/-- A block as rustc prints it: its header, its inner lines and a lone `}`. -/
def BasicBlock.printLines (bb : BasicBlock) : List (List Char) :=
  bb.headerLine :: (bb.innerLines ++ ["    \x7d".data])

/-- A local's declaration line. -/
def LocalDecl.printLine (d : LocalDecl) : List Char :=
  "    let ".data ++ (if d.isMut then "mut " else "").data ++ d.name.data ++ ": ".data ++
    d.tyStr.data ++ ";".data

/-- The lines between a function's braces. -/
def MirFunction.bodyLines (f : MirFunction) : List (List Char) :=
  f.locals.map LocalDecl.printLine ++ f.basicBlocks.flatMap BasicBlock.printLines

/-- The text between a function's braces: a line break after the `{`, then each line followed
by a line break. -/
def MirFunction.body (f : MirFunction) : List Char := '\n' :: f.bodyLines.flatMap (· ++ ['\n'])

/-- A function as rustc prints it. -/
def MirFunction.print (f : MirFunction) : List Char :=
  "fn ".data ++ f.name.data ++ "() -> () \x7b".data ++ f.body ++ "\x7d\n".data

/-- A MIR text holding the functions `fs`. -/
def printMir (fs : List MirFunction) : String := ⟨fs.flatMap MirFunction.print⟩

/-- A local name as the `let` pattern reads it: `_` and digits. -/
def isLocalName : List Char → Bool
  | '_' :: ds => !ds.isEmpty && ds.all isPyDigit
  | _ => false

/-- What the parser needs of a local to read its line back. -/
def LocalDecl.Printable (d : LocalDecl) : Prop :=
  isLocalName d.name.data = true ∧ d.tyStr.data ≠ [] ∧ Trimmed d.tyStr.data ∧ Inline d.tyStr.data ∧
    ';' ∉ d.tyStr.data

/-- What the parser needs of a block: a natural id, statements on one line and at one brace
depth, and a printable terminator. -/
def BasicBlock.Printable (bb : BasicBlock) : Prop :=
  0 ≤ bb.bbId ∧ (∀ s ∈ bb.statements, Inline s.data) ∧ bb.terminator.isSome ∧
    ∀ t ∈ bb.terminator, t.Printable

/-- What the parser needs of a function: a word for a name, and printable locals and blocks. -/
def MirFunction.Printable (f : MirFunction) : Prop :=
  f.name.data ≠ [] ∧ (∀ c ∈ f.name.data, isPyWord c) ∧ (∀ d ∈ f.locals, d.Printable) ∧
    ∀ bb ∈ f.basicBlocks, bb.Printable

instance : DecidablePred LocalDecl.Printable := fun _ => inferInstanceAs (Decidable (_ ∧ _))
instance : DecidablePred BasicBlock.Printable := fun _ => inferInstanceAs (Decidable (_ ∧ _))
instance : DecidablePred MirFunction.Printable := fun _ => inferInstanceAs (Decidable (_ ∧ _))

/-- What the printer writes of a function: all of it but its blocks' line numbers and the two
tables the parser derives from the lines. -/
def MirFunction.printed (f : MirFunction) : MirFunction :=
  ⟨f.name, f.locals, f.basicBlocks.map fun bb => { bb with lineStart := 0 }, [], []⟩

/-! ## Pieces of the patterns on printed text -/

theorem isPyDigit_eq_isDigit : isPyDigit = Char.isDigit := by
  funext c
  simp [isPyDigit, Char.isDigit, Char.le_def]

theorem num_spec {k : Int} (hk : 0 ≤ k) :
    num k ≠ [] ∧ (∀ c ∈ num k, isPyDigit c) ∧ (digitsValue (num k) : Int) = k := by
  obtain ⟨n, rfl⟩ := Int.eq_ofNat_of_zero_le hk
  obtain ⟨hne, hdig, hval⟩ := toString_nat_spec n
  refine ⟨hne, fun c hc => isPyDigit_eq_isDigit ▸ hdig c hc, ?_⟩
  show ((digitsValue (toString n).data : Nat) : Int) = n
  rw [hval]

theorem lit_eq_ite (s : String) (cs : List Char) :
    lit s cs = if s.data.isPrefixOf cs then some (cs.drop s.data.length) else none := rfl

theorem run1_append {p : Char → Bool} {xs rest : List Char} (hxs : xs ≠ []) (hp : ∀ c ∈ xs, p c)
    (hr : rest.head?.all (fun c => !p c) = true) : run1 p (xs ++ rest) = some (xs, rest) := by
  have ht : rest.takeWhile p = [] := by
    cases rest with
    | nil => rfl
    | cons c cs => simpa using hr
  have hd : rest.dropWhile p = rest := by
    cases rest with
    | nil => rfl
    | cons c cs => exact List.dropWhile_cons_of_neg (by simpa using hr)
  unfold run1
  rw [List.takeWhile_append_of_pos hp, ht, List.append_nil, List.dropWhile_append_of_pos hp, hd]
  split
  · contradiction
  · rfl

theorem digits1_num {k : Int} (hk : 0 ≤ k) {rest : List Char}
    (hr : rest.head?.all (fun c => !isPyDigit c) = true) : digits1 (num k ++ rest) = some (num k, rest) :=
  run1_append (num_spec hk).1 (num_spec hk).2.1 hr

theorem digits1_num_cons {k : Int} (hk : 0 ≤ k) {c : Char} (hc : isPyDigit c = false)
    (rest : List Char) : digits1 (num k ++ c :: rest) = some (num k, c :: rest) :=
  digits1_num hk (by simp [hc])

theorem bne_of_not_mem {c : Char} {xs : List Char} (hc : c ∉ xs) : ∀ d ∈ xs, (d != c) = true :=
  fun _ hd => bne_iff_ne.mpr fun h => hc (h ▸ hd)

theorem noneOf1_append {c : Char} {xs : List Char} (hxs : xs ≠ []) (hc : c ∉ xs) (rest : List Char) :
    noneOf1 c (xs ++ c :: rest) = some (xs, c :: rest) :=
  run1_append hxs (bne_of_not_mem hc) (by simp)

theorem takeWhile_ne_append {c : Char} {xs : List Char} (hc : c ∉ xs) (rest : List Char) :
    (xs ++ c :: rest).takeWhile (· != c) = xs := by
  rw [List.takeWhile_append_of_pos (bne_of_not_mem hc)]
  simp

theorem dropWhile_ne_append {c : Char} {xs : List Char} (hc : c ∉ xs) (rest : List Char) :
    (xs ++ c :: rest).dropWhile (· != c) = c :: rest := by
  rw [List.dropWhile_append_of_pos (bne_of_not_mem hc)]
  simp

theorem dropWhile_space_append {xs : List Char} (hxs : xs.head?.all (fun c => !isPySpace c) = true)
    (rest : List Char) (hne : xs ≠ []) : (xs ++ rest).dropWhile isPySpace = xs ++ rest := by
  cases xs with
  | nil => contradiction
  | cons c cs => exact List.dropWhile_cons_of_neg (by simpa using hxs)

theorem mem_num {k : Int} (hk : 0 ≤ k) {c : Char} (h : c ∈ num k) : isPyDigit c :=
  (num_spec hk).2.1 c h

theorem run1_eq_some {p : Char → Bool} {cs xs r : List Char} (h : run1 p cs = some (xs, r)) :
    cs = xs ++ r ∧ ∀ c ∈ xs, p c := by
  unfold run1 at h
  split at h
  · cases h
  · cases h
    exact ⟨(List.takeWhile_append_dropWhile p cs).symm, fun c hc => List.mem_takeWhile_imp hc⟩

theorem search_of_match {α : Type} {m : List Char → Option α} {cs : List Char} {a : α}
    (h : m cs = some a) : search m cs = some a := by
  cases cs <;> simp [search, searchAt, h]

theorem search_eq_none {α : Type} {m : List Char → Option α} {cs : List Char} :
    search m cs = none ↔ ∀ k ≤ cs.length, m (cs.drop k) = none := by
  rw [search, Option.map_eq_none', searchAt_eq_none]

/-! ## Patterns that find nothing on a printed line

A printed terminator line other than a goto holds one `;`, its last character, right after a
`]`; the goto and return patterns reach their `;` through digits, spaces and letters only, so
they find nothing there. A call line holds one `(`, right after the callee; the drop and
switch patterns need their keyword and spaces right before their `(`. -/

/-- `cs` runs up to a `;` through characters none of which is `]`. -/
def UpToSemicolon (cs : List Char) : Prop := ∃ pre post, cs = pre ++ ';' :: post ∧ ']' ∉ pre

namespace UpToSemicolon

theorem append {xs cs : List Char} (hx : ']' ∉ xs) (h : UpToSemicolon cs) :
    UpToSemicolon (xs ++ cs) := by
  obtain ⟨pre, post, rfl, hp⟩ := h
  exact ⟨xs ++ pre, post, by simp, by simp [hx, hp]⟩

theorem of_lit {s : String} {cs r : List Char} (h : lit s cs = some r) (hs : ']' ∉ s.data)
    (hr : UpToSemicolon r) : UpToSemicolon cs :=
  lit_eq_some h ▸ hr.append hs

theorem of_spaces {cs : List Char} (h : UpToSemicolon (spaces cs)) : UpToSemicolon cs := by
  rw [← List.takeWhile_append_dropWhile isPySpace cs]
  exact h.append fun hm => absurd (List.mem_takeWhile_imp hm) (by decide)

theorem of_run1 {p : Char → Bool} {cs xs r : List Char} (h : run1 p cs = some (xs, r))
    (hp : p ']' = false) (hr : UpToSemicolon r) : UpToSemicolon cs := by
  obtain ⟨rfl, hxs⟩ := run1_eq_some h
  exact hr.append fun hm => absurd (hxs _ hm) (by rw [hp]; decide)

theorem of_semicolon {r r' : List Char} (h : lit ";" (spaces r) = some r') : UpToSemicolon r :=
  of_spaces ⟨[], r', by rw [lit_eq_some h]; rfl, List.not_mem_nil _⟩

end UpToSemicolon

theorem gotoAt_upTo {cs t : List Char} (h : gotoAt cs = some t) : UpToSemicolon cs := by
  simp only [gotoAt, bind, Option.bind_eq_some] at h
  obtain ⟨r1, h1, r2, h2, r3, h3, ⟨ds, r4⟩, h4, r5, h5, -⟩ := h
  exact ((((UpToSemicolon.of_semicolon h5).of_run1 h4 rfl).of_lit h3 (by decide)).of_spaces.of_lit
    h2 (by decide)).of_spaces.of_lit h1 (by decide)

theorem returnAt_upTo {cs : List Char} {a : Unit} (h : returnAt cs = some a) : UpToSemicolon cs := by
  simp only [returnAt, bind, Option.bind_eq_some] at h
  obtain ⟨r1, h1, r2, h2, -⟩ := h
  exact (UpToSemicolon.of_semicolon h2).of_lit h1 (by decide)

theorem search_eq_none_of_upTo {α : Type} {m : List Char → Option α}
    (hm : ∀ {cs a}, m cs = some a → UpToSemicolon cs) (h0 : ∀ post, m (';' :: post) = none)
    {body : List Char} (hb : ';' ∉ body) : search m (body ++ "];".data) = none := by
  refine search_eq_none.mpr fun k _ => ?_
  cases hk : m ((body ++ "];".data).drop k) with
  | none => rfl
  | some a =>
    obtain ⟨pre, post, hpre, hp⟩ := hm hk
    have hsplit := List.take_append_drop k (body ++ "];".data)
    rw [hpre] at hsplit
    have heq : (body ++ [']']) ++ ';' :: [] = ((body ++ "];".data).take k ++ pre) ++ ';' :: post := by
      simpa using hsplit.symm
    obtain ⟨h1, -, -⟩ := (List.append_cons_inj_of_not_mem (by simpa using hb) (List.not_mem_nil _)).mp heq
    rcases List.eq_nil_or_concat pre with rfl | ⟨L, b, rfl⟩
    · rw [hpre, List.nil_append, h0] at hk
      cases hk
    · rw [List.concat_eq_append, ← List.append_assoc] at h1
      have hb' := (List.append_inj' h1 rfl).2
      simp only [List.singleton_inj] at hb'
      exact absurd (by rw [hb']; simp) hp

theorem search_goto_return_none (line body : List Char) (hline : line = body ++ "];".data)
    (hb : ';' ∉ body) : search gotoAt line = none ∧ search returnAt line = none :=
  hline ▸ ⟨search_eq_none_of_upTo gotoAt_upTo (fun _ => rfl) hb,
    search_eq_none_of_upTo returnAt_upTo (fun _ => rfl) hb⟩

theorem keyword_paren {s : String} {cs r1 r2 : List Char} (h1 : lit s cs = some r1)
    (h2 : lit "(" (spaces r1) = some r2) :
    ∃ sp rest, cs = s.data ++ sp ++ '(' :: rest ∧ ∀ c ∈ sp, isPySpace c := by
  refine ⟨r1.takeWhile isPySpace, r2, ?_, fun c hc => List.mem_takeWhile_imp hc⟩
  rw [lit_eq_some h1]
  conv_lhs => rw [← List.takeWhile_append_dropWhile isPySpace r1]
  rw [show r1.dropWhile isPySpace = '(' :: r2 from lit_eq_some h2, List.append_assoc]

theorem dropAt_paren {cs : List Char} {a : List Char × List Char × Option (List Char)}
    (h : dropAt cs = some a) : ∃ sp rest, cs = "drop".data ++ sp ++ '(' :: rest ∧ ∀ c ∈ sp, isPySpace c := by
  simp only [dropAt, bind, Option.bind_eq_some] at h
  obtain ⟨r1, h1, r2, h2, -⟩ := h
  exact keyword_paren h1 h2

theorem switchAt_paren {cs a : List Char} (h : switchAt cs = some a) :
    ∃ sp rest, cs = "switchInt".data ++ sp ++ '(' :: rest ∧ ∀ c ∈ sp, isPySpace c := by
  simp only [switchAt, bind, Option.bind_eq_some] at h
  obtain ⟨r1, h1, r2, h2, -⟩ := h
  exact keyword_paren h1 h2

theorem search_eq_none_of_paren {α : Type} {m : List Char → Option α} {s : List Char}
    (hm : ∀ {cs a}, m cs = some a → ∃ sp rest, cs = s ++ sp ++ '(' :: rest ∧ ∀ c ∈ sp, isPySpace c)
    {head tail : List Char} (hh : '(' ∉ head) (ht : '(' ∉ tail)
    (hlast : head.getLast?.all (fun c => !isPySpace c) = true) (hs : ¬s <:+ head) :
    search m (head ++ '(' :: tail) = none := by
  refine search_eq_none.mpr fun k _ => ?_
  cases hk : m ((head ++ '(' :: tail).drop k) with
  | none => rfl
  | some a =>
    obtain ⟨sp, rest, hrest, hsp⟩ := hm hk
    have hsplit := List.take_append_drop k (head ++ '(' :: tail)
    rw [hrest] at hsplit
    have heq : head ++ '(' :: tail = ((head ++ '(' :: tail).take k ++ s ++ sp) ++ '(' :: rest := by
      simpa using hsplit.symm
    obtain ⟨h1, -, -⟩ := (List.append_cons_inj_of_not_mem hh ht).mp heq
    rcases List.eq_nil_or_concat sp with rfl | ⟨L, b, rfl⟩
    · exact absurd ⟨_, by simpa using h1.symm⟩ hs
    · rw [h1] at hlast
      simp [hsp b (by simp)] at hlast

theorem suffix_of_suffix_append {s xs ys : List Char} (hs : s <:+ xs ++ ys)
    (hx : ∀ c ∈ xs.getLast?, c ∉ s) : s <:+ ys := by
  rcases List.suffix_or_suffix_of_suffix hs (List.suffix_append xs ys) with h | ⟨z, rfl⟩
  · exact h
  · obtain ⟨pre, hpre⟩ := hs
    have h' : xs ++ ys = (pre ++ z) ++ ys := by simpa using hpre.symm
    have hxz := List.append_cancel_right h'
    rcases List.eq_nil_or_concat z with rfl | ⟨L, b, rfl⟩
    · exact List.suffix_refl ys
    · exact absurd (by simp) (hx b (by simp [hxz, List.concat_eq_append]))

/-! ## The text of each pattern on a printed line -/

theorem not_mem_num {k : Int} (hk : 0 ≤ k) {c : Char} (hc : isPyDigit c = false) : c ∉ num k :=
  fun h => absurd (mem_num hk h) (by rw [hc]; decide)

theorem not_mem_returnText {r : Int} {u : Option Int} (hr : 0 ≤ r) (hu : ∀ v ∈ u, 0 ≤ v) {c : Char}
    (hc : isPyDigit c = false) (hl : c ∉ " -> [return: bb, unwind: bb".data) : c ∉ returnText r u := by
  have hlit : ∀ {s : List Char}, s ⊆ " -> [return: bb, unwind: bb".data → c ∉ s := fun hs h => hl (hs h)
  simp only [returnText, List.mem_append, not_or]
  refine ⟨⟨hlit (by decide), not_mem_num hr hc⟩, ?_⟩
  cases u with
  | none => simp [unwindText]
  | some v =>
    simp only [unwindText, List.mem_append, not_or]
    exact ⟨hlit (by decide), not_mem_num (hu v rfl) hc⟩

theorem not_mem_armsText {ts : List Int} (hts : ∀ t ∈ ts, 0 ≤ t) {c : Char} (hc : isPyDigit c = false)
    (hl : c ∉ "otherwise: b,".data) (i : Nat) : c ∉ armsText i ts := by
  have hlit : ∀ {s : List Char}, s ⊆ "otherwise: b,".data → c ∉ s := fun hs h => hl (hs h)
  induction i, ts using armsText.induct with
  | case1 => simp [armsText]
  | case2 i t =>
    simp only [armsText, List.mem_append, not_or]
    exact ⟨hlit (by decide), not_mem_num (hts t (List.mem_singleton_self t)) hc⟩
  | case3 i t t' ts ih =>
    simp only [armsText, List.mem_append, not_or]
    exact ⟨⟨⟨⟨not_mem_num (Int.ofNat_nonneg i) hc, hlit (by decide)⟩,
      not_mem_num (hts t (List.mem_cons_self _ _)) hc⟩, hlit (by decide)⟩,
      ih fun t ht => hts t (List.mem_cons_of_mem _ ht)⟩

theorem armsText_ne_nil {ts : List Int} (hne : ts ≠ []) (i : Nat) : armsText i ts ≠ [] := by
  match ts, hne with
  | [_], _ => simp [armsText]
  | _ :: _ :: _, _ => simp [armsText, num_spec (Int.ofNat_nonneg i)]

theorem lit_bb_of_ne {c : Char} (hc : c ≠ 'b') (cs : List Char) : lit "bb" (c :: cs) = none := by
  simp [lit_eq_ite, Ne.symm hc]

theorem findAllBb_nil (n : Nat) : findAllBb n [] = [] := by
  cases n <;> rfl

theorem findAllBb_skip {xs : List Char} (hxs : 'b' ∉ xs) {n : Nat} (hn : xs.length ≤ n)
    (cs : List Char) : findAllBb n (xs ++ cs) = findAllBb (n - xs.length) cs := by
  induction xs generalizing n with
  | nil => rfl
  | cons x xs ih =>
    obtain ⟨n, rfl⟩ : ∃ m, n = m + 1 := ⟨n - 1, by simp at hn; omega⟩
    rw [List.cons_append, findAllBb, lit_bb_of_ne fun h => hxs (h ▸ List.mem_cons_self _ _),
      ih (fun h => hxs (List.mem_cons_of_mem _ h)) (by simp at hn; omega), List.length_cons,
      Nat.add_sub_add_right]
    rfl

theorem findAllBb_bb {k : Int} (hk : 0 ≤ k) {n : Nat} (hn : 0 < n) {cs : List Char}
    (hc : cs.head?.all (fun c => !isPyDigit c) = true) :
    findAllBb n ("bb".data ++ num k ++ cs) = num k :: findAllBb (n - 1) cs := by
  obtain ⟨n, rfl⟩ : ∃ m, n = m + 1 := ⟨n - 1, by omega⟩
  simp [findAllBb, lit_eq_ite, digits1_num hk hc]

theorem findAllBb_armsText {ts : List Int} (hts : ∀ t ∈ ts, 0 ≤ t) (i : Nat) {n : Nat}
    (hn : (armsText i ts).length < n) : findAllBb n (armsText i ts) = ts.map num := by
  induction i, ts using armsText.induct generalizing n with
  | case1 => exact findAllBb_nil n
  | case2 i t =>
    have ht := hts t (List.mem_singleton_self t)
    simp only [armsText, List.length_append, List.length_cons, List.length_nil, String.data] at hn
    rw [show armsText i [t] = "otherwise: ".data ++ ("bb".data ++ num t ++ []) by simp [armsText],
      findAllBb_skip (by decide) (by simp; omega), @findAllBb_bb t ht _ (by simp; omega) [] rfl,
      findAllBb_nil]
    rfl
  | case3 i t t' ts ih =>
    have ht := hts t (List.mem_cons_self _ _)
    have hX : 'b' ∉ num i ++ ": ".data := by
      simp only [List.mem_append, not_or]
      exact ⟨not_mem_num (Int.ofNat_nonneg i) (by decide), by decide⟩
    simp only [armsText, List.length_append, List.length_cons, List.length_nil, String.data] at hn
    rw [show armsText i (t :: t' :: ts) = (num i ++ ": ".data) ++
        ("bb".data ++ num t ++ (", ".data ++ armsText (i + 1) (t' :: ts))) by simp [armsText],
      findAllBb_skip hX (by simp; omega),
      @findAllBb_bb t ht _ (by simp; omega) (", ".data ++ armsText (i + 1) (t' :: ts)) rfl,
      findAllBb_skip (by decide) (by simp; omega),
      ih (fun s hs => hts s (List.mem_cons_of_mem _ hs)) (by simp; omega)]
    rfl

theorem pyStrip_of_trimmed {s : List Char} (h : Trimmed s) : pyStrip s = s := by
  have h1 : s.dropWhile isPySpace = s := by
    cases s with
    | nil => rfl
    | cons c cs => exact List.dropWhile_cons_of_neg (by simpa using h.1)
  have h2 : s.reverse.dropWhile isPySpace = s.reverse := by
    cases hs : s.reverse with
    | nil => rfl
    | cons c cs =>
      have hl : s.getLast? = some c := by rw [← List.head?_reverse, hs]; rfl
      exact List.dropWhile_cons_of_neg (by simpa [hl] using h.2)
  rw [pyStrip, h1, h2, List.reverse_reverse]

theorem returnClause_returnText {r : Int} {u : Option Int} (hr : 0 ≤ r) (hu : ∀ v ∈ u, 0 ≤ v) :
    returnClause (returnText r u ++ "];".data) = some (num r, u.map num) := by
  cases u with
  | none =>
    simp [returnClause, returnText, unwindText, lit_eq_ite, spaces, isPySpace, digits1_num_cons hr,
      closeTerm, isPyDigit]
  | some v =>
    simp [returnClause, returnText, unwindText, lit_eq_ite, spaces, isPySpace, digits1_num_cons hr,
      digits1_num_cons (hu v rfl), unwindTarget, closeTerm, isPyDigit]

theorem digitsValue_num_option {u : Option Int} (hu : ∀ v ∈ u, 0 ≤ v) :
    (u.map num).map (fun d => (digitsValue d : Int)) = u := by
  cases u with
  | none => rfl
  | some v => simp [(num_spec (hu v rfl)).2.2]

theorem digitsValue_num_list {ts : List Int} (hts : ∀ t ∈ ts, 0 ≤ t) :
    (ts.map num).map (fun d => (digitsValue d : Int)) = ts := by
  induction ts with
  | nil => rfl
  | cons t ts ih =>
    simp only [List.map_cons, (num_spec (hts t (List.mem_cons_self _ _))).2.2,
      ih fun s hs => hts s (List.mem_cons_of_mem _ hs)]

theorem switchAt_prefix (rest : List Char) :
    switchAt ("switchInt(move _0) -> [".data ++ rest) = (do
      let (body, r) ← noneOf1 ']' rest
      let _ ← closeTerm r
      pure body) := by
  simp [switchAt, lit_eq_ite, spaces, isPySpace, noneOf1, run1]

theorem callAt_of_not_mem {cs : List Char} (h : '=' ∉ cs) :
    callAt cs = (do
      let (callee, r) ← noneOf1 '(' cs
      let (args, ret, u) ← callTail r
      pure ⟨none, callee, args, ret, u⟩) := by
  have hnone : ∀ w r, word1 cs = some (w, r) → lit "=" (spaces r) = none := fun w r hw => by
    cases hl : lit "=" (spaces r) with
    | none => rfl
    | some r' =>
      have hsuf : spaces r <:+ cs := (List.dropWhile_suffix _).trans (run1_suffix hw)
      exact absurd (hsuf.subset (by rw [lit_eq_some hl]; simp)) h
  simp only [callAt]
  cases hw : word1 cs with
  | none => rfl
  | some p =>
    obtain ⟨w, r⟩ := p
    simp [hnone w r hw]

/-! ## A terminator line reads back as the terminator -/

theorem lineTerminator_goto {t : Int} (ht : 0 ≤ t) :
    lineTerminator (Terminator.goto t).print = some (.goto t) := by
  have hg : gotoAt (Terminator.goto t).print = some (num t) := by
    simp [Terminator.print, gotoAt, lit_eq_ite, spaces, isPySpace, digits1_num_cons ht, isPyDigit]
  simp [lineTerminator, search_of_match hg, (num_spec ht).2.2]

theorem lineTerminator_return : lineTerminator Terminator.return.print = some .return := by
  decide

theorem lineTerminator_switchInt {ts : List Int} (hne : ts ≠ []) (hts : ∀ t ∈ ts, 0 ≤ t) :
    lineTerminator (Terminator.switchInt ts).print = some (.switchInt ts) := by
  have hsemi : ';' ∉ "switchInt(move _0) -> [".data ++ armsText 0 ts := by
    simp only [List.mem_append, not_or]
    exact ⟨by decide, not_mem_armsText hts (by decide) (by decide) 0⟩
  have hdrop : search dropAt (Terminator.switchInt ts).print = none := by
    rw [show (Terminator.switchInt ts).print =
      "switchInt".data ++ '(' :: ("move _0) -> [".data ++ armsText 0 ts ++ "];".data) by
        simp [Terminator.print]]
    refine search_eq_none_of_paren dropAt_paren (by decide) ?_ (by decide) (by decide)
    simp only [List.mem_append, not_or]
    exact ⟨⟨by decide, not_mem_armsText hts (by decide) (by decide) 0⟩, by decide⟩
  have hsw : switchAt (Terminator.switchInt ts).print = some (armsText 0 ts) := by
    rw [Terminator.print, List.append_assoc, switchAt_prefix,
      noneOf1_append (armsText_ne_nil hne 0) (not_mem_armsText hts (by decide) (by decide) 0)]
    rfl
  obtain ⟨hgoto, hret⟩ := search_goto_return_none (Terminator.switchInt ts).print _
    (by simp [Terminator.print]) hsemi
  rw [lineTerminator, hgoto, hret, hdrop, search_of_match hsw]
  simp only [findAllBb_armsText hts 0 (Nat.lt_succ_self _), digitsValue_num_list hts]

theorem lineTerminator_drop {l : String} {r : Int} {u : Option Int}
    (h : (Terminator.drop l r u).Printable) :
    lineTerminator (Terminator.drop l r u).print = some (.drop l r u) := by
  obtain ⟨hl, htrim, -, hpar, hsemi, hr, hu⟩ := h
  obtain ⟨hgoto, hret⟩ := search_goto_return_none (Terminator.drop l r u).print
    ("drop(".data ++ l.data ++ ")".data ++ returnText r u) (by simp [Terminator.print])
    (by simp [hsemi, not_mem_returnText hr hu (c := ';') (by decide) (by decide)])
  have hd : dropAt (Terminator.drop l r u).print = some (l.data, num r, u.map num) := by
    simp [Terminator.print, dropAt, lit_eq_ite, spaces, isPySpace, noneOf1_append hl hpar,
      returnClause_returnText hr hu]
  rw [lineTerminator, hgoto, hret, search_of_match hd]
  simp [pyStrip_of_trimmed htrim, (num_spec hr).2.2, digitsValue_num_option hu]

theorem mem_lhsText {lhs : Option String} (hlhs : ∀ w ∈ lhs, w.data ≠ [] ∧ ∀ c ∈ w.data, isPyWord c)
    {c : Char} (h : c ∈ lhsText lhs) : isPyWord c ∨ c ∈ " = ".data := by
  cases lhs with
  | none => simp [lhsText] at h
  | some w =>
    simp only [lhsText, Option.map_some', Option.getD_some, List.mem_append] at h
    exact h.imp ((hlhs w rfl).2 c) id

theorem lhsText_getLast (lhs : Option String) : ∀ c ∈ (lhsText lhs).getLast?, c = ' ' := by
  cases lhs <;> simp [lhsText]

theorem lineTerminator_call {lhs : Option String} {callee args : String} {r : Int} {u : Option Int}
    (h : (Terminator.call lhs callee args r u).Printable) :
    lineTerminator (Terminator.call lhs callee args r u).print = some (.call lhs callee args r u) := by
  obtain ⟨hlhs, hc, hctrim, -, hcpar, hcsemi, hceq, hcdrop, hcsw, hatrim, -, hapar0, hapar, hasemi, haeq,
    hr, hu⟩ := h
  have hL : ∀ {c : Char}, isPyWord c = false → c ∉ " = ".data → c ∉ lhsText lhs := fun hw hl hc =>
    (mem_lhsText hlhs hc).elim (fun h => by rw [hw] at h; cases h) hl
  obtain ⟨hgoto, hret⟩ := search_goto_return_none (Terminator.call lhs callee args r u).print
    (lhsText lhs ++ callee.data ++ "(".data ++ args.data ++ ")".data ++ returnText r u)
    (by simp [Terminator.print])
    (by simp [hL (c := ';') (by decide) (by decide), hcsemi, hasemi,
      not_mem_returnText hr hu (c := ';') (by decide) (by decide)])
  have hline : (Terminator.call lhs callee args r u).print = (lhsText lhs ++ callee.data) ++
      '(' :: (args.data ++ ")".data ++ returnText r u ++ "];".data) := by
    simp [Terminator.print]
  have hhead : '(' ∉ lhsText lhs ++ callee.data := by simp [hL (c := '(') (by decide) (by decide), hcpar]
  have htail : '(' ∉ args.data ++ ")".data ++ returnText r u ++ "];".data := by
    simp [hapar0, not_mem_returnText hr hu (c := '(') (by decide) (by decide)]
  have hlast : (lhsText lhs ++ callee.data).getLast?.all (fun c => !isPySpace c) = true := by
    rw [List.getLast?_append_of_ne_nil _ hc]
    exact hctrim.2
  have hkw : ∀ {s : List Char}, ' ' ∉ s → ¬s <:+ callee.data → ¬s <:+ lhsText lhs ++ callee.data :=
    fun hs hn h => hn (suffix_of_suffix_append h fun c hc => lhsText_getLast lhs c hc ▸ hs)
  have hdrop : search dropAt (Terminator.call lhs callee args r u).print = none := by
    rw [hline]
    exact search_eq_none_of_paren dropAt_paren hhead htail hlast (hkw (by decide) hcdrop)
  have hsw : search switchAt (Terminator.call lhs callee args r u).print = none := by
    rw [hline]
    exact search_eq_none_of_paren switchAt_paren hhead htail hlast (hkw (by decide) hcsw)
  have hcall : callAt (Terminator.call lhs callee args r u).print =
      some ⟨lhs.map String.data, callee.data, args.data, num r, u.map num⟩ := by
    cases lhs with
    | none =>
      rw [callAt_of_not_mem (by simp [Terminator.print, lhsText, hceq, haeq,
        not_mem_returnText hr hu (c := '=') (by decide) (by decide)])]
      simp [Terminator.print, lhsText, noneOf1_append hc hcpar, callTail, lit_eq_ite,
        takeWhile_ne_append hapar, dropWhile_ne_append hapar, returnClause_returnText hr hu]
    | some w =>
      have hword : ∀ rest, word1 (w.data ++ ' ' :: rest) = some (w.data, ' ' :: rest) := fun _ =>
        run1_append (hlhs w rfl).1 (hlhs w rfl).2 rfl
      simp [Terminator.print, lhsText, callAt, hword, lit_eq_ite, spaces, isPySpace, spacesNoneOf1,
        dropWhile_space_append hctrim.1 _ hc, noneOf1_append hc hcpar, callTail,
        takeWhile_ne_append hapar, dropWhile_ne_append hapar, returnClause_returnText hr hu]
  rw [lineTerminator, hgoto, hret, hdrop, hsw, search_of_match hcall]
  simp [pyStrip_of_trimmed hctrim, pyStrip_of_trimmed hatrim, (num_spec hr).2.2,
    digitsValue_num_option hu, show String.mk ∘ String.data = id from rfl]

/-- A printable terminator reads back from its line. -/
theorem lineTerminator_print : ∀ {t : Terminator}, t.Printable → lineTerminator t.print = some t
  | .goto _, h => lineTerminator_goto h
  | .return, _ => lineTerminator_return
  | .switchInt _, h => lineTerminator_switchInt h.1 h.2
  | .drop _ _ _, h => lineTerminator_drop h
  | .call _ _ _ _ _, h => lineTerminator_call h

theorem isPySpace_of_isPyWord {c : Char} (h : isPyWord c = true) : isPySpace c = false := by
  simp only [isPyWord, Char.isAlphanum, Char.isAlpha, Char.isUpper, Char.isLower, Char.isDigit,
    Bool.or_eq_true, Bool.and_eq_true, decide_eq_true_eq, ge_iff_le, UInt32.le_def, BitVec.le_def] at h
  rcases h with ((⟨h1, h2⟩ | ⟨h1, h2⟩) | ⟨h1, h2⟩) | rfl
  rotate_left 3
  · rfl
  all_goals
    simp only [isPySpace, Char.toNat, UInt32.toNat, Bool.or_eq_false_iff, Bool.and_eq_false_iff,
      decide_eq_false_iff_not]
    simp only [UInt32.toBitVec_ofNat, BitVec.toNat_ofNat] at h1 h2
    omega

theorem Terminator.print_getLast (t : Terminator) : t.print.getLast? = some ';' := by
  cases t <;> simp only [Terminator.print, List.getLast?_append] <;> rfl

theorem Terminator.Printable.trimmed {t : Terminator} (h : t.Printable) : Trimmed t.print := by
  refine ⟨?_, by rw [t.print_getLast]; rfl⟩
  cases t with
  | call lhs callee args r u =>
    obtain ⟨hlhs, hc, hctrim, -⟩ := h
    cases lhs with
    | none => simpa [Terminator.print, lhsText, List.head?_eq_head hc] using hctrim.1
    | some w =>
      obtain ⟨c, cs, hw⟩ := List.exists_cons_of_ne_nil (hlhs w rfl).1
      simp [Terminator.print, lhsText, hw, isPySpace_of_isPyWord ((hlhs w rfl).2 c (by simp [hw]))]
  | _ => rfl

theorem Terminator.Printable.inline {t : Terminator} (h : t.Printable) : Inline t.print := by
  have key : ∀ c, c = '\n' ∨ c = '\x7b' ∨ c = '\x7d' → c ∉ t.print := by
    rintro c hc
    have hd : isPyDigit c = false := by rcases hc with rfl | rfl | rfl <;> rfl
    have hw : isPyWord c = false := by rcases hc with rfl | rfl | rfl <;> rfl
    have hin : ∀ {s : List Char}, Inline s → c ∉ s := fun hs => by
      rcases hc with rfl | rfl | rfl
      exacts [hs.1, hs.2.1, hs.2.2]
    have hlit : ∀ {s : List Char}, s ⊆ "goto->[]; bbreturnswitchInt(move_0)otherwise:,drop(call=unwind".data →
        c ∉ s := fun hs hcs => by
      have := hs hcs
      rcases hc with rfl | rfl | rfl <;> revert this <;> decide
    cases t with
    | drop l r u =>
      obtain ⟨-, -, hl, -, -, hr, hu⟩ := h
      have hR : c ∉ returnText r u := not_mem_returnText hr hu hd (hlit (by decide))
      simp only [Terminator.print, List.mem_append, not_or]
      and_intros
      all_goals first | exact hlit (by decide) | exact hin hl | exact hR
    | call lhs callee args r u =>
      obtain ⟨hlhs, -, -, hc, -, -, -, -, -, -, ha, -, -, -, -, hr, hu⟩ := h
      have hL : c ∉ lhsText lhs := fun hm =>
        (mem_lhsText hlhs hm).elim (fun h => by rw [hw] at h; cases h) (hlit (by decide))
      have hR : c ∉ returnText r u := not_mem_returnText hr hu hd (hlit (by decide))
      simp only [Terminator.print, List.mem_append, not_or]
      and_intros
      all_goals first | exact hlit (by decide) | exact hin hc | exact hin ha | exact hL | exact hR
    | goto t =>
      simp only [Terminator.print, List.mem_append, not_or]
      exact ⟨⟨hlit (by decide), not_mem_num h hd⟩, hlit (by decide)⟩
    | «return» => exact hlit (by decide)
    | switchInt ts =>
      simp only [Terminator.print, List.mem_append, not_or]
      exact ⟨⟨hlit (by decide), not_mem_armsText h.2 hd (hlit (by decide)) 0⟩, hlit (by decide)⟩
  exact ⟨key _ (.inl rfl), key _ (.inr (.inl rfl)), key _ (.inr (.inr rfl))⟩

end Mir2Pnml
