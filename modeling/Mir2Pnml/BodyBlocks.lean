import Mir2Pnml.Parser

/-! # A body as a sequence of blocks

Which lines are locals, which are a block's lines and where a block ends is decided by the
lines alone: the loop never reads its tables to decide it. The tables change only at a
block's lines (`ref_to_base`) and at its end (the record and the guard binding). So the
tables of a parsed body are a fold, over the blocks the scan reads in order, of one step that
enters a block's reference assignments and then ends it (`FnText.parse_tables`).
`FnText.blocksRead` lists those blocks with all their lines; the records' `statements` drop
the last one.
-/
namespace Mir2Pnml

/-- The three tables of a body. -/
structure Tables where
  refToBase : List (String × String)
  basicBlocks : List BasicBlock
  guardToMutexKey : List (String × String)

/-- The LHS of a block's call terminator. -/
def BasicBlock.callLhs (bb : BasicBlock) : Option String := bb.terminator.bind Terminator.callLhs

namespace Tables

def empty : Tables := ⟨[], [], []⟩

/-- Reading a whole block: its lines enter `ref_to_base`, then it ends. -/
def readBlock (T : Tables) (ob : OpenBlock) : Tables :=
  let refs := ob.lines.foldl refLine T.refToBase
  ⟨refs, T.basicBlocks ++ [BodyState.blockRecord ob],
    ((findTerminator ob.lines).map (bindGuard refs T.guardToMutexKey)).getD T.guardToMutexKey⟩

variable (T : Tables) (ob : OpenBlock) (obs : List OpenBlock)

@[simp] theorem readBlock_refToBase : (T.readBlock ob).refToBase = ob.lines.foldl refLine T.refToBase :=
  rfl

@[simp] theorem readBlock_basicBlocks :
    (T.readBlock ob).basicBlocks = T.basicBlocks ++ [BodyState.blockRecord ob] := rfl

theorem readBlock_guardToMutexKey :
    (T.readBlock ob).guardToMutexKey = ((findTerminator ob.lines).map
      (bindGuard (ob.lines.foldl refLine T.refToBase) T.guardToMutexKey)).getD T.guardToMutexKey :=
  rfl

theorem foldl_readBlock_basicBlocks :
    (obs.foldl readBlock T).basicBlocks = T.basicBlocks ++ obs.map BodyState.blockRecord := by
  induction obs generalizing T with
  | nil => simp
  | cons ob obs ih => simp [ih]

theorem foldl_readBlock_refToBase :
    (obs.foldl readBlock T).refToBase = (obs.flatMap (·.lines)).foldl refLine T.refToBase := by
  induction obs generalizing T with
  | nil => rfl
  | cons ob obs ih => simp [ih, List.foldl_append]

/-- The stores a scan makes into `guard_to_mutex_key` while it reads `obs` from `T`: at each
block's end, the binding of its terminator, with the tables as they stand then. -/
def guardStores : List OpenBlock → Tables → List (String × String)
  | [], _ => []
  | ob :: obs, T =>
    ((findTerminator ob.lines).bind
        (guardBinding (ob.lines.foldl refLine T.refToBase) T.guardToMutexKey)).toList ++
      guardStores obs (T.readBlock ob)

theorem foldl_refLine_eq (L : List (List Char)) (d : List (String × String)) :
    L.foldl refLine d = (L.filterMap refAssignment).foldl (fun d p => dictSet d p.1 p.2) d := by
  induction L generalizing d with
  | nil => rfl
  | cons bl L ih =>
    rw [List.foldl_cons, ih, List.filterMap_cons, refLine]
    cases refAssignment bl <;> rfl

theorem foldl_readBlock_guardToMutexKey :
    (obs.foldl readBlock T).guardToMutexKey =
      (guardStores obs T).foldl (fun d p => dictSet d p.1 p.2) T.guardToMutexKey := by
  induction obs generalizing T with
  | nil => rfl
  | cons ob obs ih =>
    rw [List.foldl_cons, ih, guardStores, List.foldl_append, readBlock_guardToMutexKey]
    congr 1
    cases findTerminator ob.lines with
    | none => rfl
    | some t =>
      simp only [Option.map_some', Option.getD_some, Option.some_bind, bindGuard]
      split <;> simp_all

variable {T ob obs}

theorem lookup_readBlock_of_ne {x : String} (h : (BodyState.blockRecord ob).callLhs ≠ some x) :
    (T.readBlock ob).guardToMutexKey.lookup x = T.guardToMutexKey.lookup x := by
  rw [readBlock_guardToMutexKey]
  cases ht : findTerminator ob.lines with
  | none => rfl
  | some t =>
    exact lookup_bindGuard_of_ne fun hx => h (by
      simp only [BasicBlock.callLhs, BodyState.blockRecord, ht, Option.some_bind, hx])

theorem lookup_foldl_readBlock_of_ne {x : String}
    (h : ∀ ob ∈ obs, (BodyState.blockRecord ob).callLhs ≠ some x) :
    (obs.foldl readBlock T).guardToMutexKey.lookup x = T.guardToMutexKey.lookup x := by
  induction obs generalizing T with
  | nil => rfl
  | cons ob obs ih =>
    rw [List.foldl_cons, ih fun ob' h' => h ob' (List.mem_cons_of_mem _ h'),
      lookup_readBlock_of_ne (h ob (List.mem_cons_self _ _))]

theorem lookup_readBlock_cases {x k : String}
    (h : (T.readBlock ob).guardToMutexKey.lookup x = some k) :
    T.guardToMutexKey.lookup x = some k ∨ ∃ t, (BodyState.blockRecord ob).terminator = some t ∧
      guardBinding (ob.lines.foldl refLine T.refToBase) T.guardToMutexKey t = some (x, k) := by
  rw [readBlock_guardToMutexKey] at h
  cases ht : findTerminator ob.lines with
  | none => rw [ht] at h; exact .inl h
  | some t =>
    rw [ht] at h
    exact (lookup_bindGuard_cases h).imp_right fun hb => ⟨t, ht, hb⟩

theorem lookup_readBlock_of_binding {x k : String} {t : Terminator}
    (ht : (BodyState.blockRecord ob).terminator = some t)
    (hb : guardBinding (ob.lines.foldl refLine T.refToBase) T.guardToMutexKey t = some (x, k)) :
    (T.readBlock ob).guardToMutexKey.lookup x = some k := by
  rw [readBlock_guardToMutexKey, show findTerminator ob.lines = some t from ht]
  exact lookup_bindGuard_of_binding hb

end Tables

namespace BodyState

def tables (st : BodyState) : Tables := ⟨st.refToBase, st.basicBlocks, st.guardToMutexKey⟩

/-- The block line `ln` ends, if any. -/
def endedBy (st : BodyState) (ln : List Char) : List OpenBlock :=
  match st.current with
  | some ob =>
    if (Pattern.bbHeaderAt (pyStrip ln)).isSome || pyStrip ln = "\x7d".data then [ob] else []
  | none => []

/-- The blocks a scan from `st` reads to their end, in order, with all their lines. -/
def blocksRead (fnStartLine : Nat) : BodyState → Nat → List (List Char) → List OpenBlock
  | st, _, [] => st.current.toList
  | st, i, ln :: lns =>
    st.endedBy ln ++ blocksRead fnStartLine (st.step fnStartLine i ln) (i + 1) lns

/-- `st` is `T` with the lines of its open block entered in `ref_to_base`. -/
def Extends (st : BodyState) (T : Tables) : Prop :=
  st.refToBase = ((st.current.map (·.lines)).getD []).foldl refLine T.refToBase ∧
    st.basicBlocks = T.basicBlocks ∧ st.guardToMutexKey = T.guardToMutexKey

variable {st : BodyState} {T : Tables} {fnStartLine i : Nat} {ln : List Char}

theorem step_of_none (hc : st.current = none) :
    st.endedBy ln = [] ∧ st.step fnStartLine i ln = st.outer fnStartLine i ln := by
  simp [endedBy, step, hc]

theorem step_of_some {ob : OpenBlock} (hc : st.current = some ob) :
    ((Pattern.bbHeaderAt (pyStrip ln)).isSome = true ∧ st.endedBy ln = [ob] ∧
        st.step fnStartLine i ln = (st.closeBlock ob).outer fnStartLine i ln) ∨
      ((Pattern.bbHeaderAt (pyStrip ln)).isSome = false ∧ pyStrip ln = "\x7d".data ∧
        st.endedBy ln = [ob] ∧ st.step fnStartLine i ln = st.closeBlock ob) ∨
      ((Pattern.bbHeaderAt (pyStrip ln)).isSome = false ∧ pyStrip ln ≠ "\x7d".data ∧
        st.endedBy ln = [] ∧
        st.step fnStartLine i ln = { st with
          current := some { ob with lines := ob.lines ++ [ln] }
          refToBase := refLine st.refToBase ln }) := by
  simp only [endedBy, step, hc]
  by_cases hh : (Pattern.bbHeaderAt (pyStrip ln)).isSome = true
  · exact .inl ⟨hh, by rw [if_pos (by rw [hh]; rfl)], if_pos hh⟩
  · have hf : (Pattern.bbHeaderAt (pyStrip ln)).isSome = false := by simpa using hh
    by_cases hr : pyStrip ln = "\x7d".data
    · exact .inr (.inl ⟨hf, hr, by rw [if_pos (by rw [hf, hr]; rfl)],
        by rw [if_neg hh, if_pos hr]⟩)
    · exact .inr (.inr ⟨hf, hr, by rw [if_neg (by rw [hf]; simpa using hr)],
        by rw [if_neg hh, if_neg hr]⟩)

theorem Extends.tables_eq (h : st.Extends T) (hc : st.current = none) : st.tables = T := by
  obtain ⟨h1, h2, h3⟩ := h
  rw [hc] at h1
  cases T
  simp only [tables, h1, h2, h3, Option.map_none', Option.getD_none, List.foldl_nil]

/-- Outside a block a line touches only the locals, and may open a block with no lines. -/
theorem outer_spec (hc : st.current = none) :
    (st.outer fnStartLine i ln).tables = st.tables ∧ ((st.outer fnStartLine i ln).current = none ∨
      ∃ ob, (st.outer fnStartLine i ln).current = some ob ∧ ob.lines = []) := by
  unfold outer
  dsimp only
  split_ifs <;> (repeat' split) <;> simp [hc, tables]

theorem outer_extends (h : st.Extends T) (hc : st.current = none) :
    (st.outer fnStartLine i ln).Extends T := by
  obtain ⟨ht, hc'⟩ := @outer_spec st fnStartLine i ln hc
  rw [h.tables_eq hc] at ht
  refine ⟨?_, congrArg Tables.basicBlocks ht, congrArg Tables.guardToMutexKey ht⟩
  rw [show (st.outer fnStartLine i ln).refToBase = T.refToBase from congrArg Tables.refToBase ht]
  rcases hc' with hc' | ⟨ob, hc', hl⟩
  · simp [hc']
  · simp [hc', hl]

theorem closeBlock_extends {ob : OpenBlock} (h : st.Extends T) (hc : st.current = some ob) :
    (st.closeBlock ob).Extends (T.readBlock ob) := by
  obtain ⟨h1, h2, h3⟩ := h
  rw [hc] at h1
  exact ⟨by simpa [closeBlock] using h1, by simp [closeBlock, h2],
    by simp [closeBlock, h1, h3, Tables.readBlock]⟩

theorem step_extends (h : st.Extends T) :
    (st.step fnStartLine i ln).Extends ((st.endedBy ln).foldl Tables.readBlock T) := by
  cases hc : st.current with
  | none =>
    obtain ⟨he, hs⟩ := @step_of_none st fnStartLine i ln hc
    rw [he, hs]
    exact outer_extends h hc
  | some ob =>
    rcases @step_of_some st fnStartLine i ln ob hc with
      ⟨-, he, hs⟩ | ⟨-, -, he, hs⟩ | ⟨-, -, he, hs⟩
    · rw [he, hs]
      exact outer_extends (closeBlock_extends h hc) rfl
    · rw [he, hs]
      exact closeBlock_extends h hc
    · rw [he, hs]
      obtain ⟨h1, h2, h3⟩ := h
      rw [hc] at h1
      exact ⟨by simp [h1, List.foldl_append], h2, h3⟩

/-- The tables at the end of a scan are the fold of `readBlock` over the blocks it reads. -/
theorem scan_finish_tables (lns : List (List Char)) (h : st.Extends T) :
    ((st.scan fnStartLine i lns).finish).tables = (st.blocksRead fnStartLine i lns).foldl Tables.readBlock T := by
  induction lns generalizing st i T with
  | nil =>
    simp only [scan, blocksRead, finish]
    split
    · rename_i ob hc
      rw [hc]
      exact (closeBlock_extends h hc).tables_eq rfl
    · rename_i hc
      rw [hc]
      exact h.tables_eq hc
  | cons ln lns ih =>
    rw [scan, blocksRead, List.foldl_append]
    exact ih (step_extends h)

end BodyState

/-- The blocks the scan of a function's body reads, in order, with all their lines. -/
def FnText.blocksRead (t : FnText) : List OpenBlock :=
  BodyState.init.blocksRead t.startLine 0 (splitLines t.body)

/-- The block lines of a function: every line the inner loop read. -/
def FnText.blockLines (t : FnText) : List (List Char) := t.blocksRead.flatMap (·.lines)

namespace FnText
variable (t : FnText)

theorem parse_tables :
    Tables.mk t.parse.refToBase t.parse.basicBlocks t.parse.guardToMutexKey =
      t.blocksRead.foldl Tables.readBlock Tables.empty :=
  BodyState.scan_finish_tables _ ⟨rfl, rfl, rfl⟩

theorem parse_basicBlocks : t.parse.basicBlocks = t.blocksRead.map BodyState.blockRecord := by
  have := congrArg Tables.basicBlocks t.parse_tables
  rw [Tables.foldl_readBlock_basicBlocks] at this
  exact this

theorem parse_refToBase : t.parse.refToBase = t.blockLines.foldl refLine [] := by
  have := congrArg Tables.refToBase t.parse_tables
  rw [Tables.foldl_readBlock_refToBase] at this
  exact this

theorem parse_guardToMutexKey :
    t.parse.guardToMutexKey = (t.blocksRead.foldl Tables.readBlock Tables.empty).guardToMutexKey :=
  congrArg Tables.guardToMutexKey t.parse_tables

end FnText

/-! ## The blocks, read off the lines

A second account of the blocks, from the lines alone: a block begins at every header line
except one that comes before the first block and matches the `let` pattern, and holds the
lines after its header up to the next header or lone `}`. The scan reads exactly these
blocks (`blocksRead_eq_headerBlocks`). -/

/-- A line whose stripped text begins with a block header. -/
def isHeaderLine (ln : List Char) : Bool := (Pattern.bbHeaderAt (pyStrip ln)).isSome

/-- A line that is a lone `}`. -/
def isCloseLine (ln : List Char) : Bool := pyStrip ln = "\x7d".data

/-- A line that neither begins a block nor ends one. -/
def isBodyLine (ln : List Char) : Bool := !isHeaderLine ln && !isCloseLine ln

/-- The lines of a block whose header is followed by `lns`: up to the next header or lone `}`. -/
def blockBody (lns : List (List Char)) : List (List Char) := lns.takeWhile isBodyLine

theorem blockBody_cons_of_body {ln : List Char} {lns : List (List Char)} (h : isBodyLine ln = true) :
    blockBody (ln :: lns) = ln :: blockBody lns :=
  List.takeWhile_cons_of_pos h

theorem blockBody_cons_of_end {ln : List Char} {lns : List (List Char)} (h : ¬isBodyLine ln = true) :
    blockBody (ln :: lns) = [] :=
  List.takeWhile_cons_of_neg h

/-- The block line `i` begins, with no lines yet: a header line, unless no block has begun
(`seen` is false) and the line matches the `let` pattern. -/
def headerOpen (fnStartLine : Nat) (seen : Bool) (i : Nat) (ln : List Char) : Option OpenBlock :=
  match Pattern.bbHeaderAt (pyStrip ln) with
  | some k =>
    if seen || (Pattern.search Pattern.letAt (pyStrip ln)).isNone then
      some ⟨digitsValue k, pyContains ln "(cleanup)".data, (fnStartLine + i + 1 : Nat), []⟩
    else none
  | none => none

/-- The blocks of lines `i, i + 1, ...`, each with the lines that follow its header. -/
def headerBlocks (fnStartLine : Nat) : Bool → Nat → List (List Char) → List OpenBlock
  | _, _, [] => []
  | seen, i, ln :: lns =>
    match headerOpen fnStartLine seen i ln with
    | some ob => { ob with lines := blockBody lns } :: headerBlocks fnStartLine true (i + 1) lns
    | none => headerBlocks fnStartLine seen (i + 1) lns

section HeaderBlocks
variable {fnStartLine i : Nat} {seen : Bool} {ln : List Char}

theorem headerOpen_of_not_header (h : isHeaderLine ln = false) :
    headerOpen fnStartLine seen i ln = none := by
  unfold headerOpen
  cases hk : Pattern.bbHeaderAt (pyStrip ln) with
  | none => rfl
  | some k => simp [isHeaderLine, hk] at h

theorem headerOpen_lines {ob : OpenBlock} (h : headerOpen fnStartLine seen i ln = some ob) :
    ob.lines = [] := by
  unfold headerOpen at h
  split at h
  · split_ifs at h
    cases h
    rfl
  · cases h

theorem headerBlocks_append {xs : List (List Char)} (hx : ∀ x ∈ xs, isHeaderLine x = false)
    (ys : List (List Char)) :
    headerBlocks fnStartLine seen i (xs ++ ys) = headerBlocks fnStartLine seen (i + xs.length) ys := by
  induction xs generalizing i with
  | nil => rfl
  | cons x xs ih =>
    rw [List.cons_append, headerBlocks, headerOpen_of_not_header (hx x (List.mem_cons_self _ _)),
      ih fun y hy => hx y (List.mem_cons_of_mem _ hy), List.length_cons, Nat.add_right_comm,
      Nat.add_assoc]

theorem headerBlocks_blockBody (lns : List (List Char)) :
    headerBlocks fnStartLine seen i lns =
      headerBlocks fnStartLine seen (i + (blockBody lns).length) (lns.dropWhile isBodyLine) := by
  conv_lhs => rw [← List.takeWhile_append_dropWhile isBodyLine lns]
  refine headerBlocks_append (fun x hx => ?_) _
  have := List.mem_takeWhile_imp hx
  simp only [isBodyLine, Bool.and_eq_true, Bool.not_eq_true'] at this
  exact this.1

end HeaderBlocks

namespace BodyState
variable {fnStartLine i : Nat} {ln : List Char}

theorem outer_current {st : BodyState} (hc : st.current = none) :
    (st.outer fnStartLine i ln).current = headerOpen fnStartLine st.seenBb i ln ∧
      (st.outer fnStartLine i ln).seenBb =
        (st.seenBb || (headerOpen fnStartLine st.seenBb i ln).isSome) := by
  unfold outer headerOpen
  dsimp only
  by_cases hsd : (Pattern.scopeAt (pyStrip ln) || Pattern.debugAt (pyStrip ln)) = true
  · have hh : Pattern.bbHeaderAt (pyStrip ln) = none := by
      cases hk : Pattern.bbHeaderAt (pyStrip ln) with
      | none => rfl
      | some k =>
        obtain ⟨h1, h2⟩ := Pattern.bbHeaderAt_not_scope hk
        rw [h1, h2] at hsd
        cases hsd
    simp [hsd, hh, hc]
  · rw [if_neg hsd]
    cases hs : st.seenBb <;> cases hl : Pattern.search Pattern.letAt (pyStrip ln) <;>
      cases hk : Pattern.bbHeaderAt (pyStrip ln) <;> simp [hc, hs]

/-- The scan reads the blocks `headerBlocks` gives: outside a block those of the remaining
lines, and inside one the open block with the rest of its lines, then those after them. -/
theorem blocksRead_eq_headerBlocks (lns : List (List Char)) :
    ∀ (st : BodyState) (i : Nat),
      (st.current = none → st.blocksRead fnStartLine i lns = headerBlocks fnStartLine st.seenBb i lns) ∧
      (∀ ob, st.current = some ob → st.seenBb = true →
        st.blocksRead fnStartLine i lns = { ob with lines := ob.lines ++ blockBody lns } ::
          headerBlocks fnStartLine true (i + (blockBody lns).length) (lns.dropWhile isBodyLine)) := by
  induction lns with
  | nil =>
    intro st i
    refine ⟨fun hc => by simp [blocksRead, hc, headerBlocks], fun ob hc _ => ?_⟩
    simp [blocksRead, hc, blockBody, headerBlocks]
  | cons ln lns ih =>
    -- outside a block: the outer loop begins the block `headerOpen` gives, or none
    have hnone : ∀ (st : BodyState) (i : Nat), st.current = none →
        st.blocksRead fnStartLine i (ln :: lns) = headerBlocks fnStartLine st.seenBb i (ln :: lns) := by
      intro st i hc
      obtain ⟨hcur, hseen⟩ := @outer_current fnStartLine i ln st hc
      obtain ⟨he, hs⟩ := @step_of_none st fnStartLine i ln hc
      rw [blocksRead, he, hs, List.nil_append, headerBlocks]
      cases hopen : headerOpen fnStartLine st.seenBb i ln with
      | none =>
        rw [hopen] at hcur hseen
        rw [(ih _ _).1 hcur, hseen, Option.isSome_none, Bool.or_false]
      | some ob =>
        rw [hopen] at hcur hseen
        rw [(ih _ _).2 ob hcur (by rw [hseen]; simp), headerOpen_lines hopen, List.nil_append,
          headerBlocks_blockBody lns]
    refine fun st i => ⟨hnone st i, fun ob hc hs => ?_⟩
    have hcs : (st.closeBlock ob).seenBb = true := hs
    rcases @step_of_some st fnStartLine i ln ob hc with
      ⟨hh, he, hst⟩ | ⟨hh, hr, he, hst⟩ | ⟨hh, hr, he, hst⟩
    · -- a header ends the block, and the outer loop reads it again
      have hb : ¬isBodyLine ln = true := by simp [isBodyLine, isHeaderLine, hh]
      have hnext := hnone (st.closeBlock ob) i rfl
      obtain ⟨he', hst'⟩ := @step_of_none (st.closeBlock ob) fnStartLine i ln rfl
      rw [blocksRead, he', hst', List.nil_append, hcs] at hnext
      rw [blocksRead, he, hst, hnext, blockBody_cons_of_end hb, List.dropWhile_cons_of_neg hb,
        List.append_nil]
      rfl
    · -- a lone brace ends the block
      have hb : ¬isBodyLine ln = true := by simp [isBodyLine, isCloseLine, hr]
      rw [blocksRead, he, hst, (ih _ _).1 rfl, hcs, blockBody_cons_of_end hb,
        List.dropWhile_cons_of_neg hb, headerBlocks, headerOpen_of_not_header hh, List.append_nil]
      rfl
    · -- a line of the block
      have hb : isBodyLine ln = true := by simp [isBodyLine, isHeaderLine, isCloseLine, hh, hr]
      have hnext := (ih { st with
        current := some { ob with lines := ob.lines ++ [ln] }
        refToBase := refLine st.refToBase ln } (i + 1)).2 _ rfl hs
      rw [blocksRead, he, hst, List.nil_append, hnext, blockBody_cons_of_body hb,
        List.dropWhile_cons_of_pos hb, List.length_cons, Nat.add_right_comm, Nat.add_assoc]
      simp only [List.append_assoc, List.singleton_append]

end BodyState

/-- `_parse_function_body` records one block per header line `headerOpen` counts, in body order,
with the lines up to the next header or lone `}`; a block's terminator is the one of the last
of those lines that holds one, and none when no line does. -/
theorem parseFunctionBody_basicBlocks (fnName : String) (body : List Char) (fnStartLine : Nat) :
    (parseFunctionBody fnName body fnStartLine).basicBlocks =
        (headerBlocks fnStartLine false 0 (splitLines body)).map BodyState.blockRecord ∧
      ∀ ob ∈ headerBlocks fnStartLine false 0 (splitLines body),
        ((BodyState.blockRecord ob).terminator = none ∧
            ∀ l ∈ ob.lines, lineTerminator (pyStrip l) = none) ∨
          ∃ pre l post t, ob.lines = pre ++ l :: post ∧ (BodyState.blockRecord ob).terminator = some t ∧
            lineTerminator (pyStrip l) = some t ∧ ∀ l' ∈ post, lineTerminator (pyStrip l') = none :=
  ⟨(FnText.parse_basicBlocks ⟨fnName, body, fnStartLine⟩).trans
      (congrArg _ ((BodyState.blocksRead_eq_headerBlocks _ _ 0).1 rfl)),
    fun ob _ => findTerminator_cases ob.lines⟩

/-! ## Locals -/

/-- The local a line declares while no block has begun: none for scope and debug lines. -/
def localOf (ln : List Char) : Option LocalDecl :=
  if Pattern.scopeAt (pyStrip ln) || Pattern.debugAt (pyStrip ln) then none
  else (Pattern.search Pattern.letAt (pyStrip ln)).map fun c =>
    ⟨String.mk c.name, String.mk (pyStrip c.ty), c.isMut⟩

/-- The line that begins the first block: a header that does not match the `let` pattern. -/
def opensBlock (ln : List Char) : Bool :=
  isHeaderLine ln && (Pattern.search Pattern.letAt (pyStrip ln)).isNone

namespace BodyState
variable {fnStartLine i : Nat} {ln : List Char} {st : BodyState}

theorem closeBlock_locals (ob : OpenBlock) : (st.closeBlock ob).locals = st.locals := rfl
theorem closeBlock_seenBb (ob : OpenBlock) : (st.closeBlock ob).seenBb = st.seenBb := rfl

theorem outer_of_seen (hs : st.seenBb = true) :
    (st.outer fnStartLine i ln).locals = st.locals ∧ (st.outer fnStartLine i ln).seenBb = true := by
  unfold outer
  dsimp only
  split_ifs
  · exact ⟨rfl, hs⟩
  · dsimp only
    split
    · exact ⟨rfl, rfl⟩
    · exact ⟨rfl, hs⟩

theorem step_of_seen (hs : st.seenBb = true) :
    (st.step fnStartLine i ln).locals = st.locals ∧ (st.step fnStartLine i ln).seenBb = true := by
  unfold step
  split
  · exact outer_of_seen hs
  · rename_i ob _
    split_ifs
    · exact @outer_of_seen fnStartLine i ln (st.closeBlock ob) hs
    · exact ⟨rfl, hs⟩
    · exact ⟨rfl, hs⟩

theorem outer_of_not_seen (hs : st.seenBb = false) (hc : st.current = none) :
    (opensBlock ln = false ∧ st.outer fnStartLine i ln =
        { st with locals := st.locals ++ (localOf ln).toList }) ∨
      (opensBlock ln = true ∧ (st.outer fnStartLine i ln).locals = st.locals ∧
        (st.outer fnStartLine i ln).seenBb = true) := by
  obtain ⟨locals, refToBase, basicBlocks, guards, seen, current⟩ := st
  simp only at hs hc
  subst hs hc
  unfold outer opensBlock localOf isHeaderLine
  dsimp only
  by_cases hsd : (Pattern.scopeAt (pyStrip ln) || Pattern.debugAt (pyStrip ln)) = true
  · have hh : Pattern.bbHeaderAt (pyStrip ln) = none := by
      cases hk : Pattern.bbHeaderAt (pyStrip ln) with
      | none => rfl
      | some k =>
        obtain ⟨h1, h2⟩ := Pattern.bbHeaderAt_not_scope hk
        rw [h1, h2] at hsd
        cases hsd
    exact .inl ⟨by simp [hh], by simp [hsd]⟩
  · rw [if_neg hsd, if_neg hsd]
    cases hl : Pattern.search Pattern.letAt (pyStrip ln) <;>
      cases hk : Pattern.bbHeaderAt (pyStrip ln) <;> simp

theorem scan_locals_of_seen (hs : st.seenBb = true) (lns : List (List Char)) :
    (st.scan fnStartLine i lns).locals = st.locals := by
  induction lns generalizing st i with
  | nil => rfl
  | cons ln lns ih =>
    obtain ⟨hl, hs'⟩ := @step_of_seen fnStartLine i ln st hs
    rw [scan, ih hs', hl]

theorem finish_locals : st.finish.locals = st.locals := by
  unfold finish
  split <;> rfl

theorem scan_locals_of_not_seen (lns : List (List Char)) (hs : st.seenBb = false)
    (hc : st.current = none) :
    (st.scan fnStartLine i lns).locals =
      st.locals ++ (lns.takeWhile fun ln => !opensBlock ln).filterMap localOf := by
  induction lns generalizing st i with
  | nil => simp [scan]
  | cons ln lns ih =>
    rw [scan, (step_of_none hc).2]
    rcases @outer_of_not_seen fnStartLine i ln st hs hc with ⟨ho, hst⟩ | ⟨ho, hl, hs'⟩
    · rw [hst, ih, List.takeWhile_cons_of_pos (by simp [ho])]
      · cases h : localOf ln <;> simp [List.filterMap_cons, h]
      · exact hs
      · exact hc
    · rw [scan_locals_of_seen hs', hl, List.takeWhile_cons_of_neg (by simp [ho])]
      simp

end BodyState

/-- `_parse_function_body` takes as locals the `let` declarations of the lines before the first
block begins, skipping scope and debug lines; a `let` line after that is never a local. -/
theorem parseFunctionBody_locals (fnName : String) (body : List Char) (fnStartLine : Nat) :
    (parseFunctionBody fnName body fnStartLine).locals =
      ((splitLines body).takeWhile fun ln => !opensBlock ln).filterMap localOf := by
  simp only [parseFunctionBody]
  rw [BodyState.finish_locals, BodyState.scan_locals_of_not_seen _ rfl rfl]
  rfl

end Mir2Pnml
